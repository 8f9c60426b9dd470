import FastNet.GetPage.EndToEnd
import FastNet.GetPage.Judgement

/-! # The verdict on the responses of a server

What `verify_responses` counts on slots that each hold the response to some request,
not always the one of their own number.
-/
namespace FastNet.GetPage
variable {pageCount serverPages seed : ℕ} {strategy : FillingStrategy}

variable (pageCount serverPages strategy) in
/-- Each response is counted on the side the verifier says. -/
theorem verdict_frames (js : List ℕ) :
    (verdict pageCount strategy
        (js.map (EndToEnd.answerBytes pageCount serverPages strategy))).correctResponses =
        UInt32.ofNat (js.countP (fun j =>
          verifies pageCount strategy (Client.expected pageCount strategy serverPages j))) ∧
      (verdict pageCount strategy
        (js.map (EndToEnd.answerBytes pageCount serverPages strategy))).incorrectResponses =
        UInt32.ofNat (js.countP (fun j =>
          !verifies pageCount strategy (Client.expected pageCount strategy serverPages j))) := by
  have hframes : (js.map (EndToEnd.answerBytes pageCount serverPages strategy)).map
      (fun frame => some (GetPageResponse.ofBytes frame)) = (js.map (fun j =>
        Server.answer strategy serverPages (Client.query pageCount j))).map some := by
    simp only [List.map_map]
    refine List.map_congr_left fun j _ => ?_
    simp [EndToEnd.answerBytes,GetPageResponse.ofBytes_bytes]
  have hhost : (js.map (fun j => Server.answer strategy serverPages
      (Client.query pageCount j))).map GetPageResponse.toHostOrder =
        js.map (Client.expected pageCount strategy serverPages) := by
    rw [List.map_map]
    rfl
  unfold verdict verifyResponses
  rw [hframes,verifyResponses_eq,hhost,List.countP_map,List.countP_map]
  exact ⟨UInt32.zero_add _,UInt32.zero_add _⟩

/-- The verifier accepts the response for any page that the client asks for and the
server has, whatever the two are filled with. -/
theorem verifies_of_served (hpc : 0 < pageCount) (hserver : pageCount ≤ serverPages)
    (hpages : pageSize * serverPages < sizeMod) (j : ℕ) :
    verifies pageCount strategy (Client.expected pageCount strategy serverPages j) = true := by
  have hmod := Nat.mod_lt j hpc
  have hle := Nat.mod_le (j % pageCount) 4294967296
  have hpage : (Client.query pageCount j).pageNumber.toNat < pageCount := by
    simp only [Client.query,UInt32.toNat_ofNat']
    omega
  rw [verifies,verify_iff]
  unfold Client.expected Server.answer
  rw [if_neg (by omega)]
  simp only [GetPageResponse.toHostOrder,Server.responseHeader,
    GetPageResponseHeader.toHostOrder_toNetworkOrder]
  refine ⟨hpage,?_⟩
  intro k
  have hk := k.isLt
  have hindex : ((Client.query pageCount j).pageNumber.toNat * pageSize + k) % sizeMod =
      (Client.query pageCount j).pageNumber.toNat * pageSize + k := by
    apply Nat.mod_eq_of_lt
    unfold pageSize at hk hpages ⊢
    omega
  rw [hindex]
  simp

theorem query_page (hpc : 0 < pageCount) (hpc' : pageCount ≤ 4294967296) (j : ℕ) :
    (Client.query pageCount j).pageNumber.toNat = j % pageCount := by
  have hlt := Nat.mod_lt j hpc
  rw [Client.query,UInt32.toNat_ofNat']
  exact Nat.mod_eq_of_lt (by omega)

/-- The verifier accepts the response for a page the server has, and no other: an error
carries bytes that are in no page. -/
theorem verifies_expected (hpc : 0 < pageCount) (hpc' : pageCount ≤ 4294967296) (j : ℕ) :
    verifies pageCount (pseudoRandomFillingStrategy seed)
      (Client.expected pageCount (pseudoRandomFillingStrategy seed) serverPages j) =
        Client.served pageCount serverPages j := by
  have hpage := query_page hpc hpc' j
  have hlt := Nat.mod_lt j hpc
  rw [Bool.eq_iff_iff,verifies,verify_iff]
  unfold Client.expected Server.answer Client.served
  rw [hpage]
  by_cases h : j % pageCount < serverPages
  · rw [if_neg (by omega)]
    simp [GetPageResponse.toHostOrder,Server.responseHeader,hpage,hlt,h,
      pseudoRandomFillingStrategy]
  · rw [if_pos (by omega)]
    simp only [h,decide_false,Bool.false_eq_true,iff_false,not_and]
    intro _ hall
    have hbyte := hall ⟨0,by decide⟩
    simp [GetPageResponse.toHostOrder,Server.errorResponse,pseudoRandomFillingStrategy] at hbyte

/-- What `main` counts on responses that are all in their slots. -/
theorem verdict_answers (hpc : 0 < pageCount) (hpc' : pageCount ≤ 4294967296) (n : ℕ) :
    (verdict pageCount (pseudoRandomFillingStrategy seed) ((List.range n).map
        (EndToEnd.answerBytes pageCount serverPages
          (pseudoRandomFillingStrategy seed)))).correctResponses =
        UInt32.ofNat (EndToEnd.servedCount pageCount serverPages n) ∧
      (verdict pageCount (pseudoRandomFillingStrategy seed) ((List.range n).map
        (EndToEnd.answerBytes pageCount serverPages
          (pseudoRandomFillingStrategy seed)))).incorrectResponses =
        UInt32.ofNat (n - EndToEnd.servedCount pageCount serverPages n) := by
  obtain ⟨hcorrect,hincorrect⟩ := verdict_frames pageCount serverPages
    (pseudoRandomFillingStrategy seed) (List.range n)
  have hcount := List.length_eq_countP_add_countP (Client.served pageCount serverPages)
    (l := List.range n)
  have hnot : (fun j => decide ¬ Client.served pageCount serverPages j = true) =
      fun j => !Client.served pageCount serverPages j := by
    funext j
    cases Client.served pageCount serverPages j <;> rfl
  rw [List.length_range,hnot] at hcount
  simp only [verifies_expected hpc hpc'] at hcorrect hincorrect
  refine ⟨hcorrect,hincorrect.trans (congrArg UInt32.ofNat ?_)⟩
  unfold EndToEnd.servedCount
  omega

end FastNet.GetPage
