import FastNet.Foundation.Execution
import FastNet.GetPage.Client

/-! # How the two page clients judge responses

`verify_responses` of the io_uring client goes over a vector of responses and the
blocking client judges each response when it has read it. Both count in `uint32_t`;
only the blocking client looks at the status.
-/
namespace FastNet.GetPage
open Execution

section Verdicts
variable (pageCount : ℕ) (strategy : FillingStrategy)

/-- The responses that the loop has been through and the counters of the caller. -/
structure Verdict where
  responses : List (Option GetPageResponse)
  correctResponses : UInt32
  incorrectResponses : UInt32

/-- One pass of the loop of `verify_responses`; a null pointer is passed over. -/
def verifyResponse (v : Verdict) : Option GetPageResponse → Verdict
  | none => { v with responses := v.responses ++ [none] }
  | some response =>
    let response := response.toHostOrder
    let v := { v with responses := v.responses ++ [some response] }
    if ¬ verify pageCount strategy response.content response.header.pageNumber.toNat then
      { v with incorrectResponses := v.incorrectResponses + 1 }
    else { v with correctResponses := v.correctResponses + 1 }

def verifyResponses (responses : List (Option GetPageResponse))
    (correctResponses incorrectResponses : UInt32) : Verdict :=
  responses.foldl (verifyResponse pageCount strategy) ⟨[],correctResponses,incorrectResponses⟩

/-- The verdict of `main` on the response slots. -/
def verdict (frames : List (List UInt8)) : Verdict :=
  verifyResponses pageCount strategy
    (frames.map (fun frame => some (GetPageResponse.ofBytes frame))) 0 0

/-- A response as it lies in memory, converted to host order. -/
def decode (frame : List UInt8) : GetPageResponse := (GetPageResponse.ofBytes frame).toHostOrder

/-- The test of the io_uring client, on a response in host order. -/
def verifies (response : GetPageResponse) : Bool :=
  verify pageCount strategy response.content response.header.pageNumber.toNat

/-- The two tests of the blocking client, on a response in host order. -/
def accepts (response : GetPageResponse) : Bool :=
  decide (response.header.status = statusSuccess) && verifies pageCount strategy response

theorem verifyResponse_some (v : Verdict) (r : GetPageResponse) :
    verifyResponse pageCount strategy v (some r) =
      { responses := v.responses ++ [some r.toHostOrder]
        correctResponses := v.correctResponses +
          if verifies pageCount strategy r.toHostOrder then 1 else 0
        incorrectResponses := v.incorrectResponses +
          if verifies pageCount strategy r.toHostOrder then 0 else 1 } := by
  unfold verifyResponse verifies
  by_cases h : verify pageCount strategy r.toHostOrder.content
      r.toHostOrder.header.pageNumber.toNat = true
  · simp [h]
  · simp [h]

theorem verifyResponses_eq (rs : List GetPageResponse) (v : Verdict) :
    (rs.map some).foldl (verifyResponse pageCount strategy) v =
      { responses := v.responses ++ (rs.map GetPageResponse.toHostOrder).map some
        correctResponses := v.correctResponses + UInt32.ofNat
          ((rs.map GetPageResponse.toHostOrder).countP (verifies pageCount strategy))
        incorrectResponses := v.incorrectResponses + UInt32.ofNat
          ((rs.map GetPageResponse.toHostOrder).countP
            (fun r => !verifies pageCount strategy r)) } := by
  induction rs generalizing v with
  | nil => simp
  | cons r rs ih =>
    rw [List.map_cons,List.map_cons,List.foldl_cons,ih,verifyResponse_some,List.countP_cons,
      List.countP_cons]
    by_cases h : verifies pageCount strategy r.toHostOrder = true
    · simp [h,UInt32.ofNat_add,UInt32.add_assoc,UInt32.add_comm]
    · simp [h,UInt32.ofNat_add,UInt32.add_assoc,UInt32.add_comm]

end Verdicts

namespace Client
variable {numRequests pageCount : ℕ} {strategy : FillingStrategy} {s t : State}

section Counting

variable (pageCount strategy) in
theorem judge_counts (s : State) :
    (judge pageCount strategy s).correctResponses = s.correctResponses +
        (if accepts pageCount strategy (decode s.response) then 1 else 0) ∧
      (judge pageCount strategy s).incorrectResponses = s.incorrectResponses +
        (if accepts pageCount strategy (decode s.response) then 0 else 1) := by
  unfold judge accepts verifies decode
  dsimp only
  split
  · rename_i hstatus
    simp [hstatus]
  · rename_i hstatus
    rw [not_not] at hstatus
    split
    · rename_i hverify
      simp [hstatus,hverify]
    · rename_i hverify
      simp [hverify]

variable (pageCount strategy) in
/-- The counters are those of the responses decoded so far. -/
structure Counted (s : State) : Prop where
  correct : s.correctResponses = UInt32.ofNat (s.decoded.countP (accepts pageCount strategy))
  incorrect : s.incorrectResponses =
    UInt32.ofNat (s.decoded.countP (fun r => !accepts pageCount strategy r))
  decoded_le : s.decoded.length ≤ s.i
  i_lt : s.i < 2147483648

theorem Counted.next (h : Counted pageCount strategy s)
    (hstep : continueLoop numRequests s = .ok t) : Counted pageCount strategy t := by
  obtain ⟨hi,rfl⟩ := continueLoop_cases hstep
  exact ⟨h.correct,h.incorrect,h.decoded_le.trans (Nat.le_succ _),hi⟩

theorem Counted.judge (h : Counted pageCount strategy s)
    (hstep : continueLoop numRequests (judge pageCount strategy s) = .ok t) :
    Counted pageCount strategy t := by
  obtain ⟨hi,rfl⟩ := continueLoop_cases hstep
  obtain ⟨hcorrect,hincorrect⟩ := judge_counts pageCount strategy s
  have hdecoded : (Client.judge pageCount strategy s).decoded = s.decoded ++ [decode s.response] :=
    (judge_spec pageCount strategy s).2.1
  have hindex : (Client.judge pageCount strategy s).i = s.i := judge_i s
  -- From here on what is judged does not matter, only what it is counted as.
  generalize Client.judge pageCount strategy s = u at hi hcorrect hincorrect hdecoded hindex ⊢
  generalize decode s.response = r at hcorrect hincorrect hdecoded
  have hle := h.decoded_le
  constructor
  · change u.correctResponses = UInt32.ofNat (u.decoded.countP _)
    rw [hcorrect,hdecoded,h.correct,List.countP_append,List.countP_singleton,UInt32.ofNat_add]
    cases accepts pageCount strategy r <;> rfl
  · change u.incorrectResponses = UInt32.ofNat (u.decoded.countP _)
    rw [hincorrect,hdecoded,h.incorrect,List.countP_append,List.countP_singleton,UInt32.ofNat_add]
    cases accepts pageCount strategy r <;> rfl
  · change u.decoded.length ≤ u.i + 1
    rw [hdecoded,hindex,List.length_append,List.length_singleton]
    omega
  · exact hi

theorem Counted.afterReads (h : Counted pageCount strategy s) {totalRead : ℕ}
    (hstep : afterReads numRequests pageCount strategy s totalRead = .ok t) :
    Counted pageCount strategy t := by
  unfold Client.afterReads at hstep
  split at hstep
  · exact h.next hstep
  · exact h.judge hstep

theorem Counted.congr (h : Counted pageCount strategy s)
    (hcorrect : t.correctResponses = s.correctResponses)
    (hincorrect : t.incorrectResponses = s.incorrectResponses) (hdecoded : t.decoded = s.decoded)
    (hi : t.i = s.i) : Counted pageCount strategy t := by
  constructor
  · rw [hcorrect,hdecoded,h.correct]
  · rw [hincorrect,hdecoded,h.incorrect]
  · rw [hdecoded,hi]
    exact h.decoded_le
  · rw [hi]
    exact h.i_lt

theorem Counted.step (h : Counted pageCount strategy s) {e : Event}
    (hstep : step numRequests pageCount strategy s e = .ok t) : Counted pageCount strategy t := by
  cases e with
  | send sent =>
    obtain ⟨-,⟨-,rfl⟩ | ⟨-,hnext⟩⟩ := send_cases hstep
    · exact h.congr rfl rfl rfl rfl
    · exact h.next hnext
  | read r =>
    obtain ⟨totalRead,-,⟨-,hafter⟩ | ⟨-,-,rfl⟩ | ⟨-,-,hjudge⟩⟩ := read_cases hstep
    · exact h.afterReads hafter
    · exact h.congr rfl rfl rfl rfl
    · have hstored : Counted pageCount strategy
          { s with response := store s.response totalRead r.content } := h.congr rfl rfl rfl rfl
      exact hstored.judge hjudge

/-- After any run, failed sends and reads included. -/
theorem counted_of_run {es : List Event}
    (h : execute (step numRequests pageCount strategy) (start numRequests) es = .ok s) :
    Counted pageCount strategy s :=
  execute_invariant (fun _ _ _ hc hstep => hc.step hstep) h
    ⟨rfl,rfl,Nat.zero_le _,Nat.zero_lt_succ _⟩

end Counting

section Reading

/-- A request and the reads that bring the response to it. -/
def delivery (pieces : List (List UInt8)) : List Event :=
  .send (some sizeofRequest) :: pieces.map (fun bs => .read (.bytes bs))

/-- One response after the other. -/
def conversation (deliveries : List (List (List UInt8))) : List Event :=
  deliveries.flatMap delivery

variable {pieces : List (List UInt8)} {totalRead : ℕ}

/-- The reads of one response, by induction on what is still to come. -/
theorem decoded_reads (hp : s.phase = .reading totalRead)
    (hmemory : s.response.length = sizeofResponse)
    (htotal : totalRead + pieces.flatten.length = sizeofResponse) (hlt : totalRead < sizeofResponse)
    (hne : [] ∉ pieces)
    (h : execute (step numRequests pageCount strategy) s
      (pieces.map (fun bs => .read (.bytes bs))) = .ok t) :
    t.response.length = sizeofResponse ∧
      t.decoded = s.decoded ++ [decode (s.response.take totalRead ++ pieces.flatten)] := by
  induction pieces generalizing s totalRead with
  | nil =>
    simp at htotal
    omega
  | cons bs pieces ih =>
    obtain ⟨u,hu,h⟩ := execute_cons_ok.mp h
    rw [List.flatten_cons,List.length_append] at htotal
    rw [List.mem_cons,not_or] at hne
    have hfit : totalRead + bs.length ≤ s.response.length := by omega
    have htake := take_store hfit
    have hlength := length_store hfit
    obtain ⟨total,hp',hcase⟩ := read_cases hu
    rw [hp] at hp'
    cases hp'
    rcases hcase with ⟨hnil,-⟩ | ⟨-,hmore,rfl⟩ | ⟨-,hall,hjudge⟩
    · exact (hne.1 hnil.symm).elim
    · obtain ⟨hresponse,hdecoded⟩ := ih rfl (hlength.trans hmemory) (by
        change totalRead + bs.length + _ = _
        omega) hmore hne.2 h
      refine ⟨hresponse,hdecoded.trans ?_⟩
      change _ ++ [decode ((store s.response totalRead bs).take (totalRead + bs.length) ++ _)] = _
      rw [htake,List.flatten_cons,List.append_assoc]
    · dsimp only [ReadResult.content] at hall hjudge
      obtain rfl : pieces = [] := by
        cases pieces with
        | nil => rfl
        | cons piece pieces =>
          rw [List.flatten_cons,List.length_append] at htotal
          have hnil : piece = [] := List.eq_nil_of_length_eq_zero (by omega)
          exact (hne.2 (by simp [hnil])).elim
      cases h
      have hwhole : store s.response totalRead bs = s.response.take totalRead ++ bs := by
        rw [← htake,List.take_of_length_le (by omega)]
      rw [List.flatten_singleton,← hwhole]
      obtain ⟨-,rfl⟩ := continueLoop_cases hjudge
      obtain ⟨hresponse,hdecoded,-⟩ := judge_spec pageCount strategy
        { s with response := store s.response totalRead bs }
      generalize judge pageCount strategy { s with response := store s.response totalRead bs } = u
        at hresponse hdecoded ⊢
      exact ⟨hresponse,hdecoded⟩

theorem decoded_delivery (hmemory : s.response.length = sizeofResponse)
    (hsize : pieces.flatten.length = sizeofResponse) (hne : [] ∉ pieces)
    (h : execute (step numRequests pageCount strategy) s (delivery pieces) = .ok t) :
    t.response.length = sizeofResponse ∧ t.decoded = s.decoded ++ [decode pieces.flatten] := by
  obtain ⟨u,hu,h⟩ := execute_cons_ok.mp h
  obtain ⟨-,⟨-,rfl⟩ | ⟨hsent,-⟩⟩ := send_cases hu
  · have hreads := decoded_reads (s := { s with phase := .reading 0 }) rfl hmemory (by omega)
      (by decide) hne h
    rwa [List.take_zero,List.nil_append] at hreads
  · exact (hsent rfl).elim

theorem decoded_conversation {deliveries : List (List (List UInt8))}
    (hmemory : s.response.length = sizeofResponse)
    (hsize : ∀ pieces ∈ deliveries, pieces.flatten.length = sizeofResponse ∧ [] ∉ pieces)
    (h : execute (step numRequests pageCount strategy) s (conversation deliveries) = .ok t) :
    t.decoded = s.decoded ++ deliveries.map (fun pieces => decode pieces.flatten) := by
  induction deliveries generalizing s with
  | nil =>
    cases h
    simp
  | cons pieces deliveries ih =>
    obtain ⟨u,hu,h⟩ := execute_append_ok.mp h
    obtain ⟨hpieces,hne⟩ := hsize pieces List.mem_cons_self
    obtain ⟨hresponse,hdecoded⟩ := decoded_delivery hmemory hpieces hne hu
    rw [ih hresponse (fun q hq => hsize q (List.mem_cons_of_mem _ hq)) h,hdecoded,
      List.append_assoc]
    rfl

end Reading

section Agreement

variable (pageCount strategy) in
/-- Two counts of which one asks for more agree just when the rest does not matter. -/
theorem countP_accepts_iff (rs : List GetPageResponse) :
    rs.countP (verifies pageCount strategy) = rs.countP (accepts pageCount strategy) ↔
      ∀ r ∈ rs, verifies pageCount strategy r = true → r.header.status = statusSuccess := by
  have hsplit : rs.countP (verifies pageCount strategy) = rs.countP (accepts pageCount strategy) +
      rs.countP (fun r => verifies pageCount strategy r && !accepts pageCount strategy r) := by
    induction rs with
    | nil => rfl
    | cons r rs ih =>
      rw [List.countP_cons,List.countP_cons,List.countP_cons,ih]
      unfold accepts
      cases verifies pageCount strategy r <;>
        cases decide (r.header.status = statusSuccess) <;> simp <;> omega
  constructor
  · intro heq r hr hverifies
    have hnone : ∀ r ∈ rs, ¬ (verifies pageCount strategy r &&
        !accepts pageCount strategy r) = true := List.countP_eq_zero.mp (by omega)
    have hr' := hnone r hr
    simpa [hverifies,accepts] using hr'
  · intro hall
    have hzero : rs.countP (fun r => verifies pageCount strategy r &&
        !accepts pageCount strategy r) = 0 := by
      apply List.countP_eq_zero.mpr
      intro r hr
      by_cases hverifies : verifies pageCount strategy r = true
      · simp [accepts,hverifies,hall r hr hverifies]
      · simp [hverifies]
    omega

theorem length_countP_not (p : GetPageResponse → Bool) (rs : List GetPageResponse) :
    rs.countP (fun r => !p r) = rs.length - rs.countP p := by
  have h := List.length_eq_countP_add_countP p (l := rs)
  have hnot : rs.countP (fun r => !p r) = rs.countP (fun r => decide ¬ p r = true) := by
    apply List.countP_congr
    intro r _
    simp
  omega

/-- The two clients count alike just when no frame that passes the verifier has a
status other than success. -/
theorem judged_alike_iff (numRequests pageCount : ℕ) (strategy : FillingStrategy)
    (frames : List (List UInt8)) (hframes : ∀ frame ∈ frames, frame.length = sizeofResponse)
    (deliveries : List (List (List UInt8))) (hdeliveries : deliveries.map List.flatten = frames)
    (hne : ∀ pieces ∈ deliveries, [] ∉ pieces) (s : State)
    (h : execute (step numRequests pageCount strategy) (start numRequests)
      (conversation deliveries) = .ok s) :
    ((verdict pageCount strategy frames).correctResponses = s.correctResponses ∧
      (verdict pageCount strategy frames).incorrectResponses = s.incorrectResponses) ↔
    ∀ frame ∈ frames,
      verify pageCount strategy (decode frame).content (decode frame).header.pageNumber.toNat = true →
        (decode frame).header.status = statusSuccess := by
  have hcounted := counted_of_run h
  have hmemory : (start numRequests).response.length = sizeofResponse := by
    rw [start,test_response]
    exact GetPageResponse.length_bytes _
  have hsize : ∀ pieces ∈ deliveries, pieces.flatten.length = sizeofResponse ∧ [] ∉ pieces := by
    intro pieces hp
    exact ⟨hframes _ (hdeliveries ▸ List.mem_map_of_mem hp),hne pieces hp⟩
  have hdecoded : s.decoded = frames.map decode := by
    rw [← hdeliveries,List.map_map,decoded_conversation hmemory hsize h,start,test_decoded]
    rfl
  have hverdict := verifyResponses_eq pageCount strategy (frames.map GetPageResponse.ofBytes)
    ⟨[],0,0⟩
  simp only [List.map_map,Function.comp_def] at hverdict
  have hiff := countP_accepts_iff pageCount strategy s.decoded
  simp only [verdict,verifyResponses,hverdict,hcounted.correct,hcounted.incorrect,UInt32.zero_add]
  change (UInt32.ofNat ((frames.map decode).countP _) = _ ∧
    UInt32.ofNat ((frames.map decode).countP _) = _) ↔ _
  have hforall : (∀ r ∈ s.decoded, verifies pageCount strategy r = true →
      r.header.status = statusSuccess) ↔ ∀ frame ∈ frames, verify pageCount strategy
        (decode frame).content (decode frame).header.pageNumber.toNat = true →
          (decode frame).header.status = statusSuccess := by
    rw [hdecoded]
    simp only [List.forall_mem_map]
    rfl
  rw [← hdecoded,← hforall,← hiff,length_countP_not,length_countP_not]
  have hle := hcounted.decoded_le
  have hlt := hcounted.i_lt
  have hverifies := List.countP_le_length (l := s.decoded) (p := verifies pageCount strategy)
  have haccepts := List.countP_le_length (l := s.decoded) (p := accepts pageCount strategy)
  constructor
  · rintro ⟨hcorrect,-⟩
    have hnat := congrArg UInt32.toNat hcorrect
    rw [UInt32.toNat_ofNat',UInt32.toNat_ofNat'] at hnat
    omega
  · intro heq
    rw [heq]
    exact ⟨rfl,rfl⟩

/-- A frame of page 0 with the given status, filled with the given byte. -/
def frameWith (status : UInt32) (fill : UInt8) : List UInt8 :=
  (GetPageResponse.mk (GetPageResponseHeader.mk 0 status 0).toNetworkOrder
    (Vector.replicate pageSize fill)).bytes

theorem status_frameWith (status : UInt32) (fill : UInt8) :
    (decode (frameWith status fill)).header.status = status := by
  rw [decode,frameWith,GetPageResponse.ofBytes_bytes]
  change (GetPageResponseHeader.toHostOrder (GetPageResponseHeader.toNetworkOrder _)).status = _
  rw [GetPageResponseHeader.toHostOrder_toNetworkOrder]

/-- Each frame in two reads, its header and its page. -/
def apart (frames : List (List UInt8)) : List (List (List UInt8)) :=
  frames.map (fun frame => [frame.take sizeofHeader,frame.drop sizeofHeader])

def readApart (frames : List (List UInt8)) : Except Stop State :=
  execute (step frames.length 1 (pseudoRandomFillingStrategy 42)) (start frames.length)
    (conversation (apart frames))

/-- The page, and an error frame without it. -/
def pageAndError : List (List UInt8) :=
  [frameWith statusSuccess 0xAA,frameWith statusInvalidPageNumber 0]

theorem judged_alike_success : ∃ s, readApart pageAndError = .ok s ∧ s.correctResponses = 1 ∧
    (verdict 1 (pseudoRandomFillingStrategy 42) pageAndError).correctResponses =
      s.correctResponses ∧
    (verdict 1 (pseudoRandomFillingStrategy 42) pageAndError).incorrectResponses =
      s.incorrectResponses := by
  have hrun : yields (readApart pageAndError) (fun s => s.correctResponses = 1) = true := by
    decide +kernel
  obtain ⟨s,hs,hone⟩ := exists_of_yields hrun
  have hsize : ∀ frame ∈ pageAndError, frame.length = sizeofResponse := by
    simp [pageAndError,frameWith]
  have hiff := judged_alike_iff 2 1 (pseudoRandomFillingStrategy 42) pageAndError hsize
    (apart pageAndError) (by simp [apart,pageAndError]) (by decide +kernel) s hs
  have hfails : verify 1 (pseudoRandomFillingStrategy 42)
      (decode (frameWith statusInvalidPageNumber 0)).content
      (decode (frameWith statusInvalidPageNumber 0)).header.pageNumber.toNat = false := by
    decide +kernel
  refine ⟨s,hs,of_decide_eq_true hone,hiff.mpr fun frame hframe hverify => ?_⟩
  rcases List.mem_cons.mp hframe with rfl | hframe
  · exact status_frameWith statusSuccess 0xAA
  · rw [List.mem_singleton.mp hframe,hfails] at hverify
    cases hverify

/-- An error frame with the content of the page is correct for one client and
incorrect for the other. -/
theorem error_frame_judged_apart : ∃ s,
    readApart [frameWith statusInvalidPageNumber 0xAA] = .ok s ∧
    s.correctResponses = 0 ∧ s.incorrectResponses = 1 ∧
    (verdict 1 (pseudoRandomFillingStrategy 42)
      [frameWith statusInvalidPageNumber 0xAA]).correctResponses = 1 ∧
    (verdict 1 (pseudoRandomFillingStrategy 42)
      [frameWith statusInvalidPageNumber 0xAA]).incorrectResponses = 0 := by
  have hrun : yields (readApart [frameWith statusInvalidPageNumber 0xAA]) (fun s =>
      s.correctResponses = 0 && s.incorrectResponses = 1) = true := by decide +kernel
  obtain ⟨s,hs,htest⟩ := exists_of_yields hrun
  simp only [Bool.and_eq_true,decide_eq_true_eq] at htest
  exact ⟨s,hs,htest.1,htest.2,by decide +kernel,by decide +kernel⟩

end Agreement

end Client

end FastNet.GetPage
