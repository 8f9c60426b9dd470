import FastNet.Simple.ClientReturn

/-! # The pages a client thread asks for

The payloads of the sends that each iteration submits, over a whole run. They are
the requests from the first of the thread's range up to the send index, which
stands at the end of the range whenever the thread returns, so the threads of
`main` together ask for each page once.
-/
namespace FastNet.Simple.Client
open Execution
variable {K : Consts} {J : Job} {s0 s t : State} {es : List Event}

/-- The integers in the send operations that a step submits. -/
def submittedPages (s : State) (e : Event) (t : State) : List ℤ :=
  match e with
  | .iterate => (t.proc.ring.tx.drop s.proc.ring.tx.length).map
      (fun q => Bytes.int32OfBytes ((t.proc.mem.bytes q.userData).take q.len))
  | _ => []

variable (K J) in
/-- The integers in all send operations submitted by a run. -/
def requestedPages (s0 : State) (es : List Event) : List ℤ :=
  outputs (step K J) submittedPages s0 es

/-- Between events the submitted sends are those of the view. -/
theorem view_tx (hi : Inv K s) : (view K s).ring.tx =
    s.proc.ring.tx.map (fun q => (s.proc.mem.bytes q.userData).take q.len) := by
  simp [view,Process.view,Ring.view,Ring.txAll,hi.sq]

/-- A step submits the requests between the two values of the send index. -/
theorem submittedPages_step {e : Event} (hi : Inv K s) (h : step K J s e = .ok t) :
    s.sendIndex ≤ t.sendIndex ∧ submittedPages s e t =
      (List.range' s.sendIndex (t.sendIndex - s.sendIndex)).map
        (fun k => Bytes.int32OfBytes (request J k)) := by
  obtain ⟨hit,hstep⟩ := step_view hi h
  have hsame : ∀ i, i = s.sendIndex → s.sendIndex ≤ i ∧ ([] : List ℤ) =
      (List.range' s.sendIndex (i - s.sendIndex)).map (fun k => Bytes.int32OfBytes (request J k)) := by
    rintro i rfl
    simp
  have hlength : (view K s).ring.tx.length = s.proc.ring.tx.length := by rw [view_tx hi,List.length_map]
  have hpages : (t.proc.ring.tx.drop s.proc.ring.tx.length).map
      (fun q => Bytes.int32OfBytes ((t.proc.mem.bytes q.userData).take q.len)) =
      ((view K t).ring.tx.drop (view K s).ring.tx.length).map Bytes.int32OfBytes := by
    simp only [view_tx hit,hlength,← List.map_drop,List.map_map,Function.comp_def]
  have hindex : (view K t).sendIndex = t.sendIndex := rfl
  generalize view K t = w at hstep hpages hindex
  cases hstep with
  | iterate hp =>
    rw [← hindex]
    refine ⟨(view K s).le_sendEdge (K := K) (J := J),?_⟩
    rw [submittedPages,hpages]
    simp only [View.sent,View.posted,List.drop_left,List.map_map,Function.comp_def]
    rfl
  | reapSend res rest hp hcq hres => exact hsame _ hindex.symm
  | reapRecv res data rest hp hcq hres => exact hsame _ hindex.symm
  | reapFailed hp hcq => exact hsame _ hindex.symm
  | finishLeave hp hcq hexit => exact hsame _ hindex.symm
  | finishAgain hp hcq hbreak hloop => exact hsame _ hindex.symm
  | kernel e w hp hmove => exact hsame _ hindex.symm

/-- After any run the pages asked for are the range up to the send index. -/
theorem requestedPages_run (hi : Inv K s0) (h0 : s0.sendIndex = 0)
    (h : execute (step K J) s0 es = .ok s) : requestedPages K J s0 es =
      (List.range s.sendIndex).map (fun k => Bytes.int32OfBytes (request J k)) := by
  refine execute_induction (P := fun es s => requestedPages K J s0 es =
    (List.range s.sendIndex).map (fun k => Bytes.int32OfBytes (request J k))) ?_ ?_ h
  · rw [h0]
    rfl
  · intro es t e u ht ih hu
    obtain ⟨hle,hpages⟩ := submittedPages_step ((refines K J).invariant ht hi) hu
    have hjoin := @List.range'_append_1 0 t.sendIndex (u.sendIndex - t.sendIndex)
    rw [Nat.zero_add,Nat.add_sub_cancel' hle] at hjoin
    rw [requestedPages,outputs_concat ht hu,hpages]
    change requestedPages K J s0 es ++ _ = _
    rw [ih,List.range_eq_range',← List.map_append,hjoin,List.range_eq_range']

/-- A run of a thread from some start to its return, through either exit. -/
def Returned (K : Consts) (J : Job) (s0 : State) (es : List Event) (s : State) : Prop :=
  (∃ header bytes supply, start K J header bytes supply = .ok s0) ∧
    execute (step K J) s0 es = .ok s ∧ s.phase = .returned

/-- Both exits of the loop leave no request unsent. -/
theorem Returned.sendIndex (h : Returned K J s0 es s) : s.sendIndex = J.numRequests := by
  obtain ⟨⟨header,bytes,supply,h0⟩,hrun,hret⟩ := h
  have hle := (counts_of_run h0 hrun).2.send_le
  change s.sendIndex ≤ J.numRequests at hle
  rcases List.eq_nil_or_concat' es with rfl | ⟨es,e,rfl⟩
  · cases hrun
    have hn := (start_returned h0 hret).1
    omega
  · obtain ⟨t,ht,hstep⟩ := execute_concat_ok.mp hrun
    obtain ⟨-,-,-,-,hs,-,-,-,hexit⟩ := returned_of_step (counts_of_run h0 ht).1 hstep hret
    unfold breakCondition loopCondition at hexit
    omega

theorem Returned.requestedPages (h : Returned K J s0 es s) (hn : J.endIndex ≤ intMax) :
    requestedPages K J s0 es = (List.range' J.startIndex J.numRequests).map Nat.cast := by
  obtain ⟨⟨header,bytes,supply,h0⟩,hrun,-⟩ := id h
  obtain ⟨hi,hv,-⟩ := start_view h0
  rw [requestedPages_run hi (congrArg View.sendIndex hv) hrun,h.sendIndex,List.range'_eq_map_range,
    List.map_map]
  apply List.map_congr_left
  intro k hk
  have hk : k < J.endIndex - J.startIndex := List.mem_range.mp hk
  unfold intMax at hn
  exact Bytes.int32OfBytes_of_lt (by omega) (by omega)

/-- When all threads have returned, each has asked for the pages of its range in
order, and the pages of all threads are those of all requests, each once. -/
theorem requests_exactly_once (K : Consts) (numRequests clientThreads : ℕ)
    (hn : numRequests ≤ intMax) (ht : 1 ≤ clientThreads) (s0 s : ℕ → State)
    (es : ℕ → List Event)
    (h : ∀ i < clientThreads,
      Returned K (threadJob numRequests clientThreads i) (s0 i) (es i) (s i)) :
    (∀ i < clientThreads,
      requestedPages K (threadJob numRequests clientThreads i) (s0 i) (es i) =
        (List.range' (threadJob numRequests clientThreads i).startIndex
          (threadJob numRequests clientThreads i).numRequests).map Nat.cast) ∧
    (List.range clientThreads).flatMap
      (fun i => requestedPages K (threadJob numRequests clientThreads i) (s0 i) (es i)) =
        (List.range numRequests).map Nat.cast := by
  have heach : ∀ i < clientThreads,
      requestedPages K (threadJob numRequests clientThreads i) (s0 i) (es i) =
        (List.range' (threadJob numRequests clientThreads i).startIndex
          (threadJob numRequests clientThreads i).numRequests).map Nat.cast := by
    intro i hi
    exact (h i hi).requestedPages ((threadJob_endIndex_le hi).trans hn)
  refine ⟨heach,?_⟩
  rw [List.flatMap_congr fun i hi => heach i (List.mem_range.mp hi),← flatMap_threadJob numRequests ht,
    List.map_flatMap]

theorem requests_exactly_once_prompt : ∃ s0 s : ℕ → State,
    (∀ i < 2, Returned Consts.small (threadJob 4 2 i) (s0 i) (promptEvents i) (s i)) ∧
    (List.range 2).flatMap
      (fun i => requestedPages Consts.small (threadJob 4 2 i) (s0 i) (promptEvents i)) =
        [0,1,2,3] := by
  obtain ⟨s0,s,hall⟩ := prompt_complete
  have hreturned : ∀ i < 2,
      Returned Consts.small (threadJob 4 2 i) (s0 i) (promptEvents i) (s i) := by
    intro i hi
    obtain ⟨h0,hs,hret,-⟩ := hall i hi
    exact ⟨⟨_,_,_,h0⟩,hs,hret⟩
  exact ⟨s0,s,hreturned,
    (requests_exactly_once Consts.small 4 2 (by decide) (by decide) s0 s promptEvents hreturned).2⟩

end FastNet.Simple.Client
