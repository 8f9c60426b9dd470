import FastNet.GetPage.IouFleet
import FastNet.GetPage.IouPair
import FastNet.GetPage.Verdicts

/-! # The io_uring client against the io_uring server

All threads of `client_iou`, each with a handler of `server_iou`, in any interleaving.
Every run comes to an end. A slot may hold the response to a later request than its
own, but the client does not notice: it takes the page number from the response, and
counts every response as correct.
-/
namespace FastNet.GetPage.IouPairSystem
open Execution IouPair
open IouConnection (takenBy)
open ClientIou.Threads (Setup job)

/-- The threads, with the requests on their way and the handlers. -/
abbrev State (W : Setup) : Type := IouFleet.State W IouHandler.Link

variable (W : Setup) (serverPages : ℕ) (strategy : FillingStrategy) (malloc : ℕ → List UInt8)

/-- One thread, its kernel, its handler or the kernel of that takes a step. -/
def step : State W → Fin W.clientThreads × Event → Except Stop (State W) :=
  IouFleet.step (linkStep W.pageCount serverPages strategy malloc) W

/-- All threads started and connected. -/
def start (response : GetPageResponse) (iov : ServerIou.IoVec × ServerIou.IoVec) : State W :=
  IouFleet.start (IouHandler.start malloc response iov) W

/-- What the receives of a thread have taken. -/
def pieces : List (Fin W.clientThreads × Event) → Fin W.clientThreads → List (List UInt8) :=
  IouFleet.pieces takenBy W

variable {W serverPages strategy malloc} {s : State W}
  {es : List (Fin W.clientThreads × Event)} {response : GetPageResponse}
  {iov : ServerIou.IoVec × ServerIou.IoVec}

theorem rules {pageCount : ℕ} (hpages : pageSize * serverPages < sizeMod) (hpc : 0 < pageCount)
    (hserver : pageCount ≤ serverPages) (response : GetPageResponse)
    (iov : ServerIou.IoVec × ServerIou.IoVec) :
    IouFleet.Rules (linkStep pageCount serverPages strategy malloc)
      (IouHandler.start malloc response iov) takenBy work 14
      (Kept pageCount serverPages strategy) where
  start J := Kept.start response iov
  step := by
    rintro J c l ps e d l' ⟨_,_,_,_,h⟩ hstep
    exact h.step hpages hpc hserver hstep
  frame := by
    rintro J c l ps e d l' ⟨_,_,_,_,h⟩ hstep j hj
    exact IouConnection.frame h.thread hstep hj
  vectors := by
    rintro J c l ps requests responses ⟨_,_,_,_,h⟩ hsame
    exact ⟨_,_,_,_,h.thread.vectors hsame,h.handling,h.window⟩
  work_vectors J c l requests responses := rfl
  work_start := work_start response iov

theorem inv_of_run (hpages : pageSize * serverPages < sizeMod) (hpc : 0 < W.pageCount)
    (hserver : W.pageCount ≤ serverPages)
    (h : execute (step W serverPages strategy malloc) (start W malloc response iov) es = .ok s) :
    (∀ i, Kept W.pageCount serverPages strategy (job W i) (s.client.thread i) (s.links i)
      (pieces W es i)) ∧ es.length ≤ 14 * W.numRequests := by
  obtain ⟨hi,hle⟩ := (rules hpages hpc hserver response iov).run h
  exact ⟨hi,by omega⟩

section Small

/-- Two requests of one thread, for the two pages of a server. -/
def twoRequests : Setup := ⟨2,1,2,Nat.one_pos,by decide⟩

/-- The response to the second of them. -/
def secondAnswer : List UInt8 := EndToEnd.answerBytes 2 2 (pseudoRandomFillingStrategy 42) 1

/-- Both requests are handled before the first write is executed. -/
def crossedRun : List (Fin 1 × Event) :=
  [.client .batch,.client (.send sizeofRequest),.client (.send sizeofRequest),
    .serve .arrive,.serve (.server .postRead),.serve .arrive,.serve (.server .postRead),
    .serve (.server .serve),.serve (.server .serve),
    .serve (.server .write),.serve (.server .write),
    .client (.receive (.bytes secondAnswer)),.client (.receive (.bytes secondAnswer)),
    .client (.postReceive 0),.client (.postReceive 0),.client .reap,.client .reap,
    .client .next].map (fun e => (0,e))

def crossedStart : State twoRequests :=
  start twoRequests (fun _ => []) .zero (⟨.response,0⟩,⟨.response,0⟩)

def crossedStep : State twoRequests → Fin 1 × Event → Except Stop (State twoRequests) :=
  step twoRequests 2 (pseudoRandomFillingStrategy 42) (fun _ => [])

theorem run_crossed : ∃ s, execute crossedStep crossedStart crossedRun = .ok s ∧
    (∀ i, (s.client.threads i).phase = .done) ∧ s.client.responses 0 = secondAnswer ∧
      ∀ i, ∀ piece ∈ pieces twoRequests crossedRun i, piece.length = sizeofResponse := by
  have hrun : yields (execute crossedStep crossedStart crossedRun) (fun s =>
      decide ((∀ i : Fin 1, (s.client.threads i).phase = .done) ∧
        s.client.responses 0 = secondAnswer)) = true := by decide +kernel
  obtain ⟨s,hs,htest⟩ := exists_of_yields hrun
  obtain ⟨hdone,hzero⟩ := of_decide_eq_true htest
  exact ⟨s,hs,hdone,hzero,by decide +kernel⟩

end Small

/-- Every run is finite and no step fails; one that cannot go on has all threads done. -/
theorem pair_runs_to_end (hpages : pageSize * serverPages < sizeMod) (hpc : 0 < W.pageCount)
    (hserver : W.pageCount ≤ serverPages)
    (h : execute (step W serverPages strategy malloc) (start W malloc response iov) es = .ok s) :
    es.length ≤ 14 * W.numRequests ∧
      (∀ e why, step W serverPages strategy malloc s e = .error why → why = .disabled) ∧
      (∀ i, (s.client.threads i).phase ≠ .failed) ∧
      ((∀ i, (s.client.threads i).phase = .done) ∨
        ∃ e t, step W serverPages strategy malloc s e = .ok t) := by
  obtain ⟨hi,hle⟩ := inv_of_run hpages hpc hserver h
  refine ⟨hle,?_,?_,?_⟩
  · intro e why hwhy
    exact IouConnection.step_error hpc serve_error (IouFleet.step_error hwhy)
  · intro i
    obtain ⟨_,_,_,_,hs⟩ := hi i
    exact hs.thread.unfailed
  · by_cases hdone : ∀ i, (s.client.threads i).phase = .done
    · exact Or.inl hdone
    · obtain ⟨i,hnot⟩ := not_forall.mp hdone
      obtain ⟨_,_,_,_,hs⟩ := hi i
      obtain ⟨e,d,l',hd⟩ := hs.enabled malloc hpc hnot
      exact Or.inr ⟨(i,e),_,map_ok.mpr ⟨(d,l'),hd,rfl⟩⟩

theorem pair_runs_to_end_crossed : ∃ s, execute crossedStep crossedStart crossedRun = .ok s ∧
    crossedRun.length ≤ 28 ∧ ∀ i, (s.client.threads i).phase ≠ .failed := by
  obtain ⟨s,hs,-⟩ := run_crossed
  obtain ⟨hlen,-,hfailed,-⟩ := pair_runs_to_end (by decide) (by decide) (by decide) hs
  exact ⟨s,hs,hlen,hfailed⟩

/-- With whole receives each slot ends with the response to its own request or to a later
one of the same thread, less than a batch away, and `main` counts all as correct. -/
theorem crossing_unnoticed (hpages : pageSize * serverPages < sizeMod) (hpc : 0 < W.pageCount)
    (hserver : W.pageCount ≤ serverPages)
    (h : execute (step W serverPages strategy malloc) (start W malloc response iov) es = .ok s)
    (hdone : ∀ i, (s.client.threads i).phase = .done)
    (hwhole : ∀ i, ∀ piece ∈ pieces W es i, piece.length = sizeofResponse) :
    (∀ i j, (job W i).start ≤ j → j < (job W i).stop →
      ∃ k, s.client.responses j = EndToEnd.answerBytes W.pageCount serverPages strategy k ∧
        j ≤ k ∧ k < j + 64 ∧ k < (job W i).stop) ∧
    (verdict W.pageCount strategy
        ((List.range W.numRequests).map s.client.responses)).correctResponses =
        UInt32.ofNat W.numRequests ∧
      (verdict W.pageCount strategy
        ((List.range W.numRequests).map s.client.responses)).incorrectResponses = 0 := by
  obtain ⟨hi,-⟩ := inv_of_run hpages hpc hserver h
  have hslots : ∀ i j, (job W i).start ≤ j → j < (job W i).stop →
      ∃ k, s.client.responses j = EndToEnd.answerBytes W.pageCount serverPages strategy k ∧
        j ≤ k ∧ k < j + 64 ∧ k < (job W i).stop := by
    intro i j hstart hstop
    obtain ⟨_,_,_,_,hs⟩ := hi i
    exact hs.slot (hdone i) (hwhole i) hstart hstop
  have hall : ∀ j, ∃ k, j < W.numRequests →
      s.client.responses j = EndToEnd.answerBytes W.pageCount serverPages strategy k := by
    intro j
    by_cases hj : j < W.numRequests
    · obtain ⟨i,hstart,hstop⟩ := IouFleet.exists_job hj
      obtain ⟨k,hk,-⟩ := hslots i j hstart hstop
      exact ⟨k,fun _ => hk⟩
    · exact ⟨0,fun hlt => (hj hlt).elim⟩
  choose f hf using hall
  have hframes : (List.range W.numRequests).map s.client.responses =
      ((List.range W.numRequests).map f).map
        (EndToEnd.answerBytes W.pageCount serverPages strategy) := by
    rw [List.map_map]
    exact List.map_congr_left fun j hj => hf j (List.mem_range.mp hj)
  obtain ⟨hcorrect,hincorrect⟩ := verdict_frames W.pageCount serverPages strategy
    ((List.range W.numRequests).map f)
  simp only [verifies_of_served hpc hserver hpages,List.countP_true,List.length_map,
    List.length_range,Bool.not_true,List.countP_false] at hcorrect hincorrect
  rw [hframes]
  exact ⟨hslots,hcorrect,hincorrect⟩

/-- The slot of the first request holds the response to the second one. -/
theorem crossing_unnoticed_crossed :
    ∃ s, execute crossedStep crossedStart crossedRun = .ok s ∧
      s.client.responses 0 = secondAnswer ∧
      (verdict 2 (pseudoRandomFillingStrategy 42)
        ((List.range 2).map s.client.responses)).correctResponses = 2 := by
  obtain ⟨s,hs,hdone,hzero,hwhole⟩ := run_crossed
  obtain ⟨-,hcorrect,-⟩ := crossing_unnoticed (by decide) (by decide) (by decide) hs hdone hwhole
  exact ⟨s,hs,hzero,hcorrect⟩

end FastNet.GetPage.IouPairSystem
