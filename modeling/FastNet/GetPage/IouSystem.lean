import FastNet.GetPage.IouFleet
import FastNet.GetPage.IouLink
import FastNet.GetPage.Verdicts

/-! # The io_uring client against the page server

All threads of `client_iou`, each with a handler of the blocking server, in any
interleaving. Every run comes to an end with all threads done, and what `main` then
counts is decided by whether the receives were whole.
-/
namespace FastNet.GetPage.IouSystem
open Execution IouLink
open IouConnection (takenBy)
open ClientIou.Threads (Setup job threeRequests)

/-- The threads, with the requests on their way and the handlers. -/
abbrev State (W : Setup) : Type := IouFleet.State W Link

variable (W : Setup) (serverPages : ℕ) (strategy : FillingStrategy)

/-- One thread, its kernel or its handler takes a step. -/
def step : State W → Fin W.clientThreads × Event → Except Stop (State W) :=
  IouFleet.step (IouLink.step W.pageCount serverPages strategy) W

/-- All threads started and connected. -/
def start : State W := IouFleet.start ⟨[],⟨false,[]⟩⟩ W

/-- What the receives of a thread have taken. -/
def pieces : List (Fin W.clientThreads × Event) → Fin W.clientThreads → List (List UInt8) :=
  IouFleet.pieces takenBy W

variable {W serverPages strategy} {s t : State W} {es : List (Fin W.clientThreads × Event)}

section Small
/-- A thread asks for `k` pages and gets each in one piece. -/
def wholeThread (i : Fin 2) (first k : ℕ) : List (Fin 2 × Event) :=
  [(i,.client .batch)] ++ List.replicate k (i,.client (.send sizeofRequest)) ++
    List.replicate k (i,.serve ()) ++
    (List.range' first k).map (fun j => (i,.client (.receive (.bytes
      (EndToEnd.answerBytes 2 1 (pseudoRandomFillingStrategy 42) j))))) ++
    List.replicate k (i,.client (.postReceive 0)) ++ List.replicate k (i,.client .reap) ++
    [(i,.client .next)]

/-- Three requests in two threads, the second one first; the server has one page of two. -/
def wholeRun : List (Fin 2 × Event) := wholeThread 1 1 2 ++ wholeThread 0 0 1

theorem run_wholeRun : ∃ s, execute (step threeRequests 1 (pseudoRandomFillingStrategy 42))
    (start threeRequests) wholeRun = .ok s ∧ (∀ i, (s.client.threads i).phase = .done) ∧
      ∀ i, ∀ piece ∈ pieces threeRequests wholeRun i, piece.length = sizeofResponse := by
  have hrun : yields (execute (step threeRequests 1 (pseudoRandomFillingStrategy 42))
      (start threeRequests) wholeRun) (fun s =>
        decide (∀ i : Fin 2, (s.client.threads i).phase = .done)) = true := by decide +kernel
  obtain ⟨s,hs,htest⟩ := exists_of_yields hrun
  exact ⟨s,hs,of_decide_eq_true htest,by decide +kernel⟩

end Small

section Runs

/-- The thread is as far as its connection. -/
def Kept (pageCount serverPages : ℕ) (strategy : FillingStrategy) (J : ClientIou.Job)
    (c : ClientIou.State) (l : Link) (pieces : List (List UInt8)) : Prop :=
  ∃ posted sent served, Synced pageCount serverPages strategy J c l pieces posted sent served

theorem rules (pageCount : ℕ) (hpages : pageSize * serverPages < sizeMod) :
    IouFleet.Rules (IouLink.step pageCount serverPages strategy) ⟨[],⟨false,[]⟩⟩ takenBy work 9
      (Kept pageCount serverPages strategy) where
  start J := ⟨_,_,_,Synced.start⟩
  step := by
    rintro J c l ps e d l' ⟨_,_,_,h⟩ hstep
    exact h.step hpages hstep
  frame := by
    rintro J c l ps e d l' ⟨_,_,_,h⟩ hstep j hj
    exact IouConnection.frame h.thread hstep hj
  vectors := by
    rintro J c l ps requests responses ⟨_,_,_,h⟩ hsame
    exact ⟨_,_,_,h.vectors hsame⟩
  work_vectors J c l requests responses := rfl
  work_start := work_start

theorem inv_of_run (hpages : pageSize * serverPages < sizeMod)
    (h : execute (step W serverPages strategy) (start W) es = .ok s) :
    (∀ i, Kept W.pageCount serverPages strategy (job W i) (s.client.thread i) (s.links i)
      (pieces W es i)) ∧ es.length ≤ 9 * W.numRequests := by
  obtain ⟨hi,hle⟩ := (rules W.pageCount hpages).run h
  exact ⟨hi,by omega⟩

/-- Every run is finite and no step fails; one that cannot go on has all threads done. -/
theorem runs_to_end (hpc : 0 < W.pageCount) (hpages : pageSize * serverPages < sizeMod)
    (h : execute (step W serverPages strategy) (start W) es = .ok s) :
    es.length ≤ 9 * W.numRequests ∧
      (∀ e why, step W serverPages strategy s e = .error why → why = .disabled) ∧
      (∀ i, (s.client.threads i).phase ≠ .failed) ∧
      ((∀ i, (s.client.threads i).phase = .done) ∨
        ∃ e t, step W serverPages strategy s e = .ok t) := by
  obtain ⟨hi,hle⟩ := inv_of_run hpages h
  refine ⟨hle,?_,?_,?_⟩
  · intro e why hwhy
    exact IouConnection.step_error hpc serve_error (IouFleet.step_error hwhy)
  · intro i
    obtain ⟨_,_,_,hs⟩ := hi i
    exact hs.thread.unfailed
  · by_cases hdone : ∀ i, (s.client.threads i).phase = .done
    · exact Or.inl hdone
    · obtain ⟨i,hnot⟩ := not_forall.mp hdone
      obtain ⟨_,_,_,hs⟩ := hi i
      obtain ⟨e,d,l',hd⟩ := hs.enabled hpc hnot
      exact Or.inr ⟨(i,e),_,map_ok.mpr ⟨(d,l'),hd,rfl⟩⟩

theorem runs_to_end_whole : ∃ s, execute (step threeRequests 1 (pseudoRandomFillingStrategy 42))
    (start threeRequests) wholeRun = .ok s ∧ wholeRun.length ≤ 27 ∧
      ∀ i, (s.client.threads i).phase ≠ .failed := by
  obtain ⟨s,hs,-⟩ := run_wholeRun
  obtain ⟨hlen,-,hfailed,-⟩ := runs_to_end (by decide) (by decide) hs
  exact ⟨s,hs,hlen,hfailed⟩

end Runs

section Verdicts
variable {W : Setup} {serverPages seed : ℕ} {s : State W} {es : List (Fin W.clientThreads × Event)}

/-- When all threads are done, all responses are in their slots just when each receive
has taken a whole one. -/
theorem slots_iff_whole (hpages : pageSize * serverPages < sizeMod)
    (h : execute (step W serverPages (pseudoRandomFillingStrategy seed)) (start W) es = .ok s)
    (hdone : ∀ i, (s.client.threads i).phase = .done) :
    (∀ j < W.numRequests, s.client.responses j =
        EndToEnd.answerBytes W.pageCount serverPages (pseudoRandomFillingStrategy seed) j) ↔
      ∀ i, ∀ piece ∈ pieces W es i, piece.length = sizeofResponse := by
  obtain ⟨hi,-⟩ := inv_of_run hpages h
  constructor
  · intro hall i
    obtain ⟨_,_,_,hs⟩ := hi i
    refine (hs.slots_iff hpages (hdone i)).mp fun j hstart hstop => hall j ?_
    have hle := Tiling.edge_le W.numRequests W.clientThreads (i + 1)
    rw [← (IouFleet.job_edges i).2] at hle
    omega
  · intro hall j hj
    obtain ⟨i,hstart,hstop⟩ := IouFleet.exists_job hj
    obtain ⟨_,_,_,hs⟩ := hi i
    exact (hs.slots_iff hpages (hdone i)).mpr (hall i) j hstart hstop

theorem slots_iff_whole_run : ∃ s, execute (step threeRequests 1 (pseudoRandomFillingStrategy 42))
    (start threeRequests) wholeRun = .ok s ∧ ∀ j < 3, s.client.responses j =
      EndToEnd.answerBytes 2 1 (pseudoRandomFillingStrategy 42) j := by
  obtain ⟨s,hs,hdone,hwhole⟩ := run_wholeRun
  exact ⟨s,hs,(slots_iff_whole (by decide) hs hdone).mpr hwhole⟩

/-- With whole receives `main` counts a response as correct just when the server has
the page that was asked for. -/
theorem whole_run_verdict (hpc : 0 < W.pageCount) (hpc' : W.pageCount ≤ 4294967296)
    (hpages : pageSize * serverPages < sizeMod)
    (h : execute (step W serverPages (pseudoRandomFillingStrategy seed)) (start W) es = .ok s)
    (hdone : ∀ i, (s.client.threads i).phase = .done)
    (hwhole : ∀ i, ∀ piece ∈ pieces W es i, piece.length = sizeofResponse) :
    (verdict W.pageCount (pseudoRandomFillingStrategy seed)
        ((List.range W.numRequests).map s.client.responses)).correctResponses =
        UInt32.ofNat ((List.range W.numRequests).countP
          (fun j => j % W.pageCount < serverPages)) ∧
      (verdict W.pageCount (pseudoRandomFillingStrategy seed)
        ((List.range W.numRequests).map s.client.responses)).incorrectResponses =
        UInt32.ofNat (W.numRequests - (List.range W.numRequests).countP
          (fun j => j % W.pageCount < serverPages)) := by
  obtain ⟨hi,-⟩ := inv_of_run hpages h
  have hslots : (List.range W.numRequests).map s.client.responses =
      (List.range W.numRequests).map
        (EndToEnd.answerBytes W.pageCount serverPages (pseudoRandomFillingStrategy seed)) := by
    refine List.map_congr_left fun j hj => ?_
    obtain ⟨i,hstart,hstop⟩ := IouFleet.exists_job (List.mem_range.mp hj)
    obtain ⟨_,_,_,hs⟩ := hi i
    exact (hs.slots_iff hpages (hdone i)).mpr (hwhole i) j hstart hstop
  rw [hslots]
  exact verdict_answers hpc hpc' W.numRequests

theorem whole_run_verdict_three : ∃ s,
    execute (step threeRequests 1 (pseudoRandomFillingStrategy 42)) (start threeRequests)
      wholeRun = .ok s ∧
    (verdict 2 (pseudoRandomFillingStrategy 42)
      ((List.range 3).map s.client.responses)).correctResponses = 2 := by
  obtain ⟨s,hs,hdone,hwhole⟩ := run_wholeRun
  exact ⟨s,hs,(whole_run_verdict (by decide) (by decide) (by decide) hs hdone hwhole).1⟩

end Verdicts

end FastNet.GetPage.IouSystem
