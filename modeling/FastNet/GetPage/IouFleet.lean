import FastNet.Foundation.Family
import FastNet.GetPage.Threads
import Mathlib.Algebra.BigOperators.Fin

/-! # All threads of the io_uring client, each on its connection

The threads share the two vectors but not their ranges. What is at the other end of a
connection is open: a rule for one thread with its connection, which holds whatever
the other threads do to the rest of the vectors, is a rule for all of them.
-/
namespace FastNet.GetPage.IouFleet
open Execution
open ClientIou.Threads (Setup job)

structure State (W : Setup) (L : Type) where
  client : ClientIou.Threads.State W
  links : Fin W.clientThreads → L

/-- A thread that has moved, with the vectors as it leaves them. -/
def State.put {W : Setup} {L : Type} (s : State W L) (i : Fin W.clientThreads)
    (d : ClientIou.State) (l : L) : State W L where
  client :=
    { threads := Function.update s.client.threads i d
      requests := d.requests
      responses := d.responses }
  links := Function.update s.links i l

variable {L E : Type}
  (linkStep : ClientIou.Job → ClientIou.State → L → E → Except Stop (ClientIou.State × L))
  (link : L) (takenBy : E → List (List UInt8)) (work : ClientIou.Job → ClientIou.State → L → ℕ)
  (cost : ℕ) (W : Setup)

/-- One thread, its kernel or the other end of its connection takes a step. -/
def step (s : State W L) (e : Fin W.clientThreads × E) : Except Stop (State W L) :=
  (linkStep (job W e.1) (s.client.thread e.1) (s.links e.1) e.2).map
    (fun r => s.put e.1 r.1 r.2)

/-- All threads started and connected. -/
def start : State W L where
  client := ClientIou.Threads.start W (fun _ => [])
  links := fun _ => link

/-- What the receives of a thread have taken. -/
def pieces (es : List (Fin W.clientThreads × E)) (i : Fin W.clientThreads) :
    List (List UInt8) :=
  es.flatMap (fun e => if e.1 = i then takenBy e.2 else [])

/-- The steps that are left for all threads, counted from above. -/
def totalWork (s : State W L) : ℕ :=
  ∑ i, work (job W i) (s.client.threads i) (s.links i)

/-- A condition on one thread and its connection that a step of theirs keeps, with less
work left, and that needs nothing of the vectors outside the range of the thread. -/
structure Rules (P : ClientIou.Job → ClientIou.State → L → List (List UInt8) → Prop) : Prop where
  start : ∀ J, P J (ClientIou.start J []) link []
  step : ∀ {J c l ps e d l'}, P J c l ps → linkStep J c l e = .ok (d,l') →
    P J d l' (ps ++ takenBy e) ∧ work J d l' < work J c l
  frame : ∀ {J c l ps e d l'}, P J c l ps → linkStep J c l e = .ok (d,l') →
    ∀ {j}, ¬ (J.start ≤ j ∧ j < J.stop) →
      d.requests j = c.requests j ∧ d.responses j = c.responses j
  vectors : ∀ {J c l ps} {requests : ℕ → GetPageRequest} {responses : ℕ → List UInt8},
    P J c l ps → (∀ j, J.start ≤ j → j < J.stop →
      requests j = c.requests j ∧ responses j = c.responses j) →
    P J { c with requests := requests, responses := responses } l ps
  work_vectors : ∀ J c l requests responses,
    work J { c with requests := requests, responses := responses } l = work J c l
  work_start : ∀ J, work J (ClientIou.start J []) link ≤ cost * (J.stop - J.start)

variable {linkStep link takenBy work cost W} {s t : State W L}
  {es : List (Fin W.clientThreads × E)}

section Ranges

theorem job_edges (i : Fin W.clientThreads) :
    (job W i).start = Tiling.edge W.numRequests W.clientThreads i ∧
      (job W i).stop = Tiling.edge W.numRequests W.clientThreads (i + 1) := by
  rw [Tiling.edge_start i.isLt,Tiling.edge_stop i.isLt]
  exact ⟨rfl,rfl⟩

/-- An index is in the range of one thread at most. -/
theorem job_disjoint {i k : Fin W.clientThreads} (hne : i ≠ k) {j : ℕ}
    (hi : (job W i).start ≤ j ∧ j < (job W i).stop) :
    ¬ ((job W k).start ≤ j ∧ j < (job W k).stop) := by
  have hmono := Tiling.edge_mono W.numRequests W.clientThreads
  rw [(job_edges i).1,(job_edges i).2] at hi
  rw [(job_edges k).1,(job_edges k).2]
  have hval : (i : ℕ) ≠ k := fun h => hne (Fin.ext h)
  rcases Nat.lt_or_gt_of_ne hval with h | h
  · have hle := hmono (show (i : ℕ) + 1 ≤ k by omega)
    omega
  · have hle := hmono (show (k : ℕ) + 1 ≤ i by omega)
    omega

/-- Each index is in the range of some thread. -/
theorem exists_job {j : ℕ} (hj : j < W.numRequests) :
    ∃ i, (job W i).start ≤ j ∧ j < (job W i).stop := by
  have hmem : j ∈ (List.finRange W.clientThreads).flatMap (fun i =>
      List.range' (job W i).start ((job W i).stop - (job W i).start)) := by
    rw [ClientIou.Threads.flatMap_job]
    exact List.mem_range.mpr hj
  obtain ⟨i,-,hi⟩ := List.mem_flatMap.mp hmem
  rw [List.mem_range'_1] at hi
  exact ⟨i,by omega⟩

theorem sum_job : ∑ i, ((job W i).stop - (job W i).start) = W.numRequests := by
  have hlen := congrArg List.length (ClientIou.Threads.flatMap_job W)
  rw [List.length_flatMap,List.length_range] at hlen
  simp only [List.length_range'] at hlen
  rw [Fin.sum_univ_def]
  exact hlen

end Ranges

section Put
variable (s : State W L) {i k : Fin W.clientThreads} (d : ClientIou.State) (l : L)

theorem put_thread_self : (s.put i d l).client.thread i = d := by
  simp [State.put,ClientIou.Threads.State.thread]

theorem put_thread_ne (h : k ≠ i) : (s.put i d l).client.thread k =
    { s.client.thread k with requests := d.requests, responses := d.responses } := by
  simp [State.put,ClientIou.Threads.State.thread,h]

end Put

section Runs
variable {P : ClientIou.Job → ClientIou.State → L → List (List UInt8) → Prop}
  (hr : Rules linkStep link takenBy work cost P)

theorem step_ok {e : Fin W.clientThreads × E} (h : step linkStep W s e = .ok t) :
    ∃ d l', linkStep (job W e.1) (s.client.thread e.1) (s.links e.1) e.2 = .ok (d,l') ∧
      t = s.put e.1 d l' := by
  obtain ⟨⟨d,l'⟩,hd,rfl⟩ := map_ok.mp h
  exact ⟨d,l',hd,rfl⟩

theorem step_error {e : Fin W.clientThreads × E} {why : Stop}
    (h : step linkStep W s e = .error why) :
    linkStep (job W e.1) (s.client.thread e.1) (s.links e.1) e.2 = .error why := by
  unfold step at h
  cases hd : linkStep (job W e.1) (s.client.thread e.1) (s.links e.1) e.2 with
  | ok r => simp [hd,Except.map] at h
  | error w =>
    rw [hd] at h
    cases h
    rfl

include hr

theorem Rules.step_all (hi : ∀ i, P (job W i) (s.client.thread i) (s.links i) (pieces takenBy W es i))
    {e : Fin W.clientThreads × E} (h : IouFleet.step linkStep W s e = .ok t) :
    (∀ i, P (job W i) (t.client.thread i) (t.links i) (pieces takenBy W (es ++ [e]) i)) ∧
      totalWork work W t < totalWork work W s := by
  obtain ⟨i,e⟩ := e
  obtain ⟨d,l',hd,rfl⟩ := step_ok h
  obtain ⟨hnext,hwork⟩ := hr.step (hi i) hd
  constructor
  · intro k
    have hpieces : pieces takenBy W (es ++ [(i,e)]) k =
        pieces takenBy W es k ++ if i = k then takenBy e else [] := by
      simp [pieces]
    rw [hpieces]
    by_cases hik : i = k
    · subst hik
      rw [if_pos rfl,put_thread_self]
      simpa [State.put] using hnext
    · have hki : k ≠ i := Ne.symm hik
      have hlink : (s.put i d l').links k = s.links k := Function.update_of_ne hki ..
      rw [if_neg hik,List.append_nil,put_thread_ne s d l' hki,hlink]
      exact hr.vectors (hi k) fun j hj hlt => hr.frame (hi i) hd (job_disjoint hki ⟨hj,hlt⟩)
  · have hsum := Family.sum_update (fun k (x : ClientIou.State × L) => work (job W k) x.1 x.2)
      (fun k => (s.client.threads k,s.links k)) i (d,l')
    have hnew (k : Fin W.clientThreads) : work (job W k)
        (Function.update (fun k => (s.client.threads k,s.links k)) i (d,l') k).1
        (Function.update (fun k => (s.client.threads k,s.links k)) i (d,l') k).2 =
          work (job W k) ((s.put i d l').client.threads k) ((s.put i d l').links k) := by
      by_cases hik : k = i
      · subst hik
        simp [State.put]
      · simp [State.put,hik]
    have hold : work (job W i) (s.client.thread i) (s.links i) =
        work (job W i) (s.client.threads i) (s.links i) := hr.work_vectors ..
    simp only [hnew] at hsum
    change ∑ k, work (job W k) ((s.put i d l').client.threads k) ((s.put i d l').links k) < _
    unfold totalWork
    omega

/-- In every run each thread meets the condition, and the work bounds the length. -/
theorem Rules.run (h : execute (IouFleet.step linkStep W) (IouFleet.start link W) es = .ok s) :
    (∀ i, P (job W i) (s.client.thread i) (s.links i) (pieces takenBy W es i)) ∧
      es.length + totalWork work W s ≤ cost * W.numRequests := by
  refine execute_induction (P := fun es s =>
    (∀ i, P (job W i) (s.client.thread i) (s.links i) (pieces takenBy W es i)) ∧
      es.length + totalWork work W s ≤ cost * W.numRequests) ⟨?_,?_⟩ ?_ h
  · intro i
    have hthread : (IouFleet.start link W).client.thread i = ClientIou.start (job W i) [] := by
      simp [IouFleet.start,ClientIou.Threads.start,ClientIou.Threads.State.thread,
        ClientIou.start,ClientIou.testBatch]
    rw [hthread]
    exact hr.start (job W i)
  · rw [List.length_nil,Nat.zero_add,← sum_job (W := W),Finset.mul_sum]
    exact Finset.sum_le_sum fun i _ => hr.work_start (job W i)
  · rintro es t e u _ ⟨hi,hle⟩ hu
    obtain ⟨hi',hlt⟩ := hr.step_all hi hu
    refine ⟨hi',?_⟩
    rw [List.length_append,List.length_singleton]
    omega

end Runs

end FastNet.GetPage.IouFleet
