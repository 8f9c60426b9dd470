import FastNet.GetPage.Reassembly

/-! # The completions of a batch

The counter of `receive_responses` is taken back by every send it meets, below zero
as well, so between two passes it is the number of receives consumed. The loop stops
with the last receive of the batch, and no receive is outstanding between batches.
-/
namespace FastNet.GetPage.ClientIou
open Execution
variable {pageCount : ℕ} {J : Job} {stream : List UInt8} {es : List Event} {s t : State}
  {posted count : ℕ}

/-- The completions that a step consumes. -/
def consumed (s : State) (e : Event) (_ : State) : List Completion :=
  match e with
  | .reap => s.cq.take 1
  | _ => []

variable (pageCount J) in
/-- The completions that a run consumes, in order. -/
def reaped (s : State) (es : List Event) : List Completion :=
  outputs (step pageCount J) consumed s es

variable (pageCount J) in
def receivesReaped (s : State) (es : List Event) : ℕ :=
  (reaped pageCount J s es).countP (·.isReceive)

section Counter

/-- A pass over a completion that did not fail: the counter goes up for a receive and
stays for a send, also for one that finds it at zero. -/
theorem consume_ok (s : State) {c : Completion} (rest : List Completion) (hres : 0 ≤ c.res)
    (hj : s.j + 1 < sizeMod) : consume s c rest =
      { s with cq := rest, j := s.j + [c].countP (·.isReceive) } := by
  have hnot : ¬ c.res < 0 := by omega
  unfold sizeMod at hj
  unfold consume
  rw [if_neg hnot]
  cases hc : c.isReceive with
  | false =>
    have hback : ((s.j + (sizeMod - 1)) % sizeMod + 1) % sizeMod = s.j := by
      unfold sizeMod
      omega
    simp [hc,hback]
  | true =>
    have hup : (s.j + 1) % sizeMod = s.j + 1 := Nat.mod_eq_of_lt (by unfold sizeMod; omega)
    simp [hc,hup]

theorem batchEnd_le (h : s.i < J.stop) : s.i < batchEnd J s.i ∧ batchEnd J s.i ≤ s.i + 64 := by
  rw [batchEnd_eq h]
  unfold batchSize
  omega

theorem Batching.j_le (h : Batching J s posted count) (hp : s.phase = .waiting) :
    s.i < J.stop ∧ s.j + unreaped s = batchEnd J s.i - s.i := by
  obtain ⟨hposted,hlt,hj⟩ := h.waiting hp
  rw [batchEnd_eq hlt,← hposted]
  exact ⟨hlt,hj⟩

/-- No more receives are outstanding than a batch has. -/
theorem Batching.unreaped_le (h : Batching J s posted count) (hp : s.phase ≠ .failed) :
    unreaped s ≤ 64 := by
  cases hphase : s.phase with
  | sending =>
    obtain ⟨-,-,hzero⟩ := h.sending hphase
    omega
  | waiting =>
    obtain ⟨hlt,hj⟩ := h.j_le hphase
    have hle := batchEnd_le hlt
    omega
  | done =>
    obtain ⟨-,hzero⟩ := h.done hphase
    omega
  | failed => exact (hp hphase).elim

theorem Active.ne_failed (h : Active s) : s.phase ≠ .failed := by
  rcases h with h | h
  · simp [h]
  · simp [h]

/-- Only a completion with a negative result fails the thread, and it stays queued. -/
theorem unreaped_of_failed {e : Event} (h : step pageCount J s e = .ok t)
    (ht : t.phase = .failed) : s.phase = .waiting ∧ unreaped t = unreaped s := by
  cases e with
  | batch =>
    obtain ⟨-,-,rfl⟩ := step_batch h
    cases ht
  | reap =>
    obtain ⟨c,rest,hp,-,-,rfl⟩ := step_reap h
    refine ⟨hp,?_⟩
    unfold consume at ht ⊢
    dsimp only at ht ⊢
    split at ht
    · rename_i hres
      rw [if_pos hres]
      rfl
    · exact absurd (hp.symm.trans ht) (by decide)
  | next =>
    obtain ⟨-,-,rfl⟩ := step_next h
    simp only [testBatch] at ht
    split at ht <;> cases ht
  | send res =>
    obtain ⟨j,rest,hactive,-,rfl⟩ := step_send h
    exact (hactive.ne_failed ht).elim
  | postSend i =>
    obtain ⟨res,hactive,-,rfl⟩ := step_postSend h
    exact (hactive.ne_failed ht).elim
  | receive r =>
    obtain ⟨k,rest,res,hactive,-,-,-,rfl⟩ := step_receive h
    exact (hactive.ne_failed ht).elim
  | postReceive i =>
    obtain ⟨res,hactive,-,rfl⟩ := step_postReceive h
    exact (hactive.ne_failed ht).elim

theorem unreaped_le_of_run (h : execute (step pageCount J) (start J stream) es = .ok s) :
    unreaped s ≤ 64 := by
  rcases List.eq_nil_or_concat' es with rfl | ⟨es,e,rfl⟩
  · cases h
    exact Nat.zero_le _
  · obtain ⟨u,hu,hstep⟩ := execute_concat_ok.mp h
    obtain ⟨⟨posted,hb⟩,-⟩ := filling_of_run hu
    by_cases hp : s.phase = .failed
    · obtain ⟨hw,heq⟩ := unreaped_of_failed hstep hp
      rw [heq]
      exact hb.unreaped_le (by simp [hw])
    · exact (hb.step hstep).unreaped_le hp

end Counter

section Loop
variable {s0 s1 : State}

theorem next_enabled_iff : (∃ t, step pageCount J s .next = .ok t) ↔
    s.phase = .waiting ∧ ¬ s.j < batchEnd J s.i - s.i := by
  constructor
  · rintro ⟨t,ht⟩
    obtain ⟨hp,hj,-⟩ := step_next ht
    exact ⟨hp,hj⟩
  · intro h
    exact ⟨_,if_pos h⟩

theorem reap_enabled_iff : (∃ t, step pageCount J s .reap = .ok t) ↔
    s.phase = .waiting ∧ s.j < batchEnd J s.i - s.i ∧ s.cq ≠ [] := by
  constructor
  · rintro ⟨t,ht⟩
    obtain ⟨c,rest,hp,hj,hcq,-⟩ := step_reap ht
    exact ⟨hp,hj,by simp [hcq]⟩
  · rintro ⟨hp,hj,hcq⟩
    obtain ⟨c,rest,hcons⟩ := List.exists_cons_of_ne_nil hcq
    exact ⟨consume s c rest,by simp only [step,if_pos (And.intro hp hj),hcons]⟩

/-- In the loop over completions of a batch: the counter and the receives consumed. -/
structure InLoop (J : Job) (s0 : State) (cs : List Completion) (s : State) : Prop where
  phase : s.phase = .waiting
  i : s.i = s0.i
  j : s.j = cs.countP (·.isReceive)
  batching : ∃ posted count, Batching J s posted count

theorem InLoop.congr {cs : List Completion} (h : InLoop J s0 cs s) (hphase : t.phase = s.phase)
    (hi : t.i = s.i) (hj : t.j = s.j) (hb : ∃ posted count, Batching J t posted count) :
    InLoop J s0 (cs ++ []) t := by
  rw [List.append_nil]
  exact ⟨hphase.trans h.phase,hi.trans h.i,hj.trans h.j,hb⟩

/-- A step of the loop, of the thread or the kernel, by the kind of event. -/
theorem InLoop.step {cs : List Completion} (h : InLoop J s0 cs s) {e : Event}
    (hstep : step pageCount J s e = .ok t) (hnext : e ≠ .next)
    (hres : ∀ c ∈ consumed s e t, 0 ≤ c.res) : InLoop J s0 (cs ++ consumed s e t) t := by
  obtain ⟨posted,count,hb⟩ := h.batching
  have hbt := hb.step hstep
  cases e with
  | batch =>
    obtain ⟨hp,-,-⟩ := step_batch hstep
    rw [h.phase] at hp
    cases hp
  | reap =>
    obtain ⟨c,rest,hp,hlt,hcq,rfl⟩ := step_reap hstep
    have hle := hb.unreaped_le (by simp [hp])
    obtain ⟨hi,hj⟩ := hb.j_le hp
    have hsize := batchEnd_le hi
    have hc : consumed s .reap (consume s c rest) = [c] := by simp [consumed,hcq]
    rw [hc] at hres ⊢
    have hone := consume_ok s rest (hres c (by simp)) (by unfold sizeMod; omega)
    rw [hone] at hbt ⊢
    refine ⟨h.phase,h.i,?_,⟨_,_,hbt⟩⟩
    rw [List.countP_append,← h.j]
  | next => exact (hnext rfl).elim
  | send res =>
    obtain ⟨j,rest,-,-,rfl⟩ := step_send hstep
    exact h.congr rfl rfl rfl ⟨_,_,hbt⟩
  | postSend i =>
    obtain ⟨res,-,-,rfl⟩ := step_postSend hstep
    exact h.congr rfl rfl rfl ⟨_,_,hbt⟩
  | receive r =>
    obtain ⟨k,rest,res,-,-,-,-,rfl⟩ := step_receive hstep
    exact h.congr rfl rfl rfl ⟨_,_,hbt⟩
  | postReceive i =>
    obtain ⟨res,-,-,rfl⟩ := step_postReceive hstep
    exact h.congr rfl rfl rfl ⟨_,_,hbt⟩

theorem inLoop_of_run (h0 : ∃ posted count, Batching J s0 posted count)
    (hbatch : step pageCount J s0 .batch = .ok s1)
    (h : execute (step pageCount J) s1 es = .ok s) (hnext : .next ∉ es)
    (hres : ∀ c ∈ reaped pageCount J s1 es, 0 ≤ c.res) :
    InLoop J s0 (reaped pageCount J s1 es) s := by
  refine execute_induction (P := fun es s => .next ∉ es →
    (∀ c ∈ reaped pageCount J s1 es, 0 ≤ c.res) → InLoop J s0 (reaped pageCount J s1 es) s)
    ?_ ?_ h hnext hres
  · intro _ _
    obtain ⟨posted,count,hb⟩ := h0
    have hb1 := hb.step hbatch
    obtain ⟨-,-,rfl⟩ := step_batch hbatch
    obtain ⟨-,-,-,-,-,hi⟩ := sendRequests_frame pageCount s0 s0.i (batchEnd J s0.i)
    exact ⟨rfl,hi,rfl,⟨_,_,hb1⟩⟩
  · intro es s e t hs ih hstep hnext hres
    have hlog : reaped pageCount J s1 (es ++ [e]) = reaped pageCount J s1 es ++ consumed s e t :=
      outputs_concat hs hstep
    rw [hlog] at hres ⊢
    have hbefore := ih (fun hmem => hnext (by simp [hmem]))
      (fun c hc => hres c (List.mem_append_left _ hc))
    exact hbefore.step hstep (fun he => hnext (by simp [he]))
      (fun c hc => hres c (List.mem_append_right _ hc))

/-- The loop of a batch stops with its last receive, neither before nor after, and
nothing is outstanding then; no more receives than a batch has are ever outstanding. -/
theorem reaps_own_batch (pageCount : ℕ) (J : Job) (stream : List UInt8) :
    (∀ es s, execute (step pageCount J) (start J stream) es = .ok s → unreaped s ≤ 64) ∧
    ∀ es0 s0 s1 es s, execute (step pageCount J) (start J stream) es0 = .ok s0 →
      step pageCount J s0 .batch = .ok s1 → execute (step pageCount J) s1 es = .ok s →
      .next ∉ es → (∀ c ∈ reaped pageCount J s1 es, 0 ≤ c.res) →
      0 < batchEnd J s0.i - s0.i ∧
      receivesReaped pageCount J s1 es ≤ batchEnd J s0.i - s0.i ∧
      ((∃ t, step pageCount J s .next = .ok t) ↔
        receivesReaped pageCount J s1 es = batchEnd J s0.i - s0.i) ∧
      ((∃ t, step pageCount J s .reap = .ok t) ↔
        s.cq ≠ [] ∧ receivesReaped pageCount J s1 es < batchEnd J s0.i - s0.i) ∧
      unreaped s = batchEnd J s0.i - s0.i - receivesReaped pageCount J s1 es := by
  refine ⟨fun es s h => unreaped_le_of_run h,?_⟩
  intro es0 s0 s1 es s h0 hbatch h hnext hres
  obtain ⟨⟨posted,hb⟩,-⟩ := filling_of_run h0
  have hloop := inLoop_of_run ⟨_,_,hb⟩ hbatch h hnext hres
  obtain ⟨posted',count',hb'⟩ := hloop.batching
  obtain ⟨hlt,hj⟩ := hb'.j_le hloop.phase
  have hsize := batchEnd_le hlt
  have hcount : s.j = receivesReaped pageCount J s1 es := hloop.j
  rw [hloop.i] at hj hlt hsize
  refine ⟨by omega,by omega,?_,?_,by omega⟩
  · rw [next_enabled_iff,hloop.i]
    constructor
    · rintro ⟨-,hstop⟩
      omega
    · intro heq
      exact ⟨hloop.phase,by omega⟩
  · rw [reap_enabled_iff,hloop.i,hcount]
    constructor
    · rintro ⟨-,hless,hcq⟩
      exact ⟨hcq,hless⟩
    · rintro ⟨hcq,hless⟩
      exact ⟨hloop.phase,hless,hcq⟩

/-- A send completes first, so the counter goes below zero and back. -/
def wrappedLoop : List Event :=
  [.send 8,.postSend 0,.reap,.receive (.bytes (frames 42 1 [⟨0,0⟩]).flatten),.postReceive 0,.reap]

theorem reaps_own_batch_wrapped : ∃ s1 s,
    execute (step 1 (firstJob 1 (by decide))) s1 wrappedLoop = .ok s ∧
    (reaped 1 (firstJob 1 (by decide)) s1 wrappedLoop).length = 2 ∧
    receivesReaped 1 (firstJob 1 (by decide)) s1 wrappedLoop = 1 ∧
    (∃ t, step 1 (firstJob 1 (by decide)) s .next = .ok t) ∧ unreaped s = 0 := by
  let J : Job := firstJob 1 (by decide)
  let s0 := start J (frames 42 1 [⟨0,0⟩]).flatten
  have hrun : yields (execute (step 1 J) s0 (.batch :: wrappedLoop)) (fun _ => true) = true := by
    decide +kernel
  obtain ⟨s,hs,-⟩ := exists_of_yields hrun
  obtain ⟨s1,hbatch,hs⟩ := execute_cons_ok.mp hs
  have hlog : reaped 1 J s1 wrappedLoop = [.send 8,.receive 140] := by
    have hwhole : reaped 1 J s0 (.batch :: wrappedLoop) = [.send 8,.receive 140] := by
      decide +kernel
    rw [← hwhole,reaped,reaped,outputs,hbatch]
    rfl
  have hone : receivesReaped 1 J s1 wrappedLoop = 1 := by rw [receivesReaped,hlog]; rfl
  obtain ⟨-,-,hnext,-,hzero⟩ := (reaps_own_batch 1 J (frames 42 1 [⟨0,0⟩]).flatten).2 [] s0 s1
    wrappedLoop s rfl hbatch hs (by simp [wrappedLoop]) (by simp [hlog,Completion.res])
  rw [hone] at hnext hzero
  exact ⟨s1,s,hs,by rw [hlog]; rfl,hone,hnext.mpr rfl,hzero⟩

end Loop

end FastNet.GetPage.ClientIou
