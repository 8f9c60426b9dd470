import FastNet.Foundation.ResultRing
import FastNet.Simple.ClientReturn

/-! # The sending thread of max_client

`send_data` from the first test of its loop. One event is the part of an iteration
up to the submission, the handling of one completion, the end of the pass over the
completion queue with the test of the loop, or a kernel event. All sends share one
buffer, so only their number and their results matter.
-/
namespace FastNet.Max.Client
open Execution Simple
open Simple.Client (Job oneRequest)

inductive Phase
  | top
  | reaping
  | returned
  deriving DecidableEq, Repr

structure State where
  ring : ResultRing
  phase : Phase
  requestsSent : ℕ
  requestsCompleted : ℕ
  /-- The results of all sends the kernel has executed, oldest first. -/
  reported : List ℤ

inductive Event
  | iterate
  | reap
  | finish
  | kernel (e : ResultRing.Event)
  deriving DecidableEq

/-- The results of sends that become known with the event. -/
def Event.result : Event → List ℤ
  | .kernel e => e.result
  | _ => []

variable (K : Consts) (J : Job)

/-- The test of the loop that queues sends; the difference is a `size_t`. -/
def sendGuard (requestsSent requestsCompleted : ℕ) : Prop :=
  requestsSent < J.numRequests ∧
    (requestsSent + sizeMod - requestsCompleted) % sizeMod < K.ringSize

instance (a b : ℕ) : Decidable (sendGuard K J a b) := by unfold sendGuard; infer_instance

/-- The loop that queues sends; `left` counts the requests not yet sent. -/
def sendLoop : ℕ → State → State
  | 0, s => s
  | left + 1, s =>
    if sendGuard K J s.requestsSent s.requestsCompleted then
      match s.ring.getSqe with
      | some ring => sendLoop left { s with ring := ring, requestsSent := s.requestsSent + 1 }
      | none => s
    else s

/-- From the head of the loop to the call of `io_uring_submit`. -/
def iterate (s : State) : State :=
  let s1 := sendLoop K J (J.numRequests - s.requestsSent) s
  { s1 with ring := s1.ring.submit, phase := .reaping }

/-- The body of the pass over the completion queue. -/
def reap (s : State) (res : ℤ) (rest : List ℤ) : State :=
  if res < 0 then { s with ring := s.ring.seen rest }
  else { s with ring := s.ring.seen rest, requestsCompleted := s.requestsCompleted + 1 }

/-- The test of the outer loop, on entry and after each iteration. -/
def testLoop (s : State) : State :=
  if s.requestsCompleted < J.numRequests then { s with phase := .top }
  else { s with phase := .returned }

def step (s : State) : Event → Except Stop State
  | .iterate => if s.phase = .top then .ok (iterate K J s) else .error .disabled
  | .reap =>
    if s.phase = .reaping then
      match s.ring.cq with
      | [] => .error .disabled
      | res :: rest => .ok (reap s res rest)
    else .error .disabled
  | .finish =>
    if s.phase = .reaping ∧ s.ring.cq = [] then .ok (testLoop J s) else .error .disabled
  | .kernel e => do
    let ring ← s.ring.kernel K.pageLen e
    return { s with ring := ring, reported := s.reported ++ e.result }

/-- The state in which the loop is first tested. -/
def start : State := testLoop J ⟨.queueInit K.ringSize,.top,0,0,[]⟩

/-- The inner loop can queue another send. -/
def CanQueue (s : State) : Prop :=
  sendGuard K J s.requestsSent s.requestsCompleted ∧ s.ring.getSqe.isSome

instance (s : State) : Decidable (CanQueue K J s) := by unfold CanQueue; infer_instance

/-- The loop goes on, but nothing is in flight, no completion waits and no send can
be queued. -/
def Stuck (s : State) : Prop :=
  s.requestsCompleted < J.numRequests ∧ s.ring.pending = 0 ∧ s.ring.done = [] ∧
    s.ring.cq = [] ∧ ¬ CanQueue K J s

instance (s : State) : Decidable (Stuck K J s) := by unfold Stuck; infer_instance

/-- No send of the run ends with a negative result. -/
def NoFailure (es : List Event) : Prop := ∀ e ∈ es, ∀ res ∈ e.result, 0 ≤ res

instance (es : List Event) : Decidable (NoFailure es) := by unfold NoFailure; infer_instance

/-- The numbers at the events: what was sent is pending or reported, and what was
reported without an error is counted or still in the ring. -/
structure Inv (s : State) : Prop where
  entries : 0 < s.ring.sqEntries
  sq : s.ring.sq = 0
  sent_le : s.requestsSent ≤ J.numRequests
  sent : s.requestsSent = s.ring.pending + s.reported.length
  completed : s.requestsCompleted + s.ring.results.countP (fun res => 0 ≤ res) =
    s.reported.countP (fun res => 0 ≤ res)
  returned : s.phase = .returned → J.numRequests ≤ s.requestsCompleted

variable {K J} {s t : State} {es : List Event} {e : Event}

section Steps

/-- The loop that queues sends hands some entries to the ring, at least one if it can. -/
theorem sendLoop_eq (left : ℕ) (s : State) :
    ∃ k ≤ left, (CanQueue K J s → left ≠ 0 → k ≠ 0) ∧ sendLoop K J left s =
      { s with
        ring := { s.ring with sq := s.ring.sq + k }
        requestsSent := s.requestsSent + k } := by
  induction left generalizing s with
  | zero => exact ⟨0,Nat.le_refl 0,fun _ h => absurd rfl h,rfl⟩
  | succ left ih =>
    by_cases hg : sendGuard K J s.requestsSent s.requestsCompleted
    · cases hq : s.ring.getSqe with
      | none =>
        refine ⟨0,Nat.zero_le _,?_,by simp [sendLoop,hg,hq]⟩
        rintro ⟨-,hsome⟩
        simp [hq] at hsome
      | some ring =>
        obtain ⟨-,rfl⟩ := ResultRing.getSqe_some hq
        obtain ⟨k,hk,-,heq⟩ := ih
          { s with
            ring := { s.ring with sq := s.ring.sq + 1 }
            requestsSent := s.requestsSent + 1 }
        refine ⟨k + 1,Nat.succ_le_succ hk,fun _ _ => Nat.succ_ne_zero k,?_⟩
        simp only [sendLoop,if_pos hg,hq,heq,Nat.add_assoc,Nat.add_comm 1 k]
    · exact ⟨0,Nat.zero_le _,fun h => absurd h.1 hg,by simp [sendLoop,hg]⟩

theorem iterate_eq (s : State) :
    ∃ k ≤ J.numRequests - s.requestsSent, (CanQueue K J s → k ≠ 0) ∧ iterate K J s =
      { s with
        ring := { s.ring with sq := 0, pending := s.ring.pending + (s.ring.sq + k) }
        phase := .reaping
        requestsSent := s.requestsSent + k } := by
  obtain ⟨k,hk,hpos,heq⟩ := sendLoop_eq (K := K) (J := J) (J.numRequests - s.requestsSent) s
  refine ⟨k,hk,?_,by simp only [iterate,heq,ResultRing.submit]⟩
  intro hq
  have hlt : s.requestsSent < J.numRequests := hq.1.1
  exact hpos hq (by omega)

/-- All that a step can do. -/
theorem step_cases (h : step K J s e = .ok t) :
    (e = .iterate ∧ s.phase = .top ∧ t = iterate K J s) ∨
    (∃ res rest, e = .reap ∧ s.phase = .reaping ∧ s.ring.cq = res :: rest ∧
      t = reap s res rest) ∨
    (e = .finish ∧ s.phase = .reaping ∧ s.ring.cq = [] ∧ t = testLoop J s) ∨
    ∃ d ring, e = .kernel d ∧ s.ring.kernel K.pageLen d = .ok ring ∧
      t = { s with ring := ring, reported := s.reported ++ d.result } := by
  cases e with
  | iterate =>
    simp only [step] at h
    split at h
    · rename_i hp
      cases h
      exact Or.inl ⟨rfl,hp,rfl⟩
    · cases h
  | reap =>
    simp only [step] at h
    split at h
    · rename_i hp
      split at h
      · cases h
      · rename_i res rest hcq
        cases h
        exact Or.inr (Or.inl ⟨res,rest,rfl,hp,hcq,rfl⟩)
    · cases h
  | finish =>
    simp only [step] at h
    split at h
    · rename_i hp
      cases h
      exact Or.inr (Or.inr (Or.inl ⟨rfl,hp.1,hp.2,rfl⟩))
    · cases h
  | kernel d =>
    obtain ⟨ring,hring,h⟩ := bind_ok.mp h
    cases h
    exact Or.inr (Or.inr (Or.inr ⟨d,ring,rfl,hring,rfl⟩))

theorem reported_step (h : step K J s e = .ok t) : t.reported = s.reported ++ e.result := by
  rcases step_cases h with ⟨rfl,-,rfl⟩ | ⟨res,rest,rfl,-,-,rfl⟩ | ⟨rfl,-,-,rfl⟩ |
    ⟨d,ring,rfl,-,rfl⟩
  · obtain ⟨k,-,-,heq⟩ := iterate_eq (K := K) (J := J) s
    simp [heq,Event.result]
  · unfold reap
    split <;> simp [Event.result]
  · unfold testLoop
    split <;> simp [Event.result]
  · rfl

theorem Event.result_cases (e : Event) : e.result = [] ∨ ∃ res, e.result = [res] := by
  cases e with
  | kernel d =>
    cases d with
    | exec res => exact Or.inr ⟨res,rfl⟩
    | post i => exact Or.inl rfl
  | _ => exact Or.inl rfl

theorem result_le (h : step K J s e = .ok t) : ∀ res ∈ e.result, res ≤ K.pageLen := by
  rcases step_cases h with ⟨rfl,-⟩ | ⟨res,rest,rfl,-⟩ | ⟨rfl,-⟩ | ⟨d,ring,rfl,hring,-⟩
  · simp [Event.result]
  · simp [Event.result]
  · simp [Event.result]
  · exact (ResultRing.kernel_ok hring).2.2.2.2

theorem reported_execute (h : execute (step K J) s es = .ok t) :
    t.reported = s.reported ++ es.flatMap Event.result := by
  apply execute_induction (P := fun es t => t.reported = s.reported ++ es.flatMap Event.result) _ _ h
  · simp
  · intro es t e u _ ht hu
    rw [reported_step hu,ht]
    simp

theorem reported_start : (start K J).reported = [] := by
  unfold start testLoop
  split <;> rfl

theorem noFailure_iff (h : execute (step K J) (start K J) es = .ok s) :
    NoFailure es ↔ ∀ res ∈ s.reported, 0 ≤ res := by
  rw [reported_execute h,reported_start]
  simp only [NoFailure,List.nil_append,List.mem_flatMap]
  exact ⟨fun hn res ⟨e,he,hres⟩ => hn e he res hres,fun hn e he res hres => hn res ⟨e,he,hres⟩⟩

end Steps

section Invariant

theorem Inv.start : Inv J (start K J) := by
  have hentries : 0 < Ring.roundUp K.ringSize := by
    unfold Ring.roundUp
    positivity
  unfold Client.start testLoop
  split
  · exact ⟨hentries,rfl,Nat.zero_le _,rfl,rfl,by simp⟩
  · rename_i hn
    exact ⟨hentries,rfl,Nat.zero_le _,rfl,rfl,fun _ => Nat.le_of_not_lt hn⟩

theorem Inv.iterate (hi : Inv J s) : Inv J (iterate K J s) := by
  obtain ⟨k,hk,-,heq⟩ := iterate_eq (K := K) (J := J) s
  have hsq := hi.sq
  have hsent := hi.sent
  have hle := hi.sent_le
  rw [heq]
  refine ⟨hi.entries,rfl,?_,?_,hi.completed,by simp⟩ <;>
  · dsimp only
    omega

theorem Inv.reap (hi : Inv J s) (hp : s.phase = .reaping) {res : ℤ} {rest : List ℤ}
    (hcq : s.ring.cq = res :: rest) : Inv J (reap s res rest) := by
  have hcount := hi.completed
  simp only [ResultRing.results,hcq,List.countP_append] at hcount
  unfold Client.reap
  split
  · rename_i hres
    refine ⟨hi.entries,hi.sq,hi.sent_le,hi.sent,?_,by simp [hp]⟩
    rw [List.countP_cons_of_neg (by simpa using hres)] at hcount
    simpa only [ResultRing.results,ResultRing.seen,List.countP_append] using hcount
  · rename_i hres
    refine ⟨hi.entries,hi.sq,hi.sent_le,hi.sent,?_,by simp [hp]⟩
    rw [List.countP_cons_of_pos (by simpa using hres)] at hcount
    simp only [ResultRing.results,ResultRing.seen,List.countP_append]
    omega

theorem Inv.testLoop (hi : Inv J s) : Inv J (testLoop J s) := by
  unfold Client.testLoop
  split
  · exact ⟨hi.entries,hi.sq,hi.sent_le,hi.sent,hi.completed,by simp⟩
  · rename_i hn
    exact ⟨hi.entries,hi.sq,hi.sent_le,hi.sent,hi.completed,fun _ => Nat.le_of_not_lt hn⟩

theorem Inv.kernel (hi : Inv J s) {e : ResultRing.Event} {ring : ResultRing}
    (h : s.ring.kernel K.pageLen e = .ok ring) :
    Inv J { s with ring := ring, reported := s.reported ++ e.result } := by
  obtain ⟨hentries,hsq,hpending,hperm,-⟩ := ResultRing.kernel_ok h
  have hsent := hi.sent
  have hcount := hi.completed
  refine ⟨hentries ▸ hi.entries,hsq.trans hi.sq,hi.sent_le,?_,?_,hi.returned⟩
  · simp only [List.length_append]
    omega
  · simp only [hperm.countP_eq,List.countP_append]
    omega

theorem Inv.step (hi : Inv J s) (h : step K J s e = .ok t) : Inv J t := by
  rcases step_cases h with ⟨-,-,rfl⟩ | ⟨res,rest,-,hp,hcq,rfl⟩ | ⟨-,-,-,rfl⟩ |
    ⟨d,ring,-,hring,rfl⟩
  · exact hi.iterate
  · exact hi.reap hp hcq
  · exact hi.testLoop
  · exact hi.kernel hring

theorem Inv.of_execute (h : execute (Client.step K J) (Client.start K J) es = .ok s) : Inv J s :=
  execute_invariant (fun _ _ _ hi => hi.step) h Inv.start

/-- A loop that is left has had a result of every send. -/
theorem Inv.reported_length (hi : Inv J s) (hp : s.phase = .returned) :
    s.reported.length = J.numRequests := by
  have hlen := List.countP_le_length (p := fun res : ℤ => 0 ≤ res) (l := s.reported)
  have hsent := hi.sent
  have hle := hi.sent_le
  have hcount := hi.completed
  have hret := hi.returned hp
  omega

/-- With a failed send behind it the loop is not left. -/
theorem Inv.completed_lt (hi : Inv J s) (hfail : ∃ res ∈ s.reported, res < 0) :
    s.requestsCompleted < J.numRequests := by
  obtain ⟨res,hres,hneg⟩ := hfail
  have hne : s.reported.countP (fun res => 0 ≤ res) ≠ s.reported.length := by
    intro heq
    have hnonneg := List.countP_eq_length.mp heq res hres
    simp only [decide_eq_true_eq] at hnonneg
    omega
  have hlen := List.countP_le_length (p := fun res : ℤ => 0 ≤ res) (l := s.reported)
  have hsent := hi.sent
  have hle := hi.sent_le
  have hcount := hi.completed
  omega

/-- Without a failed send an empty ring means that nothing keeps the window closed. -/
theorem Inv.not_stuck (hi : Inv J s) (hr : 1 ≤ K.ringSize) (hok : ∀ res ∈ s.reported, 0 ≤ res) :
    ¬ Stuck K J s := by
  rintro ⟨hlt,hpending,hdone,hcq,hqueue⟩
  have hcount := hi.completed
  rw [ResultRing.results,hdone,hcq,List.append_nil,List.countP_nil,
    List.countP_eq_length.mpr (by simpa using hok)] at hcount
  have hsent := hi.sent
  have heq : s.requestsSent = s.requestsCompleted := by omega
  refine hqueue ⟨⟨by omega,?_⟩,?_⟩
  · rw [heq,Nat.add_sub_cancel_left,Nat.mod_self]
    omega
  · simp [ResultRing.getSqe,hi.sq,hi.entries]

end Invariant

section Descent

/-- A pass that takes no completion, or the way to one that does. -/
def idlePass (s : State) : ℕ :=
  if s.phase = .top ∧ s.ring.cq ≠ [] ∨ s.phase = .reaping ∧ s.ring.cq = [] then 1 else 0

theorem idlePass_le (s : State) : idlePass s ≤ 1 := by
  unfold idlePass
  split <;> omega

/-- What is still to be done, each send counted until its completion is taken. -/
def rank (J : Job) (s : State) : ℕ :=
  8 * (J.numRequests - s.requestsSent) + 6 * s.ring.pending + 4 * s.ring.done.length +
    2 * s.ring.cq.length + idlePass s

theorem exists_kernel_step (hflight : s.ring.pending ≠ 0 ∨ s.ring.done ≠ []) :
    ∃ e t, (∀ res ∈ e.result, 0 ≤ res) ∧ step K J s e = .ok t ∧ rank J t < rank J s := by
  by_cases hp : s.ring.pending = 0
  · obtain ⟨res,rest,hdone⟩ := List.exists_cons_of_ne_nil (hflight.resolve_left (not_not_intro hp))
    refine ⟨.kernel (.post 0),_,by simp [Event.result,ResultRing.Event.result],
      bind_ok.mpr ⟨_,ResultRing.post_ok hdone,rfl⟩,?_⟩
    unfold rank
    refine lt_of_le_of_lt (Nat.add_le_add_left (idlePass_le _) _) ?_
    simp only [hdone,List.length_append,List.length_cons,List.length_nil]
    omega
  · refine ⟨.kernel (.exec 0),_,by simp [Event.result,ResultRing.Event.result],
      bind_ok.mpr ⟨_,ResultRing.exec_ok hp (Int.natCast_nonneg _),rfl⟩,?_⟩
    simp only [rank,idlePass,List.length_append,List.length_singleton]
    omega

/-- Until it is stuck, a loop that has seen a failed send can go on without another one. -/
theorem exists_step (hi : Inv J s) (hfail : ∃ res ∈ s.reported, res < 0)
    (hs : ¬ Stuck K J s) :
    ∃ e t, (∀ res ∈ e.result, 0 ≤ res) ∧ step K J s e = .ok t ∧ rank J t < rank J s := by
  have hlt := hi.completed_lt hfail
  by_cases hflight : s.ring.pending ≠ 0 ∨ s.ring.done ≠ []
  · exact exists_kernel_step hflight
  · rw [not_or,not_not,not_not] at hflight
    obtain ⟨hpending,hdone⟩ := hflight
    cases hp : s.phase with
    | top =>
      obtain ⟨k,hk,hpos,heq⟩ := iterate_eq (K := K) (J := J) s
      refine ⟨.iterate,iterate K J s,by simp [Event.result],by simp [step,hp],?_⟩
      by_cases hcq : s.ring.cq = []
      · have hne := hpos (by
          by_contra hq
          exact hs ⟨hlt,hpending,hdone,hcq,hq⟩)
        simp only [rank,idlePass,heq,hp,hcq,hi.sq,reduceCtorEq,ne_eq,not_true_eq_false,and_false,
          and_self,or_true,if_true]
        omega
      · simp only [rank,idlePass,heq,hp,hcq,hi.sq,reduceCtorEq,ne_eq,not_false_eq_true,and_false,
          and_true,or_false,or_self,if_true,if_false]
        omega
    | reaping =>
      cases hcq : s.ring.cq with
      | nil =>
        refine ⟨.finish,testLoop J s,by simp [Event.result],by simp [step,hp,hcq],?_⟩
        simp [testLoop,if_pos hlt,rank,idlePass,hp,hcq]
      | cons res rest =>
        refine ⟨.reap,reap s res rest,by simp [Event.result],by simp [step,hp,hcq],?_⟩
        have hle := idlePass_le (reap s res rest)
        have hring : (reap s res rest).ring = s.ring.seen rest := by
          unfold reap
          split <;> rfl
        have hsent : (reap s res rest).requestsSent = s.requestsSent := by
          unfold reap
          split <;> rfl
        simp only [rank,hring,hsent,ResultRing.seen,hcq,List.length_cons]
        omega
    | returned =>
      have hret := hi.returned hp
      omega

/-- From every state with a failed send behind it some run without a further one is stuck. -/
theorem exists_stuck (hi : Inv J s) (hfail : ∃ res ∈ s.reported, res < 0) :
    ∃ es t, NoFailure es ∧ execute (step K J) s es = .ok t ∧ Stuck K J t := by
  refine exists_execute_of_rank (P := fun s => Inv J s ∧ ∃ res ∈ s.reported, res < 0)
    (rank J) ?_ ⟨hi,hfail⟩
  rintro s ⟨hi,hfail⟩ hs
  obtain ⟨e,t,he,ht,hlt⟩ := exists_step hi hfail hs
  refine ⟨e,t,he,ht,⟨hi.step ht,?_⟩,hlt⟩
  obtain ⟨res,hres,hneg⟩ := hfail
  exact ⟨res,by rw [reported_step ht]; exact List.mem_append_left _ hres,hneg⟩

end Descent

/-- The loop cannot get stuck, now or later, exactly when no send has failed so far. -/
theorem never_stuck_iff (hr : 1 ≤ K.ringSize)
    (h : execute (step K J) (start K J) es = .ok s) :
    (∀ fs t, NoFailure fs → execute (step K J) s fs = .ok t → ¬ Stuck K J t) ↔
      NoFailure es := by
  have hi := Inv.of_execute h
  constructor
  · intro hnever
    rw [noFailure_iff h]
    by_contra hfail
    push Not at hfail
    obtain ⟨fs,t,hfs,ht,hstuck⟩ := exists_stuck hi hfail
    exact hnever fs t hfs ht hstuck
  · intro hok fs t hfs ht
    have hrun : execute (step K J) (start K J) (es ++ fs) = .ok t :=
      execute_append_ok.mpr ⟨s,h,ht⟩
    have hall : NoFailure (es ++ fs) := by
      intro e he
      exact (List.mem_append.mp he).elim (hok e) (hfs e)
    exact (Inv.of_execute hrun).not_stuck hr ((noFailure_iff hrun).mp hall)

/-- The send of one request ends with the given result, and the completion is taken. -/
def oneSend (res : ℤ) : List Event :=
  [.iterate,.kernel (.exec res),.kernel (.post 0),.reap,.finish]

theorem never_stuck_oneSend :
    ∃ s, execute (step Consts.small oneRequest) (start Consts.small oneRequest) (oneSend 4) = .ok s ∧
      ∀ fs t, NoFailure fs → execute (step Consts.small oneRequest) s fs = .ok t →
        ¬ Stuck Consts.small oneRequest t := by
  have hrun : yields (execute (step Consts.small oneRequest) (start Consts.small oneRequest) (oneSend 4))
      (fun _ => true) = true := by decide +kernel
  obtain ⟨s,hs,-⟩ := exists_of_yields hrun
  exact ⟨s,hs,(never_stuck_iff (by decide) hs).mpr (by decide)⟩

/-- A send that fails is not sent again and not counted, so its loop does not end. -/
theorem stuck_oneSend :
    1 ≤ Consts.small.ringSize ∧
      ∃ s, execute (step Consts.small oneRequest) (start Consts.small oneRequest) (oneSend (-1)) = .ok s ∧
        Stuck Consts.small oneRequest s := by
  have hrun : yields (execute (step Consts.small oneRequest) (start Consts.small oneRequest) (oneSend (-1)))
      (fun s => Stuck Consts.small oneRequest s) = true := by decide +kernel
  obtain ⟨s,hs,htest⟩ := exists_of_yields hrun
  exact ⟨by decide,s,hs,by simpa using htest⟩

end FastNet.Max.Client
