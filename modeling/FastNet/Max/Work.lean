import FastNet.Foundation.Fairness
import FastNet.Foundation.RingWork
import FastNet.Max.Accounting
import Mathlib.Algebra.Order.BigOperators.Group.Finset

/-! # The work of the max benchmark

A handler posts a read for each one it takes off, so that as many are out as the ring
has entries, and no entry is asked for in vain. A byte that is sent can be counted by
one read, so the sends still to be made, the bytes on their way and the operations in
the rings bound all steps but the passes of a client that find nothing to do.
-/
namespace FastNet.Max.Work
open Execution Simple
open Simple.Client (Job threadJob)
open Accounting (Conn State Event connStep step start Finished Inv)

variable (K : Consts) (J : Job)

/-- Half a pass of a sending loop that takes nothing and queues nothing. -/
def Idle (c : Client.State) : Event → Prop
  | .client .iterate => c.ring.cq = [] ∧ ¬ Client.CanQueue K J c
  | .client .finish => c.requestsCompleted < J.numRequests ∧ ¬ Client.CanQueue K J c
  | _ => False

instance (c : Client.State) (e : Event) : Decidable (Idle K J c e) := by
  unfold Idle
  split <;> infer_instance

/-- The results of operations that become known with the event. -/
def result : Event → List ℤ
  | .client e => e.result
  | .handler (.kernel e) => e.result
  | .handler .take => []

/-- No operation fails with the event. -/
def Plain (e : Event) : Prop := ∀ res ∈ result e, 0 ≤ res

/-- A send that is made leads to as many reads as it has bytes. -/
def sendWeight : ℕ := 3 * K.pageLen + 6

/-- What the place in the loop adds: the way round to a completion that waits or to an
entry that can be filled. -/
def stage (c : Client.State) : ℕ :=
  match c.phase with
  | .top => if c.ring.cq = [] then 1 else 2
  | .reaping => if Client.CanQueue K J c then 2 else 1
  | .returned => 0

def clientWork (c : Client.State) : ℕ :=
  (sendWeight K + 2) * (J.numRequests - c.requestsSent) + sendWeight K * c.ring.pending +
    4 * c.ring.done.length + 2 * c.ring.cq.length + stage K J c

/-- A read that ends with bytes is followed by another one. -/
def handlerWork (h : Server.State) : ℕ :=
  2 * h.ring.pending + (h.ring.done.map (fun res => if 0 < res then 4 else 1)).sum +
    (h.ring.cq.map (fun res => if 0 < res then 3 else 0)).sum +
      if h.phase = .running then 1 else 0

def connWork (c : Conn) : ℕ := clientWork K J c.client + handlerWork c.handler + 3 * c.stream

/-- The reads that a handler has out, counted until they are taken off. -/
def reads (h : Server.State) : ℕ := h.ring.pending + h.ring.done.length + h.ring.cq.length

/-- The reads fill the ring; the one that ended the loop was not posted again. -/
structure Filled (h : Server.State) : Prop where
  entries : 0 < h.ring.sqEntries
  sq : h.ring.sq = 0
  reads : reads h + (if h.phase = .returned then 1 else 0) = K.ringSize

variable {K J} {c d : Conn} {e : Event} {total total' : ℕ}

section Client
variable {a b : Client.State}

theorem stage_pos (h : a.phase ≠ .returned) : 1 ≤ stage K J a := by
  unfold stage
  cases hp : a.phase with
  | top =>
    dsimp only
    split <;> omega
  | reaping =>
    dsimp only
    split <;> omega
  | returned => exact absurd hp h

theorem stage_le : stage K J a ≤ 2 := by
  unfold stage
  cases a.phase with
  | top =>
    dsimp only
    split <;> omega
  | reaping =>
    dsimp only
    split <;> omega
  | returned => exact Nat.zero_le 2

theorem canQueue_congr (hsq : b.ring.sq = a.ring.sq)
    (hentries : b.ring.sqEntries = a.ring.sqEntries) (hsent : b.requestsSent = a.requestsSent)
    (hcompleted : b.requestsCompleted = a.requestsCompleted) :
    Client.CanQueue K J b ↔ Client.CanQueue K J a := by
  unfold Client.CanQueue ResultRing.getSqe
  rw [hsq,hentries,hsent,hcompleted]
  split <;> simp

theorem stage_congr (hphase : b.phase = a.phase) (hcq : b.ring.cq = a.ring.cq)
    (hq : Client.CanQueue K J b ↔ Client.CanQueue K J a) : stage K J b = stage K J a := by
  unfold stage
  simp only [hphase,hcq,hq]

theorem work_iterate (hi : Client.Inv J a) (hp : a.phase = .top) :
    clientWork K J (Client.iterate K J a) ≤ clientWork K J a ∧
      (¬ Idle K J a (.client .iterate) →
        clientWork K J (Client.iterate K J a) < clientWork K J a) := by
  obtain ⟨k,hk,hpos,heq⟩ := Client.iterate_eq (K := K) (J := J) a
  obtain ⟨m,hm⟩ : ∃ m, J.numRequests - a.requestsSent = m + k :=
    ⟨J.numRequests - a.requestsSent - k,by omega⟩
  have hleft : J.numRequests - (a.requestsSent + k) = m := by omega
  have hbefore := stage_pos (K := K) (J := J) (a := a) (by simp [hp])
  have hafter := stage_le (K := K) (J := J) (a := Client.iterate K J a)
  have hcost : clientWork K J (Client.iterate K J a) + 2 * k + stage K J a =
      clientWork K J a + stage K J (Client.iterate K J a) := by
    rw [clientWork,clientWork,heq]
    simp only [hleft,hm,hi.sq,Nat.zero_add,Nat.mul_add,Nat.add_mul]
    omega
  by_cases hk0 : k = 0
  · have hnot : ¬ Client.CanQueue K J a := fun hq => hpos hq hk0
    have hone : stage K J (Client.iterate K J a) = 1 := by
      rw [heq,hk0]
      refine if_neg fun hq => hnot ⟨hq.1,?_⟩
      simp [ResultRing.getSqe,hi.sq,hi.entries]
    have hstage : stage K J a = if a.ring.cq = [] then 1 else 2 := by simp only [stage,hp]
    refine ⟨by omega,fun hidle => ?_⟩
    have hcq : a.ring.cq ≠ [] := fun hcq => hidle ⟨hcq,hnot⟩
    rw [if_neg hcq] at hstage
    omega
  · omega

theorem work_reap (hp : a.phase = .reaping) {res : ℤ} {rest : List ℤ}
    (hcq : a.ring.cq = res :: rest) :
    clientWork K J (Client.reap a res rest) < clientWork K J a := by
  have hbefore := stage_pos (K := K) (J := J) (a := a) (by simp [hp])
  have hafter := stage_le (K := K) (J := J) (a := Client.reap a res rest)
  have hring : (Client.reap a res rest).ring = a.ring.seen rest := by
    unfold Client.reap
    split <;> rfl
  have hsent : (Client.reap a res rest).requestsSent = a.requestsSent := by
    unfold Client.reap
    split <;> rfl
  simp only [clientWork,hring,hsent,ResultRing.seen,hcq,List.length_cons]
  omega

theorem work_finish (hp : a.phase = .reaping) (hcq : a.ring.cq = []) :
    clientWork K J (Client.testLoop J a) ≤ clientWork K J a ∧
      (¬ Idle K J a (.client .finish) →
        clientWork K J (Client.testLoop J a) < clientWork K J a) := by
  have hbefore : stage K J a = if Client.CanQueue K J a then 2 else 1 := by simp only [stage,hp]
  unfold Client.testLoop
  split
  · rename_i hlt
    have hafter : stage K J { a with phase := .top } = 1 := if_pos hcq
    simp only [clientWork,hafter,hbefore,Idle,hlt,true_and,not_not]
    split
    · rename_i hq
      exact ⟨by omega,fun _ => by omega⟩
    · rename_i hq
      exact ⟨le_rfl,fun hq' => absurd hq' hq⟩
  · have hafter : stage K J { a with phase := .returned } = 0 := rfl
    have hpos := stage_pos (K := K) (J := J) (a := a) (by simp [hp])
    simp only [clientWork,hafter]
    omega

end Client

section Kernel
variable {a : Client.State} {h h' : Server.State} {ring : ResultRing}

theorem work_kernel {e : ResultRing.Event} (hring : a.ring.kernel K.pageLen e = .ok ring) :
    clientWork K J { a with ring := ring, reported := a.reported ++ e.result } +
      3 * (e.result.map Int.toNat).sum < clientWork K J a := by
  cases e with
  | exec res =>
    obtain ⟨hp,hle,rfl⟩ := ResultRing.kernel_exec hring
    obtain ⟨m,hm⟩ : ∃ m, a.ring.pending = m + 1 := ⟨a.ring.pending - 1,by omega⟩
    have hstage : stage K J { a with
        ring := { a.ring with pending := a.ring.pending - 1, done := a.ring.done ++ [res] }
        reported := a.reported ++ ResultRing.Event.result (.exec res) } = stage K J a := 
      stage_congr rfl rfl (canQueue_congr rfl rfl rfl rfl)
    have hbytes : res.toNat ≤ K.pageLen := by omega
    rw [clientWork,clientWork,hstage]
    simp only [ResultRing.Event.result,hm,Nat.add_sub_cancel,List.length_append,
      List.length_singleton,List.map_cons,List.map_nil,List.sum_singleton,Nat.mul_add]
    unfold sendWeight
    omega
  | post i =>
    simp only [ResultRing.kernel] at hring
    split at hring
    · cases hring
    · rename_i res hres
      cases hring
      have hlen := RingView.length_eraseIdx_of_some hres
      have hstage : stage K J { a with
          ring := { a.ring with done := a.ring.done.eraseIdx i, cq := a.ring.cq ++ [res] }
          reported := a.reported ++ ResultRing.Event.result (.post i) } ≤ stage K J a + 1 := by
        unfold stage
        cases a.phase with
        | top =>
          dsimp only
          split <;> split <;> omega
        | reaping =>
          dsimp only
          split <;> split <;> omega
        | returned => exact Nat.zero_le _
      simp only [clientWork,List.length_append,List.length_singleton]
      simp only [ResultRing.Event.result,List.map_nil,List.sum_nil] at hstage ⊢
      omega

/-- A read takes its bytes off the connection, and each of them pays for another read. -/
theorem handlerWork_exec {res : ℤ} (hring : h.ring.kernel K.pageLen (.exec res) = .ok ring) :
    handlerWork { h with ring := ring } < handlerWork h + 3 * res.toNat := by
  obtain ⟨hp,-,rfl⟩ := ResultRing.kernel_exec hring
  simp only [handlerWork,List.map_append,List.sum_append,List.map_cons,List.map_nil,
    List.sum_singleton]
  split <;> omega

theorem handlerWork_post {i : ℕ} (hring : h.ring.kernel K.pageLen (.post i) = .ok ring) :
    handlerWork { h with ring := ring } < handlerWork h := by
  simp only [ResultRing.kernel] at hring
  split at hring
  · cases hring
  · rename_i res hres
    cases hring
    have hsum := RingView.sum_map_eraseIdx hres (fun res : ℤ => if 0 < res then 4 else 1)
    simp only [handlerWork,List.map_append,List.sum_append,List.map_cons,List.map_nil,
      List.sum_singleton]
    by_cases hpos : 0 < res
    · simp only [hpos,if_true] at hsum ⊢
      omega
    · simp only [hpos,if_false] at hsum ⊢
      omega

theorem filled_kernel (hf : Filled K h) {e : ResultRing.Event}
    (hring : h.ring.kernel K.pageLen e = .ok ring) : Filled K { h with ring := ring } := by
  obtain ⟨hentries,hsq,hpending,hperm,-⟩ := ResultRing.kernel_ok hring
  have hlen := hperm.length_eq
  have hreads := hf.reads
  simp only [ResultRing.results,List.length_append] at hlen
  refine ⟨hentries ▸ hf.entries,hsq.trans hf.sq,?_⟩
  unfold reads at hreads ⊢
  dsimp only
  omega

/-- All that taking a completion can do. -/
theorem take_eq (ht : Server.take h total = .ok (h',total')) :
    h.phase = .running ∧ ∃ res rest, h.ring.cq = res :: rest ∧
      (res ≤ 0 ∧ h' = { h with ring := h.ring.seen rest, phase := .returned } ∨
        0 < res ∧ h' = { h with
          ring := { h.ring with sq := 0, pending := h.ring.pending + (h.ring.sq + 1), cq := rest }
          received := h.received + res.toNat }) := by
  unfold Server.take at ht
  split at ht
  · rename_i res rest hp hcq
    refine ⟨hp,res,rest,hcq,?_⟩
    split at ht
    · rename_i hres
      cases ht
      exact Or.inl ⟨hres,rfl⟩
    · rename_i hres
      obtain ⟨ring,hring,ht⟩ := bind_ok.mp ht
      cases ht
      rw [Server.addReadRequest_ok hring]
      exact Or.inr ⟨by omega,rfl⟩
  · cases ht

theorem handlerWork_take (hf : Filled K h) (ht : Server.take h total = .ok (h',total')) :
    Filled K h' ∧ handlerWork h' < handlerWork h := by
  obtain ⟨hp,res,rest,hcq,⟨hres,rfl⟩ | ⟨hres,rfl⟩⟩ := take_eq ht
  · have hreads := hf.reads
    simp only [reads,hcq,hp,reduceCtorEq,if_false,List.length_cons] at hreads
    refine ⟨⟨hf.entries,hf.sq,?_⟩,?_⟩
    · simp only [reads,ResultRing.seen,if_true]
      omega
    · simp only [handlerWork,ResultRing.seen,hcq,hp,reduceCtorEq,if_false,if_true,List.map_cons,
        List.sum_cons]
      omega
  · have hreads := hf.reads
    simp only [reads,hcq,hp,reduceCtorEq,if_false,List.length_cons] at hreads
    refine ⟨⟨hf.entries,rfl,?_⟩,?_⟩
    · simp only [reads,hp,hf.sq,reduceCtorEq,if_false]
      omega
    · simp only [handlerWork,hcq,hf.sq,if_pos hres,List.map_cons,List.sum_cons]
      omega

variable (total) in
/-- A handler that runs can take the first completion: the entry for the next read is there. -/
theorem take_offered (hf : Filled K h) (hp : h.phase = .running) (hcq : h.ring.cq ≠ []) :
    ∃ x, Server.take h total = .ok x := by
  obtain ⟨res,rest,hcq⟩ := List.exists_cons_of_ne_nil hcq
  unfold Server.take
  rw [hp,hcq]
  dsimp only
  split
  · exact ⟨_,rfl⟩
  · simp [Server.addReadRequest,ResultRing.getSqe,hf.sq,hf.entries]

end Kernel

section Connections

/-- At the head of its loop a thread has still sends to see completed. -/
theorem looping_step {a b : Client.State} {e : Client.Event} (h : Client.step K J a e = .ok b)
    (htop : a.phase = .top → a.requestsCompleted < J.numRequests) (hp : b.phase = .top) :
    b.requestsCompleted < J.numRequests := by
  rcases Client.step_cases h with ⟨rfl,-,rfl⟩ | ⟨res,rest,rfl,hreap,-,rfl⟩ | ⟨rfl,-,-,rfl⟩ |
    ⟨d,ring,rfl,-,rfl⟩
  · cases hp
  · unfold Client.reap at hp
    split at hp <;> cases hp.symm.trans hreap
  · unfold Client.testLoop at hp ⊢
    split at hp
    · rename_i hlt
      rwa [if_pos hlt]
    · cases hp
  · exact htop hp

theorem connStep_work (hi : c.Inv K J) (hf : Filled K c.handler)
    (h : connStep K J c total e = .ok (d,total')) :
    Filled K d.handler ∧ connWork K J d ≤ connWork K J c ∧
      (¬ Idle K J c.client e → connWork K J d < connWork K J c) := by
  cases e with
  | client e =>
    obtain ⟨client,hstep,h⟩ := bind_ok.mp h
    cases h
    refine ⟨hf,?_⟩
    unfold connWork
    rcases Client.step_cases hstep with ⟨rfl,hp,rfl⟩ | ⟨res,rest,rfl,hp,hcq,rfl⟩ |
      ⟨rfl,hp,hcq,rfl⟩ | ⟨e,ring,rfl,hring,rfl⟩
    · obtain ⟨hle,hlt⟩ := work_iterate (K := K) hi.client hp
      simp only [Client.Event.result,List.map_nil,List.sum_nil,Nat.add_zero]
      exact ⟨by omega,fun hidle => by have hless := hlt hidle; omega⟩
    · have hlt := work_reap (K := K) (J := J) hp hcq
      simp only [Client.Event.result,List.map_nil,List.sum_nil,Nat.add_zero]
      omega
    · obtain ⟨hle,hlt⟩ := work_finish (K := K) (J := J) hp hcq
      simp only [Client.Event.result,List.map_nil,List.sum_nil,Nat.add_zero]
      exact ⟨by omega,fun hidle => by have hless := hlt hidle; omega⟩
    · have hlt := work_kernel (J := J) hring
      simp only [Client.Event.result]
      omega
  | handler e =>
    unfold connWork
    cases e with
    | take =>
      obtain ⟨⟨handler,total''⟩,htake,h⟩ := bind_ok.mp h
      cases h
      obtain ⟨hf',hlt⟩ := handlerWork_take hf htake
      refine ⟨hf',?_⟩
      dsimp only
      omega
    | kernel e =>
      cases e with
      | exec res =>
        obtain ⟨stream,hstream,h⟩ := bind_ok.mp h
        obtain ⟨ring,hring,h⟩ := bind_ok.mp h
        cases h
        have hlt := handlerWork_exec hring
        have hread := Accounting.readStream_ok hstream
        refine ⟨filled_kernel hf hring,?_⟩
        dsimp only
        omega
      | post i =>
        obtain ⟨ring,hring,h⟩ := bind_ok.mp h
        cases h
        have hlt := handlerWork_post hring
        refine ⟨filled_kernel hf hring,?_⟩
        dsimp only
        omega

theorem connStep_client {e : Server.Event} (h : connStep K J c total (.handler e) = .ok (d,total')) :
    d.client = c.client := by
  cases e with
  | take =>
    obtain ⟨x,-,h⟩ := bind_ok.mp h
    cases h
    rfl
  | kernel e =>
    cases e with
    | exec res =>
      obtain ⟨stream,-,h⟩ := bind_ok.mp h
      obtain ⟨ring,-,h⟩ := bind_ok.mp h
      cases h
      rfl
    | post i =>
      obtain ⟨ring,-,h⟩ := bind_ok.mp h
      cases h
      rfl

theorem connStep_looping
    (h : connStep K J c total e = .ok (d,total'))
    (htop : c.client.phase = .top → c.client.requestsCompleted < J.numRequests)
    (hp : d.client.phase = .top) : d.client.requestsCompleted < J.numRequests := by
  cases e with
  | client e =>
    obtain ⟨client,hclient,h⟩ := bind_ok.mp h
    cases h
    exact looping_step hclient htop hp
  | handler e =>
    rw [connStep_client h] at hp ⊢
    exact htop hp

theorem client_error {a : Client.State} {e : Client.Event} {why : Stop}
    (h : Client.step K J a e = .error why) : why = .disabled := by
  cases e with
  | iterate =>
    simp only [Client.step] at h
    split at h
    · cases h
    · cases h
      rfl
  | reap =>
    simp only [Client.step] at h
    split at h
    · split at h
      · cases h
        rfl
      · cases h
    · cases h
      rfl
  | finish =>
    simp only [Client.step] at h
    split at h
    · cases h
    · cases h
      rfl
  | kernel e =>
    rcases bind_error.mp h with h | ⟨ring,-,h⟩
    · exact ResultRing.kernel_error h
    · cases h

theorem take_error {h : Server.State} (hf : Filled K h) {why : Stop}
    (ht : Server.take h total = .error why) : why = .disabled := by
  by_cases hrun : h.phase = .running ∧ h.ring.cq ≠ []
  · obtain ⟨x,hx⟩ := take_offered total hf hrun.1 hrun.2
    cases ht.symm.trans hx
  · unfold Server.take at ht
    split at ht
    · rename_i res rest hp hcq
      exact absurd ⟨hp,by simp [hcq]⟩ hrun
    · cases ht
      rfl

theorem connStep_error (hf : Filled K c.handler) {why : Stop}
    (h : connStep K J c total e = .error why) : why = .disabled := by
  cases e with
  | client e =>
    rcases bind_error.mp h with h | ⟨client,-,h⟩
    · exact client_error h
    · cases h
  | handler e =>
    cases e with
    | take =>
      rcases bind_error.mp h with h | ⟨x,-,h⟩
      · exact take_error hf h
      · cases h
    | kernel e =>
      cases e with
      | exec res =>
        rcases bind_error.mp h with h | ⟨stream,-,h⟩
        · unfold Accounting.readStream at h
          split at h <;> split at h <;> try split at h
          all_goals cases h
          all_goals rfl
        · rcases bind_error.mp h with h | ⟨ring,-,h⟩
          · exact ResultRing.kernel_error h
          · cases h
      | post i =>
        rcases bind_error.mp h with h | ⟨ring,-,h⟩
        · exact ResultRing.kernel_error h
        · cases h

/-- A thread without a failed send behind it can go on until it returns. -/
theorem client_offers {a : Client.State} (hi : Client.Inv J a) (hring : 1 ≤ K.ringSize)
    (htop : a.phase = .top → a.requestsCompleted < J.numRequests)
    (hok : ∀ res ∈ a.reported, 0 ≤ res) (hp : a.phase ≠ .returned) :
    ∃ e b, (∀ res ∈ e.result, 0 ≤ res) ∧ ¬ Idle K J a (.client e) ∧ Client.step K J a e = .ok b := by
  by_cases hpending : a.ring.pending = 0
  · by_cases hdone : a.ring.done = []
    · have hnot := hi.not_stuck hring hok
      cases hphase : a.phase with
      | top =>
        refine ⟨.iterate,_,by simp [Client.Event.result],?_,if_pos hphase⟩
        rintro ⟨hcq,hq⟩
        exact hnot ⟨htop hphase,hpending,hdone,hcq,hq⟩
      | reaping =>
        cases hcq : a.ring.cq with
        | nil =>
          refine ⟨.finish,_,by simp [Client.Event.result],?_,if_pos ⟨hphase,hcq⟩⟩
          rintro ⟨hlt,hq⟩
          exact hnot ⟨hlt,hpending,hdone,hcq,hq⟩
        | cons res rest =>
          refine ⟨.reap,Client.reap a res rest,by simp [Client.Event.result],id,?_⟩
          simp [Client.step,hphase,hcq]
      | returned => exact absurd hphase hp
    · obtain ⟨res,rest,hdone⟩ := List.exists_cons_of_ne_nil hdone
      exact ⟨.kernel (.post 0),_,by simp [Client.Event.result,ResultRing.Event.result],id,
        bind_ok.mpr ⟨_,ResultRing.post_ok hdone,rfl⟩⟩
  · exact ⟨.kernel (.exec K.pageLen),_,by simp [Client.Event.result,ResultRing.Event.result],id,
      bind_ok.mpr ⟨_,ResultRing.exec_ok hpending le_rfl,rfl⟩⟩

variable (total) in
/-- A handler whose client has returned can go on until it has seen the end. -/
theorem handler_offers (hf : Filled K c.handler) (hring : 1 ≤ K.ringSize)
    (hret : c.client.phase = .returned) (hp : c.handler.phase = .running) :
    ∃ e x, (∀ res ∈ result (.handler e), 0 ≤ res) ∧
      connStep K J c total (.handler e) = .ok x := by
  by_cases hcq : c.handler.ring.cq = []
  · by_cases hdone : c.handler.ring.done = []
    · have hpending : c.handler.ring.pending ≠ 0 := by
        have hreads := hf.reads
        simp only [reads,hcq,hdone,hp,reduceCtorEq,if_false,List.length_nil] at hreads
        omega
      have hexec : ∀ n : ℕ, n ≤ K.pageLen → ∀ stream, Accounting.readStream c n = .ok stream →
          ∃ e x, (∀ res ∈ result (.handler e), 0 ≤ res) ∧
            connStep K J c total (.handler e) = .ok x := by
        intro n hn stream hstream
        have hring := ResultRing.exec_ok hpending (Int.ofNat_le.mpr hn)
        exact ⟨.kernel (.exec n),_,by simp [result,ResultRing.Event.result],
          bind_ok.mpr ⟨stream,hstream,bind_ok.mpr ⟨_,hring,rfl⟩⟩⟩
      by_cases hstream : c.stream = 0
      · exact hexec 0 (Nat.zero_le _) 0 (by simp [Accounting.readStream,hstream,hret])
      · refine hexec 1 K.pageLen_pos (c.stream - 1) ?_
        simp [Accounting.readStream,Nat.one_le_iff_ne_zero.mpr hstream]
    · obtain ⟨res,rest,hdone⟩ := List.exists_cons_of_ne_nil hdone
      exact ⟨.kernel (.post 0),_,by simp [result,ResultRing.Event.result],
        bind_ok.mpr ⟨_,ResultRing.post_ok hdone,rfl⟩⟩
  · obtain ⟨x,hx⟩ := take_offered total hf hp hcq
    exact ⟨.take,_,by simp [result],bind_ok.mpr ⟨x,hx,rfl⟩⟩

end Connections

section Runs
variable (K) (numRequests clientThreads : ℕ)

/-- All steps that the connections have left, counted from above. -/
def work (s : State) : ℕ :=
  ∑ i ∈ Finset.range clientThreads, connWork K (threadJob numRequests clientThreads i) (s.conns i)

def IdleAt (s : State) (ie : ℕ × Event) : Prop :=
  Idle K (threadJob numRequests clientThreads ie.1) (s.conns ie.1).client ie.2

instance (s : State) (ie : ℕ × Event) : Decidable (IdleAt K numRequests clientThreads s ie) := by
  unfold IdleAt; infer_instance

/-- From the start of the threads. -/
def run (es : List (ℕ × Event)) : Except Stop State :=
  start K numRequests clientThreads >>= fun s => execute (step K numRequests clientThreads) s es

/-- The bytes add up, the reads fill the rings, and the loops go on for a reason. -/
structure Served (s : State) : Prop where
  inv : Inv K numRequests clientThreads s
  filled : ∀ i < clientThreads, Filled K (s.conns i).handler
  looping : ∀ i < clientThreads, (s.conns i).client.phase = .top →
    (s.conns i).client.requestsCompleted < (threadJob numRequests clientThreads i).numRequests

variable {K numRequests clientThreads} {s s0 t : State} {es : List (ℕ × Event)} {ie : ℕ × Event}

variable (numRequests) in
theorem work_update {i : ℕ} (hi : i < clientThreads) (c : Conn) (total : ℕ) :
    work K numRequests clientThreads ⟨Function.update s.conns i c,total⟩ +
        connWork K (threadJob numRequests clientThreads i) (s.conns i) =
      work K numRequests clientThreads s +
        connWork K (threadJob numRequests clientThreads i) c := by
  have hmem := Finset.mem_range.mpr hi
  unfold work
  simp only [Function.apply_update
    (fun j => connWork K (threadJob numRequests clientThreads j)) s.conns i c]
  rw [Finset.sum_update_of_mem hmem,Finset.sdiff_singleton_eq_erase,
    ← Finset.add_sum_erase _ (fun j => connWork K (threadJob numRequests clientThreads j)
      (s.conns j)) hmem]
  omega

theorem step_ok (h : step K numRequests clientThreads s ie = .ok t) :
    ie.1 < clientThreads ∧ ∃ c total, connStep K (threadJob numRequests clientThreads ie.1)
      (s.conns ie.1) s.total ie.2 = .ok (c,total) ∧ t = ⟨Function.update s.conns ie.1 c,total⟩ := by
  unfold Accounting.step at h
  split at h
  · rename_i hlt
    obtain ⟨⟨c,total⟩,hstep,h⟩ := bind_ok.mp h
    cases h
    exact ⟨hlt,c,total,hstep,rfl⟩
  · cases h

theorem Served.step (hs : Served K numRequests clientThreads s)
    (h : step K numRequests clientThreads s ie = .ok t) :
    Served K numRequests clientThreads t ∧
      work K numRequests clientThreads t ≤ work K numRequests clientThreads s ∧
      (¬ IdleAt K numRequests clientThreads s ie →
        work K numRequests clientThreads t < work K numRequests clientThreads s) := by
  obtain ⟨hlt,c,total,hstep,rfl⟩ := step_ok h
  obtain ⟨hf,hle,hless⟩ := connStep_work (hs.inv.conn _ hlt) (hs.filled _ hlt) hstep
  have hwork := work_update (K := K) (s := s) numRequests hlt c total
  refine ⟨⟨(hs.inv.step h).1,?_,?_⟩,by omega,fun hidle => ?_⟩
  · intro j hj
    by_cases hji : j = ie.1
    · subst hji
      simpa using hf
    · simpa [Function.update_of_ne hji] using hs.filled j hj
  · intro j hj
    by_cases hji : j = ie.1
    · subst hji
      simpa using connStep_looping hstep (hs.looping _ hlt)
    · simpa [Function.update_of_ne hji] using hs.looping j hj
  · have hless := hless hidle
    omega

theorem addReadRequests_offered {n : ℕ} {r : ResultRing} (h : r.sq + n ≤ r.sqEntries) :
    ∃ r', Server.addReadRequests n r = .ok r' := by
  induction n generalizing r with
  | zero => exact ⟨r,rfl⟩
  | succ n ih =>
    have hroom : Server.addReadRequest r = .ok { r with sq := r.sq + 1 } := by
      simp [Server.addReadRequest,ResultRing.getSqe,show r.sq < r.sqEntries by omega]
    obtain ⟨r',hr'⟩ := ih (r := { r with sq := r.sq + 1 }) (by dsimp only; omega)
    exact ⟨r',bind_ok.mpr ⟨_,hroom,hr'⟩⟩

variable (K) in
/-- A ring has room for the first reads, and they fill it. -/
theorem server_start : ∃ h, Server.start K = .ok h ∧ Filled K h ∧
    handlerWork h = 2 * K.ringSize + 1 := by
  have hroom : (ResultRing.queueInit K.ringSize).sq + K.ringSize ≤
      (ResultRing.queueInit K.ringSize).sqEntries := by
    rw [ResultRing.queueInit,Nat.zero_add]
    exact Ring.le_roundUp _
  obtain ⟨ring,hring⟩ := addReadRequests_offered hroom
  refine ⟨_,bind_ok.mpr ⟨ring,hring,rfl⟩,?_,?_⟩
  · rw [Server.addReadRequests_ok hring]
    refine ⟨?_,rfl,?_⟩
    · simp [ResultRing.submit,ResultRing.queueInit,Ring.roundUp]
    · simp [reads,ResultRing.submit,ResultRing.queueInit]
  · rw [Server.addReadRequests_ok hring]
    simp [handlerWork,ResultRing.submit,ResultRing.queueInit]

theorem clientWork_start (J : Job) :
    clientWork K J (Client.start K J) ≤ (sendWeight K + 2) * J.numRequests + 1 := by
  unfold Client.start Client.testLoop
  split <;> simp [clientWork,stage,ResultRing.queueInit]

variable (K numRequests clientThreads) in
theorem served_start : ∃ s0, start K numRequests clientThreads = .ok s0 ∧
    Served K numRequests clientThreads s0 ∧ work K numRequests clientThreads s0 ≤
      (sendWeight K + 2) * numRequests + clientThreads * (2 * K.ringSize + 2) := by
  obtain ⟨h,hstart,hf,hwork⟩ := server_start K
  have h0 : start K numRequests clientThreads = .ok
      ⟨fun i => ⟨Client.start K (threadJob numRequests clientThreads i),h,0⟩,0⟩ :=
    bind_ok.mpr ⟨h,hstart,rfl⟩
  refine ⟨_,h0,⟨(Inv.start h0).1,fun i _ => hf,?_⟩,?_⟩
  · intro i _ hp
    dsimp only at hp ⊢
    unfold Client.start Client.testLoop at hp ⊢
    split at hp
    · rename_i hlt
      rwa [if_pos hlt]
    · cases hp
  · have heach : ∀ i ∈ Finset.range clientThreads,
        connWork K (threadJob numRequests clientThreads i)
            ⟨Client.start K (threadJob numRequests clientThreads i),h,0⟩ ≤
          (sendWeight K + 2) * (threadJob numRequests clientThreads i).numRequests +
            (2 * K.ringSize + 2) := by
      intro i _
      have hclient := clientWork_start (K := K) (threadJob numRequests clientThreads i)
      simp only [connWork,hwork]
      omega
    refine (Finset.sum_le_sum heach).trans ?_
    rw [Finset.sum_add_distrib,← Finset.mul_sum,Finset.sum_const,Finset.card_range,smul_eq_mul]
    refine Nat.add_le_add_right (Nat.mul_le_mul_left _ ?_) _
    by_cases ht : clientThreads = 0
    · simp [ht]
    · exact (Simple.Client.sum_threadJob numRequests (Nat.pos_of_ne_zero ht)).le

theorem Served.of_start (h : start K numRequests clientThreads = .ok s0) :
    Served K numRequests clientThreads s0 ∧ work K numRequests clientThreads s0 ≤
      (sendWeight K + 2) * numRequests + clientThreads * (2 * K.ringSize + 2) := by
  obtain ⟨u,hu,hs⟩ := served_start K numRequests clientThreads
  cases h.symm.trans hu
  exact hs

theorem Served.of_execute (h0 : start K numRequests clientThreads = .ok s0)
    (h : execute (Accounting.step K numRequests clientThreads) s0 es = .ok s) :
    Served K numRequests clientThreads s :=
  execute_invariant (fun _ _ _ hs h => (hs.step h).1) h (Served.of_start h0).1

theorem Served.step_error (hs : Served K numRequests clientThreads s) {why : Stop}
    (h : Accounting.step K numRequests clientThreads s ie = .error why) : why = .disabled := by
  unfold Accounting.step at h
  split at h
  · rename_i hlt
    rcases bind_error.mp h with h | ⟨x,-,h⟩
    · exact connStep_error (hs.filled _ hlt) h
    · cases h
  · cases h
    rfl

/-- In every run a handler has as many reads out as its ring has entries, one less
after it has seen the end, and no run asks for an entry that is not there. -/
theorem reads_in_ring (es : List (ℕ × Event)) :
    match run K numRequests clientThreads es with
    | .ok s => ∀ i < clientThreads, reads (s.conns i).handler =
        if (s.conns i).handler.phase = .returned then K.ringSize - 1 else K.ringSize
    | .error why => why = .disabled := by
  obtain ⟨s0,h0,hs0,-⟩ := served_start K numRequests clientThreads
  have hrun : run K numRequests clientThreads es =
      execute (step K numRequests clientThreads) s0 es := by
    rw [run,h0]
    rfl
  rw [hrun]
  cases h : execute (step K numRequests clientThreads) s0 es with
  | ok s =>
    intro i hi
    have hreads := ((Served.of_execute h0 h).filled i hi).reads
    split
    · rename_i hp
      rw [if_pos hp] at hreads
      omega
    · rename_i hp
      rwa [if_neg hp] at hreads
  | error why =>
    exact execute_error (Q := fun why => why = .disabled) (fun _ _ _ hs h => (hs.step h).1)
      (fun _ _ _ hs h => hs.step_error h) h hs0

/-- The steps of a run, but for the idle ones, are bounded by the volume and the rings. -/
theorem work_bound (h0 : start K numRequests clientThreads = .ok s0)
    (h : execute (step K numRequests clientThreads) s0 es = .ok s) :
    (busy (IdleAt K numRequests clientThreads) (step K numRequests clientThreads) s0 es).length ≤
      (3 * K.pageLen + 8) * numRequests + clientThreads * (2 * K.ringSize + 2) := by
  obtain ⟨hs0,hwork⟩ := Served.of_start h0
  have hwork : work K numRequests clientThreads s0 ≤
    (3 * K.pageLen + 8) * numRequests + clientThreads * (2 * K.ringSize + 2) := hwork
  have hle : (busy (IdleAt K numRequests clientThreads) (step K numRequests clientThreads) s0
      es).length + work K numRequests clientThreads s ≤ work K numRequests clientThreads s0 :=
    (busy_length_le (fun _ _ _ hs h => hs.step h) h hs0).2
  omega

theorem work_bound_onePage : ∃ s0 s, start Consts.small 1 1 = .ok s0 ∧
    execute (step Consts.small 1 1) s0 (Accounting.onePage 4) = .ok s ∧
    (busy (IdleAt Consts.small 1 1) (step Consts.small 1 1) s0 (Accounting.onePage 4)).length ≤
      (3 * Consts.small.pageLen + 8) * 1 + 1 * (2 * Consts.small.ringSize + 2) := by
  have hrun : yields (Accounting.onePageRun 4) (fun _ => true) = true := by decide +kernel
  obtain ⟨s,hs,-⟩ := exists_of_yields hrun
  obtain ⟨s0,h0,hs⟩ := bind_ok.mp hs
  exact ⟨s0,s,h0,hs,work_bound h0 hs⟩

/-- No send of any thread has failed. -/
def Unfailed (clientThreads : ℕ) (s : State) : Prop :=
  ∀ i < clientThreads, ∀ res ∈ (s.conns i).client.reported, 0 ≤ res

theorem step_offered {i : ℕ} (hi : i < clientThreads) {e : Event} {x : Conn × ℕ}
    (h : connStep K (threadJob numRequests clientThreads i) (s.conns i) s.total e = .ok x) :
    ∃ t, step K numRequests clientThreads s (i,e) = .ok t :=
  ⟨_,(if_pos hi).trans (bind_ok.mpr ⟨x,h,rfl⟩)⟩

/-- As long as no send has failed and not all have returned, there is a step on offer
that takes work away and lets no operation fail. -/
theorem Served.offers (hs : Served K numRequests clientThreads s) (hring : 1 ≤ K.ringSize)
    (hok : Unfailed clientThreads s) (hnot : ¬ Finished clientThreads s) :
    ∃ ie, Plain ie.2 ∧ ¬ IdleAt K numRequests clientThreads s ie ∧
      ∃ t, Accounting.step K numRequests clientThreads s ie = .ok t := by
  simp only [Finished,not_forall] at hnot
  obtain ⟨i,hi,hnot⟩ := hnot
  by_cases hp : (s.conns i).client.phase = .returned
  · have hrun : (s.conns i).handler.phase = .running := by
      cases hh : (s.conns i).handler.phase with
      | running => rfl
      | returned => exact absurd ⟨hp,hh⟩ hnot
    obtain ⟨e,x,hplain,hx⟩ := handler_offers (J := threadJob numRequests clientThreads i) s.total
      (hs.filled i hi) hring hp hrun
    exact ⟨(i,.handler e),hplain,id,step_offered hi hx⟩
  · obtain ⟨e,b,hplain,hidle,hb⟩ := client_offers (hs.inv.conn i hi).client hring
      (hs.looping i hi) (hok i hi) hp
    exact ⟨(i,.client e),hplain,hidle,step_offered hi (bind_ok.mpr ⟨b,hb,rfl⟩)⟩

/-- What is reported stays reported, and what comes to it are the results of the event. -/
theorem reported_of_step (h : step K numRequests clientThreads s ie = .ok t) (i : ℕ) :
    (∀ res ∈ (s.conns i).client.reported, res ∈ (t.conns i).client.reported) ∧
      ∀ res ∈ (t.conns i).client.reported,
        res ∈ (s.conns i).client.reported ∨ res ∈ result ie.2 := by
  obtain ⟨j,e⟩ := ie
  obtain ⟨-,c,total,hstep,rfl⟩ := step_ok h
  by_cases hij : i = j
  · subst hij
    dsimp only at hstep ⊢
    rw [Function.update_self]
    cases e with
    | client e =>
      obtain ⟨client,hclient,hstep⟩ := bind_ok.mp hstep
      cases hstep
      rw [Client.reported_step hclient]
      exact ⟨fun res hres => List.mem_append_left _ hres,fun res hres => List.mem_append.mp hres⟩
    | handler e =>
      rw [connStep_client hstep]
      exact ⟨fun res hres => hres,fun res hres => Or.inl hres⟩
  · dsimp only
    rw [Function.update_of_ne hij]
    exact ⟨fun res hres => hres,fun res hres => Or.inl hres⟩

/-- All can still return exactly when no send has failed so far. -/
theorem can_finish_iff (hring : 1 ≤ K.ringSize) (h0 : start K numRequests clientThreads = .ok s0)
    (h : execute (step K numRequests clientThreads) s0 es = .ok s) :
    (∃ fs t, execute (step K numRequests clientThreads) s fs = .ok t ∧
      Finished clientThreads t) ↔ Unfailed clientThreads s := by
  have hs := Served.of_execute h0 h
  constructor
  · rintro ⟨fs,t,hfs,hfin⟩ i hi res hres
    by_contra hneg
    have hres : res ∈ (t.conns i).client.reported :=
      execute_invariant (P := fun s => res ∈ (s.conns i).client.reported)
        (fun _ _ _ hres h => (reported_of_step h i).1 res hres) hfs hres
    have hinv := (Served.of_execute h0 (execute_append_ok.mpr ⟨s,h,hfs⟩)).inv.conn i hi
    have hlt := hinv.client.completed_lt ⟨res,hres,not_le.mp hneg⟩
    have hret := hinv.client.returned (hfin i hi).1
    omega
  · intro hok
    have hstep : ∀ s, Served K numRequests clientThreads s ∧ Unfailed clientThreads s →
        ¬ Finished clientThreads s → ∃ ie t, Plain ie.2 ∧
          step K numRequests clientThreads s ie = .ok t ∧
          (Served K numRequests clientThreads t ∧ Unfailed clientThreads t) ∧
          work K numRequests clientThreads t < work K numRequests clientThreads s := by
      rintro s ⟨hs,hok⟩ hnot
      obtain ⟨ie,hplain,hidle,t,ht⟩ := hs.offers hring hok hnot
      refine ⟨ie,t,hplain,ht,⟨(hs.step ht).1,?_⟩,(hs.step ht).2.2 hidle⟩
      intro i hi res hres
      exact ((reported_of_step ht i).2 res hres).elim (hok i hi res) (hplain res)
    obtain ⟨fs,t,-,hfs,hfin⟩ := exists_execute_of_rank _ hstep ⟨hs,hok⟩
    exact ⟨fs,t,hfs,hfin⟩

theorem can_finish_start : ∃ s0, start Consts.small 1 1 = .ok s0 ∧
    ∃ fs t, execute (step Consts.small 1 1) s0 fs = .ok t ∧ Finished 1 t := by
  obtain ⟨s0,h0,-,-⟩ := served_start Consts.small 1 1
  have hok : Unfailed 1 s0 := by
    obtain ⟨h,-,hs0⟩ := bind_ok.mp h0
    cases hs0
    simp [Unfailed,Client.reported_start]
  exact ⟨s0,h0,(can_finish_iff (by decide) h0 (execute_nil s0)).mpr hok⟩

/-- A run without an end goes only round idle from some point on: then a send has failed,
or a step is on offer that is never taken. -/
theorem endless_passes (hring : 1 ≤ K.ringSize) (h0 : start K numRequests clientThreads = .ok s0)
    (h : execute (step K numRequests clientThreads) s0 es = .ok s)
    (r : Endless (step K numRequests clientThreads) s) :
    ∃ N, ∀ j, N ≤ j → IdleAt K numRequests clientThreads (r.state j) (r.event j) ∧
      (Unfailed clientThreads (r.state j) → ∃ ie, Plain ie.2 ∧
        ¬ IdleAt K numRequests clientThreads (r.state j) ie ∧
        ∃ t, step K numRequests clientThreads (r.state j) ie = .ok t) := by
  have hs := Served.of_execute h0 h
  obtain ⟨N,hN⟩ := r.idle_from (fun _ _ _ hs h => hs.step h) hs
  refine ⟨N,fun j hj => ⟨hN j hj,fun hok => ?_⟩⟩
  have hsj := r.invariant (fun _ _ _ hs h => (Served.step hs h).1) hs j
  refine hsj.offers hring hok fun hfin => ?_
  -- an idle pass is one of a thread that has not returned
  obtain ⟨hlt,c,total,hstep,-⟩ := step_ok (r.steps j)
  have hret := (hfin _ hlt).1
  have hidle := hN j hj
  unfold IdleAt at hidle
  cases hev : (r.event j).2 with
  | client e =>
    rw [hev] at hidle hstep
    obtain ⟨client,hclient,-⟩ := bind_ok.mp hstep
    rcases Client.step_cases hclient with ⟨rfl,hp,-⟩ | ⟨res,rest,rfl,-⟩ | ⟨rfl,hp,-⟩ |
      ⟨d,ring,rfl,-⟩
    · cases hp.symm.trans hret
    · exact hidle
    · cases hp.symm.trans hret
    · exact hidle
  | handler e =>
    rw [hev] at hidle
    exact hidle

theorem iterate_nothing {J : Job} {a : Client.State} (hsq : a.ring.sq = 0)
    (hsent : J.numRequests ≤ a.requestsSent) :
    Client.iterate K J a = { a with phase := .reaping } := by
  obtain ⟨⟨entries,sq,pending,done,cq⟩,phase,sent,completed,reported⟩ := a
  dsimp only at hsq hsent
  subst hsq
  simp [Client.iterate,Nat.sub_eq_zero_of_le hsent,Client.sendLoop,ResultRing.submit]

variable (numRequests) in
/-- A thread that has nothing to take and nothing to send comes back to where it was. -/
theorem pass_around {a : Client.State} (ha : (s.conns 0).client = a) (ht : 0 < clientThreads)
    (hp : a.phase = .top) (hsq : a.ring.sq = 0) (hcq : a.ring.cq = [])
    (hsent : (threadJob numRequests clientThreads 0).numRequests ≤ a.requestsSent)
    (hlt : a.requestsCompleted < (threadJob numRequests clientThreads 0).numRequests) :
    ∃ t, step K numRequests clientThreads s (0,.client .iterate) = .ok t ∧
      step K numRequests clientThreads t (0,.client .finish) = .ok s := by
  refine ⟨⟨Function.update s.conns 0 { s.conns 0 with client := { a with phase := .reaping } },
    s.total⟩,?_,?_⟩
  · simp [Accounting.step,connStep,Client.step,ht,ha,hp,iterate_nothing hsq hsent,
      Client.Event.result,bind,pure,Except.bind,Except.pure]
  · have hfinish : Client.step K (threadJob numRequests clientThreads 0)
        { a with phase := .reaping } .finish = .ok a := by
      have hback : ({ a with phase := .top } : Client.State) = a := by rw [← hp]
      simp [Client.step,hcq,Client.testLoop,hlt,hback]
    refine (if_pos ht).trans (bind_ok.mpr ⟨(s.conns 0,s.total),?_,?_⟩)
    · dsimp only
      rw [Function.update_self]
      exact bind_ok.mpr ⟨a,hfinish,by rw [← ha]; rfl⟩
    · dsimp only
      rw [Function.update_idem,Function.update_eq_self]
      rfl

/-- A thread spins while its send is not executed. -/
theorem endless_passes_spin : ∃ s0 s, start Consts.small 1 1 = .ok s0 ∧
    execute (step Consts.small 1 1) s0 [(0,.client .iterate),(0,.client .finish)] = .ok s ∧
    ∃ r : Endless (step Consts.small 1 1) s, ∃ N, ∀ j, N ≤ j →
      IdleAt Consts.small 1 1 (r.state j) (r.event j) ∧
      (Unfailed 1 (r.state j) → ∃ ie, Plain ie.2 ∧ ¬ IdleAt Consts.small 1 1 (r.state j) ie ∧
        ∃ t, step Consts.small 1 1 (r.state j) ie = .ok t) := by
  have hrun : yields (run Consts.small 1 1 [(0,.client .iterate),(0,.client .finish)])
      (fun s => (s.conns 0).client.phase = .top && (s.conns 0).client.ring.sq = 0 &&
        (s.conns 0).client.ring.cq = [] && (s.conns 0).client.requestsSent = 1 &&
        (s.conns 0).client.requestsCompleted = 0) = true := by
    decide +kernel
  obtain ⟨s,hs,htest⟩ := exists_of_yields hrun
  obtain ⟨s0,h0,hs⟩ := bind_ok.mp hs
  simp only [Bool.and_eq_true,decide_eq_true_eq] at htest
  obtain ⟨⟨⟨⟨hp,hsq⟩,hcq⟩,hsent⟩,hcompleted⟩ := htest
  obtain ⟨t,ht,hback⟩ := pass_around (K := Consts.small) 1 rfl one_pos hp hsq hcq
    (by rw [hsent]; decide) (by rw [hcompleted]; decide)
  exact ⟨s0,s,h0,hs,Endless.alternate ht hback,endless_passes (by decide) h0 hs _⟩

end Runs

end FastNet.Max.Work
