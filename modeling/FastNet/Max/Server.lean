import FastNet.Max.Client
import FastNet.Simple.Volume

/-! # The handlers and the waiting loop of max_server

`event_loop` as a step function. A read's buffer is posted again unread, so the
ring shows results only. The total is shared by all handlers and is added to
atomically; `main` compares it with the volume that it expects.
-/
namespace FastNet.Max.Server
open Execution Simple

inductive Phase
  | running
  | returned
  deriving DecidableEq, Repr

structure State where
  ring : ResultRing
  phase : Phase
  /-- What this handler has added to the total. -/
  received : ℕ

inductive Event
  | take
  | kernel (e : ResultRing.Event)
  deriving DecidableEq

/-- `add_read_request`; the entry is used without a check. -/
def addReadRequest (r : ResultRing) : Except Stop ResultRing :=
  match r.getSqe with
  | some ring => .ok ring
  | none => .error .nullSqe

/-- The loop that posts the first reads. -/
def addReadRequests : ℕ → ResultRing → Except Stop ResultRing
  | 0, r => .ok r
  | n + 1, r => addReadRequest r >>= addReadRequests n

variable (K : Consts)

/-- The state in which the first completion is waited for. -/
def start : Except Stop State := do
  let ring ← addReadRequests K.ringSize (.queueInit K.ringSize)
  return ⟨ring.submit,.running,0⟩

/-- The handling of the first completion, with `total_bytes_received`. -/
def take (s : State) (total : ℕ) : Except Stop (State × ℕ) :=
  match s.phase, s.ring.cq with
  | .running, res :: rest =>
    if res ≤ 0 then .ok ({ s with ring := s.ring.seen rest, phase := .returned },total)
    else do
      let ring ← addReadRequest s.ring
      return ({ s with
        ring := (ring.seen rest).submit
        received := s.received + res.toNat },(total + res.toNat) % sizeMod)
  | _, _ => .error .disabled

/-- The test of the waiting loop in `main`; `below` is the comparison of the percentage
with 95, in floating point. -/
def Waiting (below : ℕ → ℕ → Bool) (numRequests total : ℕ) : Prop :=
  total < expectedTotalBytes K numRequests ∧ below total (expectedTotalBytes K numRequests)

instance (below : ℕ → ℕ → Bool) (n total : ℕ) : Decidable (Waiting K below n total) := by
  unfold Waiting; infer_instance

variable {K} {s t : State} {total total' : ℕ}

theorem addReadRequest_ok {r r' : ResultRing} (h : addReadRequest r = .ok r') :
    r' = { r with sq := r.sq + 1 } := by
  unfold addReadRequest at h
  split at h
  · rename_i hq
    cases h
    exact (ResultRing.getSqe_some hq).2
  · cases h

theorem addReadRequests_ok {n : ℕ} {r r' : ResultRing} (h : addReadRequests n r = .ok r') :
    r' = { r with sq := r.sq + n } := by
  induction n generalizing r with
  | zero =>
    cases h
    rfl
  | succ n ih =>
    obtain ⟨r1,h1,h⟩ := bind_ok.mp h
    rw [ih h,addReadRequest_ok h1,Nat.add_assoc,Nat.add_comm 1 n]

theorem start_ok (h : start K = .ok s) : s.phase = .running ∧ s.received = 0 ∧ s.ring.results = [] := by
  obtain ⟨ring,hring,h⟩ := bind_ok.mp h
  cases h
  rw [addReadRequests_ok hring]
  exact ⟨rfl,rfl,rfl⟩

theorem take_cases (h : take s total = .ok (t,total')) :
    s.phase = .running ∧ ∃ res rest, s.ring.cq = res :: rest ∧ t.ring.results = s.ring.done ++ rest ∧
      (res ≤ 0 ∧ t.phase = .returned ∧ t.received = s.received ∧ total' = total ∨
        0 < res ∧ t.phase = .running ∧ t.received = s.received + res.toNat ∧
          total' = (total + res.toNat) % sizeMod) := by
  unfold take at h
  split at h
  · rename_i res rest hp hcq
    refine ⟨hp,res,rest,hcq,?_⟩
    split at h
    · rename_i hres
      cases h
      exact ⟨rfl,Or.inl ⟨hres,rfl,rfl,rfl⟩⟩
    · rename_i hres
      obtain ⟨ring,hring,h⟩ := bind_ok.mp h
      cases h
      rw [addReadRequest_ok hring]
      exact ⟨rfl,Or.inr ⟨by omega,hp,rfl,rfl⟩⟩
  · cases h

end FastNet.Max.Server
