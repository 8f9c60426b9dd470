import FastNet.Foundation.Heap
import FastNet.Foundation.Bytes
import Mathlib.Data.Nat.Log
import Mathlib.Data.List.Infix

/-! # Submission and completion rings over one socket

A ring holds the queued entries, the submitted operations in both directions,
the executed operations whose completion is not posted, and the posted ones.
The kernel executes and posts any operation in flight, by its position, and every
transfer is a prefix of what was asked for; a fixed order or whole transfers are
restrictions on the events of a run.
-/
namespace FastNet

inductive Opcode
  | send
  | recv
  deriving DecidableEq, Repr

/-- A submission entry. The data is the bytes of the block `userData` points to. -/
structure Sqe where
  opcode : Opcode
  userData : Addr
  len : ℕ
  deriving DecidableEq, Repr

structure Cqe where
  userData : Addr
  res : ℤ
  deriving DecidableEq, Repr

structure Ring where
  sqEntries : ℕ
  sq : List Sqe
  tx : List Sqe
  rx : List Sqe
  txDone : List Cqe
  rxDone : List Cqe
  cq : List Cqe

/-- What the kernel does: an operation transfers bytes or fails with a negative
result, and the completion of an executed operation is posted. -/
inductive KernelEvent
  | execTx (i : ℕ) (bytes : List UInt8)
  | failTx (i : ℕ) (err : ℕ)
  | execRx (i : ℕ) (bytes : List UInt8)
  | failRx (i : ℕ) (err : ℕ)
  | postTx (i : ℕ)
  | postRx (i : ℕ)

namespace Ring

/-- The submission entries of a ring asked for `n`, rounded up to a power of two. -/
def roundUp (n : ℕ) : ℕ := 2 ^ Nat.clog 2 n

theorem le_roundUp (n : ℕ) : n ≤ roundUp n := Nat.le_pow_clog (by norm_num) n

/-- The completion queue has twice as many entries. -/
def cqEntries (n : ℕ) : ℕ := 2 * roundUp n

/-- `io_uring_queue_init`. -/
def queueInit (n : ℕ) : Ring := ⟨roundUp n,[],[],[],[],[],[]⟩

/-- `io_uring_get_sqe` with the `prep` and `set_data` calls that fill the entry. -/
def queue (r : Ring) (q : Sqe) : Except Stop Ring :=
  if r.sq.length < r.sqEntries then .ok { r with sq := r.sq ++ [q] } else .error .nullSqe

theorem queue_error {r : Ring} {q : Sqe} {why : Stop} (h : r.queue q = .error why) :
    why = .nullSqe ∧ ¬ r.sq.length < r.sqEntries := by
  unfold queue at h
  split at h
  · cases h
  · rename_i hroom
    cases h
    exact ⟨rfl,hroom⟩

/-- `io_uring_submit`: every queued entry is consumed. -/
def submit (r : Ring) : Ring :=
  { r with
    sq := []
    tx := r.tx ++ r.sq.filter (·.opcode = .send)
    rx := r.rx ++ r.sq.filter (·.opcode = .recv) }

/-- The sends queued or submitted and not executed, oldest first. -/
def txAll (r : Ring) : List Sqe := r.tx ++ r.sq.filter (·.opcode = .send)

/-- The receives queued or submitted and not executed, oldest first. -/
def rxAll (r : Ring) : List Sqe := r.rx ++ r.sq.filter (·.opcode = .recv)

/-- The blocks that operations without a reaped completion point to. -/
def addrs (r : Ring) : List Addr :=
  r.txAll.map (·.userData) ++ r.txDone.map (·.userData) ++
    (r.rxAll.map (·.userData) ++ r.rxDone.map (·.userData)) ++ r.cq.map (·.userData)

/-- No operation is in flight: all submitted ones have their completion posted. -/
def Idle (r : Ring) : Prop := r.tx = [] ∧ r.txDone = [] ∧ r.rx = [] ∧ r.rxDone = []

instance (r : Ring) : Decidable r.Idle := by unfold Idle; infer_instance

/-- The operations that were submitted and whose completion is not reaped. -/
def unreaped (r : Ring) : ℕ :=
  r.tx.length + r.txDone.length + r.rx.length + r.rxDone.length + r.cq.length

/-- Every operation handed to the ring has been reaped. -/
def Drained (r : Ring) : Prop := r.sq = [] ∧ r.Idle ∧ r.cq = []

instance (r : Ring) : Decidable r.Drained := by unfold Drained; infer_instance

variable {η : Type}

/-- One kernel event on the ring and on the memory the operations point to. -/
def kernel (m : Heap η) (r : Ring) : KernelEvent → Except Stop (Heap η × Ring)
  | .execTx i bytes =>
    match r.tx[i]? with
    | none => .error .disabled
    | some q =>
      if bytes <+: (m.bytes q.userData).take q.len then
        .ok (m,{ r with tx := r.tx.eraseIdx i, txDone := r.txDone ++ [⟨q.userData,bytes.length⟩] })
      else .error .disabled
  | .failTx i err =>
    match r.tx[i]? with
    | none => .error .disabled
    | some q =>
      .ok (m,{ r with tx := r.tx.eraseIdx i, txDone := r.txDone ++ [⟨q.userData,-(err + 1)⟩] })
  | .execRx i bytes =>
    match r.rx[i]? with
    | none => .error .disabled
    | some q =>
      if bytes.length ≤ q.len then
        .ok (m.setBytes q.userData (Bytes.overlay bytes (m.bytes q.userData)),
          { r with rx := r.rx.eraseIdx i, rxDone := r.rxDone ++ [⟨q.userData,bytes.length⟩] })
      else .error .disabled
  | .failRx i err =>
    match r.rx[i]? with
    | none => .error .disabled
    | some q =>
      .ok (m,{ r with rx := r.rx.eraseIdx i, rxDone := r.rxDone ++ [⟨q.userData,-(err + 1)⟩] })
  | .postTx i =>
    match r.txDone[i]? with
    | none => .error .disabled
    | some e => .ok (m,{ r with txDone := r.txDone.eraseIdx i, cq := r.cq ++ [e] })
  | .postRx i =>
    match r.rxDone[i]? with
    | none => .error .disabled
    | some e => .ok (m,{ r with rxDone := r.rxDone.eraseIdx i, cq := r.cq ++ [e] })

/-- The kernel only writes to memory. -/
theorem kernel_mem {m m' : Heap η} {r r' : Ring} {e : KernelEvent}
    (h : r.kernel m e = .ok (m',r')) : m' = m.setContents m'.header m'.bytes := by
  cases e <;>
  · simp only [kernel] at h
    repeat' split at h
    all_goals cases h
    all_goals rfl

theorem kernel_error {m : Heap η} {r : Ring} {e : KernelEvent} {why : Stop}
    (h : r.kernel m e = .error why) : why = .disabled := by
  cases e <;>
  · simp only [kernel] at h
    repeat' split at h
    all_goals cases h
    all_goals rfl

end Ring

end FastNet
