import FastNet.Foundation.Custody
import FastNet.Foundation.Uring

/-! # What the io_uring programs of the page protocol share

Both rings are set up with `IORING_SETUP_SQPOLL` and 512 entries, and both programs
hang a `custom_request` of their own on each operation, which they follow as a pointer
when the completion comes back.
-/
namespace FastNet.GetPage

/-- `IO_URING_QUEUE_DEPTH`. -/
def ioUringQueueDepth : ℕ := 512

inductive Fault
  | stop (why : Stop)
  | useAfterFree
  deriving DecidableEq, Repr

/-- Not the program's doing. -/
def Fault.Harmless (why : Fault) : Prop := why = .stop .disabled ∨ why = .stop .mallocLive

/-- `io_uring_get_sqe`; a full queue gives a null pointer, which is then written to. -/
def getSqe (queued : ℕ) : Except Fault Unit :=
  if queued < Ring.roundUp ioUringQueueDepth then .ok () else .error (.stop .nullSqe)

theorem getSqe_ok {queued : ℕ} (hroom : queued < ioUringQueueDepth) : getSqe queued = .ok () :=
  if_pos (hroom.trans_le (Ring.le_roundUp _))

variable {η : Type}

/-- An access through a pointer. -/
def access (m : Heap η) (a : Addr) : Except Fault η :=
  if a ∈ m.live.map Prod.fst then .ok (m.header a) else .error .useAfterFree

theorem access_ok {m : Heap η} {a : Addr} (ha : a ∈ m.live.map Prod.fst) :
    access m a = .ok (m.header a) := if_pos ha

def malloc (m : Heap η) (size : ℕ) : Except Fault (Addr × Heap η) :=
  (m.malloc size).mapError .stop

/-- `malloc` hands out a block that is not live, or the allocator breaks its contract. -/
theorem malloc_cases {m : Heap η} {l : List (Addr × ℕ)} (hc : m.Covers l) (size : ℕ) :
    malloc m size = .error (.stop .mallocLive) ∨
      ∃ a m', malloc m size = .ok (a,m') ∧ m'.Covers ((a,size) :: l) ∧
        m.AgreeOn m' (l.map Prod.fst) ∧ m'.bytes a = (m.supply m.mallocs).bytes ∧
        m'.supply = m.supply ∧ m'.mallocs = m.mallocs + 1 := by
  unfold GetPage.malloc
  cases hm : m.malloc size with
  | error why =>
    obtain ⟨rfl,-⟩ := Heap.malloc_error hm
    exact Or.inl rfl
  | ok r =>
    obtain ⟨a,m'⟩ := r
    obtain ⟨hcovers,hagree⟩ := hc.malloc hm
    exact Or.inr ⟨a,m',rfl,hcovers,hagree,Heap.malloc_contents hm⟩

end FastNet.GetPage
