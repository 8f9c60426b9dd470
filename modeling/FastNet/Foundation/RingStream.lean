import FastNet.Foundation.RingView

/-! # Byte streams through a ring

With operations of one direction executed and posted in submission order, the
receives that are not reaped hold the newest bytes taken from the connection, in
order, and the bytes put on it are prefixes of the oldest sends.
-/
namespace FastNet

namespace KernelEvent

/-- What an event takes from the connection; a failed receive takes nothing. -/
def received : KernelEvent → List (List UInt8)
  | .execRx _ bytes => [bytes]
  | .failRx _ _ => [[]]
  | _ => []

/-- What an event puts on the connection; a failed send puts nothing. -/
def transmitted : KernelEvent → List (List UInt8)
  | .execTx _ bytes => [bytes]
  | .failTx _ _ => [[]]
  | _ => []

/-- Receives are executed and posted in submission order. -/
def RxInOrder : KernelEvent → Prop
  | .execRx i _ | .failRx i _ | .postRx i => i = 0
  | _ => True

/-- Sends are executed in submission order. -/
def TxInOrder : KernelEvent → Prop
  | .execTx i _ | .failTx i _ => i = 0
  | _ => True

end KernelEvent

def Completion.arrival : Completion → Option (ℤ × List UInt8)
  | .tx _ => none
  | .rx res data => some (res,data)

namespace RingView

/-- The executed receives that are not reaped, oldest first. -/
def arrivals (v : RingView) : List (ℤ × List UInt8) := v.cq.filterMap Completion.arrival ++ v.rxDone

theorem arrivals_reap_tx {v : RingView} {res : ℤ} {rest : List Completion}
    (h : v.cq = .tx res :: rest) : v.arrivals = (v.setCq rest).arrivals := by
  simp [arrivals,setCq,h,List.filterMap_cons,Completion.arrival]

theorem arrivals_reap_rx {v : RingView} {res : ℤ} {data : List UInt8} {rest : List Completion}
    (h : v.cq = .rx res data :: rest) : v.arrivals = (res,data) :: (v.setCq rest).arrivals := by
  simp [arrivals,setCq,h,Completion.arrival]

/-- What a receive that took `d` from the connection shows: a failure, or the
number of bytes with those bytes at the front of its buffer. -/
structure Arrived (rxLen : ℕ) (d : List UInt8) (a : ℤ × List UInt8) : Prop where
  length_le : a.2.length ≤ rxLen
  result : (d = [] ∧ a.1 < 0) ∨ (a.1 = d.length ∧ d <+: a.2)

/-- A receive that took as much as it asked for holds just that. -/
theorem Arrived.full {rxLen : ℕ} {d : List UInt8} {a : ℤ × List UInt8} (h : Arrived rxLen d a)
    (hd : d.length = rxLen) (hpos : 0 < rxLen) : a.1 = rxLen ∧ a.2 = d := by
  have hle := h.length_le
  rcases h.result with ⟨rfl,-⟩ | ⟨hres,hp⟩
  · simp only [List.length_nil] at hd
    omega
  · refine ⟨by rw [hres,hd],?_⟩
    exact (hp.eq_of_length_le (by omega)).symm

variable {rxLen : ℕ} {v w : RingView} {e : KernelEvent}

theorem Move.arrivals (h : Move rxLen v e w) (ho : e.RxInOrder) :
    ∃ new, w.arrivals = v.arrivals ++ new ∧ List.Forall₂ (Arrived rxLen) e.received new := by
  cases h with
  | execTx i bytes payload h hp => exact ⟨[],by simp [RingView.arrivals],.nil⟩
  | failTx i err payload h => exact ⟨[],by simp [RingView.arrivals],.nil⟩
  | execRx i bytes data h hl hp =>
    exact ⟨[((bytes.length : ℤ),data)],by simp [RingView.arrivals],
      .cons ⟨hl,Or.inr ⟨rfl,hp⟩⟩ .nil⟩
  | failRx i err data h hl =>
    refine ⟨[(-((err : ℤ) + 1),data)],by simp [RingView.arrivals],.cons ⟨hl,Or.inl ⟨rfl,?_⟩⟩ .nil⟩
    change -((err : ℤ) + 1) < 0
    omega
  | postTx i res h =>
    exact ⟨[],by simp [RingView.arrivals,Completion.arrival],.nil⟩
  | postRx i res data h =>
    obtain rfl : i = 0 := ho
    refine ⟨[],?_,.nil⟩
    cases hd : v.rxDone with
    | nil => simp [hd] at h
    | cons d ds =>
      rw [hd] at h
      obtain rfl : d = (res,data) := by simpa using h
      simp [RingView.arrivals,Completion.arrival,hd]

/-- Without a receive nothing arrives. -/
theorem Move.arrivals_eq (h : Move rxLen v e w) (ho : e.RxInOrder) (he : e.received = []) :
    w.arrivals = v.arrivals := by
  obtain ⟨new,hnew,hall⟩ := h.arrivals ho
  rw [he,List.forall₂_nil_left_iff] at hall
  rw [hnew,hall,List.append_nil]

theorem Move.transmitted (h : Move rxLen v e w) (ho : e.TxInOrder) :
    ∃ done, v.tx = done ++ w.tx ∧ List.Forall₂ (· <+: ·) e.transmitted done := by
  cases h with
  | execTx i bytes payload h hp =>
    obtain rfl : i = 0 := ho
    cases hd : v.tx with
    | nil => simp [hd] at h
    | cons p ps =>
      rw [hd] at h
      obtain rfl : p = payload := by simpa using h
      exact ⟨[p],by simp,.cons hp .nil⟩
  | failTx i err payload h =>
    obtain rfl : i = 0 := ho
    cases hd : v.tx with
    | nil => simp [hd] at h
    | cons p ps => exact ⟨[p],by simp,.cons List.nil_prefix .nil⟩
  | execRx i bytes data h hl hp => exact ⟨[],rfl,.nil⟩
  | failRx i err data h hl => exact ⟨[],rfl,.nil⟩
  | postTx i res h => exact ⟨[],rfl,.nil⟩
  | postRx i res data h => exact ⟨[],rfl,.nil⟩

end RingView

end FastNet
