import FastNet.Foundation.RingKernel

/-! # What the kernel has left to do in a ring

Each stage of an operation has a weight: queued, executed and posted. The weight of
a ring is the sum over its operations, so that a move of the kernel changes it by
the weights of the two stages between which the operation moves.
-/
namespace FastNet

/-- The weight of an operation at each of its stages. -/
structure Weights where
  tx : ℕ
  txDone : ℕ
  rx : ℕ
  rxDone : ℤ → ℕ
  cq : Completion → ℕ

namespace RingView
variable (W : Weights)

def weight (v : RingView) : ℕ :=
  W.tx * v.tx.length + W.txDone * v.txDone.length + W.rx * v.rx +
    (v.rxDone.map (fun e => W.rxDone e.1)).sum + (v.cq.map W.cq).sum

variable {W} {v w : RingView} {rxLen : ℕ}

theorem sum_map_eraseIdx {α : Type} {l : List α} {i : ℕ} {x : α} (h : l[i]? = some x)
    (f : α → ℕ) : ((l.eraseIdx i).map f).sum + f x = (l.map f).sum := by
  have hperm := ((Ring.perm_cons_eraseIdx h).map f).sum_eq
  rw [List.map_cons,List.sum_cons] at hperm
  omega

/-- Taking the first completion takes its weight. -/
theorem weight_setCq {c : Completion} {rest : List Completion} (h : v.cq = c :: rest) :
    (v.setCq rest).weight W + W.cq c = v.weight W := by
  simp only [weight,setCq,h,List.map_cons,List.sum_cons]
  omega

theorem Move.weight_execTx {i : ℕ} {bytes : List UInt8} (h : Move rxLen v (.execTx i bytes) w) :
    w.weight W + W.tx = v.weight W + W.txDone := by
  cases h with
  | execTx i bytes payload h hp =>
    have hl := length_eraseIdx_of_some h
    simp only [weight,List.length_append,List.length_singleton,Nat.mul_add,Nat.mul_one]
    rw [← hl,Nat.mul_add,Nat.mul_one]
    omega

theorem Move.weight_execRx {i : ℕ} {bytes : List UInt8} (h : Move rxLen v (.execRx i bytes) w) :
    w.weight W + W.rx = v.weight W + W.rxDone bytes.length := by
  cases h with
  | execRx i bytes data h hl hp =>
    obtain ⟨n,hn⟩ : ∃ n, v.rx = n + 1 := ⟨v.rx - 1,by omega⟩
    simp only [weight,hn,Nat.add_sub_cancel,List.map_append,List.sum_append,List.map_cons,
      List.map_nil,List.sum_singleton,Nat.mul_add,Nat.mul_one]
    omega

theorem Move.weight_postTx {i : ℕ} (h : Move rxLen v (.postTx i) w) :
    ∃ res, w.cq = v.cq ++ [.tx res] ∧ w.weight W + W.txDone = v.weight W + W.cq (.tx res) := by
  cases h with
  | postTx i res h =>
    have hl := length_eraseIdx_of_some h
    refine ⟨res,rfl,?_⟩
    simp only [weight,List.map_append,List.sum_append,List.map_cons,List.map_nil,
      List.sum_singleton]
    rw [← hl,Nat.mul_add,Nat.mul_one]
    omega

theorem Move.weight_postRx {i : ℕ} (h : Move rxLen v (.postRx i) w) :
    ∃ res data, w.cq = v.cq ++ [.rx res data] ∧
      w.weight W + W.rxDone res = v.weight W + W.cq (.rx res data) := by
  cases h with
  | postRx i res data h =>
    have hsum : ((v.rxDone.eraseIdx i).map (fun e => W.rxDone e.1)).sum + W.rxDone res =
        (v.rxDone.map (fun e => W.rxDone e.1)).sum := sum_map_eraseIdx h _
    refine ⟨res,data,rfl,?_⟩
    simp only [weight,List.map_append,List.sum_append,List.map_cons,List.map_nil,
      List.sum_singleton]
    omega

end RingView

end FastNet
