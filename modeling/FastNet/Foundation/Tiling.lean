import Mathlib.Data.List.Range
import Mathlib.Order.Monotone.Basic

/-! # Ranges cut at boundaries

The stretches between successive boundaries are, one after the other, the whole
range. Cutting `n` into equal parts, the last one with the rest, is the case that
programs hand out to their threads.
-/
namespace FastNet.Tiling

theorem range'_join {a b c : ℕ} (hab : a ≤ b) (hbc : b ≤ c) :
    List.range' a (b - a) ++ List.range' b (c - b) = List.range' a (c - a) := by
  have hjoin := @List.range'_append_1 a (b - a) (c - b)
  have hb : a + (b - a) = b := by omega
  have hc : b - a + (c - b) = c - a := by omega
  rwa [hb,hc] at hjoin

theorem flatMap_stretches {b : ℕ → ℕ} (hb : Monotone b) (t : ℕ) :
    (List.range t).flatMap (fun i => List.range' (b i) (b (i + 1) - b i)) =
      List.range' (b 0) (b t - b 0) := by
  induction t with
  | zero => simp
  | succ t ih =>
    rw [List.range_succ,List.flatMap_append,ih,List.flatMap_singleton]
    exact range'_join (hb (Nat.zero_le t)) (hb (Nat.le_succ t))

/-- The boundaries of `t` equal parts of `n`; the last part has the rest. -/
def edge (n t i : ℕ) : ℕ := if i < t then i * (n / t) else n

theorem edge_le (n t i : ℕ) : edge n t i ≤ n := by
  unfold edge
  split
  · rename_i hi
    exact (Nat.mul_le_mul_right _ hi.le).trans (Nat.mul_div_le n t)
  · exact le_rfl

theorem edge_mono (n t : ℕ) : Monotone (edge n t) := by
  intro i k hik
  unfold edge
  by_cases hk : k < t
  · rw [if_pos (by omega),if_pos hk]
    exact Nat.mul_le_mul_right _ hik
  · rw [if_neg hk]
    exact edge_le n t i

theorem edge_start {n t i : ℕ} (hi : i < t) : edge n t i = i * (n / t) := if_pos hi

theorem edge_stop {n t i : ℕ} (hi : i < t) :
    edge n t (i + 1) = if i = t - 1 then n else (i + 1) * (n / t) := by
  unfold edge
  by_cases hlast : i = t - 1
  · rw [if_pos hlast,if_neg (by omega)]
  · rw [if_neg hlast,if_pos (by omega)]

theorem flatMap_parts (n : ℕ) {t : ℕ} (ht : 1 ≤ t) :
    (List.range t).flatMap (fun i => List.range' (edge n t i) (edge n t (i + 1) - edge n t i)) =
      List.range n := by
  have hzero : edge n t 0 = 0 := by
    unfold edge
    rw [if_pos (by omega),Nat.zero_mul]
  have hlast : edge n t t = n := if_neg (Nat.lt_irrefl t)
  rw [flatMap_stretches (edge_mono n t),hzero,hlast,Nat.sub_zero,List.range_eq_range']

end FastNet.Tiling
