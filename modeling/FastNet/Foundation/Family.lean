import Mathlib.Algebra.BigOperators.Group.Finset.Basic
import Mathlib.Algebra.Order.BigOperators.Group.Finset
import Mathlib.Data.Fintype.Card

/-! # Families of parties

A family of parties changes one member at a time. What holds of each member, and the
sums over the members, follow from the member that changes.
-/
namespace FastNet.Family
variable {ι α : Type*} [DecidableEq ι] {s : ι → α} {i : ι} {x : α}

theorem forall_update {Q : ι → α → Prop} (h : ∀ j, j ≠ i → Q j (s j)) (hx : Q i x) :
    ∀ j, Q j (Function.update s i x j) := by
  intro j
  by_cases hj : j = i
  · subst hj
    rwa [Function.update_self]
  · rw [Function.update_of_ne hj]
    exact h j hj

section Sums
variable [Fintype ι]

theorem sum_update (f : ι → α → ℕ) (s : ι → α) (i : ι) (x : α) :
    ∑ j, f j (Function.update s i x j) + f i (s i) = ∑ j, f j (s j) + f i x := by
  have hrest : ∑ j ∈ Finset.univ.erase i, f j (Function.update s i x j) =
      ∑ j ∈ Finset.univ.erase i, f j (s j) := by
    apply Finset.sum_congr rfl
    intro j hj
    rw [Function.update_of_ne (Finset.ne_of_mem_erase hj)]
  have hnew := Finset.add_sum_erase Finset.univ (fun j => f j (Function.update s i x j))
    (Finset.mem_univ i)
  have hold := Finset.add_sum_erase Finset.univ (fun j => f j (s j)) (Finset.mem_univ i)
  rw [Function.update_self,hrest] at hnew
  omega

end Sums

section Counts
variable {ι : Type*} [Fintype ι]

/-- Members that count at most one each and together as many as there are count one. -/
theorem eq_one_of_card_le {f : ι → ℕ} (hle : ∀ i, f i ≤ 1) (h : Fintype.card ι ≤ ∑ i, f i)
    (i : ι) : f i = 1 := by
  have hsum : ∑ i, f i = ∑ _i : ι, 1 :=
    le_antisymm (Finset.sum_le_sum fun i _ => hle i) (by simpa using h)
  exact (Finset.sum_eq_sum_iff_of_le fun i _ => hle i).mp hsum i (Finset.mem_univ i)

theorem sum_le_card {f : ι → ℕ} (hle : ∀ i, f i ≤ 1) : ∑ i, f i ≤ Fintype.card ι := by
  have h := Finset.sum_le_sum fun i (_ : i ∈ Finset.univ) => hle i
  simpa using h

end Counts

end FastNet.Family
