import Mathlib.Data.Finset.Card
import Mathlib.Data.List.Induction
import Mathlib.Data.List.Infix

/-! # Occurrences that come in pairs

A list in which every occurrence of one element is preceded by a partner of
another kind, no two sharing one. Every prefix of such a list has at least as
many of the partners.
-/
namespace FastNet
variable {α : Type*}

/-- Each `b` of the list has an `a` of its own before it. -/
def Precedes (a b : α) (l : List α) : Prop :=
  ∃ partner : ℕ → ℕ,
    (∀ i, l[i]? = some b → partner i < i ∧ l[partner i]? = some a) ∧
    ∀ i j, l[i]? = some b → l[j]? = some b → partner i = partner j → i = j

variable {a b : α} {l r : List α}

theorem Precedes.of_prefix (h : Precedes a b l) (hr : r <+: l) : Precedes a b r := by
  obtain ⟨rest,rfl⟩ := hr
  obtain ⟨partner,hbefore,hinj⟩ := h
  have hmem : ∀ (i : ℕ) (x : α), r[i]? = some x → (r ++ rest)[i]? = some x := by
    intro i x hi
    rw [List.getElem?_append_left (List.getElem?_eq_some_iff.mp hi).1]
    exact hi
  refine ⟨partner,?_,fun i j hi hj => hinj i j (hmem i b hi) (hmem j b hj)⟩
  intro i hi
  obtain ⟨hlt,hp⟩ := hbefore i (hmem i b hi)
  have hi := (List.getElem?_eq_some_iff.mp hi).1
  rw [List.getElem?_append_left (hlt.trans hi)] at hp
  exact ⟨hlt,hp⟩

variable [DecidableEq α]

/-- The occurrences of an element are the positions that hold it. -/
theorem count_eq_card_positions (a : α) (l : List α) :
    l.count a = ((Finset.range l.length).filter (fun i => l[i]? = some a)).card := by
  induction l using List.reverseRecOn with
  | nil => rfl
  | append_singleton l x ih =>
    have hold : (Finset.range l.length).filter (fun i => (l ++ [x])[i]? = some a) =
        (Finset.range l.length).filter (fun i => l[i]? = some a) := by
      apply Finset.filter_congr
      intro i hi
      rw [List.getElem?_append_left (Finset.mem_range.mp hi)]
    rw [List.length_append,List.length_singleton,Finset.range_add_one,Finset.filter_insert,hold,
      List.getElem?_concat_length,List.count_append,List.count_singleton,ih]
    by_cases hx : x = a
    · rw [if_pos (congrArg some hx),Finset.card_insert_of_notMem (by simp),if_pos (beq_iff_eq.mpr hx)]
    · rw [if_neg (fun h => hx (Option.some.inj h)),if_neg (by simpa using hx),Nat.add_zero]

theorem Precedes.count_le (h : Precedes a b l) : l.count b ≤ l.count a := by
  obtain ⟨partner,hbefore,hinj⟩ := h
  rw [count_eq_card_positions,count_eq_card_positions]
  apply Finset.card_le_card_of_injOn partner
  · intro i hi
    obtain ⟨hlt,hi⟩ := Finset.mem_filter.mp hi
    obtain ⟨hp,ha⟩ := hbefore i hi
    exact Finset.mem_filter.mpr ⟨Finset.mem_range.mpr (hp.trans (Finset.mem_range.mp hlt)),ha⟩
  · intro i hi j hj
    exact hinj i j (Finset.mem_filter.mp hi).2 (Finset.mem_filter.mp hj).2

end FastNet
