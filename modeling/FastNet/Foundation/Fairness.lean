import FastNet.Foundation.Execution
import Mathlib.Order.WellFounded
import Mathlib.Order.Monotone.Basic

/-! # Idle steps

Some steps of a machine get nowhere. A rank that no step raises and that only idle
steps leave as it is bounds the others in every run. So an infinite run is idle from
some point on, and where a step that is not idle is always on offer, it is unfair.
-/
namespace FastNet.Execution
variable {S E : Type*} {step : S → E → Except ε S} {ε : Type*}

section Ranked
variable (Idle : S → E → Prop) [∀ s e, Decidable (Idle s e)]

/-- The events of a run that are not idle. -/
def busy (step : S → E → Except ε S) (s : S) (es : List E) : List E :=
  outputs step (fun s e _ => if Idle s e then [] else [e]) s es

variable {Idle} {P : S → Prop} {rank : S → ℕ}

theorem busy_length_le
    (hstep : ∀ s e t, P s → step s e = .ok t →
      P t ∧ rank t ≤ rank s ∧ (¬ Idle s e → rank t < rank s))
    {s t : S} {es : List E} (h : execute step s es = .ok t) (hs : P s) :
    P t ∧ (busy Idle step s es).length + rank t ≤ rank s := by
  refine execute_induction (P := fun es t =>
    P t ∧ (busy Idle step s es).length + rank t ≤ rank s) ⟨hs,by simp [busy,outputs]⟩ ?_ h
  rintro es t e u ht ⟨hpt,hle⟩ hu
  obtain ⟨hpu,hrank,hlt⟩ := hstep t e u hpt hu
  refine ⟨hpu,?_⟩
  rw [busy,outputs_concat ht hu,List.length_append]
  by_cases hidle : Idle t e
  · rw [if_pos hidle,List.length_nil]
    exact Nat.le_trans (Nat.add_le_add_left hrank _) hle
  · rw [if_neg hidle,List.length_singleton]
    have hless := hlt hidle
    have hle : (outputs step (fun s e _ => if Idle s e then [] else [e]) s es).length + rank t ≤
      rank s := hle
    omega

end Ranked

/-- A run without an end. -/
structure Endless (step : S → E → Except ε S) (s : S) where
  state : ℕ → S
  event : ℕ → E
  starts : state 0 = s
  steps : ∀ i, step (state i) (event i) = .ok (state (i + 1))

/-- Two states that lead to each other. -/
def Endless.alternate {s t : S} {e f : E} (hs : step s e = .ok t) (ht : step t f = .ok s) :
    Endless step s where
  state i := if i % 2 = 0 then s else t
  event i := if i % 2 = 0 then e else f
  starts := rfl
  steps i := by
    rcases Nat.mod_two_eq_zero_or_one i with hi | hi
    · rw [if_pos hi,if_pos hi,if_neg (by omega)]
      exact hs
    · rw [if_neg (by omega),if_neg (by omega),if_pos (by omega)]
      exact ht

namespace Endless
variable {s : S} (r : Endless step s) {P : S → Prop} {rank : S → ℕ} {Idle : S → E → Prop}

theorem execute (i : ℕ) : Execution.execute step s ((List.range i).map r.event) =
    .ok (r.state i) := by
  induction i with
  | zero => simp [r.starts]
  | succ i ih =>
    rw [List.range_succ,List.map_append,List.map_singleton]
    exact execute_concat_ok.mpr ⟨_,ih,r.steps i⟩

theorem invariant (hstep : ∀ s e t, P s → step s e = .ok t → P t) (hs : P s) (i : ℕ) :
    P (r.state i) := execute_invariant hstep (r.execute i) hs

/-- From some point on every step is idle. -/
theorem idle_from
    (hstep : ∀ s e t, P s → step s e = .ok t →
      P t ∧ rank t ≤ rank s ∧ (¬ Idle s e → rank t < rank s)) (hs : P s) :
    ∃ N, ∀ i, N ≤ i → Idle (r.state i) (r.event i) := by
  have hp : ∀ i, P (r.state i) := r.invariant (fun s e t hp h => (hstep s e t hp h).1) hs
  have hanti : Antitone fun i => rank (r.state i) :=
    antitone_nat_of_succ_le fun i => (hstep _ _ _ (hp i) (r.steps i)).2.1
  obtain ⟨-,⟨N,rfl⟩,hmin⟩ := wellFounded_lt.has_min (Set.range fun i => rank (r.state i))
    ⟨_,0,rfl⟩
  refine ⟨N,fun i hi => ?_⟩
  by_contra hidle
  have hless := (hstep _ _ _ (hp i) (r.steps i)).2.2 hidle
  exact hmin _ ⟨i + 1,rfl⟩ (hless.trans_le (hanti hi))

end Endless

end FastNet.Execution
