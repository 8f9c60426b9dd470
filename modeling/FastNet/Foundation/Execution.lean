import Mathlib.Data.List.Basic
import Mathlib.Data.List.Induction

/-! # Runs of a partial step function

A machine is a step function that consumes one event and either yields the next
state or stops with a reason. A run is an event list that never stops. The
induction and refinement rules below are the only way the later modules argue
about runs; they hold over arbitrary states and events. A loop inside a step has
two rules of its own, one for what its passes keep and one for where it ends.
-/
namespace FastNet.Execution
variable {S E ε : Type*}

/-- A computation that may stop yields a result only through all its parts. -/
theorem bind_ok {ε α β : Type} {x : Except ε α} {f : α → Except ε β} {b : β} :
    (x >>= f) = .ok b ↔ ∃ a, x = .ok a ∧ f a = .ok b := by
  cases x <;> simp [bind,Except.bind]

theorem bind_error {ε α β : Type} {x : Except ε α} {f : α → Except ε β} {why : ε} :
    (x >>= f) = .error why ↔ x = .error why ∨ ∃ a, x = .ok a ∧ f a = .error why := by
  cases x <;> simp [bind,Except.bind]

/-- A result that is used only under a condition. -/
theorem bind_ite_ok {ε α β : Type} {c : Prop} [Decidable c] {x : Except ε α} {f : α → β} {why : ε}
    {b : β} : (x >>= fun a => if c then .ok (f a) else .error why) = .ok b ↔
      ∃ a, x = .ok a ∧ c ∧ f a = b := by
  rw [bind_ok]
  by_cases hc : c <;> simp [hc]

theorem bind_ite_error {ε α β : Type} {c : Prop} [Decidable c] {x : Except ε α} {f : α → β}
    {why w : ε} (h : (x >>= fun a => if c then .ok (f a) else .error why) = .error w) :
    x = .error w ∨ ¬ c ∧ why = w := by
  rcases bind_error.mp h with h | ⟨a,-,h⟩
  · exact Or.inl h
  · split at h
    · cases h
    · rename_i hc
      exact Or.inr ⟨hc,Except.error.inj h⟩

theorem map_ok {ε α β : Type} {x : Except ε α} {f : α → β} {b : β} :
    x.map f = .ok b ↔ ∃ a, x = .ok a ∧ f a = b := by
  cases x <;> simp [Except.map]

/-- Whether a computation yields a result that passes a test. -/
def yields {α : Type*} (x : Except ε α) (test : α → Bool) : Bool :=
  match x with
  | .ok a => test a
  | .error _ => false

theorem exists_of_yields {α : Type*} {x : Except ε α} {test : α → Bool}
    (h : yields x test = true) : ∃ a, x = .ok a ∧ test a = true := by
  cases x with
  | ok a => exact ⟨a,rfl,h⟩
  | error why => cases h

/-- Feed the events to `step` one after the other. -/
def execute (step : S → E → Except ε S) : S → List E → Except ε S
  | s, [] => .ok s
  | s, e :: es =>
    match step s e with
    | .ok t => execute step t es
    | .error why => .error why

variable {step : S → E → Except ε S}

@[simp] theorem execute_nil (s : S) : execute step s [] = .ok s := rfl

theorem execute_cons_ok {s u : S} {e : E} {es : List E} :
    execute step s (e :: es) = .ok u ↔ ∃ t, step s e = .ok t ∧ execute step t es = .ok u := by
  cases h : step s e <;> simp [execute,h]

theorem execute_append_ok {s u : S} {es fs : List E} :
    execute step s (es ++ fs) = .ok u ↔
      ∃ t, execute step s es = .ok t ∧ execute step t fs = .ok u := by
  induction es generalizing s with
  | nil => simp
  | cons e es ih =>
    simp only [List.cons_append,execute_cons_ok,ih]
    constructor
    · rintro ⟨t,ht,v,hv,hu⟩
      exact ⟨v,⟨t,ht,hv⟩,hu⟩
    · rintro ⟨v,⟨t,ht,hv⟩,hu⟩
      exact ⟨t,ht,v,hv,hu⟩

theorem execute_concat_ok {s u : S} {e : E} {es : List E} :
    execute step s (es ++ [e]) = .ok u ↔ ∃ t, execute step s es = .ok t ∧ step t e = .ok u := by
  simp only [execute_append_ok,execute_cons_ok,execute_nil,Except.ok.injEq]
  constructor
  · rintro ⟨t,ht,v,hv,rfl⟩
    exact ⟨t,ht,hv⟩
  · rintro ⟨t,ht,hu⟩
    exact ⟨t,ht,u,hu,rfl⟩

/-- Induction over the steps of a run, the last event outermost. -/
theorem execute_induction {P : List E → S → Prop} {s : S} (h0 : P [] s)
    (hstep : ∀ es t e u, execute step s es = .ok t → P es t → step t e = .ok u → P (es ++ [e]) u)
    {es : List E} {t : S} (h : execute step s es = .ok t) : P es t := by
  induction es using List.reverseRecOn generalizing t with
  | nil =>
    obtain rfl : s = t := by simpa using h
    exact h0
  | append_singleton es e ih =>
    obtain ⟨v,hv,ht⟩ := execute_concat_ok.mp h
    exact hstep es v e t hv (ih hv) ht

/-- A predicate kept by every step holds at the end of every run. -/
theorem execute_invariant {P : S → Prop} (hstep : ∀ s e t, P s → step s e = .ok t → P t)
    {s t : S} {es : List E} (h : execute step s es = .ok t) (hs : P s) : P t :=
  execute_induction (P := fun _ t => P t) hs (fun _ t e u _ ht hu => hstep t e u ht hu) h

/-- A run stops only as a step does in a state that meets the invariant. -/
theorem execute_error {P : S → Prop} {Q : ε → Prop} (hstep : ∀ s e t, P s → step s e = .ok t → P t)
    (herr : ∀ s e why, P s → step s e = .error why → Q why) {s : S} {es : List E} {why : ε}
    (h : execute step s es = .error why) (hs : P s) : Q why := by
  induction es generalizing s with
  | nil => cases h
  | cons e es ih =>
    rw [execute] at h
    split at h
    · rename_i t ht
      exact ih h (hstep s e t hs ht)
    · rename_i w hw
      cases h
      exact herr s e _ hs hw

/-- If every step raises a rank, the rank bounds the length of the runs. -/
theorem execute_length_le {P : S → Prop} {rank : S → ℕ}
    (hstep : ∀ s e t, P s → step s e = .ok t → P t ∧ rank s < rank t)
    {s t : S} {es : List E} (h : execute step s es = .ok t) (hs : P s) :
    P t ∧ rank s + es.length ≤ rank t := by
  apply execute_induction (P := fun es t => P t ∧ rank s + es.length ≤ rank t) _ _ h
  · exact ⟨hs,Nat.le_refl _⟩
  · rintro es t e u _ ⟨ht,hle⟩ hu
    obtain ⟨hinv,hlt⟩ := hstep t e u ht hu
    rw [List.length_append,List.length_singleton]
    exact ⟨hinv,by omega⟩

/-- Where the success of a step does not depend on the state, nor does that of a run. -/
theorem execute_ok (hstep : ∀ s e t, step s e = .ok t → ∀ u, ∃ v, step u e = .ok v) {s t : S}
    {es : List E} (h : execute step s es = .ok t) (u : S) : ∃ v, execute step u es = .ok v := by
  induction es generalizing s u with
  | nil => exact ⟨u,rfl⟩
  | cons e es ih =>
    obtain ⟨s',hs',h⟩ := execute_cons_ok.mp h
    obtain ⟨u',hu'⟩ := hstep _ _ _ hs' u
    obtain ⟨v,hv⟩ := ih h u'
    exact ⟨v,execute_cons_ok.mpr ⟨u',hu',hv⟩⟩

/-- A run meets a condition at each of its steps, judged in the state before it. -/
def Throughout (step : S → E → Except ε S) (Q : S → E → Prop) (s : S) (es : List E) : Prop :=
  ∀ es1 e es2 t, es = es1 ++ e :: es2 → execute step s es1 = .ok t → Q t e

theorem throughout_nil (Q : S → E → Prop) (s : S) : Throughout step Q s [] := by
  intro es1 e es2 t hes
  simp at hes

theorem throughout_concat {Q : S → E → Prop} {s t : S} {es : List E} {e : E}
    (ht : execute step s es = .ok t) :
    Throughout step Q s (es ++ [e]) ↔ Throughout step Q s es ∧ Q t e := by
  constructor
  · intro h
    refine ⟨?_,h es e [] t rfl ht⟩
    intro es1 d es2 u hes hu
    exact h es1 d (es2 ++ [e]) u (by simp [hes]) hu
  · rintro ⟨h,hq⟩ es1 d es2 u hes hu
    rcases List.eq_nil_or_concat' es2 with rfl | ⟨fs,f,rfl⟩
    · obtain ⟨rfl,hd⟩ := List.append_inj' hes rfl
      cases List.singleton_inj.mp hd
      cases ht.symm.trans hu
      exact hq
    · have hes' : es ++ [e] = (es1 ++ d :: fs) ++ [f] := by simpa using hes
      obtain ⟨hes',-⟩ := List.append_inj' hes' rfl
      exact h es1 d fs u hes' hu

/-- A cost that no step lowers, and that a step keeps exactly when it meets the
condition: it is the same at both ends of the runs that meet the condition throughout. -/
theorem cost_eq_iff_throughout {P : S → Prop} {Q : S → E → Prop} (cost : S → ℕ)
    (hstep : ∀ s e t, P s → step s e = .ok t →
      P t ∧ cost s ≤ cost t ∧ (cost t = cost s ↔ Q s e))
    {s t : S} {es : List E} (h : execute step s es = .ok t) (hs : P s) :
    P t ∧ cost s ≤ cost t ∧ (cost t = cost s ↔ Throughout step Q s es) := by
  apply execute_induction (P := fun es t =>
    P t ∧ cost s ≤ cost t ∧ (cost t = cost s ↔ Throughout step Q s es)) _ _ h
  · exact ⟨hs,Nat.le_refl _,iff_of_true rfl (throughout_nil Q s)⟩
  · rintro es t e u ht ⟨hpt,hle,hiff⟩ hu
    obtain ⟨hpu,hle',hiff'⟩ := hstep t e u hpt hu
    refine ⟨hpu,Nat.le_trans hle hle',?_⟩
    rw [throughout_concat ht,← hiff,← hiff']
    omega

/-- Where every state that misses the goal has an allowed step to a lower rank, some
allowed run leads to the goal. -/
theorem exists_execute_of_rank {P goal : S → Prop} {Q : E → Prop} (rank : S → ℕ)
    (hstep : ∀ s, P s → ¬ goal s → ∃ e t, Q e ∧ step s e = .ok t ∧ P t ∧ rank t < rank s)
    {s : S} (hs : P s) :
    ∃ es t, (∀ e ∈ es, Q e) ∧ execute step s es = .ok t ∧ goal t := by
  induction h : rank s using Nat.strongRecOn generalizing s with
  | ind n ih =>
    by_cases hg : goal s
    · exact ⟨[],s,by simp,rfl,hg⟩
    · obtain ⟨e,t,he,ht,hpt,hlt⟩ := hstep s hs hg
      obtain ⟨es,u,hes,hu,hgu⟩ := ih (rank t) (h ▸ hlt) hpt rfl
      exact ⟨e :: es,u,List.forall_mem_cons.mpr ⟨he,hes⟩,execute_cons_ok.mpr ⟨t,ht,hu⟩,hgu⟩

section Loops
variable {S ε : Type}

/-- At most `left` passes of a loop whose body may stop. -/
def loop (guard : S → Prop) [DecidablePred guard] (body : S → Except ε S) : ℕ → S → Except ε S
  | 0, s => .ok s
  | left + 1, s => if guard s then body s >>= loop guard body left else .ok s

variable {guard : S → Prop} [DecidablePred guard] {body : S → Except ε S} {P : S → Prop} {left : ℕ}

/-- A condition that each pass keeps is kept by the loop, and the loop stops only as a
pass does. -/
theorem loop_rule {Q : ε → Prop} (hok : ∀ s t, P s → guard s → body s = .ok t → P t)
    (herr : ∀ s why, P s → guard s → body s = .error why → Q why) {s : S} (hs : P s) :
    (∀ t, loop guard body left s = .ok t → P t) ∧
      ∀ why, loop guard body left s = .error why → Q why := by
  induction left generalizing s with
  | zero => exact ⟨fun t h => Except.ok.inj h ▸ hs,fun why h => by cases h⟩
  | succ left ih =>
    unfold loop
    split
    · rename_i hg
      constructor
      · intro t h
        obtain ⟨v,hv,h⟩ := bind_ok.mp h
        exact (ih (hok s v hs hg hv)).1 t h
      · intro why h
        rcases bind_error.mp h with h | ⟨v,hv,h⟩
        · exact herr s why hs hg h
        · exact (ih (hok s v hs hg hv)).2 why h
    · exact ⟨fun t h => Except.ok.inj h ▸ hs,fun why h => by cases h⟩

/-- With a rank that is positive where the loop goes on and that each pass lowers, as
many passes as the rank says lead to where the loop ends. -/
theorem loop_exit (rank : S → ℕ) (hpos : ∀ s, P s → guard s → 0 < rank s)
    (hok : ∀ s t, P s → guard s → body s = .ok t → P t ∧ rank t < rank s) {s t : S} (hs : P s)
    (hleft : rank s ≤ left) (h : loop guard body left s = .ok t) : P t ∧ ¬ guard t := by
  induction left generalizing s with
  | zero =>
    obtain rfl : s = t := Except.ok.inj h
    refine ⟨hs,fun hg => ?_⟩
    have hrank := hpos s hs hg
    omega
  | succ left ih =>
    unfold loop at h
    split at h
    · rename_i hg
      obtain ⟨v,hv,h⟩ := bind_ok.mp h
      obtain ⟨hpv,hlt⟩ := hok s v hs hg hv
      exact ih hpv (by omega) h
    · rename_i hg
      obtain rfl : s = t := Except.ok.inj h
      exact ⟨hs,hg⟩

end Loops

section Outputs
variable {O : Type*}

/-- What the steps of a run put out, in order; `out` sees the states around a step. -/
def outputs (step : S → E → Except ε S) (out : S → E → S → List O) : S → List E → List O
  | _, [] => []
  | s, e :: es =>
    match step s e with
    | .ok t => out s e t ++ outputs step out t es
    | .error _ => []

theorem outputs_concat {out : S → E → S → List O} {s t u : S} {es : List E} {e : E}
    (ht : execute step s es = .ok t) (hu : step t e = .ok u) :
    outputs step out s (es ++ [e]) = outputs step out s es ++ out t e u := by
  induction es generalizing s with
  | nil =>
    cases ht
    simp [outputs,hu]
  | cons d es ih =>
    obtain ⟨v,hv,ht⟩ := execute_cons_ok.mp ht
    simp only [List.cons_append,outputs,hv,ih ht,List.append_assoc]

end Outputs

section Refinement
variable {A : Type*}

/-- Paths of a labelled transition relation, extended at the end. -/
inductive Path (R : A → E → A → Prop) : A → List E → A → Prop
  | refl (a : A) : Path R a [] a
  | snoc {a b c : A} {es : List E} {e : E} : Path R a es b → R b e c → Path R a (es ++ [e]) c

/-- Induction over a path whose events are restricted, with the events so far. -/
theorem Path.history {R : A → E → A → Prop} {P : List E → A → Prop} {Q : E → Prop} {a b : A}
    {es : List E} (h : Path R a es b) (h0 : P [] a)
    (hstep : ∀ es b e c, Q e → P es b → R b e c → P (es ++ [e]) c) (hq : ∀ e ∈ es, Q e) :
    P es b := by
  induction h with
  | refl => exact h0
  | snoc _ hr ih =>
    exact hstep _ _ _ _ (hq _ (by simp)) (ih (fun e he => hq e (by simp [he]))) hr

theorem Path.invariant_of {R : A → E → A → Prop} {P : A → Prop} {Q : E → Prop}
    (hstep : ∀ a e b, Q e → P a → R a e b → P b) {a b : A} {es : List E} (h : Path R a es b)
    (hq : ∀ e ∈ es, Q e) (ha : P a) : P b :=
  h.history (P := fun _ b => P b) ha (fun _ b e c he hb hr => hstep b e c he hb hr) hq

theorem Path.invariant {R : A → E → A → Prop} {P : A → Prop}
    (hstep : ∀ a e b, P a → R a e b → P b) {a b : A} {es : List E} (h : Path R a es b) (ha : P a) :
    P b :=
  h.invariant_of (Q := fun _ => True) (fun a e b _ => hstep a e b) (fun _ _ => trivial) ha

/-- A forward simulation: under the invariant, each step of the machine is
matched by the relation between the views of its two states. -/
structure Refines (step : S → E → Except ε S) (R : A → E → A → Prop) (view : S → A)
    (inv : S → Prop) : Prop where
  kept : ∀ s e t, inv s → step s e = .ok t → inv t
  matched : ∀ s e t, inv s → step s e = .ok t → R (view s) e (view t)

variable {R : A → E → A → Prop} {view : S → A} {inv : S → Prop}

theorem Refines.invariant (hr : Refines step R view inv) {s t : S} {es : List E}
    (h : execute step s es = .ok t) (hs : inv s) : inv t :=
  execute_invariant hr.kept h hs

/-- Every run of the machine is, through the view, a path of the relation. -/
theorem Refines.path (hr : Refines step R view inv) {s t : S} {es : List E}
    (h : execute step s es = .ok t) (hs : inv s) : Path R (view s) es (view t) := by
  refine execute_induction (P := fun es t => Path R (view s) es (view t)) (.refl _) ?_ h
  intro es t e u ht ih hu
  exact ih.snoc (hr.matched t e u (hr.invariant ht hs) hu)

/-- Where each step of the machine is, through a view, a run of another one, so is
each of its runs. -/
theorem execute_simulates {T F δ : Type*} {step' : T → F → Except δ T} (view : S → T)
    {moves : E → List F} {P : S → Prop} (hstep : ∀ s e t, P s → step s e = .ok t →
      P t ∧ execute step' (view s) (moves e) = .ok (view t))
    {s t : S} {es : List E} (h : execute step s es = .ok t) (hs : P s) :
    P t ∧ execute step' (view s) (es.flatMap moves) = .ok (view t) := by
  apply execute_induction (P := fun es t =>
    P t ∧ execute step' (view s) (es.flatMap moves) = .ok (view t)) _ _ h
  · exact ⟨hs,rfl⟩
  · rintro es t e u - ⟨ht,hpath⟩ hu
    obtain ⟨hpu,hmoves⟩ := hstep t e u ht hu
    refine ⟨hpu,?_⟩
    rw [List.flatMap_append,List.flatMap_singleton]
    exact execute_append_ok.mpr ⟨view t,hpath,hmoves⟩

end Refinement

end FastNet.Execution
