import Mathlib.Data.List.Nodup
import Mathlib.Logic.Function.Basic

/-! # A heap of malloc'ed blocks

A block is a header of an arbitrary type followed by raw bytes. Which addresses
`malloc` returns, and what the new storage holds, is an arbitrary supply fixed in
the initial heap; a supply that hands out a live block or a null pointer stops
the run, so every result is about allocators that keep the contract of `malloc`.
-/
namespace FastNet

abbrev Addr := ℕ

def nullptr : Addr := 0

/-- Why a step of a program or of the kernel does not happen. `disabled` is an
event that the state does not offer; the others are faults of the program, or of
the allocator in the case of `mallocLive`. -/
inductive Stop
  | disabled
  | nullSqe
  | intOverflow
  | divisionByZero
  | mallocLive
  | invalidFree
  deriving DecidableEq, Repr

/-- Storage as `malloc` returns it: an address and indeterminate contents. -/
structure Block (η : Type) where
  addr : Addr
  header : η
  bytes : List UInt8

structure Heap (η : Type) where
  header : Addr → η
  bytes : Addr → List UInt8
  /-- Blocks that are malloc'ed and not freed, with the size asked for. -/
  live : List (Addr × ℕ)
  live_nodup : (nullptr :: live.map Prod.fst).Nodup
  supply : ℕ → Block η
  mallocs : ℕ

namespace Heap
variable {η : Type}

/-- A heap with no live block. -/
def fresh (header : Addr → η) (bytes : Addr → List UInt8) (supply : ℕ → Block η) : Heap η where
  header := header
  bytes := bytes
  live := []
  live_nodup := by simp
  supply := supply
  mallocs := 0

def malloc (m : Heap η) (size : ℕ) : Except Stop (Addr × Heap η) :=
  let b := m.supply m.mallocs
  if h : b.addr ∈ nullptr :: m.live.map Prod.fst then .error .mallocLive
  else .ok (b.addr,
    { header := Function.update m.header b.addr b.header
      bytes := Function.update m.bytes b.addr b.bytes
      live := (b.addr,size) :: m.live
      live_nodup := by
        have hm := m.live_nodup
        simp only [List.mem_cons,not_or] at h
        simp only [List.map_cons,List.nodup_cons,List.mem_cons,not_or] at hm ⊢
        exact ⟨⟨fun he => h.1 he.symm,hm.1⟩,h.2,hm.2⟩
      supply := m.supply
      mallocs := m.mallocs + 1 })

def free (m : Heap η) (a : Addr) : Except Stop (Heap η) :=
  if a ∈ m.live.map Prod.fst then .ok
    { m with
      live := m.live.filter (fun e => e.1 ≠ a)
      live_nodup := m.live_nodup.sublist
        (List.Sublist.cons_cons _ (List.filter_sublist.map Prod.fst)) }
  else .error .invalidFree

def setHeader (m : Heap η) (a : Addr) (h : η) : Heap η :=
  { m with header := Function.update m.header a h }

def setBytes (m : Heap η) (a : Addr) (bs : List UInt8) : Heap η :=
  { m with bytes := Function.update m.bytes a bs }

/-- Overwrite the contents of the memory. -/
def setContents (m : Heap η) (header : Addr → η) (bytes : Addr → List UInt8) : Heap η :=
  { m with header := header, bytes := bytes }

@[simp] theorem setHeader_header_self (m : Heap η) (a : Addr) (h : η) :
    (m.setHeader a h).header a = h := Function.update_self ..
@[simp] theorem setHeader_header_ne (m : Heap η) {a b : Addr} (h : η) (hb : b ≠ a) :
    (m.setHeader a h).header b = m.header b := Function.update_of_ne hb ..
@[simp] theorem setHeader_bytes (m : Heap η) (a : Addr) (h : η) :
    (m.setHeader a h).bytes = m.bytes := rfl
@[simp] theorem setBytes_bytes_self (m : Heap η) (a : Addr) (bs : List UInt8) :
    (m.setBytes a bs).bytes a = bs := Function.update_self ..
@[simp] theorem setBytes_bytes_ne (m : Heap η) {a b : Addr} (bs : List UInt8) (hb : b ≠ a) :
    (m.setBytes a bs).bytes b = m.bytes b := Function.update_of_ne hb ..
@[simp] theorem setBytes_header (m : Heap η) (a : Addr) (bs : List UInt8) :
    (m.setBytes a bs).header = m.header := rfl

/-- Two heaps agree on what the listed blocks hold. -/
def AgreeOn (m m' : Heap η) (l : List Addr) : Prop :=
  ∀ a ∈ l, m'.header a = m.header a ∧ m'.bytes a = m.bytes a

theorem AgreeOn.refl (m : Heap η) (l : List Addr) : AgreeOn m m l := fun _ _ => ⟨rfl,rfl⟩

theorem AgreeOn.trans {m m' m'' : Heap η} {l : List Addr} (h : AgreeOn m m' l)
    (h' : AgreeOn m' m'' l) : AgreeOn m m'' l :=
  fun a ha => ⟨(h' a ha).1.trans (h a ha).1,(h' a ha).2.trans (h a ha).2⟩

theorem AgreeOn.mono {m m' : Heap η} {l l' : List Addr} (h : AgreeOn m m' l)
    (hl : ∀ a ∈ l', a ∈ l) : AgreeOn m m' l' := fun a ha => h a (hl a ha)

theorem agreeOn_setHeader (m : Heap η) {a : Addr} (h : η) {l : List Addr} (ha : a ∉ l) :
    AgreeOn m (m.setHeader a h) l := by
  intro b hb
  have hne : b ≠ a := fun he => ha (he ▸ hb)
  simp [hne]

theorem agreeOn_setBytes (m : Heap η) {a : Addr} (bs : List UInt8) {l : List Addr} (ha : a ∉ l) :
    AgreeOn m (m.setBytes a bs) l := by
  intro b hb
  have hne : b ≠ a := fun he => ha (he ▸ hb)
  simp [hne]

theorem malloc_ok {m m' : Heap η} {size : ℕ} {a : Addr} (h : m.malloc size = .ok (a,m')) :
    a ≠ nullptr ∧ a ∉ m.live.map Prod.fst ∧ m'.live = (a,size) :: m.live ∧
      ∀ l, a ∉ l → AgreeOn m m' l := by
  unfold malloc at h
  dsimp only at h
  split at h
  · cases h
  · rename_i hb
    simp only [List.mem_cons,not_or] at hb
    cases h
    refine ⟨hb.1,hb.2,rfl,?_⟩
    intro l hl b hbl
    have hne : b ≠ (m.supply m.mallocs).addr := fun he => hl (he ▸ hbl)
    exact ⟨Function.update_of_ne hne ..,Function.update_of_ne hne ..⟩

theorem malloc_of_notMem {m : Heap η} (size : ℕ)
    (h : (m.supply m.mallocs).addr ∉ nullptr :: m.live.map Prod.fst) :
    ∃ m', m.malloc size = .ok ((m.supply m.mallocs).addr,m') ∧
      m'.header = Function.update m.header (m.supply m.mallocs).addr (m.supply m.mallocs).header ∧
      m'.bytes = Function.update m.bytes (m.supply m.mallocs).addr (m.supply m.mallocs).bytes ∧
      m'.supply = m.supply ∧ m'.mallocs = m.mallocs + 1 :=
  ⟨_,dif_neg h,rfl,rfl,rfl,rfl⟩

/-- The next `n` calls of `malloc` keep its contract: what they return is not null, not
live and not returned twice. -/
def Supplies (m : Heap η) (n : ℕ) : Prop :=
  ((List.range' m.mallocs n).map (fun k => (m.supply k).addr) ++
    nullptr :: m.live.map Prod.fst).Nodup

instance (m : Heap η) (n : ℕ) : Decidable (m.Supplies n) := inferInstanceAs (Decidable (List.Nodup _))

theorem Supplies.mono {m : Heap η} {n k : ℕ} (h : m.Supplies n) (hk : k ≤ n) : m.Supplies k := by
  have hsub : (List.range' m.mallocs k).Sublist (List.range' m.mallocs n) :=
    List.range'_sublist_right.mpr hk
  exact h.sublist ((hsub.map _).append_right _)

theorem supplies_zero (m : Heap η) : m.Supplies 0 := m.live_nodup

/-- A call of `malloc` takes the first block of the supply. -/
theorem Supplies.malloc {m m' : Heap η} {n size : ℕ} {a : Addr} (h : m.Supplies (n + 1))
    (hm : m.malloc size = .ok (a,m')) : m'.Supplies n := by
  unfold Heap.malloc at hm
  dsimp only at hm
  split at hm
  · cases hm
  · cases hm
    have hperm : ((List.range' (m.mallocs + 1) n).map (fun k => (m.supply k).addr) ++
        nullptr :: (m.supply m.mallocs).addr :: m.live.map Prod.fst).Perm
        ((List.range' m.mallocs (n + 1)).map (fun k => (m.supply k).addr) ++
          nullptr :: m.live.map Prod.fst) := by
      rw [List.range'_succ,List.map_cons,List.cons_append]
      exact ((List.Perm.swap _ _ _).append_left _).trans List.perm_middle
    exact hperm.nodup_iff.mpr h

theorem malloc_error {m : Heap η} {size : ℕ} {why : Stop} (h : m.malloc size = .error why) :
    why = .mallocLive ∧ ¬ m.Supplies 1 := by
  unfold malloc at h
  dsimp only at h
  split at h
  · rename_i hmem
    cases h
    refine ⟨rfl,fun hs => ?_⟩
    exact (List.nodup_cons.mp hs).1 hmem
  · cases h

/-- A live block can be freed; nothing else about the heap changes. -/
theorem free_of_mem {m : Heap η} {a : Addr} (h : a ∈ m.live.map Prod.fst) :
    ∃ m', m.free a = .ok m' ∧ m'.live = m.live.filter (fun e => e.1 ≠ a) ∧
      m'.header = m.header ∧ m'.bytes = m.bytes := by
  refine ⟨_,if_pos h,rfl,rfl,rfl⟩

/-- The addresses that `malloc` has returned so far, in order. -/
def malloced (m : Heap η) : List Addr := (List.range m.mallocs).map (fun k => (m.supply k).addr)

theorem malloced_malloc {m m' : Heap η} {size : ℕ} {a : Addr} (h : m.malloc size = .ok (a,m')) :
    m'.malloced = m.malloced ++ [a] := by
  unfold malloc at h
  dsimp only at h
  split at h
  · cases h
  · cases h
    simp [malloced,List.range_succ]

/-- Dropping the entries with the key of one of them drops that one. -/
theorem perm_filter_key {l : List (Addr × ℕ)} {e : Addr × ℕ} (hn : (l.map Prod.fst).Nodup)
    (he : e ∈ l) : l.Perm (e :: l.filter (fun d => d.1 ≠ e.1)) := by
  induction l with
  | nil => simp at he
  | cons d l ih =>
    rw [List.map_cons,List.nodup_cons] at hn
    rcases List.mem_cons.mp he with rfl | he
    · have hrest : l.filter (fun d => d.1 ≠ e.1) = l := by
        apply List.filter_eq_self.mpr
        intro d hd
        have hne : d.1 ≠ e.1 := fun h => hn.1 (List.mem_map.mpr ⟨d,hd,h⟩)
        exact decide_eq_true hne
      rw [List.filter_cons_of_neg (by simp),hrest]
    · have hne : d.1 ≠ e.1 := fun h => hn.1 (List.mem_map.mpr ⟨e,he,h.symm⟩)
      rw [List.filter_cons_of_pos (by simpa using hne)]
      exact ((ih hn.2 he).cons d).trans (List.Perm.swap e d _)

theorem free_ok {m m' : Heap η} {a : Addr} (h : m.free a = .ok m') :
    a ∈ m.live.map Prod.fst ∧
      (∀ size, (a,size) ∈ m.live → m.live.Perm ((a,size) :: m'.live)) ∧
      m'.malloced = m.malloced ∧ m'.supply = m.supply ∧ m'.mallocs = m.mallocs := by
  unfold free at h
  split at h
  · rename_i ha
    cases h
    refine ⟨ha,?_,rfl,rfl,rfl⟩
    intro size he
    exact perm_filter_key (List.nodup_cons.mp m.live_nodup).2 he
  · cases h

/-- Every block malloc'ed so far has been freed, once, or is live. -/
def Balanced (m : Heap η) (freed : List Addr) : Prop :=
  m.malloced.Perm (freed ++ m.live.map Prod.fst)

theorem Balanced.malloc {m m' : Heap η} {freed : List Addr} {size : ℕ} {a : Addr}
    (hb : m.Balanced freed) (h : m.malloc size = .ok (a,m')) : m'.Balanced freed := by
  unfold Balanced
  rw [malloced_malloc h,(malloc_ok h).2.2.1,List.map_cons]
  exact (List.perm_append_singleton a _).trans ((hb.cons a).trans List.perm_middle.symm)

theorem Balanced.free {m m' : Heap η} {freed : List Addr} {a : Addr}
    (hb : m.Balanced freed) (h : m.free a = .ok m') : m'.Balanced (freed ++ [a]) := by
  obtain ⟨ha,hlive,hmalloced,-⟩ := free_ok h
  obtain ⟨⟨b,size⟩,he,rfl⟩ := List.mem_map.mp ha
  unfold Balanced
  rw [hmalloced,List.append_assoc]
  exact hb.trans (((hlive size he).map Prod.fst).append_left freed)

end Heap

end FastNet
