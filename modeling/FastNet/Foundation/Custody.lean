import FastNet.Foundation.Heap
import Mathlib.Data.List.Perm.Basic

/-! # Custody of the live blocks

A program that accounts for its heap keeps a list of the blocks it has to free. The
list covers the heap when the live blocks are the listed ones. Blocks may belong to
records: the header of a record says which ones.
-/
namespace FastNet.Heap
variable {η : Type} {m m' : Heap η} {l : List (Addr × ℕ)} {a : Addr} {size : ℕ}

/-- The live blocks are the listed ones. -/
def Covers (m : Heap η) (l : List (Addr × ℕ)) : Prop := m.live.Perm l

theorem Covers.perm {l' : List (Addr × ℕ)} (h : m.Covers l) (hp : l.Perm l') : m.Covers l' :=
  List.Perm.trans h hp

theorem Covers.nodup (h : m.Covers l) : (nullptr :: l.map Prod.fst).Nodup :=
  ((List.Perm.map Prod.fst h).cons nullptr).nodup_iff.mp m.live_nodup

theorem Covers.ne_nullptr (h : m.Covers l) (ha : a ∈ l.map Prod.fst) : a ≠ nullptr := by
  rintro rfl
  exact (List.nodup_cons.mp h.nodup).1 ha

theorem Covers.live (h : m.Covers l) (ha : a ∈ l.map Prod.fst) : a ∈ m.live.map Prod.fst :=
  (List.Perm.map Prod.fst h).mem_iff.mpr ha

/-- The blocks of one part of the list are apart from those of the other. -/
theorem Covers.notMem {e : List (Addr × ℕ)} (h : m.Covers (e ++ l)) (ha : a ∈ e.map Prod.fst) :
    a ∉ l.map Prod.fst := by
  have hn := (List.nodup_cons.mp h.nodup).2
  rw [List.map_append,List.nodup_append] at hn
  exact fun hl => hn.2.2 a ha a hl rfl

/-- A new block is added to the list and the listed ones keep what they hold. -/
theorem Covers.malloc (h : m.Covers l) (hm : m.malloc size = .ok (a,m')) :
    m'.Covers ((a,size) :: l) ∧ m.AgreeOn m' (l.map Prod.fst) := by
  obtain ⟨-,hnew,hlive,hagree⟩ := malloc_ok hm
  refine ⟨?_,hagree _ fun hl => hnew (h.live hl)⟩
  unfold Covers
  rw [hlive]
  exact List.Perm.cons _ h

/-- A listed block can be freed, and the memory keeps what it holds. -/
theorem Covers.free (h : m.Covers ((a,size) :: l)) :
    ∃ m', m.free a = .ok m' ∧ m'.Covers l ∧ m'.header = m.header ∧ m'.bytes = m.bytes ∧
      m'.supply = m.supply ∧ m'.mallocs = m.mallocs := by
  obtain ⟨m',hfree,-,hheader,hbytes⟩ := free_of_mem (h.live (a := a) (by simp))
  obtain ⟨-,hlive,-,hsupply,hmallocs⟩ := free_ok hfree
  have hmem : (a,size) ∈ m.live := List.Perm.mem_iff h |>.mpr (by simp)
  refine ⟨m',hfree,?_,hheader,hbytes,hsupply,hmallocs⟩
  exact List.Perm.cons_inv ((hlive size hmem).symm.trans h)

/-- A new block holds what the supply gave it. -/
theorem malloc_contents (hm : m.malloc size = .ok (a,m')) :
    m'.bytes a = (m.supply m.mallocs).bytes ∧ m'.supply = m.supply ∧
      m'.mallocs = m.mallocs + 1 := by
  unfold Heap.malloc at hm
  dsimp only at hm
  split at hm
  · cases hm
  · cases hm
    exact ⟨Function.update_self ..,rfl,rfl⟩

section Records
variable (blocks : η → Addr → List (Addr × ℕ))

/-- The blocks of the records at the addresses. -/
def owned (m : Heap η) (l : List Addr) : List (Addr × ℕ) :=
  l.flatMap (fun a => blocks (m.header a) a)

variable {blocks} {reqs : List Addr}

theorem owned_congr (h : ∀ a ∈ reqs, m'.header a = m.header a) :
    owned blocks m' reqs = owned blocks m reqs := by
  unfold owned
  apply List.flatMap_congr
  intro a ha
  rw [h a ha]

@[simp] theorem owned_cons (a : Addr) (reqs : List Addr) :
    owned blocks m (a :: reqs) = blocks (m.header a) a ++ owned blocks m reqs := rfl

theorem owned_perm {reqs' : List Addr} (h : reqs.Perm reqs') :
    (owned blocks m reqs).Perm (owned blocks m reqs') := List.Perm.flatMap_right _ h

theorem mem_owned {e : Addr × ℕ} (ha : a ∈ reqs) (he : e ∈ blocks (m.header a) a) :
    e ∈ owned blocks m reqs := List.mem_flatMap.mpr ⟨a,ha,he⟩

end Records

end FastNet.Heap
