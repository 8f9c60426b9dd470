import FastNet.Foundation.Execution
import FastNet.Foundation.Heap
import Mathlib.Data.List.Perm.Basic
import Mathlib.Order.Lattice

/-! # The buffer pool

Free lists keyed by buffer size over a malloc heap. `Owned` says that the buffers
in the free lists and those handed out are distinct live blocks of the size they
are filed under or were asked for; construction, `allocate` and `deallocate` keep
it whatever the order of the calls.
-/
namespace FastNet.Simple

/-- A vector of free buffers, the back of the vector first. -/
structure FreeList where
  buffers : List Addr
  capacity : ℕ
  size_le : buffers.length ≤ capacity

namespace FreeList

def empty : FreeList := ⟨[],0,le_rfl⟩

def reserve (l : FreeList) (n : ℕ) : FreeList :=
  ⟨l.buffers,max l.capacity n,l.size_le.trans (le_max_left _ _)⟩

/-- A full vector grows to twice its size, an empty one to one element. -/
def pushBack (l : FreeList) (a : Addr) : FreeList where
  buffers := a :: l.buffers
  capacity := if l.buffers.length < l.capacity then l.capacity
    else l.buffers.length + max l.buffers.length 1
  size_le := by
    have h := l.size_le
    simp only [List.length_cons]
    split <;> omega

def popBack (l : FreeList) : Option (Addr × FreeList) :=
  match l with
  | ⟨[],_,_⟩ => none
  | ⟨a :: rest,capacity,h⟩ => some (a,⟨rest,capacity,(Nat.le_succ _).trans h⟩)

theorem popBack_some {l l' : FreeList} {a : Addr} (h : l.popBack = some (a,l')) :
    l.buffers = a :: l'.buffers ∧ l'.capacity = l.capacity := by
  rcases l with ⟨_ | ⟨b,rest⟩,capacity,hle⟩
  · cases h
  · cases h
    exact ⟨rfl,rfl⟩

end FreeList

/-- The map from sizes to free lists. -/
structure BufferPool where
  pools : List (ℕ × FreeList)

namespace BufferPool
variable {η : Type}

def getPool (size : ℕ) : List (ℕ × FreeList) → Option FreeList
  | [] => none
  | e :: rest => if e.1 = size then some e.2 else getPool size rest

def setPool (size : ℕ) (l : FreeList) : List (ℕ × FreeList) → List (ℕ × FreeList)
  | [] => [(size,l)]
  | e :: rest => if e.1 = size then (size,l) :: rest else e :: setPool size l rest

/-- The inner loop of the constructor. -/
def fill (size : ℕ) : ℕ → FreeList → Heap η → Except Stop (FreeList × Heap η)
  | 0, l, m => .ok (l,m)
  | n + 1, l, m =>
    match m.malloc size with
    | .error why => .error why
    | .ok (a,m') => fill size n (l.pushBack a) m'

/-- The outer loop; a size that occurs again finds the list it made before. -/
def fillAll (initialCapacity : ℕ) :
    List ℕ → List (ℕ × FreeList) → Heap η → Except Stop (BufferPool × Heap η)
  | [], pools, m => .ok (⟨pools⟩,m)
  | size :: sizes, pools, m =>
    match fill size initialCapacity
        (((getPool size pools).getD .empty).reserve initialCapacity) m with
    | .error why => .error why
    | .ok (l,m') => fillAll initialCapacity sizes (setPool size l pools) m'

def construct (bufferSizes : List ℕ) (initialCapacity : ℕ) (m : Heap η) :
    Except Stop (BufferPool × Heap η) := fillAll initialCapacity bufferSizes [] m

def allocate (p : BufferPool) (m : Heap η) (size : ℕ) :
    Except Stop (Addr × BufferPool × Heap η) :=
  match (getPool size p.pools).bind FreeList.popBack with
  | some (a,l) => .ok (a,⟨setPool size l p.pools⟩,m)
  | none =>
    match m.malloc size with
    | .error why => .error why
    | .ok (a,m') => .ok (a,p,m')

def deallocate (p : BufferPool) (m : Heap η) (a : Addr) (size : ℕ) :
    Except Stop (BufferPool × Heap η) :=
  match getPool size p.pools with
  | some l =>
    if l.buffers.length < l.capacity then .ok (⟨setPool size (l.pushBack a) p.pools⟩,m)
    else (m.free a).map (fun m' => (p,m'))
  | none => (m.free a).map (fun m' => (p,m'))

/-- Whether `allocate` finds a free buffer, so that it does not call `malloc`. -/
def hits (p : BufferPool) (size : ℕ) : Bool :=
  ((getPool size p.pools).bind FreeList.popBack).isSome

/-- Whether `deallocate` keeps the buffer, so that it does not call `free`. -/
def keeps (p : BufferPool) (size : ℕ) : Bool :=
  match getPool size p.pools with
  | some l => decide (l.buffers.length < l.capacity)
  | none => false

/-- Free the buffers one after the other. -/
def freeAll : List Addr → Heap η → Except Stop (Heap η)
  | [], m => .ok m
  | a :: rest, m =>
    match m.free a with
    | .error why => .error why
    | .ok m' => freeAll rest m'

/-- The buffers in the order the destructor goes through them. -/
def buffers (p : BufferPool) : List Addr := p.pools.flatMap (fun e => e.2.buffers.reverse)

/-- `~BufferPool`. -/
def destroy (p : BufferPool) (m : Heap η) : Except Stop (Heap η) := freeAll p.buffers m

/-- The free-listed buffers with the size they are filed under. -/
def filed (pools : List (ℕ × FreeList)) : List (Addr × ℕ) :=
  pools.flatMap (fun e => e.2.buffers.map (fun a => (a,e.1)))

theorem filed_split (size : ℕ) (pools : List (ℕ × FreeList)) :
    ∃ others : List (Addr × ℕ),
      (filed pools).Perm
        (((getPool size pools).getD .empty).buffers.map (fun a => (a,size)) ++ others) ∧
      ∀ l : FreeList, (filed (setPool size l pools)).Perm
        (l.buffers.map (fun a => (a,size)) ++ others) := by
  induction pools with
  | nil => exact ⟨[],by simp [filed,getPool,FreeList.empty],by simp [filed,setPool]⟩
  | cons e rest ih =>
    by_cases he : e.1 = size
    · subst he
      refine ⟨filed rest,?_,?_⟩
      · simp [filed,getPool]
      · intro l
        simp [filed,setPool]
    · obtain ⟨others,hget,hset⟩ := ih
      have hmove : ∀ (xs ys : List (Addr × ℕ)), ys.Perm (xs ++ others) →
          (e.2.buffers.map (fun a => (a,e.1)) ++ ys).Perm
            (xs ++ (e.2.buffers.map (fun a => (a,e.1)) ++ others)) := by
        intro xs ys h
        apply (h.append_left _).trans
        rw [← List.append_assoc,← List.append_assoc]
        exact List.perm_append_comm.append_right _
      refine ⟨e.2.buffers.map (fun a => (a,e.1)) ++ others,?_,?_⟩
      · simpa [filed,getPool,he] using hmove _ _ hget
      · intro l
        simpa [filed,setPool,he] using hmove _ _ (hset l)

section Cases
variable {m m' : Heap η} {p p' : BufferPool} {a : Addr} {size : ℕ}

/-- `allocate` takes a buffer off the list of the size or mallocs one. -/
theorem allocate_cases (h : p.allocate m size = .ok (a,p',m')) :
    (p.hits size = true ∧ m' = m ∧ (filed p.pools).Perm ((a,size) :: filed p'.pools)) ∨
    (p.hits size = false ∧ p' = p ∧ m.malloc size = .ok (a,m')) := by
  unfold allocate at h
  split at h
  · rename_i b l hpop
    cases h
    left
    obtain ⟨l0,hget,hback⟩ := Option.bind_eq_some_iff.mp hpop
    obtain ⟨others,hbefore,hafter⟩ := filed_split size p.pools
    rw [hget,Option.getD_some,(FreeList.popBack_some hback).1] at hbefore
    exact ⟨by rw [hits,hpop]; rfl,rfl,hbefore.trans ((hafter l).symm.cons _)⟩
  · rename_i hpop
    split at h
    · cases h
    · rename_i b m1 hmalloc
      cases h
      exact Or.inr ⟨by rw [hits,hpop]; rfl,rfl,hmalloc⟩

theorem allocate_agree (h : p.allocate m size = .ok (a,p',m')) :
    ∀ b, b ≠ a → m'.header b = m.header b ∧ m'.bytes b = m.bytes b := by
  intro b hb
  rcases allocate_cases h with ⟨-,rfl,-⟩ | ⟨-,-,hmalloc⟩
  · exact ⟨rfl,rfl⟩
  · exact (Heap.malloc_ok hmalloc).2.2.2 [b] (by simpa using hb.symm) b (by simp)

theorem allocate_supplies {n : ℕ} (h : p.allocate m size = .ok (a,p',m'))
    (hm : m.Supplies (n + 1)) : m'.Supplies n := by
  rcases allocate_cases h with ⟨-,rfl,-⟩ | ⟨-,-,hmalloc⟩
  · exact hm.mono (Nat.le_succ n)
  · exact hm.malloc hmalloc

/-- `deallocate` puts the buffer on the list of its size or frees it. -/
theorem deallocate_cases (h : p.deallocate m a size = .ok (p',m')) :
    (p.keeps size = true ∧ m' = m ∧ (filed p'.pools).Perm ((a,size) :: filed p.pools)) ∨
    (p.keeps size = false ∧ p' = p ∧ m.free a = .ok m') := by
  have hmap : ∀ {x : Except Stop (Heap η)}, x.map (fun m' => (p,m')) = .ok (p',m') →
      p' = p ∧ x = .ok m' := by
    intro x hx
    obtain ⟨m1,hx,heq⟩ := Execution.map_ok.mp hx
    cases heq
    exact ⟨rfl,hx⟩
  unfold deallocate at h
  split at h
  · rename_i l hget
    split at h
    · rename_i hlt
      cases h
      obtain ⟨others,hbefore,hafter⟩ := filed_split size p.pools
      rw [hget,Option.getD_some] at hbefore
      refine Or.inl ⟨?_,rfl,(hafter (l.pushBack a)).trans (hbefore.symm.cons _)⟩
      rw [keeps,hget]
      exact decide_eq_true hlt
    · rename_i hlt
      exact Or.inr ⟨by rw [keeps,hget]; exact decide_eq_false hlt,hmap h⟩
  · rename_i hget
    exact Or.inr ⟨by rw [keeps,hget],hmap h⟩

end Cases

/-- The pool and the callers own distinct live blocks, each of its own size. -/
structure Owned (m : Heap η) (p : BufferPool) (held : List (Addr × ℕ)) : Prop where
  nodup : ((filed p.pools ++ held).map Prod.fst).Nodup
  live : ∀ e ∈ filed p.pools ++ held, e ∈ m.live

variable {m m' : Heap η} {p p' : BufferPool} {held held' : List (Addr × ℕ)} {a : Addr} {size : ℕ}

theorem Owned.of_perm (ho : Owned m p held) (hm : ∀ e ∈ m.live, e ∈ m'.live)
    (h : (filed p'.pools ++ held').Perm (filed p.pools ++ held)) : Owned m' p' held' where
  nodup := (h.map Prod.fst).nodup_iff.mpr ho.nodup
  live e he := hm e (ho.live e (h.mem_iff.mp he))

theorem Owned.perm (ho : Owned m p held) (h : held'.Perm held) : Owned m p held' :=
  ho.of_perm (fun _ h => h) (h.append_left _)

/-- Owning depends on the heap only through its live blocks. -/
theorem Owned.heap (ho : Owned m p held) (h : m'.live = m.live) : Owned m' p held :=
  ho.of_perm (fun e he => by rw [h]; exact he) (List.Perm.refl _)

theorem Owned.held_live (ho : Owned m p held) {b : Addr} (hb : b ∈ held.map Prod.fst) :
    b ∈ m.live.map Prod.fst := by
  obtain ⟨e,he,rfl⟩ := List.mem_map.mp hb
  exact List.mem_map.mpr ⟨e,ho.live e (List.mem_append_right _ he),rfl⟩

theorem Owned.head_notMem (ho : Owned m p ((a,size) :: held)) : a ∉ held.map Prod.fst := by
  have h := ho.nodup
  rw [List.map_append,List.nodup_append] at h
  exact (List.nodup_cons.mp h.2.1).1

theorem Owned.malloc (ho : Owned m p held) (h : m.malloc size = .ok (a,m'))
    (hperm : (filed p'.pools ++ held').Perm ((a,size) :: (filed p.pools ++ held))) :
    Owned m' p' held' := by
  obtain ⟨_,hnew,hlive,_⟩ := Heap.malloc_ok h
  have hfresh : a ∉ (filed p.pools ++ held).map Prod.fst := by
    intro ha
    obtain ⟨e,he,rfl⟩ := List.mem_map.mp ha
    exact hnew (List.mem_map.mpr ⟨e,ho.live e he,rfl⟩)
  constructor
  · apply (hperm.map Prod.fst).nodup_iff.mpr
    exact List.nodup_cons.mpr ⟨hfresh,ho.nodup⟩
  · intro e he
    rw [hlive]
    rcases List.mem_cons.mp (hperm.mem_iff.mp he) with rfl | he
    · exact List.mem_cons_self
    · exact List.mem_cons_of_mem _ (ho.live e he)

/-- `allocate` returns a block nobody else owns and does not touch the others. -/
theorem Owned.allocate (ho : Owned m p held) (h : p.allocate m size = .ok (a,p',m')) :
    Owned m' p' ((a,size) :: held) ∧ m.AgreeOn m' (held.map Prod.fst) := by
  rcases allocate_cases h with ⟨-,rfl,hperm⟩ | ⟨-,rfl,hmalloc⟩
  · refine ⟨ho.of_perm (fun _ h => h) ?_,Heap.AgreeOn.refl _ _⟩
    exact List.perm_middle.trans (hperm.symm.append_right _)
  · have hnew := (Heap.malloc_ok hmalloc).2.1
    refine ⟨ho.malloc hmalloc List.perm_middle,?_⟩
    exact (Heap.malloc_ok hmalloc).2.2.2 _ (fun hb => hnew (ho.held_live hb))

theorem allocate_error {why : Stop} (h : p.allocate m size = .error why) :
    why = .mallocLive ∧ ¬ m.Supplies 1 := by
  unfold BufferPool.allocate at h
  split at h
  · cases h
  · split at h
    · rename_i why' hmalloc
      cases h
      exact Heap.malloc_error hmalloc
    · cases h

theorem Owned.free (ho : Owned m p ((a,size) :: held)) :
    ∃ m', m.free a = .ok m' ∧ Owned m' p held ∧ m'.header = m.header ∧ m'.bytes = m.bytes := by
  have hmem : a ∈ m.live.map Prod.fst := ho.held_live (by simp)
  obtain ⟨m',hfree,hlive,hheader,hbytes⟩ := Heap.free_of_mem hmem
  have hperm : (filed p.pools ++ (a,size) :: held).Perm ((a,size) :: (filed p.pools ++ held)) :=
    List.perm_middle
  have hnodup := (hperm.map Prod.fst).nodup_iff.mp ho.nodup
  rw [List.map_cons,List.nodup_cons] at hnodup
  refine ⟨m',hfree,⟨hnodup.2,?_⟩,hheader,hbytes⟩
  intro e he
  rw [hlive,List.mem_filter]
  refine ⟨ho.live e (hperm.mem_iff.mpr (List.mem_cons_of_mem _ he)),?_⟩
  have hne : e.1 ≠ a := by
    rintro rfl
    exact hnodup.1 (List.mem_map.mpr ⟨e,he,rfl⟩)
  simp [hne]

/-- `deallocate` of an owned buffer with its own size takes it back or frees it. -/
theorem Owned.deallocate (ho : Owned m p ((a,size) :: held)) :
    ∃ p' m', p.deallocate m a size = .ok (p',m') ∧ Owned m' p' held ∧
      m'.header = m.header ∧ m'.bytes = m.bytes := by
  obtain ⟨m1,hfree,hown,hheader,hbytes⟩ := ho.free
  have hok : ∃ p' m', p.deallocate m a size = .ok (p',m') := by
    unfold BufferPool.deallocate
    rw [hfree]
    split
    · split <;> exact ⟨_,_,rfl⟩
    · exact ⟨_,_,rfl⟩
  obtain ⟨p',m',h⟩ := hok
  refine ⟨p',m',h,?_⟩
  rcases deallocate_cases h with ⟨-,rfl,hperm⟩ | ⟨-,rfl,hfree'⟩
  · refine ⟨ho.of_perm (fun _ h => h) ?_,rfl,rfl⟩
    exact (hperm.append_right _).trans List.perm_middle.symm
  · cases hfree.symm.trans hfree'
    exact ⟨hown,hheader,hbytes⟩

/-- The pool and the callers own all live blocks and nothing else. -/
def Conserved (m : Heap η) (p : BufferPool) (held : List (Addr × ℕ)) : Prop :=
  (filed p.pools ++ held).Perm m.live

theorem Conserved.owned (hc : Conserved m p held) : Owned m p held where
  nodup := (hc.map Prod.fst).nodup_iff.mpr (List.nodup_cons.mp m.live_nodup).2
  live _ he := hc.mem_iff.mp he

theorem Owned.of_append {rest : List (Addr × ℕ)} (ho : Owned m p (held ++ rest)) :
    Owned m p held where
  nodup := ho.nodup.sublist (((List.sublist_append_left held rest).append_left _).map Prod.fst)
  live e he := ho.live e (((List.sublist_append_left held rest).append_left _).subset he)

theorem Conserved.malloc (hc : Conserved m p held) (h : m.malloc size = .ok (a,m'))
    (hperm : (filed p'.pools ++ held').Perm ((a,size) :: (filed p.pools ++ held))) :
    Conserved m' p' held' := by
  unfold Conserved
  rw [(Heap.malloc_ok h).2.2.1]
  exact hperm.trans (hc.cons _)

section Construct

theorem Conserved.fill {size n : ℕ} {l l' : FreeList} {pools : List (ℕ × FreeList)}
    (hc : Conserved m ⟨setPool size l pools⟩ held) (h : fill size n l m = .ok (l',m')) :
    Conserved m' ⟨setPool size l' pools⟩ held := by
  induction n generalizing l m with
  | zero =>
    cases h
    exact hc
  | succ n ih =>
    unfold BufferPool.fill at h
    split at h
    · cases h
    · rename_i b m1 hmalloc
      refine ih (hc.malloc hmalloc ?_) h
      obtain ⟨others,_,hset⟩ := filed_split size pools
      apply ((hset _).append_right _).trans
      exact (((hset l).append_right held).symm.cons _)

theorem Conserved.fillAll {sizes : List ℕ} {initialCapacity : ℕ} {pools : List (ℕ × FreeList)}
    (hc : Conserved m ⟨pools⟩ held) (h : fillAll initialCapacity sizes pools m = .ok (p',m')) :
    Conserved m' p' held := by
  induction sizes generalizing pools m with
  | nil =>
    cases h
    exact hc
  | cons size sizes ih =>
    unfold BufferPool.fillAll at h
    split at h
    · cases h
    · rename_i l m1 hfill
      refine ih (Conserved.fill (List.Perm.trans ?_ hc) hfill) h
      obtain ⟨others,hget,hset⟩ := filed_split size pools
      exact ((hset (((getPool size pools).getD .empty).reserve initialCapacity)).trans
        hget.symm).append_right _

/-- The constructor leaves every buffer it malloc'ed free-listed. -/
theorem Conserved.construct {sizes : List ℕ} {initialCapacity : ℕ}
    (h : construct sizes initialCapacity m = .ok (p',m')) : Conserved m' p' m.live :=
  Conserved.fillAll (show Conserved m ⟨[]⟩ m.live from List.Perm.refl _) h

theorem owned_construct {sizes : List ℕ} {initialCapacity : ℕ}
    (h : BufferPool.construct sizes initialCapacity m = .ok (p',m')) : Owned m' p' [] := by
  have hall : Owned m' p' ([] ++ m.live) := (Conserved.construct h).owned
  exact hall.of_append

section Heap
variable {P : Heap η → Prop}
  (hmalloc : ∀ m m' size a, P m → Heap.malloc m size = .ok (a,m') → P m')
include hmalloc

theorem fill_heap {n : ℕ} {l l' : FreeList} (h : BufferPool.fill size n l m = .ok (l',m'))
    (hm : P m) : P m' := by
  induction n generalizing l m with
  | zero =>
    cases h
    exact hm
  | succ n ih =>
    unfold BufferPool.fill at h
    split at h
    · cases h
    · rename_i b m1 hb
      exact ih h (hmalloc _ _ _ _ hm hb)

theorem construct_heap {sizes : List ℕ} {initialCapacity : ℕ} {pools : List (ℕ × FreeList)}
    (h : BufferPool.fillAll initialCapacity sizes pools m = .ok (p',m')) (hm : P m) : P m' := by
  induction sizes generalizing pools m with
  | nil =>
    cases h
    exact hm
  | cons size sizes ih =>
    unfold BufferPool.fillAll at h
    split at h
    · cases h
    · rename_i l m1 hb
      exact ih h (fill_heap hmalloc hb hm)

end Heap

end Construct

section Destroy

theorem buffers_eq (p : BufferPool) :
    p.buffers = (p.pools.flatMap (fun e => (e.2.buffers.map (fun a => (a,e.1))).reverse)).map
      Prod.fst := by
  simp only [buffers,List.map_flatMap,List.map_reverse,List.map_map,Function.comp_def,List.map_id']

theorem filed_perm_reverse (p : BufferPool) :
    (p.pools.flatMap (fun e => (e.2.buffers.map (fun a => (a,e.1))).reverse)).Perm
      (filed p.pools) :=
  List.Perm.flatMap_left _ fun _ _ => List.reverse_perm _

theorem freeAll_ok {l rest : List (Addr × ℕ)} (h : (l ++ rest).Perm m.live) :
    ∃ m', freeAll (l.map Prod.fst) m = .ok m' ∧ rest.Perm m'.live ∧
      ∀ freed, m.Balanced freed → m'.Balanced (freed ++ l.map Prod.fst) := by
  induction l generalizing m with
  | nil => exact ⟨m,rfl,h,fun freed hb => by simpa using hb⟩
  | cons e l ih =>
    have he : e ∈ m.live := h.mem_iff.mp List.mem_cons_self
    obtain ⟨m1,hfree,-⟩ := Heap.free_of_mem (List.mem_map.mpr ⟨e,he,rfl⟩)
    have hlive := (Heap.free_ok hfree).2.1 e.2 he
    obtain ⟨m',hall,hrest,hbalanced⟩ := ih (List.Perm.cons_inv (h.trans hlive))
    refine ⟨m',?_,hrest,?_⟩
    · rw [List.map_cons,freeAll,hfree]
      exact hall
    · intro freed hb
      have h1 := hbalanced _ (hb.free hfree)
      rwa [List.append_assoc] at h1

/-- The destructor frees what is free-listed and leaves what is handed out. -/
theorem Conserved.destroy (hc : Conserved m p held) :
    ∃ m', p.destroy m = .ok m' ∧ held.Perm m'.live ∧
      ∀ freed, m.Balanced freed → m'.Balanced (freed ++ p.buffers) := by
  have h := ((filed_perm_reverse p).append_right held).trans hc
  rw [BufferPool.destroy,buffers_eq]
  exact freeAll_ok h

end Destroy

end BufferPool

end FastNet.Simple
