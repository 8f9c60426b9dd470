import FastNet.Simple.PoolRuns
import Mathlib.Data.List.Infix

/-! # The steady state of the buffer pool

For one size the pool is two numbers, the buffers in the free list and the capacity
of its vector, which no call changes after the construction. As long as no more
buffers are handed out than were filed at the start, the two kinds of buffers of the
size add up to that number and neither `malloc` nor `free` is called for it.
-/
namespace FastNet.Simple.Pool
open Execution
variable {η : Type}

section Levels
open BufferPool
variable {size size' : ℕ} {pools : List (ℕ × FreeList)} {p p' : BufferPool} {m m' : Heap η}
  {a : Addr}

/-- The number of free buffers of a size and the capacity of their vector. -/
def level (pools : List (ℕ × FreeList)) (size : ℕ) : Option (ℕ × ℕ) :=
  (getPool size pools).map (fun l => (l.buffers.length,l.capacity))

theorem getPool_setPool (l : FreeList) :
    getPool size (setPool size' l pools) = if size = size' then some l else getPool size pools := by
  induction pools with
  | nil =>
    by_cases h : size' = size
    · simp [setPool,getPool,h]
    · simp [setPool,getPool,h,Ne.symm h]
  | cons e rest ih =>
    by_cases he : e.1 = size'
    · by_cases h : size = size'
      · simp [setPool,getPool,he,h]
      · simp [setPool,getPool,he,h,Ne.symm h]
    · by_cases h : e.1 = size
      · have hne : ¬ size = size' := fun heq => he (h.trans heq)
        simp [setPool,getPool,h,hne]
      · simp [setPool,getPool,he,h,ih]

theorem level_setPool (l : FreeList) : level (setPool size' l pools) size =
    if size = size' then some (l.buffers.length,l.capacity) else level pools size := by
  unfold level
  rw [getPool_setPool]
  by_cases h : size = size'
  · rw [if_pos h,if_pos h,Option.map_some]
  · rw [if_neg h,if_neg h]

theorem level_le {free capacity : ℕ} (h : level pools size = some (free,capacity)) :
    free ≤ capacity := by
  obtain ⟨l,-,heq⟩ := Option.map_eq_some_iff.mp h
  cases heq
  exact l.size_le

/-- A free buffer is taken without `malloc`; else the lists stay. -/
theorem allocate_level (h : p.allocate m size' = .ok (a,p',m')) (size : ℕ) :
    (∃ free capacity, level p.pools size' = some (free + 1,capacity) ∧ m' = m ∧
      level p'.pools size = if size = size' then some (free,capacity) else level p.pools size) ∨
    ((∀ free capacity, level p.pools size' ≠ some (free + 1,capacity)) ∧ p' = p) := by
  unfold allocate at h
  split at h
  · rename_i b l hpop
    cases h
    left
    obtain ⟨l0,hget,hback⟩ := Option.bind_eq_some_iff.mp hpop
    obtain ⟨hbuffers,hcapacity⟩ := FreeList.popBack_some hback
    refine ⟨l.buffers.length,l.capacity,?_,rfl,level_setPool l⟩
    simp [level,hget,hbuffers,hcapacity]
  · rename_i hpop
    split at h
    · cases h
    · cases h
      refine Or.inr ⟨?_,rfl⟩
      intro free capacity hlevel
      obtain ⟨l,hget,heq⟩ := Option.map_eq_some_iff.mp hlevel
      rw [hget,Option.bind_some] at hpop
      rcases l with ⟨_ | ⟨b,rest⟩,_,_⟩
      · cases heq
      · cases hpop

/-- A buffer is kept without `free` where the vector has room; else the lists stay. -/
theorem deallocate_level (h : p.deallocate m a size' = .ok (p',m')) (size : ℕ) :
    (∃ free capacity, level p.pools size' = some (free,capacity) ∧ free < capacity ∧
      p.keeps size' = true ∧ m' = m ∧ level p'.pools size =
        if size = size' then some (free + 1,capacity) else level p.pools size) ∨
    ((∀ free capacity, level p.pools size' = some (free,capacity) → capacity ≤ free) ∧
      p' = p) := by
  unfold deallocate at h
  split at h
  · rename_i l hget
    split at h
    · rename_i hlt
      cases h
      left
      refine ⟨l.buffers.length,l.capacity,?_,hlt,?_,rfl,?_⟩
      · rw [level,hget,Option.map_some]
      · rw [keeps,hget]
        exact decide_eq_true hlt
      · have hcapacity : (l.pushBack a).capacity = l.capacity := if_pos hlt
        rw [level_setPool,hcapacity]
        rfl
    · rename_i hlt
      right
      obtain ⟨m1,-,heq⟩ := map_ok.mp h
      cases heq
      refine ⟨?_,rfl⟩
      intro free capacity hlevel
      rw [level,hget,Option.map_some] at hlevel
      cases hlevel
      omega
  · rename_i hget
    right
    obtain ⟨m1,-,heq⟩ := map_ok.mp h
    cases heq
    refine ⟨?_,rfl⟩
    intro free capacity hlevel
    rw [level,hget,Option.map_none] at hlevel
    cases hlevel

theorem fill_length {n : ℕ} {l l' : FreeList} (h : fill size n l m = .ok (l',m')) :
    l'.buffers.length = l.buffers.length + n := by
  induction n generalizing l m with
  | zero =>
    cases h
    rfl
  | succ n ih =>
    unfold fill at h
    split at h
    · cases h
    · rename_i b m1 hmalloc
      rw [ih h,FreeList.pushBack,List.length_cons]
      omega

/-- A size is filled up as often as it occurs in the list. -/
theorem fillAll_level {initialCapacity : ℕ} {sizes : List ℕ}
    (h : fillAll initialCapacity sizes pools m = .ok (p',m')) (size : ℕ)
    (hsize : size ∈ sizes ∨ level pools size ≠ none) :
    ∃ capacity, level p'.pools size =
      some ((level pools size).elim 0 Prod.fst + initialCapacity * sizes.count size,capacity) := by
  induction sizes generalizing pools m with
  | nil =>
    cases h
    obtain ⟨e,he⟩ := Option.ne_none_iff_exists'.mp (hsize.resolve_left List.not_mem_nil)
    exact ⟨e.2,by simp [he]⟩
  | cons first sizes ih =>
    unfold fillAll at h
    split at h
    · cases h
    · rename_i l m1 hfill
      have hlength := fill_length hfill
      have hlevel : level (setPool first l pools) size =
          if size = first then some (l.buffers.length,l.capacity) else level pools size :=
        level_setPool l
      by_cases hfirst : size = first
      · subst hfirst
        rw [if_pos rfl] at hlevel
        obtain ⟨capacity,hc⟩ := ih h (Or.inr (by simp [hlevel]))
        refine ⟨capacity,?_⟩
        have hold : (((getPool size pools).getD .empty).reserve initialCapacity).buffers.length =
            (level pools size).elim 0 Prod.fst := by
          unfold level
          cases getPool size pools <;> rfl
        rw [hc,hlevel,Option.elim_some,hlength,hold,List.count_cons_self,Nat.mul_succ]
        congr 2
        omega
      · rw [if_neg hfirst] at hlevel
        obtain ⟨capacity,hc⟩ := ih h (by
          rw [hlevel]
          exact hsize.imp_left fun hmem => (List.mem_cons.mp hmem).resolve_left hfirst)
        refine ⟨capacity,?_⟩
        rw [hc,hlevel,List.count_cons_of_ne (Ne.symm hfirst)]

end Levels

section Steady
variable {s0 s t : State η} {e : Call η} {es : List (Call η)} {size n capacity : ℕ}

/-- The number of buffers of a size that the callers have. -/
def outstandingOf (s : State η) (size : ℕ) : ℕ := s.outstanding.countP (fun e => e.2 = size)

theorem step_allocate (h : step s (.allocate size) = .ok t) {free : ℕ}
    (hs : level s.pool.pools size = some (free,capacity)) :
    outstandingOf t size = outstandingOf s size + 1 ∧
      (free = 0 ∧ level t.pool.pools size = some (0,capacity) ∨
        t.mem = s.mem ∧ t.freed = s.freed ∧ ∃ rest, free = rest + 1 ∧
          level t.pool.pools size = some (rest,capacity)) := by
  obtain ⟨⟨a,pool,mem⟩,halloc,h⟩ := bind_ok.mp h
  cases h
  refine ⟨by simp [outstandingOf],?_⟩
  rcases allocate_level halloc size with ⟨rest,c,hbefore,rfl,hafter⟩ | ⟨hnone,rfl⟩
  · rw [hs] at hbefore
    cases hbefore
    rw [if_pos rfl] at hafter
    exact Or.inr ⟨rfl,rfl,rest,rfl,hafter⟩
  · left
    cases free with
    | zero => exact ⟨rfl,hs⟩
    | succ rest => exact (hnone rest capacity hs).elim

theorem step_deallocate {a : Addr} (h : step s (.deallocate a size) = .ok t) {free : ℕ}
    (hs : level s.pool.pools size = some (free,capacity)) :
    outstandingOf s size = outstandingOf t size + 1 ∧
      (free = capacity ∧ level t.pool.pools size = some (free,capacity) ∨
        t.mem = s.mem ∧ t.freed = s.freed ∧ free < capacity ∧
          level t.pool.pools size = some (free + 1,capacity)) := by
  simp only [step] at h
  split at h
  · rename_i hmem
    obtain ⟨⟨pool,mem⟩,hde,h⟩ := bind_ok.mp h
    cases h
    have hcount := (List.perm_cons_erase hmem).countP_eq (fun e => e.2 = size)
    refine ⟨by simpa [outstandingOf] using hcount,?_⟩
    rcases deallocate_level hde size with ⟨f,c,hbefore,hlt,hkeeps,rfl,hafter⟩ | ⟨hfull,rfl⟩
    · rw [hs] at hbefore
      cases hbefore
      rw [if_pos rfl] at hafter
      exact Or.inr ⟨rfl,if_pos hkeeps,hlt,hafter⟩
    · exact Or.inl ⟨Nat.le_antisymm (level_le hs) (hfull _ _ hs),hs⟩
  · cases h

/-- The calls for other sizes and the writes to memory leave the numbers of a size alone. -/
theorem step_other (h : step s e = .ok t) (ha : e ≠ .allocate size)
    (hd : ∀ a, e ≠ .deallocate a size) {free : ℕ}
    (hs : level s.pool.pools size = some (free,capacity)) :
    level t.pool.pools size = some (free,capacity) ∧
      outstandingOf t size = outstandingOf s size := by
  cases e with
  | allocate size' =>
    obtain ⟨⟨a,pool,mem⟩,halloc,h⟩ := bind_ok.mp h
    cases h
    have hother : ¬ size' = size := fun heq => ha (by rw [heq])
    refine ⟨?_,by simp [outstandingOf,hother]⟩
    rcases allocate_level halloc size with ⟨_,_,-,-,hafter⟩ | ⟨-,rfl⟩
    · rwa [if_neg (Ne.symm hother),hs] at hafter
    · exact hs
  | deallocate a size' =>
    simp only [step] at h
    split at h
    · rename_i hmem
      obtain ⟨⟨pool,mem⟩,hde,h⟩ := bind_ok.mp h
      cases h
      have hcount := (List.perm_cons_erase hmem).countP_eq (fun e => e.2 = size)
      have hother : ¬ size' = size := fun heq => hd a (by rw [heq])
      refine ⟨?_,by simpa [outstandingOf,hother] using hcount.symm⟩
      rcases deallocate_level hde size with ⟨_,_,-,-,-,-,hafter⟩ | ⟨-,rfl⟩
      · rwa [if_neg (Ne.symm hother),hs] at hafter
      · exact hs
    · cases h
  | write header bytes =>
    cases h
    exact ⟨hs,rfl⟩

/-- What a call does to the numbers of a size. -/
theorem step_level (h : step s e = .ok t) {free : ℕ}
    (hs : level s.pool.pools size = some (free,capacity)) :
    (e ≠ .allocate size ∧ (∀ a, e ≠ .deallocate a size) ∧
        level t.pool.pools size = some (free,capacity) ∧
        outstandingOf t size = outstandingOf s size) ∨
      (e = .allocate size ∧ outstandingOf t size = outstandingOf s size + 1 ∧
        (free = 0 ∧ level t.pool.pools size = some (0,capacity) ∨
          t.mem = s.mem ∧ t.freed = s.freed ∧ ∃ rest, free = rest + 1 ∧
            level t.pool.pools size = some (rest,capacity))) ∨
      ∃ a, e = .deallocate a size ∧ outstandingOf s size = outstandingOf t size + 1 ∧
        (free = capacity ∧ level t.pool.pools size = some (free,capacity) ∨
          t.mem = s.mem ∧ t.freed = s.freed ∧ free < capacity ∧
            level t.pool.pools size = some (free + 1,capacity)) := by
  by_cases ha : e = .allocate size
  · subst ha
    exact Or.inr (Or.inl ⟨rfl,step_allocate h hs⟩)
  · by_cases hd : ∃ a, e = .deallocate a size
    · obtain ⟨a,rfl⟩ := hd
      exact Or.inr (Or.inr ⟨a,rfl,step_deallocate h hs⟩)
    · have hother : ∀ a, e ≠ .deallocate a size := fun a heq => hd ⟨a,heq⟩
      exact Or.inl ⟨ha,hother,step_other h ha hother hs⟩

theorem level_of_run (h : execute step s0 es = .ok s) {free : ℕ}
    (hs : level s0.pool.pools size = some (free,capacity)) :
    ∃ free, level s.pool.pools size = some (free,capacity) := by
  refine execute_invariant (P := fun s => ∃ free, level s.pool.pools size = some (free,capacity))
    ?_ h ⟨free,hs⟩
  rintro s e t ⟨free,hs⟩ hstep
  rcases step_level hstep hs with ⟨-,-,h,-⟩ | ⟨-,-,⟨-,h⟩ | ⟨-,-,_,-,h⟩⟩ | ⟨_,-,-,⟨-,h⟩ | ⟨-,-,-,h⟩⟩
  · exact ⟨_,h⟩
  · exact ⟨_,h⟩
  · exact ⟨_,h⟩
  · exact ⟨_,h⟩
  · exact ⟨_,h⟩

/-- With no more than `n` buffers handed out a call finds one or keeps one, and the
numbers still make up `n`. -/
theorem steady_step (h : step s e = .ok t) {free : ℕ} (hn : n ≤ capacity)
    (hs : level s.pool.pools size = some (free,capacity)) (hsum : free + outstandingOf s size = n)
    (ht : outstandingOf t size ≤ n) :
    (∃ free', level t.pool.pools size = some (free',capacity) ∧
      free' + outstandingOf t size = n) ∧
    ((e = .allocate size ∨ ∃ a, e = .deallocate a size) → t.mem = s.mem ∧ t.freed = s.freed) := by
  rcases step_level h hs with ⟨ha,hd,hlevel,hout⟩ | ⟨-,hout,hcase⟩ | ⟨a,-,hout,hcase⟩
  · refine ⟨⟨free,hlevel,by omega⟩,?_⟩
    rintro (he | ⟨a,he⟩)
    · exact (ha he).elim
    · exact (hd a he).elim
  · rcases hcase with ⟨hzero,-⟩ | ⟨hmem,hfreed,rest,hrest,hlevel⟩
    · omega
    · exact ⟨⟨rest,hlevel,by omega⟩,fun _ => ⟨hmem,hfreed⟩⟩
  · rcases hcase with ⟨hfull,-⟩ | ⟨hmem,hfreed,-,hlevel⟩
    · omega
    · exact ⟨⟨free + 1,hlevel,by omega⟩,fun _ => ⟨hmem,hfreed⟩⟩

/-- No more than `n` buffers of a size are handed out, at any moment of a run. -/
def Within (s0 : State η) (es : List (Call η)) (size n : ℕ) : Prop :=
  ∀ es' s, es' <+: es → execute step s0 es' = .ok s → outstandingOf s size ≤ n

theorem steady_of_run (h : execute step s0 es = .ok s) {free : ℕ} (hn : n ≤ capacity)
    (hs : level s0.pool.pools size = some (free,capacity))
    (hsum : free + outstandingOf s0 size = n) (hwithin : Within s0 es size n) :
    ∃ free, level s.pool.pools size = some (free,capacity) ∧ free + outstandingOf s size = n := by
  refine execute_induction (P := fun es s => Within s0 es size n → ∃ free,
    level s.pool.pools size = some (free,capacity) ∧ free + outstandingOf s size = n)
    (fun _ => ⟨free,hs,hsum⟩) ?_ h hwithin
  intro es s e t hrun ih hstep hw
  obtain ⟨free,hs,hsum⟩ := ih fun es' u hpre hu => hw es' u (hpre.trans (List.prefix_append _ _)) hu
  exact (steady_step hstep hn hs hsum (hw _ t (List.prefix_refl _)
    (execute_concat_ok.mpr ⟨s,hrun,hstep⟩))).1

theorem start_level {bufferSizes : List ℕ} {initialCapacity : ℕ} {header : Addr → η}
    {bytes : Addr → List UInt8} {supply : ℕ → Block η}
    (h0 : start bufferSizes initialCapacity header bytes supply = .ok s0)
    (hsize : size ∈ bufferSizes) :
    ∃ capacity, level s0.pool.pools size =
      some (initialCapacity * bufferSizes.count size,capacity) ∧ outstandingOf s0 size = 0 := by
  obtain ⟨⟨pool,mem⟩,hc,h0⟩ := bind_ok.mp h0
  cases h0
  obtain ⟨capacity,hlevel⟩ := fillAll_level hc size (Or.inl hsize)
  exact ⟨capacity,by simpa [level,BufferPool.getPool] using hlevel,rfl⟩

/-- The calls for a registered size never reallocate its free list. As long as no
more of its buffers are handed out than were filed at the start, these calls reach
neither `malloc` nor `free`, and the free and the outstanding buffers of the size
make up that number. -/
theorem steady_state (bufferSizes : List ℕ) (initialCapacity : ℕ) (header : Addr → η)
    (bytes : Addr → List UInt8) (supply : ℕ → Block η) (s0 s : State η) (es : List (Call η))
    (h0 : start bufferSizes initialCapacity header bytes supply = .ok s0)
    (h : execute step s0 es = .ok s) (size : ℕ) (hsize : size ∈ bufferSizes) :
    ∃ l0 l, BufferPool.getPool size s0.pool.pools = some l0 ∧
      BufferPool.getPool size s.pool.pools = some l ∧
      l.capacity = l0.capacity ∧ l.buffers.length ≤ l0.capacity ∧
      (Within s0 es size (initialCapacity * bufferSizes.count size) →
        l.buffers.length + outstandingOf s size = initialCapacity * bufferSizes.count size ∧
        ∀ e t, step s e = .ok t →
          outstandingOf t size ≤ initialCapacity * bufferSizes.count size →
          (e = .allocate size ∨ ∃ a, e = .deallocate a size) →
            t.mem = s.mem ∧ t.freed = s.freed) := by
  obtain ⟨capacity,hs0,hout⟩ := start_level h0 hsize
  obtain ⟨free,hs⟩ := level_of_run h hs0
  obtain ⟨l0,hl0,heq0⟩ := Option.map_eq_some_iff.mp hs0
  obtain ⟨l,hl,heq⟩ := Option.map_eq_some_iff.mp hs
  simp only [Prod.mk.injEq] at heq0 heq
  have hle := l.size_le
  have hn := level_le hs0
  refine ⟨l0,l,hl0,hl,by omega,by omega,?_⟩
  intro hwithin
  obtain ⟨free',hs',hsum⟩ := steady_of_run h hn hs0 (by omega) hwithin
  rw [hs] at hs'
  cases hs'
  refine ⟨by omega,?_⟩
  intro e t ht hless hcall
  exact (steady_step ht hn hs hsum hless).2 hcall

/-- A size class given twice, handed out whole and partly given back. -/
def withinCalls : List (Call Unit) := [.allocate 8,.allocate 8,.deallocate 2 8]

theorem steady_state_twice : ∃ s0 s l,
    start [8,8,4] 1 (fun _ => ()) (fun _ => []) unitSupply = .ok s0 ∧
      execute step s0 withinCalls = .ok s ∧ BufferPool.getPool 8 s.pool.pools = some l ∧
      l.buffers.length + outstandingOf s 8 = 2 := by
  have hall : ∀ es ∈ withinCalls.inits, yields
      (start [8,8,4] 1 (fun _ => ()) (fun _ => []) unitSupply >>= fun s0 => execute step s0 es)
      (fun s => outstandingOf s 8 ≤ 2) = true := by decide +kernel
  obtain ⟨s,hs,-⟩ := exists_of_yields (hall withinCalls
    ((List.mem_inits _ _).mpr (List.prefix_refl _)))
  obtain ⟨s0,h0,hs⟩ := bind_ok.mp hs
  have hwithin : Within s0 withinCalls 8 2 := by
    intro es u hpre hu
    obtain ⟨u',hu',htest⟩ := exists_of_yields (hall es ((List.mem_inits _ _).mpr hpre))
    obtain ⟨s0',h0',hu'⟩ := bind_ok.mp hu'
    cases h0.symm.trans h0'
    cases hu.symm.trans hu'
    exact of_decide_eq_true htest
  obtain ⟨-,l,-,hl,-,-,hsteady⟩ := steady_state [8,8,4] 1 (fun _ => ()) (fun _ => []) unitSupply
    s0 s withinCalls h0 hs 8 (by decide)
  exact ⟨s0,s,l,h0,hs,hl,(hsteady hwithin).1⟩

end Steady

end FastNet.Simple.Pool
