import FastNet.Foundation.Execution
import FastNet.Simple.BufferPool

/-! # Runs of the buffer pool

A pool with its heap and its callers as a machine whose events are the calls of
`allocate` and `deallocate`, the latter only for a buffer that is outstanding with
the size it was asked for, and anything written to memory in between. In every run
the free lists and the outstanding buffers are the live blocks; the same calls on
plain `malloc` and `free` return the same buffers with the same contents.
-/
namespace FastNet.Simple.Pool
open Execution
variable {η : Type}

structure State (η : Type) where
  pool : BufferPool
  mem : Heap η
  /-- What `allocate` has returned and the callers have not given back. -/
  outstanding : List (Addr × ℕ)
  /-- What `free` was called with. -/
  freed : List Addr

inductive Call (η : Type)
  | allocate (size : ℕ)
  | deallocate (a : Addr) (size : ℕ)
  | write (header : Addr → η) (bytes : Addr → List UInt8)

def step (s : State η) : Call η → Except Stop (State η)
  | .allocate size => do
    let (a,pool,mem) ← s.pool.allocate s.mem size
    return { s with pool := pool, mem := mem, outstanding := (a,size) :: s.outstanding }
  | .deallocate a size =>
    if (a,size) ∈ s.outstanding then do
      let (pool,mem) ← s.pool.deallocate s.mem a size
      return {
        pool := pool
        mem := mem
        outstanding := s.outstanding.erase (a,size)
        freed := if s.pool.keeps size then s.freed else s.freed ++ [a] }
    else .error .disabled
  | .write header bytes => .ok { s with mem := s.mem.setContents header bytes }

/-- A pool just constructed over an arbitrary allocator. -/
def start (bufferSizes : List ℕ) (initialCapacity : ℕ) (header : Addr → η)
    (bytes : Addr → List UInt8) (supply : ℕ → Block η) : Except Stop (State η) := do
  let (pool,mem) ← BufferPool.construct bufferSizes initialCapacity (Heap.fresh header bytes supply)
  return ⟨pool,mem,[],[]⟩

/-- The free lists and the outstanding buffers are the live blocks; what was freed
and what is live was malloc'ed, each block once. -/
structure Inv (s : State η) : Prop where
  conserved : BufferPool.Conserved s.mem s.pool s.outstanding
  balanced : s.mem.Balanced s.freed

variable {s t : State η} {e : Call η}

theorem Inv.owned (hi : Inv s) : BufferPool.Owned s.mem s.pool s.outstanding := hi.conserved.owned

theorem Inv.allocate (hi : Inv s) {size : ℕ} (h : step s (.allocate size) = .ok t) : Inv t := by
  obtain ⟨⟨a,pool,mem⟩,halloc,h⟩ := bind_ok.mp h
  cases h
  rcases BufferPool.allocate_cases halloc with ⟨-,rfl,hperm⟩ | ⟨-,rfl,hmalloc⟩
  · refine ⟨?_,hi.balanced⟩
    exact (List.perm_middle.trans (hperm.symm.append_right _)).trans hi.conserved
  · exact ⟨hi.conserved.malloc hmalloc List.perm_middle,hi.balanced.malloc hmalloc⟩

theorem Inv.deallocate (hi : Inv s) {a : Addr} {size : ℕ}
    (h : step s (.deallocate a size) = .ok t) : Inv t := by
  simp only [step] at h
  split at h
  · rename_i hmem
    obtain ⟨⟨pool,mem⟩,hde,h⟩ := bind_ok.mp h
    cases h
    have hout : (BufferPool.filed s.pool.pools ++ (a,size) :: s.outstanding.erase (a,size)).Perm
        s.mem.live :=
      ((List.perm_cons_erase hmem).symm.append_left _).trans hi.conserved
    rcases BufferPool.deallocate_cases hde with ⟨hkeep,rfl,hperm⟩ | ⟨hkeep,rfl,hfree⟩
    · refine ⟨?_,?_⟩
      · exact ((hperm.append_right _).trans List.perm_middle.symm).trans hout
      · rw [if_pos hkeep]
        exact hi.balanced
    · have hlive := (Heap.free_ok hfree).2.1 size (hi.owned.live _ (List.mem_append_right _ hmem))
      refine ⟨?_,?_⟩
      · exact List.Perm.cons_inv ((List.perm_middle.symm.trans hout).trans hlive)
      · rw [if_neg (by simp [hkeep])]
        exact hi.balanced.free hfree
  · cases h

theorem Inv.step (hi : Inv s) (h : step s e = .ok t) : Inv t := by
  cases e with
  | allocate size => exact hi.allocate h
  | deallocate a size => exact hi.deallocate h
  | write header bytes =>
    cases h
    exact ⟨hi.conserved,hi.balanced⟩

/-- A call that is allowed fails only if `malloc` does. -/
theorem Inv.step_error (hi : Inv s) {why : Stop} (h : Pool.step s e = .error why) :
    why = .disabled ∨ why = .mallocLive := by
  cases e with
  | allocate size =>
    right
    rcases bind_error.mp h with h | ⟨⟨a,pool,mem⟩,-,h⟩
    · exact (BufferPool.allocate_error h).1
    · cases h
  | deallocate a size =>
    simp only [Pool.step] at h
    split at h
    · rename_i hmem
      obtain ⟨pool,mem,hde,-⟩ := (hi.owned.perm (List.perm_cons_erase hmem).symm).deallocate
      rw [hde] at h
      cases h
    · cases h
      exact Or.inl rfl
  | write header bytes => cases h

theorem Inv.start {bufferSizes : List ℕ} {initialCapacity : ℕ} {header : Addr → η}
    {bytes : Addr → List UInt8} {supply : ℕ → Block η}
    (h : start bufferSizes initialCapacity header bytes supply = .ok s) : Inv s := by
  obtain ⟨⟨pool,mem⟩,hc,h⟩ := bind_ok.mp h
  cases h
  refine ⟨BufferPool.Conserved.construct hc,?_⟩
  exact BufferPool.construct_heap (P := fun m => m.Balanced [])
    (fun _ _ _ _ hb hm => hb.malloc hm) hc (List.Perm.refl _)

theorem Inv.run (hi : Inv s) {es : List (Call η)} (h : execute Pool.step s es = .ok t) : Inv t :=
  execute_invariant (fun _ _ _ hi h => hi.step h) h hi

/-- An allocated buffer is nobody else's and has the size asked for. -/
theorem Inv.allocated (hi : Inv s) {size : ℕ} {a : Addr} {pool : BufferPool} {mem : Heap η}
    (h : s.pool.allocate s.mem size = .ok (a,pool,mem)) :
    a ∉ s.outstanding.map Prod.fst ∧ a ∉ (BufferPool.filed pool.pools).map Prod.fst ∧
      (a,size) ∈ mem.live := by
  have hown := (hi.owned.allocate h).1
  refine ⟨hown.head_notMem,?_,hown.live _ (by simp)⟩
  intro ha
  have hn := hown.nodup
  rw [List.map_append,List.nodup_append] at hn
  exact hn.2.2 a ha a (by simp) rfl

section Refinement

/-- `malloc` and `free` themselves: the class built with ALLOCATE_MALLOC. -/
structure Plain (η : Type) where
  mem : Heap η
  outstanding : List (Addr × ℕ)

def Plain.step (c : Plain η) : Call η → Except Stop (Plain η)
  | .allocate size => do
    let (a,mem) ← c.mem.malloc size
    return ⟨mem,(a,size) :: c.outstanding⟩
  | .deallocate a size =>
    if (a,size) ∈ c.outstanding then do
      let mem ← c.mem.free a
      return ⟨mem,c.outstanding.erase (a,size)⟩
    else .error .disabled
  | .write header bytes => .ok { c with mem := c.mem.setContents header bytes }

def Plain.start (header : Addr → η) (bytes : Addr → List UInt8) (supply : ℕ → Block η) : Plain η :=
  ⟨Heap.fresh header bytes supply,[]⟩

/-- The two machines have handed out the same buffers over the same memory. -/
structure Sim (s : State η) (c : Plain η) : Prop where
  header : c.mem.header = s.mem.header
  bytes : c.mem.bytes = s.mem.bytes
  outstanding : c.outstanding = s.outstanding
  live : c.outstanding.Perm c.mem.live

/-- The buffer that a step hands out, with its contents at that moment. -/
def handedOut (_ : State η) (e : Call η) (t : State η) : List (Block η) :=
  match e, t.outstanding with
  | .allocate _, (a,_) :: _ => [⟨a,t.mem.header a,t.mem.bytes a⟩]
  | _, _ => []

variable {c : Plain η}

/-- An allocator that returns what the pool does keeps the contract of `malloc`. -/
theorem Sim.allocate (hi : Inv s) (hs : Sim s c) {size : ℕ}
    (h : Pool.step s (.allocate size) = .ok t)
    (hb : ∀ b ∈ handedOut s (.allocate size) t, c.mem.supply c.mem.mallocs = b) :
    ∃ d, c.step (.allocate size) = .ok d ∧ Sim t d ∧ d.mem.supply = c.mem.supply ∧
      d.mem.mallocs = c.mem.mallocs + (handedOut s (.allocate size) t).length := by
  obtain ⟨⟨a,pool,mem⟩,halloc,h⟩ := bind_ok.mp h
  cases h
  obtain ⟨hnew,-,hlive⟩ := hi.allocated halloc
  have hblock := hb _ (List.mem_singleton.mpr rfl)
  have hnull : a ≠ nullptr := by
    rintro rfl
    exact (List.nodup_cons.mp mem.live_nodup).1 (List.mem_map.mpr ⟨_,hlive,rfl⟩)
  have hfree : (c.mem.supply c.mem.mallocs).addr ∉ nullptr :: c.mem.live.map Prod.fst := by
    rw [hblock,List.mem_cons,not_or,← (hs.live.map Prod.fst).mem_iff,hs.outstanding]
    exact ⟨hnull,hnew⟩
  obtain ⟨mem',hmalloc,hheader,hbytes,hsupply,hcount⟩ := Heap.malloc_of_notMem size hfree
  have hmem := (Heap.malloc_ok hmalloc).2.2.1
  rw [hblock] at hmalloc hheader hbytes hmem
  have hother := BufferPool.allocate_agree halloc
  refine ⟨⟨mem',(a,size) :: c.outstanding⟩,?_,⟨?_,?_,?_,?_⟩,hsupply,hcount⟩
  · simp only [Plain.step,hmalloc]
    rfl
  · rw [hheader,hs.header]
    funext b
    by_cases hba : b = a
    · rw [hba]
      exact Function.update_self ..
    · exact (Function.update_of_ne hba ..).trans (hother b hba).1.symm
  · rw [hbytes,hs.bytes]
    funext b
    by_cases hba : b = a
    · rw [hba]
      exact Function.update_self ..
    · exact (Function.update_of_ne hba ..).trans (hother b hba).2.symm
  · rw [hs.outstanding]
  · rw [hmem]
    exact hs.live.cons _

theorem Sim.deallocate (hi : Inv s) (hs : Sim s c) {a : Addr} {size : ℕ}
    (h : Pool.step s (.deallocate a size) = .ok t) :
    ∃ d, c.step (.deallocate a size) = .ok d ∧ Sim t d ∧ d.mem.supply = c.mem.supply ∧
      d.mem.mallocs = c.mem.mallocs := by
  simp only [Pool.step] at h
  split at h
  · rename_i hmem
    obtain ⟨⟨pool,mem⟩,hde,h⟩ := bind_ok.mp h
    cases h
    obtain ⟨pool',mem',hde',-,hheader',hbytes'⟩ :=
      (hi.owned.perm (List.perm_cons_erase hmem).symm).deallocate
    cases hde.symm.trans hde'
    have hout : (a,size) ∈ c.outstanding := hs.outstanding ▸ hmem
    have hlive := hs.live.mem_iff.mp hout
    obtain ⟨m,hfree,-,hheader,hbytes⟩ := Heap.free_of_mem (List.mem_map.mpr ⟨_,hlive,rfl⟩)
    obtain ⟨-,hperm,-,hsupply,hcount⟩ := Heap.free_ok hfree
    refine ⟨⟨m,c.outstanding.erase (a,size)⟩,?_,⟨?_,?_,?_,?_⟩,hsupply,hcount⟩
    · simp only [Plain.step,if_pos hout,hfree]
      rfl
    · rw [hheader,hs.header,hheader']
    · rw [hbytes,hs.bytes,hbytes']
    · rw [hs.outstanding]
    · exact List.Perm.cons_inv
        (((List.perm_cons_erase hout).symm.trans hs.live).trans (hperm size hlive))
  · cases h

/-- Each step of the pool is one of `malloc` and `free`. -/
theorem Sim.step (hi : Inv s) (hs : Sim s c) (h : Pool.step s e = .ok t)
    (hb : ∀ b ∈ handedOut s e t, c.mem.supply c.mem.mallocs = b) :
    ∃ d, c.step e = .ok d ∧ Sim t d ∧ d.mem.supply = c.mem.supply ∧
      d.mem.mallocs = c.mem.mallocs + (handedOut s e t).length := by
  cases e with
  | allocate size => exact hs.allocate hi h hb
  | deallocate a size => exact hs.deallocate hi h
  | write header bytes =>
    cases h
    exact ⟨_,rfl,⟨rfl,rfl,hs.outstanding,hs.live⟩,rfl,rfl⟩

/-- The runs, by induction on the calls, with the supply still to be used. -/
theorem Sim.run {es : List (Call η)} (hi : Inv s) (hs : Sim s c)
    (hsupply : ∀ k b, (outputs Pool.step handedOut s es)[k]? = some b →
      c.mem.supply (c.mem.mallocs + k) = b) (h : execute Pool.step s es = .ok t) :
    ∃ d, execute Plain.step c es = .ok d ∧ Sim t d := by
  induction es generalizing s c with
  | nil =>
    cases h
    exact ⟨c,rfl,hs⟩
  | cons e es ih =>
    obtain ⟨u,hu,h⟩ := execute_cons_ok.mp h
    simp only [outputs,hu] at hsupply
    have hhead : ∀ b ∈ handedOut s e u, c.mem.supply c.mem.mallocs = b := by
      intro b hb
      have hlen : (handedOut s e u).length ≤ 1 := by
        unfold handedOut
        split <;> simp
      obtain ⟨k,hk,rfl⟩ := List.mem_iff_getElem.mp hb
      obtain rfl : k = 0 := by omega
      exact hsupply 0 _ (by rw [List.getElem?_append_left hk,List.getElem?_eq_getElem hk])
    obtain ⟨d,hd,hsim,hsup,hcount⟩ := hs.step hi hu hhead
    obtain ⟨d',hd',hsim'⟩ := ih (hi.step hu) hsim (by
      intro k b hb
      rw [hsup,hcount,Nat.add_assoc]
      exact hsupply _ b (by rw [List.getElem?_append_right (Nat.le_add_right _ _),
        Nat.add_sub_cancel_left]; exact hb)) h
    exact ⟨d',execute_cons_ok.mpr ⟨d,hd,hd'⟩,hsim'⟩

/-- Some allocator gives the callers the same buffers without the pool. -/
theorem exists_plain_run {s0 : State η} {es : List (Call η)} (hi : Inv s0)
    (hout : s0.outstanding = []) (block : Block η) (h : execute Pool.step s0 es = .ok s) :
    ∃ supply c, execute Plain.step (Plain.start s0.mem.header s0.mem.bytes supply) es = .ok c ∧
      Sim s c := by
  let supply : ℕ → Block η := fun k => ((outputs Pool.step handedOut s0 es)[k]?).getD block
  have hsim : Sim s0 (Plain.start s0.mem.header s0.mem.bytes supply) :=
    ⟨rfl,rfl,hout.symm,List.Perm.refl _⟩
  refine ⟨supply,Sim.run hi hsim ?_ h⟩
  intro k b hb
  change ((outputs Pool.step handedOut s0 es)[0 + k]?).getD block = b
  rw [Nat.zero_add,hb]
  rfl

end Refinement

/-- In every run of a pool the free-listed and the outstanding buffers are the live
blocks, each once; `allocate` returns a buffer nobody has, of the size asked for;
no call frees a block that is not live; when all are given back the destructor
leaves every malloc'ed block freed once; and the callers cannot tell the pool from
`malloc` and `free`. -/
theorem refines_malloc (bufferSizes : List ℕ) (initialCapacity : ℕ) (header : Addr → η)
    (bytes : Addr → List UInt8) (supply : ℕ → Block η) (s0 s : State η) (es : List (Call η))
    (h0 : start bufferSizes initialCapacity header bytes supply = .ok s0)
    (h : execute step s0 es = .ok s) :
    ((BufferPool.filed s.pool.pools ++ s.outstanding).Perm s.mem.live ∧
      ((BufferPool.filed s.pool.pools ++ s.outstanding).map Prod.fst).Nodup) ∧
    (∀ size a pool mem, s.pool.allocate s.mem size = .ok (a,pool,mem) →
      a ∉ s.outstanding.map Prod.fst ∧ a ∉ (BufferPool.filed pool.pools).map Prod.fst ∧
        (a,size) ∈ mem.live) ∧
    (∀ e why, step s e = .error why → why = .disabled ∨ why = .mallocLive) ∧
    (s.outstanding = [] → ∃ m, s.pool.destroy s.mem = .ok m ∧ m.live = [] ∧
      m.malloced.Perm (s.freed ++ s.pool.buffers)) ∧
    ∃ supply' c, execute Plain.step (Plain.start s0.mem.header s0.mem.bytes supply') es = .ok c ∧
      c.outstanding = s.outstanding ∧ c.mem.header = s.mem.header ∧ c.mem.bytes = s.mem.bytes := by
  have hi0 := Inv.start h0
  have hi := hi0.run h
  have hout : s0.outstanding = [] := by
    obtain ⟨_,-,h0⟩ := bind_ok.mp h0
    cases h0
    rfl
  refine ⟨⟨hi.conserved,hi.owned.nodup⟩,fun _ _ _ _ ha => hi.allocated ha,
    fun _ _ he => hi.step_error he,?_,?_⟩
  · intro hnone
    obtain ⟨m,hm,hlive,hbalanced⟩ := hi.conserved.destroy
    rw [hnone] at hlive
    have hempty : m.live = [] := hlive.nil_eq.symm
    have hall := hbalanced _ hi.balanced
    rw [Heap.Balanced,hempty,List.map_nil,List.append_nil] at hall
    exact ⟨m,hm,hempty,hall⟩
  · obtain ⟨supply',c,hc,hsim⟩ := exists_plain_run hi0 hout (supply 0) h
    exact ⟨supply',c,hc,hsim.outstanding,hsim.header,hsim.bytes⟩

/-- Addresses in the order of the calls of `malloc`. -/
def unitSupply (n : ℕ) : Block Unit := ⟨n + 1,(),[]⟩

/-- A size class given twice, a size class used up, and a size that has none. -/
def mixedCalls : List (Call Unit) :=
  [.allocate 8,.allocate 8,.allocate 8,.allocate 5,.deallocate 2 8,.deallocate 1 8,
    .deallocate 4 8,.deallocate 5 5]

theorem refines_malloc_mixed : ∃ s0 s m,
    start [8,8,4] 1 (fun _ => ()) (fun _ => []) unitSupply = .ok s0 ∧
      execute step s0 mixedCalls = .ok s ∧ s.freed = [4,5] ∧ s.outstanding = [] ∧
      s.pool.destroy s.mem = .ok m ∧ m.live = [] := by
  have hrun : ((start [8,8,4] 1 (fun _ => ()) (fun _ => []) unitSupply >>= fun s0 =>
      execute step s0 mixedCalls) |>
        (yields · (fun s => s.freed = [4,5] && s.outstanding = []))) = true := by decide +kernel
  obtain ⟨s,hs,htest⟩ := exists_of_yields hrun
  obtain ⟨s0,h0,hs⟩ := bind_ok.mp hs
  simp only [Bool.and_eq_true,decide_eq_true_eq] at htest
  obtain ⟨-,-,-,hdestroy,-⟩ :=
    refines_malloc [8,8,4] 1 (fun _ => ()) (fun _ => []) unitSupply s0 s mixedCalls h0 hs
  obtain ⟨m,hm,hlive,-⟩ := hdestroy htest.2
  exact ⟨s0,s,m,h0,hs,htest.1,htest.2,hm,hlive⟩

end FastNet.Simple.Pool
