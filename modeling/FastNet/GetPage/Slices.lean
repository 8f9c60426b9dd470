import FastNet.GetPage.Config
import FastNet.GetPage.MemoryBlock

/-! # The slices the page servers send

Both servers compare a page number with the loaded page count and then read a page
at its offset from the block that was constructed for that count, all in `size_t`.
The block's size wraps for large counts and the comparison does not.
-/
namespace FastNet.GetPage
open Config Decimal

/-- The end of the slice for a page number. -/
def sliceEnd (pageNumber : UInt32) : ℕ :=
  (pageNumber.toNat * pageSize % sizeMod + pageSize) % sizeMod

/-- The page numbers the servers accept have their slice in the block. -/
def SlicesInside (pageCount : UInt64) (memoryBlock : MemoryBlock) : Prop :=
  ∀ pageNumber : UInt32, pageNumber.toNat < pageCount.toNat →
    sliceEnd pageNumber ≤ memoryBlock.data.length

theorem sliceEnd_eq (pageNumber : UInt32) : sliceEnd pageNumber = (pageNumber.toNat + 1) * pageSize := by
  have hlt := pageNumber.toNat_lt
  unfold sliceEnd pageSize sizeMod
  omega

/-- The size of a block, in pages. -/
theorem length_construct (pageCount : UInt64) (strategy : FillingStrategy) :
    (MemoryBlock.construct pageCount.toNat strategy).data.length =
      pageCount.toNat % 144115188075855872 * pageSize := by
  rw [MemoryBlock.data_construct,List.length_map,List.length_range]
  unfold pageSize sizeMod
  omega

/-- The largest page number that is compared with a large count is 2^32 - 1. -/
theorem slicesInside_iff (pageCount : UInt64) (strategy : FillingStrategy) :
    SlicesInside pageCount (MemoryBlock.construct pageCount.toNat strategy) ↔
      pageCount.toNat * pageSize < sizeMod ∨
        4294967296 ≤ pageCount.toNat % 144115188075855872 := by
  unfold SlicesInside
  simp only [length_construct,sliceEnd_eq,Nat.mul_le_mul_right_iff (show 0 < pageSize by decide)]
  constructor
  · intro h
    by_contra hnot
    rw [not_or] at hnot
    unfold pageSize sizeMod at hnot
    let p : UInt32 := UInt32.ofNat (pageCount.toNat % 144115188075855872)
    have hp : p.toNat = pageCount.toNat % 144115188075855872 :=
      UInt32.toNat_ofNat_of_lt' (by simp only [UInt32.size]; omega)
    have hend := h p (by omega)
    omega
  · intro h pageNumber hlt
    have hp := pageNumber.toNat_lt
    unfold pageSize sizeMod at h
    omega

/-- For a configuration that was loaded, it is the number in the effective text of
PAGE_COUNT that decides. -/
theorem loaded_slicesInside_iff (c c' : Config) (file : Option (List Char)) (env : Environment)
    (h : c.loadConfig file env = .ok c') :
    ∃ n, stoul (c.effectiveText file env .pageCount) = .ok n ∧
      ∀ strategy, SlicesInside c'.pageCount (MemoryBlock.construct c'.pageCount.toNat strategy) ↔
        n.toNat * pageSize < sizeMod ∨ 4294967296 ≤ n.toNat % 144115188075855872 :=
  ⟨c'.pageCount,stoulText_ok (holds_iff.mp ((loadConfig_holds h).1 .pageCount)),
    fun strategy => slicesInside_iff c'.pageCount strategy⟩

theorem loaded_slicesInside_initial :
    ∃ c', initial.loadConfig none (fun _ => none) = .ok c' ∧
      SlicesInside c'.pageCount
        (MemoryBlock.construct c'.pageCount.toNat (pseudoRandomFillingStrategy 42)) := by
  have hrun : Execution.yields (initial.loadConfig none (fun _ => none)) (fun _ => true) = true := by
    decide +kernel
  obtain ⟨c',h,-⟩ := Execution.exists_of_yields hrun
  obtain ⟨n,hn,hiff⟩ := loaded_slicesInside_iff initial c' none (fun _ => none) h
  have htext : stoul (initial.effectiveText none (fun _ => none) .pageCount) = .ok 1024 := by
    decide +kernel
  cases htext.symm.trans hn
  exact ⟨c',h,(hiff _).mpr (Or.inl (by decide))⟩

/-- With a page count of 2^57 the block is empty and page 0 is accepted. -/
theorem slice_outside :
    let env : Environment := fun name =>
      if name = Key.pageCount.name then some (toText 144115188075855872) else none
    ∃ c', initial.loadConfig none env = .ok c' ∧
      (MemoryBlock.construct c'.pageCount.toNat (pseudoRandomFillingStrategy 42)).data.length = 0 ∧
      (0 : UInt32).toNat < c'.pageCount.toNat ∧ sliceEnd 0 = 128 ∧
      ¬ SlicesInside c'.pageCount
        (MemoryBlock.construct c'.pageCount.toNat (pseudoRandomFillingStrategy 42)) := by
  intro env
  have hrun : Execution.yields (initial.loadConfig none env)
      (fun c' => c'.pageCount = 144115188075855872) = true := by decide +kernel
  obtain ⟨c',h,hcount⟩ := Execution.exists_of_yields hrun
  have hcount := of_decide_eq_true hcount
  refine ⟨c',h,?_,?_,by decide,?_⟩
  · rw [hcount,length_construct]
    decide
  · rw [hcount]
    decide
  · rw [hcount,slicesInside_iff]
    decide

end FastNet.GetPage
