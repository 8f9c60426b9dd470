import FastNet.GetPage.Frames
import Mathlib.Data.List.Range

/-! # The memory block and its verifier

A block of pages filled by a strategy, a function of the index, and the check of
one page against the same strategy, in `size_t` arithmetic.
-/
namespace FastNet.GetPage

/-- `get_value_at` of a filling strategy. -/
abbrev FillingStrategy := ℕ → UInt8

def alphabeticalFillingStrategy : FillingStrategy := fun index => UInt8.ofNat (97 + index % 26)

/-- The seed and the index are not looked at. -/
def pseudoRandomFillingStrategy (_seed : ℕ) : FillingStrategy := fun _ => 0xAA

structure MemoryBlock where
  data : List UInt8

namespace MemoryBlock

/-- The loop of `fill`. -/
def fill (strategy : FillingStrategy) (data : List UInt8) : List UInt8 :=
  (List.range data.length).foldl (fun d i => d.set i (strategy i)) data

/-- The constructor of the template for pages of `size` bytes. -/
def constructOf (size pageCount : ℕ) (strategy : FillingStrategy) : MemoryBlock :=
  ⟨fill strategy (List.replicate (size * pageCount % sizeMod) 0)⟩

def construct (pageCount : ℕ) (strategy : FillingStrategy) : MemoryBlock :=
  ⟨fill strategy (List.replicate (pageSize * pageCount % sizeMod) 0)⟩

/-- `len` bytes from an offset into the block. -/
def read (m : MemoryBlock) (offset len : ℕ) : List UInt8 := (m.data.drop offset).take len

theorem foldl_set (strategy : FillingStrategy) (data : List UInt8) (n : ℕ) :
    (List.range n).foldl (fun d i => d.set i (strategy i)) data =
      ((List.range (min n data.length)).map strategy) ++ data.drop n := by
  induction n with
  | zero => simp
  | succ n ih =>
    rw [List.range_succ,List.foldl_append,ih,List.foldl_cons,List.foldl_nil]
    by_cases hn : n < data.length
    · have hmin : min (n + 1) data.length = n + 1 := by omega
      have hmin' : min n data.length = n := by omega
      have hdrop : data.drop n = data[n] :: data.drop (n + 1) := List.drop_eq_getElem_cons hn
      have hindex : n - ((List.range n).map strategy).length = 0 := by simp
      rw [hmin,hmin',hdrop,List.set_append_right _ _ (by simp),hindex,List.set_cons_zero,
        List.range_succ,List.map_append,List.append_assoc]
      rfl
    · have hmin : min (n + 1) data.length = data.length := by omega
      have hmin' : min n data.length = data.length := by omega
      have hd : data.drop n = [] := List.drop_eq_nil_of_le (by omega)
      have hd' : data.drop (n + 1) = [] := List.drop_eq_nil_of_le (by omega)
      rw [hmin,hmin',hd,hd',List.append_nil]
      apply List.set_eq_of_length_le
      simp
      omega

theorem fill_eq (strategy : FillingStrategy) (data : List UInt8) :
    fill strategy data = (List.range data.length).map strategy := by
  rw [fill,foldl_set,Nat.min_self,List.drop_length,List.append_nil]

theorem construct_eq (pageCount : ℕ) (strategy : FillingStrategy) :
    construct pageCount strategy = constructOf pageSize pageCount strategy := rfl

theorem data_constructOf (size pageCount : ℕ) (strategy : FillingStrategy) :
    (constructOf size pageCount strategy).data =
      (List.range (size * pageCount % sizeMod)).map strategy := by
  rw [constructOf,fill_eq,List.length_replicate]

theorem data_construct (pageCount : ℕ) (strategy : FillingStrategy) :
    (construct pageCount strategy).data =
      (List.range (pageSize * pageCount % sizeMod)).map strategy := by
  rw [construct_eq,data_constructOf]

/-- A stretch inside the block holds the values of the strategy. -/
theorem read_constructOf {size pageCount : ℕ} (strategy : FillingStrategy) {offset len : ℕ}
    (h : offset + len ≤ size * pageCount % sizeMod) :
    (constructOf size pageCount strategy).read offset len =
      (List.range len).map (fun i => strategy (offset + i)) := by
  apply List.ext_getElem
  · simp [read,data_constructOf]
    omega
  · intro i h1 h2
    simp [read,data_constructOf]

theorem read_construct {pageCount : ℕ} (strategy : FillingStrategy) {offset len : ℕ}
    (h : offset + len ≤ pageSize * pageCount % sizeMod) :
    (construct pageCount strategy).read offset len =
      (List.range len).map (fun i => strategy (offset + i)) := by
  rw [construct_eq]
  exact read_constructOf strategy h

end MemoryBlock

/-- `verify` of the template for pages of `size` bytes. -/
def verifyOf (size pageCount : ℕ) (strategy : FillingStrategy) (content : Vector UInt8 size)
    (pageNumber : ℕ) : Bool :=
  if pageCount ≤ pageNumber then false
  else (List.finRange size).all
    (fun i => content[i] == strategy ((pageNumber * size + i) % sizeMod))

/-- `verify` of a verifier for `pageCount` pages. -/
def verify (pageCount : ℕ) (strategy : FillingStrategy) (content : Vector UInt8 pageSize)
    (pageNumber : ℕ) : Bool :=
  if pageCount ≤ pageNumber then false
  else (List.finRange pageSize).all
    (fun i => content[i] == strategy ((pageNumber * pageSize + i) % sizeMod))

theorem verify_eq (pageCount : ℕ) (strategy : FillingStrategy) (content : Vector UInt8 pageSize)
    (pageNumber : ℕ) : verify pageCount strategy content pageNumber =
      verifyOf pageSize pageCount strategy content pageNumber := rfl

theorem verifyOf_iff {size pageCount : ℕ} {strategy : FillingStrategy}
    {content : Vector UInt8 size} {pageNumber : ℕ} :
    verifyOf size pageCount strategy content pageNumber = true ↔ pageNumber < pageCount ∧
      ∀ i : Fin size, content[i] = strategy ((pageNumber * size + i) % sizeMod) := by
  unfold verifyOf
  split
  · rename_i h
    simp
    omega
  · rename_i h
    simp only [List.all_eq_true,List.mem_finRange,forall_const,beq_iff_eq]
    constructor
    · intro hall
      exact ⟨by omega,hall⟩
    · intro hall
      exact hall.2

theorem verify_iff {pageCount : ℕ} {strategy : FillingStrategy} {content : Vector UInt8 pageSize}
    {pageNumber : ℕ} : verify pageCount strategy content pageNumber = true ↔
      pageNumber < pageCount ∧
        ∀ i : Fin pageSize, content[i] = strategy ((pageNumber * pageSize + i) % sizeMod) := by
  rw [verify_eq]
  exact verifyOf_iff

end FastNet.GetPage
