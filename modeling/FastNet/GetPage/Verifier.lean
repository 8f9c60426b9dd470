import FastNet.GetPage.MemoryBlock

/-! # What the verifier accepts

The flat loop that fills a block and the page loop of the verifier compute the same
bytes, for every strategy and every page size. So a page passes for another one just
when the strategy gives both the same bytes, which the alphabet does for pages whose
numbers differ by a multiple of thirteen.
-/
namespace FastNet.GetPage

section Template
variable {size pageCount : ℕ} {strategy : FillingStrategy}

/-- A page of the block lies inside it, so its index does not wrap. -/
theorem page_le (h : pageCount * size < sizeMod) {p : ℕ} (hp : p < pageCount) :
    p * size + size ≤ size * pageCount % sizeMod := by
  have hle : (p + 1) * size ≤ pageCount * size := Nat.mul_le_mul_right size hp
  rw [Nat.succ_mul] at hle
  rw [Nat.mul_comm size pageCount,Nat.mod_eq_of_lt h]
  exact hle

/-- The bytes of a page as the strategy gives them. -/
theorem read_page (h : pageCount * size < sizeMod) {p : ℕ} (hp : p < pageCount) :
    (MemoryBlock.constructOf size pageCount strategy).read (p * size) size =
      (List.range size).map (fun i => strategy (p * size + i)) :=
  MemoryBlock.read_constructOf strategy (page_le h hp)

theorem toList_eq_map_iff {content : Vector UInt8 size} {f : ℕ → UInt8} :
    content.toList = (List.range size).map f ↔ ∀ i : Fin size, content.get i = f i := by
  constructor
  · intro heq i
    have hi := i.isLt
    have hget : content[i.1] = f i := by
      simpa using congrArg (fun l => l[i.1]?) heq
    exact hget
  · intro hall
    apply List.ext_getElem
    · simp
    · intro i h1 h2
      have hi : i < size := by simpa using h1
      have hget : content[i] = f i := hall ⟨i,hi⟩
      simpa using hget

/-- The verifier accepts the bytes that `fill` stored for the page and no others. -/
theorem verify_iff_stored (size pageCount : ℕ) (h : pageCount * size < sizeMod)
    (strategy : FillingStrategy) (content : Vector UInt8 size) (p : ℕ) :
    verifyOf size pageCount strategy content p = true ↔
      p < pageCount ∧ content.toList =
        (MemoryBlock.constructOf size pageCount strategy).read (p * size) size := by
  rw [verifyOf_iff]
  apply and_congr_right
  intro hp
  rw [read_page h hp,toList_eq_map_iff]
  apply forall_congr'
  intro i
  have hle := page_le h hp
  have hlt := Nat.mod_lt (size * pageCount) (show sizeMod > 0 by decide)
  have hindex : (p * size + i) % sizeMod = p * size + i := Nat.mod_eq_of_lt (by omega)
  rw [hindex]
  rfl

/-- Two pages of four bytes in a block that counts up. -/
theorem verify_iff_stored_counting :
    verifyOf 4 2 (fun i => UInt8.ofNat i) #v[4,5,6,7] 1 = true ∧
      (MemoryBlock.constructOf 4 2 (fun i => UInt8.ofNat i)).read 4 4 = [4,5,6,7] := by
  have h := verify_iff_stored 4 2 (by decide) (fun i => UInt8.ofNat i) #v[4,5,6,7] 1
  have hverify : verifyOf 4 2 (fun i => UInt8.ofNat i) #v[4,5,6,7] 1 = true := by decide
  exact ⟨hverify,(h.mp hverify).2.symm⟩

end Template

section Misdelivery
variable {pageCount : ℕ} {strategy : FillingStrategy} {p q : ℕ}

/-- The bytes that `fill` stored for a page, as the content of a response. -/
def MemoryBlock.page (m : MemoryBlock) (q : ℕ) : Vector UInt8 pageSize :=
  Vector.ofFn (fun i => m.data.getD (q * pageSize + i) 0)

theorem getElem_page (h : pageCount * pageSize < sizeMod) (hq : q < pageCount)
    (i : Fin pageSize) : ((MemoryBlock.construct pageCount strategy).page q)[i] =
      strategy (q * pageSize + i) := by
  have hle := page_le h hq
  have hlt : q * pageSize + i < pageSize * pageCount % sizeMod := by omega
  simp only [MemoryBlock.page,Fin.getElem_fin,Vector.getElem_ofFn,MemoryBlock.data_construct]
  simp [List.getD,hlt]

/-- A page passes for another when the strategy does not tell them apart. -/
theorem verify_page_iff (h : pageCount * pageSize < sizeMod) (hp : p < pageCount)
    (hq : q < pageCount) :
    verify pageCount strategy ((MemoryBlock.construct pageCount strategy).page q) p = true ↔
      ∀ i : Fin pageSize, strategy (p * pageSize + i) = strategy (q * pageSize + i) := by
  have hle := page_le h hp
  have hlt := Nat.mod_lt (pageSize * pageCount) (show sizeMod > 0 by decide)
  rw [verify_iff]
  constructor
  · rintro ⟨-,hall⟩ i
    have hi := hall i
    rw [getElem_page h hq,Nat.mod_eq_of_lt (by omega)] at hi
    exact hi.symm
  · intro hall
    refine ⟨hp,?_⟩
    intro i
    rw [getElem_page h hq,Nat.mod_eq_of_lt (by omega)]
    exact (hall i).symm

theorem alphabetical_eq_iff {a b : ℕ} :
    alphabeticalFillingStrategy a = alphabeticalFillingStrategy b ↔ a % 26 = b % 26 := by
  have ha := Nat.mod_lt a (show 26 > 0 by decide)
  have hb := Nat.mod_lt b (show 26 > 0 by decide)
  rw [← UInt8.toNat_inj,alphabeticalFillingStrategy,alphabeticalFillingStrategy,
    UInt8.toNat_ofNat',UInt8.toNat_ofNat']
  omega

/-- 128 and 26 have the common factor 2, so the pages repeat after 13. -/
theorem alphabetical_pages_iff (p q : ℕ) :
    (∀ i : Fin pageSize, alphabeticalFillingStrategy (p * pageSize + i) =
      alphabeticalFillingStrategy (q * pageSize + i)) ↔ p % 13 = q % 13 := by
  simp only [alphabetical_eq_iff,pageSize]
  constructor
  · intro hall
    have h0 := hall ⟨0,by decide⟩
    simp only [Nat.add_zero] at h0
    omega
  · intro h i
    omega

/-- The page that `fill` stored for `q` is accepted as page `p` just when the
strategy gives the two pages the same bytes, with the alphabet just when the numbers
agree modulo thirteen. -/
theorem verify_stored_page_iff (pageCount : ℕ) (h : pageCount * pageSize < sizeMod) (p q : ℕ)
    (hp : p < pageCount) (hq : q < pageCount) :
    (∀ strategy : FillingStrategy,
      verify pageCount strategy ((MemoryBlock.construct pageCount strategy).page q) p = true ↔
        ∀ i : Fin pageSize, strategy (p * pageSize + i) = strategy (q * pageSize + i)) ∧
    (verify pageCount alphabeticalFillingStrategy
        ((MemoryBlock.construct pageCount alphabeticalFillingStrategy).page q) p = true ↔
      p % 13 = q % 13) ∧
    (pageCount ≤ 13 →
      (verify pageCount alphabeticalFillingStrategy
          ((MemoryBlock.construct pageCount alphabeticalFillingStrategy).page q) p = true ↔
        p = q)) := by
  have halpha : verify pageCount alphabeticalFillingStrategy
      ((MemoryBlock.construct pageCount alphabeticalFillingStrategy).page q) p = true ↔
        p % 13 = q % 13 := (verify_page_iff h hp hq).trans (alphabetical_pages_iff p q)
  refine ⟨fun strategy => verify_page_iff h hp hq,halpha,?_⟩
  intro hfew
  rw [halpha,Nat.mod_eq_of_lt (by omega),Nat.mod_eq_of_lt (by omega)]

theorem verify_stored_page_near : verify 13 alphabeticalFillingStrategy
    ((MemoryBlock.construct 13 alphabeticalFillingStrategy).page 1) 0 = false := by
  have h := (verify_stored_page_iff 13 (by decide) 0 1 (by decide) (by decide)).2.2 le_rfl
  rw [Bool.eq_false_iff]
  intro hverify
  exact absurd (h.mp hverify) (by decide)

/-- Page 13 of an alphabet passes for page 0, and so does page 1 of the strategy that
the programs use. -/
theorem misdelivered_page_accepted :
    verify 14 alphabeticalFillingStrategy
        ((MemoryBlock.construct 14 alphabeticalFillingStrategy).page 13) 0 = true ∧
      verify 2 (pseudoRandomFillingStrategy 42)
        ((MemoryBlock.construct 2 (pseudoRandomFillingStrategy 42)).page 1) 0 = true := by
  constructor
  · apply (verify_page_iff (by decide) (by decide) (by decide)).mpr
    exact (alphabetical_pages_iff 0 13).mpr rfl
  · apply (verify_page_iff (by decide) (by decide) (by decide)).mpr
    intro i
    rfl

end Misdelivery

end FastNet.GetPage
