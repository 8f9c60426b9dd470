import Mathlib.Data.List.Basic
import Mathlib.Data.List.Flatten
import Mathlib.Algebra.Order.BigOperators.Group.List
import Mathlib.Algebra.GroupWithZero.Action.Defs
import Mathlib.Tactic.Ring
import Mathlib.Tactic.Linarith

/-! # Bytes of machine integers and blocks of a byte stream

Little- and big-endian images of unsigned and of 32-bit signed values, writing
over the front of a buffer, and cutting a stream into blocks of one size.
-/
namespace FastNet

/-- Arithmetic of `size_t` is modulo this. -/
def sizeMod : ℕ := 18446744073709551616

end FastNet

namespace FastNet.Bytes

/-- The first `w` base-256 digits of `n`, least significant first. -/
def leBytes : ℕ → ℕ → List UInt8
  | 0, _ => []
  | w + 1, n => UInt8.ofNat n :: leBytes w (n / 256)

/-- The number with the given base-256 digits, least significant first. -/
def leNat : List UInt8 → ℕ
  | [] => 0
  | b :: bs => b.toNat + 256 * leNat bs

@[simp] theorem length_leBytes (w n : ℕ) : (leBytes w n).length = w := by
  induction w generalizing n with
  | zero => rfl
  | succ w ih => simp [leBytes,ih]

theorem leNat_leBytes (w n : ℕ) : leNat (leBytes w n) = n % 256 ^ w := by
  induction w generalizing n with
  | zero => simp [leBytes,leNat,Nat.mod_one]
  | succ w ih =>
    have hdigit : (UInt8.ofNat n).toNat = n % 256 := by simp
    rw [leBytes,leNat,ih,hdigit,pow_succ',Nat.mod_mul]

theorem leNat_lt (bs : List UInt8) : leNat bs < 256 ^ bs.length := by
  induction bs with
  | nil => simp [leNat]
  | cons b bs ih =>
    have hb := b.toNat_lt
    simp only [leNat,List.length_cons,pow_succ]
    omega

theorem leBytes_leNat (bs : List UInt8) : leBytes bs.length (leNat bs) = bs := by
  induction bs with
  | nil => rfl
  | cons b bs ih =>
    have hb : b.toNat < 256 := b.toNat_lt
    have hdiv : (b.toNat + 256 * leNat bs) / 256 = leNat bs := by omega
    have hlow : UInt8.ofNat (b.toNat + 256 * leNat bs) = b := by
      apply UInt8.toNat_inj.mp
      simp only [UInt8.toNat_ofNat']
      omega
    simp only [List.length_cons,leBytes,leNat,hdiv,hlow,ih]

/-- The same digits, most significant first: the network byte order. -/
def beBytes (w n : ℕ) : List UInt8 := (leBytes w n).reverse

@[simp] theorem length_beBytes (w n : ℕ) : (beBytes w n).length = w := by simp [beBytes]

/-- The memory image of a 32-bit signed integer on a little-endian machine; other
values are reduced modulo 2^32, as a conversion to the type does. -/
def int32Bytes (x : ℤ) : List UInt8 := leBytes 4 (x % 4294967296).toNat

/-- The 32-bit signed integer a `memcpy` out of four bytes reads. -/
def int32OfBytes (bs : List UInt8) : ℤ := Int.bmod (leNat bs) 4294967296

@[simp] theorem length_int32Bytes (x : ℤ) : (int32Bytes x).length = 4 := length_leBytes 4 _

theorem int32OfBytes_int32Bytes (x : ℤ) : int32OfBytes (int32Bytes x) = Int.bmod x 4294967296 := by
  have hlow : ((x % 4294967296).toNat : ℤ) = x % 4294967296 := Int.toNat_of_nonneg (by omega)
  have hlt : (x % 4294967296).toNat < 256 ^ 4 := by omega
  unfold int32OfBytes int32Bytes
  rw [leNat_leBytes,Nat.mod_eq_of_lt hlt,hlow]
  exact Int.emod_bmod x 4294967296

theorem int32OfBytes_of_lt {x : ℤ} (h0 : 0 ≤ x) (hx : x < 2147483648) :
    int32OfBytes (int32Bytes x) = x := by
  rw [int32OfBytes_int32Bytes]
  exact Int.bmod_eq_of_le (by omega) (by omega)

/-- Write `data` over the front of a buffer. -/
def overlay (data old : List UInt8) : List UInt8 := data ++ old.drop data.length

@[simp] theorem take_overlay (data old : List UInt8) :
    (overlay data old).take data.length = data := by
  simp [overlay]

section Blocks
variable {α : Type*} {k : ℕ}

/-- The complete blocks of `k` elements at the front of a list. -/
def blocks (k : ℕ) (l : List α) : List (List α) :=
  (List.range (l.length / k)).map (fun i => (l.drop (k * i)).take k)

@[simp] theorem length_blocks (k : ℕ) (l : List α) : (blocks k l).length = l.length / k := by
  simp [blocks]

theorem length_flatten_of_all {cs : List (List α)} (h : ∀ c ∈ cs, c.length = k) :
    cs.flatten.length = k * cs.length := by
  induction cs with
  | nil => simp
  | cons c cs ih =>
    have hc := h c (by simp)
    have hcs := ih (fun d hd => h d (by simp [hd]))
    simp only [List.flatten_cons,List.length_append,List.length_cons,hc,hcs]
    ring

theorem take_flatten_cons {c : List α} (cs : List (List α)) (h : c.length = k) :
    (c :: cs).flatten.take k = c := by
  simp [← h]

theorem drop_flatten_cons {c : List α} (cs : List (List α)) (h : c.length = k) :
    (c :: cs).flatten.drop k = cs.flatten := by
  simp [← h]

theorem drop_flatten {cs : List (List α)} (i : ℕ) (h : ∀ c ∈ cs, c.length = k) :
    cs.flatten.drop (k * i) = (cs.drop i).flatten := by
  induction i generalizing cs with
  | zero => simp
  | succ i ih =>
    cases cs with
    | nil => simp
    | cons c cs =>
      rw [Nat.mul_succ,Nat.add_comm,← List.drop_drop,drop_flatten_cons cs (h c (by simp)),
        List.drop_succ_cons]
      exact ih (fun d hd => h d (by simp [hd]))

/-- The bytes at a block boundary are the next block. -/
theorem take_drop_flatten {cs : List (List α)} {i : ℕ} (h : ∀ c ∈ cs, c.length = k)
    (hi : i < cs.length) : (cs.flatten.drop (k * i)).take k = cs[i] := by
  rw [drop_flatten i h,List.drop_eq_getElem_cons hi]
  exact take_flatten_cons _ (h _ (List.getElem_mem hi))

/-- Cutting a concatenation of equal blocks gives the blocks back. -/
theorem blocks_flatten (hk : 0 < k) {cs : List (List α)} (h : ∀ c ∈ cs, c.length = k) :
    blocks k cs.flatten = cs := by
  have hlen : cs.flatten.length / k = cs.length := by
    rw [length_flatten_of_all h,Nat.mul_div_cancel_left _ hk]
  apply List.ext_getElem
  · rw [length_blocks,hlen]
  · intro i h1 h2
    simp only [blocks,List.getElem_map,List.getElem_range,take_drop_flatten h h2]

theorem blocks_prefix (k : ℕ) (l m : List α) : blocks k l <+: blocks k (l ++ m) := by
  have hle : l.length / k ≤ (l ++ m).length / k := Nat.div_le_div_right (by simp)
  obtain ⟨d,hd⟩ := Nat.exists_eq_add_of_le hle
  have hsame : (List.range (l.length / k)).map (fun i => ((l ++ m).drop (k * i)).take k) =
      (List.range (l.length / k)).map (fun i => (l.drop (k * i)).take k) := by
    refine List.map_congr_left fun i hi => ?_
    have hlt : k * (i + 1) ≤ l.length :=
      (Nat.mul_le_mul_left k (List.mem_range.mp hi)).trans (Nat.mul_div_le l.length k)
    rw [Nat.mul_succ] at hlt
    rw [List.drop_append_of_le_length (by omega),
      List.take_append_of_le_length (by rw [List.length_drop]; omega)]
  simp only [blocks,hd,List.range_add,List.map_append,hsame]
  exact List.prefix_append _ _

/-- One block taken off the front of a concatenation is the first of its blocks. -/
theorem cons_of_prefix_flatten (hk : 0 < k) {cs : List (List α)} (h : ∀ c ∈ cs, c.length = k)
    {bs : List α} (hbs : bs.length = k) (hp : bs <+: cs.flatten) :
    ∃ rest, cs = bs :: rest ∧ cs.flatten.drop bs.length = rest.flatten := by
  cases cs with
  | nil =>
    have hle := hp.length_le
    simp only [List.flatten_nil,List.length_nil] at hle
    omega
  | cons c cs =>
    have hc := h c (by simp)
    have htake := List.prefix_iff_eq_take.mp hp
    rw [hbs,take_flatten_cons cs hc] at htake
    subst htake
    exact ⟨cs,rfl,by rw [hbs]; exact drop_flatten_cons cs hbs⟩

/-- A stream of pieces no longer than a block has as many blocks as pieces only
when every piece is a block. -/
theorem all_full_of_length {cs : List (List α)} (hle : ∀ c ∈ cs, c.length ≤ k)
    (h : k * cs.length ≤ cs.flatten.length) : ∀ c ∈ cs, c.length = k := by
  induction cs with
  | nil => simp
  | cons c cs ih =>
    have hrest : cs.flatten.length ≤ k * cs.length := by
      have hs := List.length_flatten (L := cs)
      have hb := List.sum_le_card_nsmul (cs.map List.length) k (by
        intro n hn
        obtain ⟨d,hd,rfl⟩ := List.mem_map.mp hn
        exact hle d (by simp [hd]))
      simp only [List.length_map,smul_eq_mul] at hb
      rw [hs,Nat.mul_comm]
      exact hb
    have hc := hle c (by simp)
    simp only [List.flatten_cons,List.length_append,List.length_cons,Nat.mul_succ] at h
    intro d hd
    rcases List.mem_cons.mp hd with rfl | hd
    · omega
    · exact ih (fun e he => hle e (by simp [he])) (by omega) d hd

/-- The integers of a stream; a rest shorter than four bytes is left out. -/
def int32s (bs : List UInt8) : List ℤ := (blocks 4 bs).map int32OfBytes

theorem int32s_flatten {cs : List (List UInt8)} (h : ∀ c ∈ cs, c.length = 4) :
    int32s cs.flatten = cs.map int32OfBytes :=
  congrArg (List.map int32OfBytes) (blocks_flatten (by decide) h)

end Blocks

end FastNet.Bytes
