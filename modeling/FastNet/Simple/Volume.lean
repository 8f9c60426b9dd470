import FastNet.Simple.ClientReturn

/-! # The expected volume

The number of bytes of all pages is computed three times: by each client thread for
its range, by `main` of the simple client for all requests, and by `main` of
max_server. Only the second one multiplies in 32 bits.
-/
namespace FastNet.Simple
variable (K : Consts) (numRequests : ℕ)

/-- Arithmetic of `unsigned int` is modulo this. -/
def uintMod : ℕ := 4294967296

/-- `1u * NUM_REQUESTS * PAGE_SIZE * sizeof(int32_t)`: `unsigned int` up to the last
factor, which is a `size_t`. -/
def expectedTotalReceivedBytes : ℕ :=
  1 * numRequests % uintMod * K.pageSize % uintMod * sizeofInt32 % sizeMod

/-- `(int64_t)NUM_REQUESTS * PAGE_SIZE * sizeof(int32_t)` of max_server; the product of
two `int` fits in `int64_t`. -/
def expectedTotalBytes : ℕ := numRequests * K.pageSize % sizeMod * sizeofInt32 % sizeMod

/-- What the threads of `main` expect, each for its own range. -/
def threadVolumes (clientThreads : ℕ) : List ℕ :=
  (List.range clientThreads).map
    (fun i => Client.totalExpectedReceived K (Client.threadJob numRequests clientThreads i))

variable {K numRequests}

theorem expectedTotalReceivedBytes_eq :
    expectedTotalReceivedBytes K numRequests = numRequests * K.pageSize % uintMod * sizeofInt32 := by
  have hlt : numRequests * K.pageSize % uintMod < uintMod := Nat.mod_lt _ (by decide)
  rw [expectedTotalReceivedBytes,Nat.one_mul,Nat.mod_mul_mod,Nat.mod_eq_of_lt]
  simp only [uintMod,sizeofInt32,sizeMod] at hlt ⊢
  omega

theorem expectedTotalBytes_eq (h : numRequests * K.pageLen < sizeMod) :
    expectedTotalBytes K numRequests = numRequests * K.pageLen := by
  rw [expectedTotalBytes,Nat.mod_mul_mod,Nat.mul_assoc]
  exact Nat.mod_eq_of_lt h

theorem sum_threadVolumes {clientThreads : ℕ} (ht : 1 ≤ clientThreads)
    (h : numRequests * K.pageLen < sizeMod) :
    (threadVolumes K numRequests clientThreads).sum = numRequests * K.pageLen := by
  have heach : ∀ i ∈ List.range clientThreads,
      Client.totalExpectedReceived K (Client.threadJob numRequests clientThreads i) =
        (Client.threadJob numRequests clientThreads i).numRequests * K.pageLen := by
    intro i hi
    have hle : (Client.threadJob numRequests clientThreads i).numRequests ≤ numRequests :=
      Client.threadJob_numRequests_le (List.mem_range.mp hi)
    exact Nat.mod_eq_of_lt (lt_of_le_of_lt (Nat.mul_le_mul_right _ hle) h)
  rw [threadVolumes,List.map_congr_left heach,List.sum_map_mul_right,Client.sum_threadJob _ ht]

/-- The three volumes agree as long as the number of integers fits in 32 bits. -/
theorem expected_volume_iff (K : Consts) (numRequests clientThreads : ℕ) (ht : 1 ≤ clientThreads)
    (h : numRequests * K.pageLen < sizeMod) :
    (expectedTotalReceivedBytes K numRequests = (threadVolumes K numRequests clientThreads).sum ∧
      expectedTotalReceivedBytes K numRequests = expectedTotalBytes K numRequests) ↔
      numRequests * K.pageSize < uintMod := by
  have hlen : numRequests * K.pageLen = numRequests * K.pageSize * sizeofInt32 := by
    rw [Consts.pageLen,Nat.mul_assoc]
  rw [sum_threadVolumes ht h,expectedTotalBytes_eq h,and_self_iff,expectedTotalReceivedBytes_eq,hlen]
  constructor
  · intro heq
    have hmod := Nat.eq_of_mul_eq_mul_right (show 0 < sizeofInt32 by decide) heq
    rw [← hmod]
    exact Nat.mod_lt _ (by decide)
  · intro hlt
    rw [Nat.mod_eq_of_lt hlt]

/-- Pages of 4096 integers. -/
def Consts.large : Consts := ⟨4096,8,by decide⟩

theorem expected_volume_small :
    expectedTotalReceivedBytes Consts.small 10 = (threadVolumes Consts.small 10 3).sum ∧
      expectedTotalReceivedBytes Consts.small 10 = expectedTotalBytes Consts.small 10 :=
  (expected_volume_iff Consts.small 10 3 (by decide) (by decide)).mpr (by decide)

/-- With 1024 * 1024 requests for pages of 4096 integers the 32-bit product is zero. -/
theorem expected_volume_wraps :
    1048576 ≤ intMax ∧ 1048576 * Consts.large.pageLen < sizeMod ∧
      expectedTotalReceivedBytes Consts.large 1048576 = 0 ∧
      expectedTotalReceivedBytes Consts.large 1048576 ≠
        (threadVolumes Consts.large 1048576 4).sum ∧
      expectedTotalReceivedBytes Consts.large 1048576 ≠
        expectedTotalBytes Consts.large 1048576 := by decide

end FastNet.Simple
