import FastNet.Foundation.Bytes

/-! # Sizes and records of the simple programs

The compile-time macros that set the sizes of a run, the two size classes of
buffers, and the header that precedes every buffer.
-/
namespace FastNet.Simple

/-- The macros PAGE_SIZE and RING_SIZE; a page has at least one integer. -/
structure Consts where
  pageSize : ℕ
  ringSize : ℕ
  pageSize_pos : 1 ≤ pageSize

def sizeofInt32 : ℕ := 4

/-- Two 8-byte sequence numbers, the padded event type, the buffer offset and size. -/
def sizeofRequestData : ℕ := 40

def bufferPoolInitialPoolSize : ℕ := 128

/-- The largest `int`; the counters of the client are of that type. -/
def intMax : ℕ := 2147483647

inductive EventType
  | readEvent
  | writeEvent
  | sendEvent
  | recvEvent
  deriving DecidableEq, Repr

/-- The header of a buffer; the flexible array after it is the block's bytes. -/
structure RequestData where
  seq : ℕ × ℕ
  eventType : EventType
  bufferOffset : ℤ
  deriving DecidableEq, Repr

def RequestData.setOffset (data : RequestData) (offset : ℤ) : RequestData :=
  { data with bufferOffset := offset }

namespace Consts
variable (K : Consts)

/-- The bytes of one page. -/
def pageLen : ℕ := K.pageSize * sizeofInt32

def requestBuffer : ℕ := sizeofRequestData + sizeofInt32

def pageBuffer : ℕ := sizeofRequestData + K.pageLen

/-- The size classes both programs give to their pool. -/
def bufferSizes : List ℕ := [K.pageBuffer,requestBuffer]

theorem pageLen_pos : 0 < K.pageLen := by
  have h := K.pageSize_pos
  unfold pageLen sizeofInt32
  omega

/-- A page filled with one value. -/
def page (x : ℤ) : List UInt8 := (List.replicate K.pageSize (Bytes.int32Bytes x)).flatten

theorem mem_page_blocks {x : ℤ} : ∀ c ∈ List.replicate K.pageSize (Bytes.int32Bytes x),
    c.length = 4 := by
  intro c hc
  rw [List.eq_of_mem_replicate hc,Bytes.length_int32Bytes]

@[simp] theorem length_page (x : ℤ) : (K.page x).length = K.pageLen := by
  rw [page,Bytes.length_flatten_of_all K.mem_page_blocks,List.length_replicate,pageLen,sizeofInt32,Nat.mul_comm]

/-- A page of a value that fits reads back as copies of it. -/
theorem int32s_page {x : ℤ} (h0 : 0 ≤ x) (hx : x < 2147483648) :
    Bytes.int32s (K.page x) = List.replicate K.pageSize x := by
  rw [page,Bytes.int32s_flatten K.mem_page_blocks,List.map_replicate,Bytes.int32OfBytes_of_lt h0 hx]

/-- One integer a page and a ring of four. -/
def small : Consts := ⟨1,4,Nat.le_refl 1⟩

end Consts

end FastNet.Simple
