import FastNet.Foundation.Bytes

/-! # Requests and responses of the page protocol

The packed structures of a request, a response header and a response, their
memory images on a little-endian machine, and the conversions of every header
field to and from network order, which are one and the same swap of bytes.
-/
namespace FastNet.GetPage

/-- PAGE_SIZE of these programs. -/
def pageSize : ℕ := 128

def sizeofRequest : ℕ := 8

def sizeofHeader : ℕ := 12

def sizeofResponse : ℕ := 140

section Words

def u32Bytes (x : UInt32) : List UInt8 := Bytes.leBytes 4 x.toNat

def u32OfBytes (bs : List UInt8) : UInt32 := UInt32.ofNat (Bytes.leNat bs)

/-- `htonl` and `ntohl`: the four bytes of a word in the other order. -/
def htonl (x : UInt32) : UInt32 := u32OfBytes (Bytes.beBytes 4 x.toNat)

@[simp] theorem length_u32Bytes (x : UInt32) : (u32Bytes x).length = 4 := Bytes.length_leBytes 4 _

@[simp] theorem u32OfBytes_u32Bytes (x : UInt32) : u32OfBytes (u32Bytes x) = x := by
  have hx := x.toNat_lt
  apply UInt32.toNat_inj.mp
  simp only [u32OfBytes,u32Bytes,Bytes.leNat_leBytes,UInt32.toNat_ofNat']
  omega

theorem u32Bytes_u32OfBytes {bs : List UInt8} (h : bs.length = 4) : u32Bytes (u32OfBytes bs) = bs := by
  have hlt := Bytes.leNat_lt bs
  rw [h] at hlt
  have hnat : (u32OfBytes bs).toNat = Bytes.leNat bs := by
    simp only [u32OfBytes,UInt32.toNat_ofNat']
    omega
  rw [u32Bytes,hnat,← h]
  exact Bytes.leBytes_leNat bs

theorem u32Bytes_htonl (x : UInt32) : u32Bytes (htonl x) = Bytes.beBytes 4 x.toNat :=
  u32Bytes_u32OfBytes (Bytes.length_beBytes 4 _)

@[simp] theorem htonl_htonl (x : UInt32) : htonl (htonl x) = x := by
  have h : Bytes.beBytes 4 (htonl x).toNat = u32Bytes x := by
    have hx := u32Bytes_htonl x
    rw [u32Bytes] at hx
    rw [Bytes.beBytes,hx,Bytes.beBytes,List.reverse_reverse,u32Bytes]
  rw [htonl,h,u32OfBytes_u32Bytes]

end Words

structure GetPageRequest where
  requestId : UInt32
  pageNumber : UInt32
  deriving DecidableEq, Repr

namespace GetPageRequest

def toNetworkOrder (r : GetPageRequest) : GetPageRequest := ⟨htonl r.requestId,htonl r.pageNumber⟩

def toHostOrder (r : GetPageRequest) : GetPageRequest := ⟨htonl r.requestId,htonl r.pageNumber⟩

def bytes (r : GetPageRequest) : List UInt8 := u32Bytes r.requestId ++ u32Bytes r.pageNumber

def ofBytes (bs : List UInt8) : GetPageRequest :=
  ⟨u32OfBytes (bs.take 4),u32OfBytes ((bs.drop 4).take 4)⟩

@[simp] theorem length_bytes (r : GetPageRequest) : r.bytes.length = sizeofRequest := by
  simp [bytes,sizeofRequest]

@[simp] theorem ofBytes_bytes (r : GetPageRequest) : ofBytes r.bytes = r := by
  have h1 : r.bytes.take 4 = u32Bytes r.requestId := List.take_left' (length_u32Bytes _)
  have h2 : r.bytes.drop 4 = u32Bytes r.pageNumber := List.drop_left' (length_u32Bytes _)
  have h3 : (u32Bytes r.pageNumber).take 4 = u32Bytes r.pageNumber :=
    List.take_of_length_le (length_u32Bytes _).le
  simp only [ofBytes,h1,h2,h3,u32OfBytes_u32Bytes]

@[simp] theorem toHostOrder_toNetworkOrder (r : GetPageRequest) :
    r.toNetworkOrder.toHostOrder = r := by
  simp [toHostOrder,toNetworkOrder]

end GetPageRequest

/-- SUCCESS and INVALID_PAGE_NUMBER. -/
def statusSuccess : UInt32 := 200

def statusInvalidPageNumber : UInt32 := 400

structure GetPageResponseHeader where
  requestId : UInt32
  status : UInt32
  pageNumber : UInt32
  deriving DecidableEq, Repr

namespace GetPageResponseHeader

def toNetworkOrder (h : GetPageResponseHeader) : GetPageResponseHeader :=
  ⟨htonl h.requestId,htonl h.status,htonl h.pageNumber⟩

def toHostOrder (h : GetPageResponseHeader) : GetPageResponseHeader :=
  ⟨htonl h.requestId,htonl h.status,htonl h.pageNumber⟩

def bytes (h : GetPageResponseHeader) : List UInt8 :=
  u32Bytes h.requestId ++ u32Bytes h.status ++ u32Bytes h.pageNumber

def ofBytes (bs : List UInt8) : GetPageResponseHeader :=
  ⟨u32OfBytes (bs.take 4),u32OfBytes ((bs.drop 4).take 4),u32OfBytes ((bs.drop 8).take 4)⟩

@[simp] theorem length_bytes (h : GetPageResponseHeader) : h.bytes.length = sizeofHeader := by
  simp [bytes,sizeofHeader]

theorem ofBytes_append (h : GetPageResponseHeader) (rest : List UInt8) :
    ofBytes (h.bytes ++ rest) = h := by
  have h1 : (h.bytes ++ rest).take 4 = u32Bytes h.requestId := by
    simp only [bytes,List.append_assoc]
    exact List.take_left' (length_u32Bytes _)
  have h2 : (h.bytes ++ rest).drop 4 = u32Bytes h.status ++ (u32Bytes h.pageNumber ++ rest) := by
    simp only [bytes,List.append_assoc]
    exact List.drop_left' (length_u32Bytes _)
  have h3 : (h.bytes ++ rest).drop 8 = u32Bytes h.pageNumber ++ rest := by
    have hdrop : (h.bytes ++ rest).drop 8 = ((h.bytes ++ rest).drop 4).drop 4 := by
      rw [List.drop_drop]
    rw [hdrop,h2]
    exact List.drop_left' (length_u32Bytes _)
  have h4 : (u32Bytes h.status ++ (u32Bytes h.pageNumber ++ rest)).take 4 = u32Bytes h.status :=
    List.take_left' (length_u32Bytes _)
  have h5 : (u32Bytes h.pageNumber ++ rest).take 4 = u32Bytes h.pageNumber :=
    List.take_left' (length_u32Bytes _)
  simp only [ofBytes,h1,h2,h3,h4,h5,u32OfBytes_u32Bytes]

theorem bytes_injective {h h' : GetPageResponseHeader} (he : h.bytes = h'.bytes) : h = h' := by
  have h1 := ofBytes_append h []
  rw [List.append_nil,he] at h1
  have h2 := ofBytes_append h' []
  rw [List.append_nil] at h2
  exact h1.symm.trans h2

@[simp] theorem toHostOrder_toNetworkOrder (h : GetPageResponseHeader) :
    h.toNetworkOrder.toHostOrder = h := by
  simp [toHostOrder,toNetworkOrder]

theorem toNetworkOrder_injective {h h' : GetPageResponseHeader}
    (he : h.toNetworkOrder = h'.toNetworkOrder) : h = h' := by
  rw [← toHostOrder_toNetworkOrder h,he,toHostOrder_toNetworkOrder]

end GetPageResponseHeader

structure GetPageResponse where
  header : GetPageResponseHeader
  content : Vector UInt8 pageSize
  deriving DecidableEq

namespace GetPageResponse

/-- The value-initialised response. -/
def zero : GetPageResponse := ⟨⟨0,0,0⟩,Vector.replicate pageSize 0⟩

def toHostOrder (r : GetPageResponse) : GetPageResponse :=
  { r with header := r.header.toHostOrder }

def bytes (r : GetPageResponse) : List UInt8 := r.header.bytes ++ r.content.toList

/-- The structure in a piece of memory; bytes past its end count as zero. -/
def ofBytes (bs : List UInt8) : GetPageResponse where
  header := .ofBytes bs
  content := Vector.ofFn (fun i => bs.getD (sizeofHeader + i) 0)

@[simp] theorem length_bytes (r : GetPageResponse) : r.bytes.length = sizeofResponse := by
  rw [bytes,List.length_append,GetPageResponseHeader.length_bytes,Vector.length_toList]
  rfl

@[simp] theorem ofBytes_bytes (r : GetPageResponse) : ofBytes r.bytes = r := by
  have hheader := GetPageResponseHeader.ofBytes_append r.header r.content.toList
  have hcontent : Vector.ofFn (fun i : Fin pageSize => r.bytes.getD (sizeofHeader + i) 0) =
      r.content := by
    apply Vector.ext
    intro i hi
    have hlen : r.header.bytes.length = sizeofHeader := r.header.length_bytes
    have hget : r.bytes[sizeofHeader + i]? = some r.content[i] := by
      rw [bytes,List.getElem?_append_right (by omega)]
      simp [hlen,hi]
    simp [List.getD,hget]
  rw [ofBytes,hcontent]
  unfold bytes
  rw [hheader]

end GetPageResponse

end FastNet.GetPage
