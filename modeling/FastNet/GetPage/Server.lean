import FastNet.GetPage.MemoryBlock

/-! # The blocking page server

`handle_client`: each read of a whole request is answered at once, any other
result of `read` ends the connection without an answer.
-/
namespace FastNet.GetPage

/-- A result of `read` or of a read completion: some bytes, none of them at the end
of the stream, or a negative value. -/
inductive ReadResult
  | bytes (bs : List UInt8)
  | failed
  deriving DecidableEq

def ReadResult.content : ReadResult → List UInt8
  | .bytes bs => bs
  | .failed => []

def ReadResult.result : ReadResult → ℤ
  | .bytes bs => bs.length
  | .failed => -1

namespace Server
variable (memoryBlock : MemoryBlock) (pageCount : ℕ)

/-- The header of the answer to a request, in network order. -/
def responseHeader (status : UInt32) (request : GetPageRequest) : GetPageResponseHeader :=
  (GetPageResponseHeader.mk request.requestId status request.pageNumber).toNetworkOrder

/-- The whole structure that reports an invalid page number. -/
def errorResponse (request : GetPageRequest) : GetPageResponse :=
  ⟨responseHeader statusInvalidPageNumber request,Vector.replicate pageSize 0xFA⟩

/-- The bytes that `write` or `writev` puts on the connection for a request. -/
def respond (request : GetPageRequest) : List UInt8 :=
  if pageCount ≤ request.pageNumber.toNat then (errorResponse request).bytes
  else (responseHeader statusSuccess request).bytes ++
    memoryBlock.read (request.pageNumber.toNat * pageSize) pageSize

structure State where
  closed : Bool
  written : List (List UInt8)

/-- One iteration of the loop, for the result of its `read`. -/
def step (s : State) (r : ReadResult) : State :=
  if s.closed then s
  else
    match r with
    | .bytes bs =>
      if bs.length = sizeofRequest then
        let request := (GetPageRequest.ofBytes bs).toHostOrder
        { s with written := s.written ++ [respond memoryBlock pageCount request] }
      else { s with closed := true }
    | .failed => { s with closed := true }

/-- The loop over the results its reads have one after the other. -/
def handleClient (rs : List ReadResult) : State :=
  rs.foldl (step memoryBlock pageCount) ⟨false,[]⟩

/-- What a read holds when it is a whole request. -/
def wholeRequest : ReadResult → Option GetPageRequest
  | .bytes bs =>
    if bs.length = sizeofRequest then some (GetPageRequest.ofBytes bs).toHostOrder else none
  | .failed => none

/-- The requests of the reads before the first that is not a whole request. -/
def leadingRequests : List ReadResult → List GetPageRequest
  | [] => []
  | r :: rs =>
    match wholeRequest r with
    | some request => request :: leadingRequests rs
    | none => []

variable {memoryBlock pageCount}

theorem foldl_closed (rs : List ReadResult) {s : State} (h : s.closed = true) :
    rs.foldl (step memoryBlock pageCount) s = s := by
  induction rs with
  | nil => rfl
  | cons r rs ih =>
    have hstep : step memoryBlock pageCount s r = s := by simp [step,h]
    rw [List.foldl_cons,hstep,ih]

theorem step_running {s : State} (h : s.closed = false) (r : ReadResult) :
    step memoryBlock pageCount s r =
      match wholeRequest r with
      | some request => { s with written := s.written ++ [respond memoryBlock pageCount request] }
      | none => { s with closed := true } := by
  cases r with
  | bytes bs => by_cases hb : bs.length = sizeofRequest <;> simp [step,h,wholeRequest,hb]
  | failed => simp [step,h,wholeRequest]

theorem foldl_running (rs : List ReadResult) (written : List (List UInt8)) :
    rs.foldl (step memoryBlock pageCount) ⟨false,written⟩ =
      ⟨(leadingRequests rs).length < rs.length,
        written ++ (leadingRequests rs).map (respond memoryBlock pageCount)⟩ := by
  induction rs generalizing written with
  | nil => simp [leadingRequests]
  | cons r rs ih =>
    rw [List.foldl_cons,step_running rfl]
    cases hr : wholeRequest r with
    | none =>
      rw [foldl_closed rs rfl]
      simp [leadingRequests,hr]
    | some request =>
      simp only [ih]
      simp [leadingRequests,hr]

/-- The server answers the leading whole requests and closes at the first read that
is not one. -/
theorem handleClient_eq (rs : List ReadResult) :
    handleClient memoryBlock pageCount rs =
      ⟨(leadingRequests rs).length < rs.length,
        (leadingRequests rs).map (respond memoryBlock pageCount)⟩ := by
  rw [handleClient,foldl_running,List.nil_append]

section Frames

theorem responseHeader_injective {status status' : UInt32} {q q' : GetPageRequest}
    (h : responseHeader status q = responseHeader status' q') : q = q' := by
  have he := GetPageResponseHeader.toNetworkOrder_injective h
  obtain ⟨rid,rpage⟩ := q
  obtain ⟨rid',rpage'⟩ := q'
  simp only [GetPageResponseHeader.mk.injEq] at he
  rw [he.1,he.2.2]

variable (pageCount) in
/-- The status of the answer to a request. -/
def statusOf (q : GetPageRequest) : UInt32 :=
  if pageCount ≤ q.pageNumber.toNat then statusInvalidPageNumber else statusSuccess

variable (memoryBlock pageCount) in
/-- Every answer starts with the header of its request. -/
theorem header_prefix_respond (q : GetPageRequest) :
    (responseHeader (statusOf pageCount q) q).bytes <+: respond memoryBlock pageCount q := by
  unfold respond statusOf
  split
  · exact List.prefix_append _ _
  · exact List.prefix_append _ _

end Frames

section Answers
variable (strategy : FillingStrategy) (pageCount : ℕ)

/-- The structure that the answer to a request is the image of. -/
def answer (q : GetPageRequest) : GetPageResponse :=
  if pageCount ≤ q.pageNumber.toNat then errorResponse q
  else ⟨responseHeader statusSuccess q,
    Vector.ofFn (fun i => strategy (q.pageNumber.toNat * pageSize + i))⟩

theorem bytes_ofFn (header : GetPageResponseHeader) (f : ℕ → UInt8) :
    (GetPageResponse.mk header (Vector.ofFn (fun i => f i))).bytes =
      header.bytes ++ (List.range pageSize).map f := by
  have hcontent : (Vector.ofFn (fun i : Fin pageSize => f i)).toList =
      (List.range pageSize).map f := by
    apply List.ext_getElem
    · simp
    · intro i h1 h2
      simp
  rw [GetPageResponse.bytes,hcontent]

/-- The header and the slice of the block that `writev` gathers are one structure. -/
theorem respond_construct (h : pageSize * pageCount < sizeMod) (q : GetPageRequest) :
    respond (MemoryBlock.construct pageCount strategy) pageCount q =
      (answer strategy pageCount q).bytes := by
  unfold respond answer
  by_cases hq : pageCount ≤ q.pageNumber.toNat
  · rw [if_pos hq,if_pos hq]
  · rw [if_neg hq,if_neg hq]
    have hinside : q.pageNumber.toNat * pageSize + pageSize ≤ pageSize * pageCount % sizeMod := by
      rw [Nat.mod_eq_of_lt h]
      unfold pageSize
      omega
    calc (responseHeader statusSuccess q).bytes ++ _
      _ = (responseHeader statusSuccess q).bytes ++ (List.range pageSize).map
          (fun i => strategy (q.pageNumber.toNat * pageSize + i)) :=
        congrArg _ (MemoryBlock.read_construct strategy hinside)
      _ = _ := (bytes_ofFn _ _).symm

@[simp] theorem length_respond (h : pageSize * pageCount < sizeMod) (q : GetPageRequest) :
    (respond (MemoryBlock.construct pageCount strategy) pageCount q).length = sizeofResponse := by
  rw [respond_construct strategy pageCount h,GetPageResponse.length_bytes]

end Answers

end Server

end FastNet.GetPage
