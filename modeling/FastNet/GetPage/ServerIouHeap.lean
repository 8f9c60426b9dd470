import FastNet.GetPage.IouUtils
import FastNet.GetPage.ServerIou

/-! # The io_uring page server on its heap

`event_loop` with its blocks and its submission queue. A request of the ring is a
`custom_request` made by `new`; the request of a read points to a buffer of `malloc`.
The ring is set up with `IORING_SETUP_SQPOLL`: a thread of the kernel takes the
entries from the submission queue in order, some time after they are submitted. The
kernel executes and posts the operations that were taken in any order, and a write
may be cut short or fail.
-/
namespace FastNet.GetPage.ServerIou.OnHeap
open Execution

inductive EventType
  | read
  | write
  deriving DecidableEq, Repr

/-- A `custom_request`, with its `iov`. -/
structure CustomRequest where
  eventType : EventType
  iovBase : Addr
  iovLen : ℕ
  deriving DecidableEq, Repr

def sizeofCustomRequest : ℕ := 24

/-- An entry of the submission queue; a `writev` has the first vectors of `iov`. -/
inductive Sqe
  | readv (userData : Addr)
  | writev (userData : Addr) (iovCount : ℕ)
  deriving DecidableEq, Repr

/-- The number of vectors of a write. -/
def Sqe.write : Sqe → Option (Addr × ℕ)
  | .readv _ => none
  | .writev userData iovCount => some (userData,iovCount)

def Sqe.read : Sqe → Option Addr
  | .readv userData => some userData
  | .writev _ _ => none

structure State where
  closed : Bool
  heap : Heap CustomRequest
  /-- The entries that the polling thread has not taken, oldest first. -/
  sq : List Sqe
  reads : List Addr
  readDone : List Cqe
  writes : List (Addr × ℕ)
  writeDone : List Cqe
  cq : List Cqe
  response : GetPageResponse
  iov : IoVec × IoVec
  sent : List UInt8
  requests : List GetPageRequest
  headers : List GetPageResponseHeader
  executed : ℕ

/-- The outcome of a `writev`. -/
inductive WriteResult
  | whole
  | short (count : ℕ)
  | failed
  deriving DecidableEq, Repr

inductive Event
  | take
  | read (i : ℕ) (r : ReadResult)
  | postRead (i : ℕ)
  | write (i : ℕ) (r : WriteResult)
  | postWrite (i : ℕ)
  | serve

/-- The buffer of the request of a read. -/
def buffer (m : Heap CustomRequest) (req : Addr) : List UInt8 := m.bytes (m.header req).iovBase

def completion (m : Heap CustomRequest) (c : Cqe) : Completion :=
  match (m.header c.userData).eventType with
  | .read => .read c.res (buffer m c.userData)
  | .write => .write c.res

/-- The state with the buffers in the place of the blocks that hold them; a submitted
operation is one of the queue or one that was taken. -/
def State.view (s : State) : ServerIou.State where
  closed := s.closed
  reads := (s.reads ++ s.sq.filterMap Sqe.read).map (buffer s.heap)
  readDone := s.readDone.map (fun c => (c.res,buffer s.heap c.userData))
  writes := (s.writes ++ s.sq.filterMap Sqe.write).map Prod.snd
  writeDone := s.writeDone.map Cqe.res
  cq := s.cq.map (completion s.heap)
  response := s.response
  iov := s.iov
  mallocs := initialReads + s.requests.length
  sent := s.sent
  requests := s.requests
  headers := s.headers
  executed := s.executed

section Blocks
variable (m : Heap CustomRequest)

/-- `free`, and `delete`; a null pointer is left alone. -/
def free (a : Addr) : Except Fault (Heap CustomRequest) :=
  if a = nullptr then .ok m else (m.free a).mapError .stop

/-- `new custom_request{eventType}`. -/
def newRequest (eventType : EventType) : Except Fault (Addr × Heap CustomRequest) := do
  let (req,m) ← malloc m sizeofCustomRequest
  .ok (req,m.setHeader req ⟨eventType,nullptr,0⟩)

end Blocks

variable (memoryBlock : MemoryBlock) (pageCount : ℕ)

def addReadRequest (s : State) : Except Fault State := do
  getSqe s.sq.length
  let (req,m) ← newRequest s.heap .read
  let (base,m) ← malloc m sizeofRequest
  let m := m.setHeader req ⟨.read,base,sizeofRequest⟩
  .ok { s with heap := m, sq := s.sq ++ [.readv req] }

def addWriteRequest (s : State) (iovCount : ℕ) : Except Fault State := do
  getSqe s.sq.length
  let (req,m) ← newRequest s.heap .write
  let m := m.setHeader req ⟨.write,nullptr,0⟩
  .ok { s with
    heap := m
    sq := s.sq ++ [.writev req iovCount]
    headers := s.headers ++ [s.response.header] }

/-- The variables of the block that answers a request. -/
def setVariables (s : State) (request : GetPageRequest) : State :=
  if pageCount ≤ request.pageNumber.toNat then
    { s with
      response := Server.errorResponse request
      iov := (⟨.response,sizeofResponse⟩,s.iov.2) }
  else
    { s with
      response := { GetPageResponse.zero with
        header := Server.responseHeader statusSuccess request }
      iov := (⟨.response,sizeofHeader⟩,⟨.block (request.pageNumber.toNat * pageSize),pageSize⟩) }

/-- What follows in the case `READ`: the write, the next read, and at the end of the
pass `io_uring_cqe_seen` and `delete`. -/
def exchange (s : State) (c : Cqe) (rest : List Cqe) (base : Addr) (iovCount : ℕ) :
    Except Fault State := do
  let s ← addWriteRequest s iovCount
  let m ← free s.heap base
  let s ← addReadRequest { s with heap := m }
  let m ← free s.heap c.userData
  .ok { s with heap := m, cq := rest }

/-- The case `READ` with a non-zero result. -/
def respond (s : State) (c : Cqe) (rest : List Cqe) (base : Addr) : Except Fault State := do
  let _ ← access s.heap base
  let request := (GetPageRequest.ofBytes (s.heap.bytes base)).toHostOrder
  let s := setVariables pageCount { s with requests := s.requests ++ [request] } request
  exchange s c rest base (iovCountOf pageCount request)

/-- One pass of the loop. A closed connection leaves it with the completion not seen
and its request not deleted. -/
def serve (s : State) : Except Fault State :=
  if s.closed then .error (.stop .disabled)
  else
    match s.cq with
    | [] => .error (.stop .disabled)
    | c :: rest => do
      let req ← access s.heap c.userData
      match req.eventType with
      | .read =>
        if c.res = 0 then .ok { s with closed := true }
        else respond pageCount s c rest req.iovBase
      | .write => do
        let m ← free s.heap req.iovBase
        let m ← free m c.userData
        .ok { s with heap := m, cq := rest }

/-- The bytes and the result of a write that has `bytes` to transfer. -/
def WriteResult.transfer (bytes : List UInt8) : WriteResult → Option (List UInt8 × ℤ)
  | .whole => some (bytes,bytes.length)
  | .short count => if count < bytes.length then some (bytes.take count,count) else none
  | .failed => some ([],-1)

def step (s : State) : Event → Except Fault State
  | .take =>
    match s.sq with
    | [] => .error (.stop .disabled)
    | .readv req :: rest => .ok { s with sq := rest, reads := s.reads ++ [req] }
    | .writev req iovCount :: rest =>
      .ok { s with sq := rest, writes := s.writes ++ [(req,iovCount)] }
  | .read i r =>
    match s.reads[i]? with
    | none => .error (.stop .disabled)
    | some req => do
      let h ← access s.heap req
      let _ ← access s.heap h.iovBase
      if r.content.length ≤ h.iovLen then
        .ok { s with
          heap := s.heap.setBytes h.iovBase (Bytes.overlay r.content (s.heap.bytes h.iovBase))
          reads := s.reads.eraseIdx i
          readDone := s.readDone ++ [⟨req,r.result⟩] }
      else .error (.stop .disabled)
  | .postRead i =>
    match s.readDone[i]? with
    | none => .error (.stop .disabled)
    | some c => .ok { s with readDone := s.readDone.eraseIdx i, cq := s.cq ++ [c] }
  | .write i r =>
    match s.writes[i]? with
    | none => .error (.stop .disabled)
    | some (req,iovCount) =>
      match r.transfer (gatherAll memoryBlock s.view iovCount) with
      | none => .error (.stop .disabled)
      | some (bytes,res) =>
        .ok { s with
          writes := s.writes.eraseIdx i
          writeDone := s.writeDone ++ [⟨req,res⟩]
          sent := s.sent ++ bytes
          executed := s.executed + 1 }
  | .postWrite i =>
    match s.writeDone[i]? with
    | none => .error (.stop .disabled)
    | some c => .ok { s with writeDone := s.writeDone.eraseIdx i, cq := s.cq ++ [c] }
  | .serve => serve pageCount s

/-- The loop that posts the first reads. -/
def addReadRequests (n : ℕ) (s : State) : Except Fault State :=
  match n with
  | 0 => .ok s
  | n + 1 => addReadRequests n s >>= addReadRequest

/-- Where `event_loop` starts; the allocator and the stack are arbitrary. -/
def entry (m : Heap CustomRequest) (response : GetPageResponse) (iov : IoVec × IoVec) : State where
  closed := false
  heap := m
  sq := []
  reads := []
  readDone := []
  writes := []
  writeDone := []
  cq := []
  response := response
  iov := iov
  sent := []
  requests := []
  headers := []
  executed := 0

/-- The head of the loop. -/
def start (m : Heap CustomRequest) (response : GetPageResponse) (iov : IoVec × IoVec) :
    Except Fault State :=
  addReadRequests initialReads (entry m response iov)

/-- A connection: the first reads, then the events. -/
def run (m : Heap CustomRequest) (response : GetPageResponse) (iov : IoVec × IoVec)
    (es : List Event) : Except Fault State := do
  let s ← start m response iov
  execute (step memoryBlock pageCount) s es

end FastNet.GetPage.ServerIou.OnHeap
