import FastNet.Simple.Process

/-! # The server's event loop

`event_loop` for one client as a step function: one event handles the completion
at the head of the queue, the others are kernel events. A read completion is
answered with a page and the read is posted again; a write completion gives the
buffer back. VERIFY is off.
-/
namespace FastNet.Simple.Server
open Execution

/-- In the loop, past it with the connection closed, or past it with a failure. -/
inductive Phase
  | running
  | closed
  | failed
  deriving DecidableEq, Repr

structure State where
  proc : Process
  phase : Phase
  readReqNum : ℕ
  writeReqNum : ℕ
  /-- The read completions taken off the queue so far. -/
  handled : ℕ
  /-- The page numbers answered so far, in order. -/
  responses : List ℤ

inductive Event
  | serve
  | kernel (e : KernelEvent)

/-- `buffer[i] = x` in an array of 32-bit integers. -/
def storeInt32 (buffer : List UInt8) (i : ℕ) (x : ℤ) : List UInt8 :=
  buffer.take (sizeofInt32 * i) ++ Bytes.int32Bytes x ++ buffer.drop (sizeofInt32 * i + sizeofInt32)

variable (K : Consts) (clientNum : ℕ)

/-- The loop that fills a response. -/
def fillPage (x : ℤ) (buffer : List UInt8) : List UInt8 :=
  (List.range K.pageSize).foldl (fun b i => storeInt32 b i x) buffer

/-- `add_read_request` on a new buffer, `count` times. -/
def postReads : ℕ → State → Except Stop State
  | 0, s => .ok s
  | count + 1, s => do
    let proc ← s.proc.enqueue K.pageBuffer ⟨(clientNum,s.readReqNum),.readEvent,0⟩ id .recv
      sizeofInt32
    postReads count { s with proc := proc, readReqNum := s.readReqNum + 1 }

/-- The case of a completed read with a non-zero result, which is not looked at
any further. -/
def respond (s : State) (e : Cqe) (rest : List Cqe) : Except Stop State := do
  let req := e.userData
  let pageNumber := Bytes.int32OfBytes ((s.proc.mem.bytes req).take sizeofInt32)
  let proc ← (s.proc.seen rest).enqueue K.pageBuffer ⟨(clientNum,s.writeReqNum),.writeEvent,0⟩
    (fillPage K pageNumber) .send K.pageLen
  let proc ← proc.requeue req ⟨(clientNum,s.readReqNum),.readEvent,0⟩ .recv sizeofInt32
  return { s with
    proc := proc.submit
    readReqNum := s.readReqNum + 1
    writeReqNum := s.writeReqNum + 1
    handled := s.handled + 1
    responses := s.responses ++ [pageNumber] }

/-- The body of the loop, for the completion that `io_uring_wait_cqe` returned. -/
def serve (s : State) (e : Cqe) (rest : List Cqe) : Except Stop State :=
  let req := e.userData
  if req = nullptr then .ok { s with phase := .failed }
  else
    match (s.proc.mem.header req).eventType with
    | .readEvent =>
      if e.res = 0 then .ok { s with phase := .closed } else respond K clientNum s e rest
    | .writeEvent => do
      let proc ← (s.proc.seen rest).release req K.pageBuffer
      return { s with proc := proc }
    | _ => .ok { s with proc := s.proc.seen rest }

def step (s : State) : Event → Except Stop State
  | .serve =>
    if s.phase = .running then
      match s.proc.ring.cq with
      | [] => .error .disabled
      | e :: rest => serve K clientNum s e rest
    else .error .disabled
  | .kernel e =>
    if s.phase = .running then do
      let proc ← s.proc.kernel e
      return { s with proc := proc }
    else .error .disabled

/-- The state at the head of the loop, over any contents of the heap and any supply
of addresses. -/
def start (header : Addr → RequestData) (bytes : Addr → List UInt8)
    (supply : ℕ → Block RequestData) : Except Stop State := do
  let (pool,mem) ← BufferPool.construct K.bufferSizes bufferPoolInitialPoolSize
    (Heap.fresh header bytes supply)
  let s ← postReads K clientNum (K.ringSize / 4)
    { proc := ⟨mem,pool,.queueInit K.ringSize⟩
      phase := .running
      readReqNum := 0
      writeReqNum := 0
      handled := 0
      responses := [] }
  return { s with proc := s.proc.submit }

/-- A state some start of the loop can be in after the events. -/
def Run (es : List Event) (s : State) : Prop :=
  ∃ header bytes supply s0, start K clientNum header bytes supply = .ok s0 ∧
    execute (step K clientNum) s0 es = .ok s

theorem foldl_storeInt32 (x : ℤ) (buffer : List UInt8) (n : ℕ) :
    (List.range n).foldl (fun b i => storeInt32 b i x) buffer =
      Bytes.overlay (List.replicate n (Bytes.int32Bytes x)).flatten buffer := by
  induction n with
  | zero => simp [Bytes.overlay]
  | succ n ih =>
    have hall : ∀ c ∈ List.replicate n (Bytes.int32Bytes x), c.length = sizeofInt32 := by
      intro c hc
      rw [List.eq_of_mem_replicate hc,Bytes.length_int32Bytes,sizeofInt32]
    have hlen := Bytes.length_flatten_of_all hall
    rw [List.length_replicate] at hlen
    have hfront : ∀ tail : List UInt8,
        ((List.replicate n (Bytes.int32Bytes x)).flatten ++ tail).take (sizeofInt32 * n) =
          (List.replicate n (Bytes.int32Bytes x)).flatten := by
      intro tail
      rw [← hlen]
      exact List.take_left
    have hback : ∀ tail : List UInt8,
        ((List.replicate n (Bytes.int32Bytes x)).flatten ++ tail).drop
          (sizeofInt32 * n + sizeofInt32) = tail.drop sizeofInt32 := by
      intro tail
      rw [← hlen]
      exact List.drop_length_add_append ..
    have hlen4 : (Bytes.int32Bytes x).length = sizeofInt32 := Bytes.length_int32Bytes x
    rw [List.range_succ,List.foldl_append,ih,List.foldl_cons,List.foldl_nil,storeInt32,
      Bytes.overlay,hfront,hback,List.replicate_succ',List.flatten_append,List.flatten_singleton,
      Bytes.overlay,List.drop_drop,List.length_append,hlen4]

/-- The loop leaves a page of one value, whatever was in the buffer. -/
theorem fillPage_eq (x : ℤ) (buffer : List UInt8) :
    fillPage K x buffer = Bytes.overlay (K.page x) buffer :=
  foldl_storeInt32 x buffer K.pageSize

theorem take_fillPage (x : ℤ) (buffer : List UInt8) :
    (fillPage K x buffer).take K.pageLen = K.page x := by
  have h := Bytes.take_overlay (K.page x) buffer
  rwa [Consts.length_page,← fillPage_eq] at h

end FastNet.Simple.Server
