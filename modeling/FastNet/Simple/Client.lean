import FastNet.Simple.Process

/-! # The client thread

`send_receive_data` as a step function. One event is the part of an iteration up
to the submission, the handling of one completion, the end of the pass over the
completion queue with the two exit tests, or a kernel event. VERIFY is off; the
record of received pages takes the place of the vector that VERIFY fills.
-/
namespace FastNet.Simple.Client
open Execution

/-- The arguments of a thread: its half-open range of requests and its index. -/
structure Job where
  startIndex : ℕ
  endIndex : ℕ
  threadIndex : ℕ
  start_le : startIndex ≤ endIndex

def Job.numRequests (J : Job) : ℕ := J.endIndex - J.startIndex

/-- Where the thread is: at the head of its loop, in the pass over the completion
queue, past the loop, or in `exit(EXIT_FAILURE)`. -/
inductive Phase
  | top
  | reaping
  | returned
  | failed
  deriving DecidableEq, Repr

structure State where
  proc : Process
  phase : Phase
  sendIndex : ℕ
  recvIndex : ℕ
  iterationsReceived : ℕ
  totalReceived : ℕ
  sendReqNum : ℕ
  recvReqNum : ℕ
  recvs : List (List UInt8)
  /-- What `*_total_received` was set to. -/
  stored : Option ℕ

inductive Event
  | iterate
  | reap
  | finish
  | kernel (e : KernelEvent)

variable (K : Consts) (J : Job)

/-- `num_requests * PAGE_SIZE * sizeof(int32_t)` in `size_t`. -/
def totalExpectedReceived : ℕ := J.numRequests * K.pageLen % sizeMod

/-- The test of the outer loop. -/
def loopCondition (sendIndex recvIndex : ℕ) : Prop :=
  sendIndex < J.numRequests ∨ recvIndex < J.numRequests

instance (a b : ℕ) : Decidable (loopCondition J a b) := by unfold loopCondition; infer_instance

/-- The test of the loop that queues sends, in `int` arithmetic. -/
def sendGuard (sendIndex recvIndex : ℕ) : Prop :=
  sendIndex < J.numRequests ∧ (sendIndex : ℤ) - recvIndex < (K.ringSize / 4 : ℕ)

instance (a b : ℕ) : Decidable (sendGuard K J a b) := by unfold sendGuard; infer_instance

/-- The test of the loop that queues receives. -/
def recvGuard (sendIndex recvIndex iterationsReceived : ℕ) : Prop :=
  recvIndex < sendIndex ∧ (recvIndex : ℤ) - iterationsReceived < (K.ringSize / 2 : ℕ)

instance (a b c : ℕ) : Decidable (recvGuard K a b c) := by unfold recvGuard; infer_instance

/-- The exit in the middle of the loop. -/
def breakCondition (totalReceived sendIndex : ℕ) : Prop :=
  totalExpectedReceived K J ≤ totalReceived ∧ J.numRequests ≤ sendIndex

instance (a b : ℕ) : Decidable (breakCondition K J a b) := by
  unfold breakCondition; infer_instance

/-- The four bytes of request `k` of the range. -/
def request (k : ℕ) : List UInt8 := Bytes.int32Bytes ((J.startIndex + k : ℕ) : ℤ)

/-- The body of the loop that queues sends. -/
def queueSend (s : State) : Except Stop State := do
  let proc ← s.proc.enqueue Consts.requestBuffer ⟨(J.threadIndex,s.sendReqNum),.sendEvent,0⟩
    (Bytes.overlay (request J s.sendIndex)) .send sizeofInt32
  if s.sendIndex < intMax then
    return { s with proc := proc, sendIndex := s.sendIndex + 1, sendReqNum := s.sendReqNum + 1 }
  else throw .intOverflow

/-- The body of the loop that queues receives. -/
def queueRecv (s : State) : Except Stop State := do
  let proc ← s.proc.enqueue K.pageBuffer ⟨(J.threadIndex,s.recvReqNum),.recvEvent,0⟩ id .recv
    K.pageLen
  if s.recvIndex < intMax then
    return { s with proc := proc, recvIndex := s.recvIndex + 1, recvReqNum := s.recvReqNum + 1 }
  else throw .intOverflow

/-- The loop that queues sends; `left` counts the requests not yet sent. -/
def sendLoop : ℕ → State → Except Stop State
  | 0, s => .ok s
  | left + 1, s =>
    if sendGuard K J s.sendIndex s.recvIndex then queueSend J s >>= sendLoop left else .ok s

/-- The loop that queues receives; `left` counts the sends without a receive. -/
def recvLoop : ℕ → State → Except Stop State
  | 0, s => .ok s
  | left + 1, s =>
    if recvGuard K s.sendIndex s.recvIndex s.iterationsReceived then
      queueRecv K J s >>= recvLoop left
    else .ok s

/-- From the head of the loop to the call of `io_uring_submit`, which is skipped
when nothing was queued. -/
def iterate (s : State) : Except Stop State := do
  let s1 ← sendLoop K J (J.numRequests - s.sendIndex) s
  let s2 ← recvLoop K J (s1.sendIndex - s1.recvIndex) s1
  if s2.sendIndex - s.sendIndex ≠ 0 ∨ s2.recvIndex - s.recvIndex ≠ 0 then
    return { s2 with proc := s2.proc.submit, phase := .reaping }
  else return { s2 with phase := .reaping }

/-- The body of the pass over the completion queue. -/
def reap (s : State) (e : Cqe) (rest : List Cqe) : Except Stop State :=
  let data := s.proc.mem.header e.userData
  if e.res < 0 then .ok { s with phase := .failed }
  else
    let proc := (s.proc.seen rest).setHeader e.userData (data.setOffset e.res)
    match data.eventType with
    | .recvEvent =>
      if s.iterationsReceived < intMax then do
        let page := (proc.mem.bytes e.userData).take K.pageLen
        let proc ← proc.release e.userData K.pageBuffer
        return { s with
          proc := proc
          totalReceived := (s.totalReceived + e.res.toNat) % sizeMod
          iterationsReceived := s.iterationsReceived + 1
          recvs := s.recvs ++ [page] }
      else .error .intOverflow
    | .sendEvent => do
      let proc ← proc.release e.userData Consts.requestBuffer
      return { s with proc := proc }
    | _ => .ok { s with proc := proc }

/-- Leaving the loop: the total is stored and the ring is torn down. -/
def leave (s : State) : State := { s with phase := .returned, stored := some s.totalReceived }

/-- The test of the outer loop, on entry and after each iteration. -/
def testLoop (s : State) : State :=
  if loopCondition J s.sendIndex s.recvIndex then { s with phase := .top } else leave s

/-- The end of an iteration, once the pass finds the completion queue empty. -/
def finish (s : State) : State :=
  if breakCondition K J s.totalReceived s.sendIndex then leave s else testLoop J s

def step (s : State) : Event → Except Stop State
  | .iterate => if s.phase = .top then iterate K J s else .error .disabled
  | .reap =>
    if s.phase = .reaping then
      match s.proc.ring.cq with
      | [] => .error .disabled
      | e :: rest => reap K s e rest
    else .error .disabled
  | .finish =>
    if s.phase = .reaping ∧ s.proc.ring.cq = [] then .ok (finish K J s) else .error .disabled
  | .kernel e =>
    if s.phase = .top ∨ s.phase = .reaping then do
      let proc ← s.proc.kernel e
      return { s with proc := proc }
    else .error .disabled

/-- The state in which the loop is first tested, over any contents of the heap and
any supply of addresses. -/
def start (header : Addr → RequestData) (bytes : Addr → List UInt8)
    (supply : ℕ → Block RequestData) : Except Stop State := do
  let (pool,mem) ← BufferPool.construct K.bufferSizes bufferPoolInitialPoolSize
    (Heap.fresh header bytes supply)
  return testLoop J
    { proc := ⟨mem,pool,.queueInit K.ringSize⟩
      phase := .top
      sendIndex := 0
      recvIndex := 0
      iterationsReceived := 0
      totalReceived := 0
      sendReqNum := 0
      recvReqNum := 0
      recvs := []
      stored := none }

/-- A state some start of the thread can be in after the events. -/
def Run (es : List Event) (s : State) : Prop :=
  ∃ header bytes supply s0, start K J header bytes supply = .ok s0 ∧
    execute (step K J) s0 es = .ok s

end FastNet.Simple.Client
