import FastNet.GetPage.ClientIou
import FastNet.GetPage.IouUtils

/-! # The io_uring page client on its heap

`client_thread` with its `custom_request`s and its submission queue. The thread of the
kernel that polls the queue takes the entries in order, some time after they are
submitted, and only then are the operations under way. The type of a completed
operation is read through the pointer that comes back with it. No request is deleted.
-/
namespace FastNet.GetPage.ClientIou.OnHeap
open Execution

inductive EventType
  | send
  | receive
  deriving DecidableEq, Repr

def sizeofCustomRequest : ℕ := 4

/-- An entry of the submission queue, with the index of its request or response. -/
inductive Sqe
  | send (userData : Addr) (j : ℕ)
  | recv (userData : Addr) (j : ℕ)
  deriving DecidableEq, Repr

def Sqe.sending : Sqe → Option (Addr × ℕ)
  | .send userData j => some (userData,j)
  | .recv _ _ => none

def Sqe.receiving : Sqe → Option (Addr × ℕ)
  | .send _ _ => none
  | .recv userData j => some (userData,j)

structure State where
  phase : Phase
  i : ℕ
  j : ℕ
  requests : ℕ → GetPageRequest
  responses : ℕ → List UInt8
  heap : Heap EventType
  /-- The entries that the polling thread has not taken, oldest first. -/
  sq : List Sqe
  sends : List (Addr × ℕ)
  sendDone : List Cqe
  receives : List (Addr × ℕ)
  receiveDone : List Cqe
  cq : List Cqe
  stream : List UInt8

inductive Event
  | take
  | client (e : ClientIou.Event)

def completion (m : Heap EventType) (c : Cqe) : Completion :=
  match m.header c.userData with
  | .send => .send c.res
  | .receive => .receive c.res

/-- The state without the pointers; an operation is submitted when its entry is. -/
def State.view (s : State) : ClientIou.State where
  phase := s.phase
  i := s.i
  j := s.j
  requests := s.requests
  responses := s.responses
  sends := (s.sends ++ s.sq.filterMap Sqe.sending).map Prod.snd
  sendDone := s.sendDone.map Cqe.res
  receives := (s.receives ++ s.sq.filterMap Sqe.receiving).map Prod.snd
  receiveDone := s.receiveDone.map Cqe.res
  cq := s.cq.map (completion s.heap)
  stream := s.stream

variable (pageCount : ℕ) (J : Job)

/-- An entry of the ring with a `new custom_request{eventType}`. -/
def enqueue (s : State) (eventType : EventType) (entry : Addr → Sqe) : Except Fault State := do
  getSqe s.sq.length
  let (req,m) ← malloc s.heap sizeofCustomRequest
  .ok { s with heap := m.setHeader req eventType, sq := s.sq ++ [entry req] }

/-- The body of the loop of `send_requests`. -/
def sendRequest (s : State) (j : ℕ) : Except Fault State :=
  if pageCount = 0 then .error (.stop .divisionByZero)
  else
    let request := GetPageRequest.mk (UInt32.ofNat j) (UInt32.ofNat (j % pageCount))
    enqueue { s with requests := Function.update s.requests j request.toNetworkOrder } .send
      (Sqe.send · j)

def sendRequests (s : State) (start stop : ℕ) : Except Fault State :=
  (List.range' start (stop - start)).foldlM (sendRequest pageCount) s

/-- The first loop of `receive_responses`. -/
def postReceives (s : State) (start stop : ℕ) : Except Fault State :=
  (List.range' start (stop - start)).foldlM (fun s j => enqueue s .receive (Sqe.recv · j)) s

/-- One pass of the second loop of `receive_responses`; a send takes the count back
before it is raised. -/
def consume (s : State) (c : Cqe) (rest : List Cqe) : Except Fault State := do
  let eventType ← access s.heap c.userData
  let j := if eventType = .send then (s.j + (sizeMod - 1)) % sizeMod else s.j
  if c.res < 0 then .ok { s with phase := .failed }
  else .ok { s with cq := rest, j := (j + 1) % sizeMod }

/-- The test of the loop over batches. -/
def testBatch (s : State) (i : ℕ) : State :=
  { s with i := i, phase := if i < J.stop then .sending else .done }

/-- The kernel works while the thread is in its loop. -/
def Active (s : State) : Prop := s.phase = .sending ∨ s.phase = .waiting

instance (s : State) : Decidable (Active s) := by unfold Active; infer_instance

def clientStep (s : State) : ClientIou.Event → Except Fault State
  | .batch =>
    if s.phase = .sending then do
      let s1 ← sendRequests pageCount s s.i (batchEnd J s.i)
      let s2 ← postReceives s1 s.i (batchEnd J s.i)
      .ok { s2 with phase := .waiting, j := 0 }
    else .error (.stop .disabled)
  | .reap =>
    if s.phase = .waiting ∧ s.j < batchEnd J s.i - s.i then
      match s.cq with
      | [] => .error (.stop .disabled)
      | c :: rest => consume s c rest
    else .error (.stop .disabled)
  | .next =>
    if s.phase = .waiting ∧ ¬ s.j < batchEnd J s.i - s.i then
      .ok (testBatch J s ((s.i + batchSize) % sizeMod))
    else .error (.stop .disabled)
  | .send res =>
    match s.sends with
    | [] => .error (.stop .disabled)
    | (req,_) :: rest =>
      if Active s then .ok { s with sends := rest, sendDone := s.sendDone ++ [⟨req,res⟩] }
      else .error (.stop .disabled)
  | .postSend i =>
    match s.sendDone[i]? with
    | none => .error (.stop .disabled)
    | some c =>
      if Active s then .ok { s with sendDone := s.sendDone.eraseIdx i, cq := s.cq ++ [c] }
      else .error (.stop .disabled)
  | .receive r =>
    match s.receives with
    | [] => .error (.stop .disabled)
    | (req,k) :: rest =>
      match r with
      | .bytes bs =>
        if Active s ∧ bs.length ≤ sizeofResponse ∧ bs <+: s.stream then
          .ok { s with
            receives := rest
            receiveDone := s.receiveDone ++ [⟨req,bs.length⟩]
            responses := Function.update s.responses k (Bytes.overlay bs (s.responses k))
            stream := s.stream.drop bs.length }
        else .error (.stop .disabled)
      | .failed =>
        if Active s then .ok { s with receives := rest, receiveDone := s.receiveDone ++ [⟨req,-1⟩] }
        else .error (.stop .disabled)
  | .postReceive i =>
    match s.receiveDone[i]? with
    | none => .error (.stop .disabled)
    | some c =>
      if Active s then .ok { s with receiveDone := s.receiveDone.eraseIdx i, cq := s.cq ++ [c] }
      else .error (.stop .disabled)

def step (s : State) : Event → Except Fault State
  | .take =>
    match s.sq with
    | [] => .error (.stop .disabled)
    | .send req j :: rest => .ok { s with sq := rest, sends := s.sends ++ [(req,j)] }
    | .recv req j :: rest => .ok { s with sq := rest, receives := s.receives ++ [(req,j)] }
  | .client e => clientStep pageCount J s e

/-- The head of the loop over batches; the heap is what the thread has of it. -/
def start (m : Heap EventType) (stream : List UInt8) : State :=
  testBatch J
    { phase := .sending
      i := J.start
      j := 0
      requests := fun _ => ⟨0,0⟩
      responses := fun _ => GetPageResponse.zero.bytes
      heap := m
      sq := []
      sends := []
      sendDone := []
      receives := []
      receiveDone := []
      cq := []
      stream := stream } J.start

def run (m : Heap EventType) (stream : List UInt8) (es : List Event) : Except Fault State :=
  execute (step pageCount J) (start J m stream) es

end FastNet.GetPage.ClientIou.OnHeap
