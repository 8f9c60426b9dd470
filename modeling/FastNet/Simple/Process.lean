import FastNet.Foundation.Execution
import FastNet.Foundation.RingKernel
import FastNet.Simple.BufferPool
import FastNet.Simple.Consts

/-! # One program's heap, pool and ring

The parts the client and the server handler share: taking a buffer from the pool
for a new operation, posting a buffer again, giving one back, and the kernel. The
invariant says that every operation has a buffer of its own of the right size and
that the pool owns the others; under it each part is a step on the ring's view.
-/
namespace FastNet.Simple
open Execution

structure Process where
  mem : Heap RequestData
  pool : BufferPool
  ring : Ring

/-- The size a buffer was allocated with, by the event type stored in it. -/
def Consts.bufferFor (K : Consts) : EventType → ℕ
  | .sendEvent => requestBuffer
  | _ => K.pageBuffer

namespace Process

/-- Allocate a buffer, write its contents and header, and queue the operation. -/
def enqueue (P : Process) (size : ℕ) (header : RequestData) (contents : List UInt8 → List UInt8)
    (opcode : Opcode) (len : ℕ) : Except Stop Process := do
  let (req,pool,mem) ← P.pool.allocate P.mem size
  let ring ← P.ring.queue ⟨opcode,req,len⟩
  return ⟨(mem.setBytes req (contents (mem.bytes req))).setHeader req header,pool,ring⟩

/-- Queue an operation on a buffer that is already allocated. -/
def requeue (P : Process) (req : Addr) (header : RequestData) (opcode : Opcode) (len : ℕ) :
    Except Stop Process := do
  let ring ← P.ring.queue ⟨opcode,req,len⟩
  return ⟨P.mem.setHeader req header,P.pool,ring⟩

def release (P : Process) (req : Addr) (size : ℕ) : Except Stop Process := do
  let (pool,mem) ← P.pool.deallocate P.mem req size
  return ⟨mem,pool,P.ring⟩

def submit (P : Process) : Process := { P with ring := P.ring.submit }

/-- Take the first completion off the completion queue. -/
def seen (P : Process) (rest : List Cqe) : Process := { P with ring := { P.ring with cq := rest } }

def setHeader (P : Process) (req : Addr) (header : RequestData) : Process :=
  { P with mem := P.mem.setHeader req header }

def kernel (P : Process) (e : KernelEvent) : Except Stop Process := do
  let (mem,ring) ← P.ring.kernel P.mem e
  return ⟨mem,P.pool,ring⟩

variable (K : Consts) (kind : RequestData → Option Opcode) (rxLen : ℕ)

/-- The buffers of the ring's operations, each with the size it was allocated with. -/
def held (P : Process) : List (Addr × ℕ) :=
  P.ring.addrs.map (fun a => (a,K.bufferFor (P.mem.header a).eventType))

def view (P : Process) : RingView := P.ring.view kind rxLen P.mem

/-- Each operation has its own buffer; `extra` are the buffers the program holds
besides, between reaping a completion and reusing or returning its buffer. -/
structure Inv (extra : List (Addr × ℕ)) (P : Process) : Prop where
  typed : P.ring.Typed kind rxLen P.mem
  owned : BufferPool.Owned P.mem P.pool (extra ++ P.held K)

variable {K kind rxLen} {P P' : Process} {extra : List (Addr × ℕ)}

theorem held_fst (P : Process) : (P.held K).map Prod.fst = P.ring.addrs := by
  simp [held,Function.comp_def]

theorem held_congr {mem : Heap RequestData} (h : P.mem.AgreeOn mem P.ring.addrs) (pool : BufferPool) :
    (⟨mem,pool,P.ring⟩ : Process).held K = P.held K :=
  List.map_congr_left fun a ha => by rw [(h a ha).1]

theorem enqueue_ring {size len : ℕ} {header : RequestData} {contents : List UInt8 → List UInt8}
    {opcode : Opcode} (h : P.enqueue size header contents opcode len = .ok P') :
    ∃ req, P'.ring = { P.ring with sq := P.ring.sq ++ [⟨opcode,req,len⟩] } := by
  obtain ⟨⟨req,pool,mem⟩,-,h⟩ := bind_ok.mp h
  obtain ⟨ring,hqueue,h⟩ := bind_ok.mp h
  cases h
  exact ⟨req,(Ring.queue_ok hqueue).1⟩

/-- Queueing an operation mallocs a buffer at most once. -/
theorem enqueue_supplies {size len n : ℕ} {header : RequestData}
    {contents : List UInt8 → List UInt8} {opcode : Opcode}
    (h : P.enqueue size header contents opcode len = .ok P') (hm : P.mem.Supplies (n + 1)) :
    P'.mem.Supplies n := by
  obtain ⟨⟨req,pool,mem⟩,halloc,h⟩ := bind_ok.mp h
  obtain ⟨ring,-,h⟩ := bind_ok.mp h
  cases h
  have hmem : mem.Supplies n := BufferPool.allocate_supplies halloc hm
  exact hmem

/-- Queueing an operation needs a buffer and a free submission entry. -/
theorem enqueue_error {size len : ℕ} {header : RequestData} {contents : List UInt8 → List UInt8}
    {opcode : Opcode} {why : Stop} (h : P.enqueue size header contents opcode len = .error why) :
    why = .mallocLive ∧ ¬ P.mem.Supplies 1 ∨
      why = .nullSqe ∧ ¬ P.ring.sq.length < P.ring.sqEntries := by
  rcases bind_error.mp h with h | ⟨⟨req,pool,mem⟩,-,h⟩
  · exact Or.inl (BufferPool.allocate_error h)
  · rcases bind_error.mp h with h | ⟨ring,-,h⟩
    · exact Or.inr (Ring.queue_error h)
    · cases h

theorem requeue_error {req : Addr} {header : RequestData} {opcode : Opcode} {len : ℕ} {why : Stop}
    (h : P.requeue req header opcode len = .error why) :
    why = .nullSqe ∧ ¬ P.ring.sq.length < P.ring.sqEntries := by
  rcases bind_error.mp h with h | ⟨ring,-,h⟩
  · exact Ring.queue_error h
  · cases h

theorem release_ring {req : Addr} {size : ℕ} (h : P.release req size = .ok P') :
    P'.ring = P.ring := by
  obtain ⟨⟨pool,mem⟩,-,h⟩ := bind_ok.mp h
  cases h
  rfl

theorem kernel_error {e : KernelEvent} {why : Stop} (h : P.kernel e = .error why) :
    why = .disabled := by
  rcases bind_error.mp h with h | ⟨⟨mem,ring⟩,-,h⟩
  · exact Ring.kernel_error h
  · cases h

section Enqueue
variable {size len : ℕ} {header : RequestData} {contents : List UInt8 → List UInt8}
  {opcode : Opcode} {req : Addr}

/-- The state of the heap and the pool once the new buffer is filled in. -/
theorem Inv.filled (hi : Inv K kind rxLen extra P) {pool : BufferPool} {mem : Heap RequestData}
    (h : P.pool.allocate P.mem size = .ok (req,pool,mem)) (header : RequestData)
    (bs : List UInt8) :
    req ∉ P.ring.addrs ∧
      P.mem.AgreeOn ((mem.setBytes req bs).setHeader req header) P.ring.addrs ∧
      BufferPool.Owned ((mem.setBytes req bs).setHeader req header) pool
        ((req,size) :: (extra ++ P.held K)) := by
  obtain ⟨hown,hagree⟩ := hi.owned.allocate h
  have hnew := hown.head_notMem
  rw [List.map_append,held_fst,List.mem_append,not_or] at hnew
  have hagree' : P.mem.AgreeOn mem P.ring.addrs := hagree.mono fun a ha => by
    rw [List.map_append,held_fst]
    exact List.mem_append_right _ ha
  exact ⟨hnew.2,(hagree'.trans (Heap.agreeOn_setBytes _ _ hnew.2)).trans
    (Heap.agreeOn_setHeader _ _ hnew.2),hown.heap rfl⟩

theorem Inv.held_enqueue (hi : Inv K kind rxLen extra P)
    (hsize : K.bufferFor header.eventType = size)
    (h : P.enqueue size header contents opcode len = .ok P') :
    ∃ req pool mem, P.pool.allocate P.mem size = .ok (req,pool,mem) ∧
      P.ring.sq.length < P.ring.sqEntries ∧
      P' = ⟨(mem.setBytes req (contents (mem.bytes req))).setHeader req header,pool,
        { P.ring with sq := P.ring.sq ++ [⟨opcode,req,len⟩] }⟩ ∧
      (P'.held K).Perm ((req,size) :: P.held K) := by
  obtain ⟨⟨req,pool,mem⟩,halloc,h⟩ := bind_ok.mp h
  obtain ⟨ring,hqueue,h⟩ := bind_ok.mp h
  cases h
  obtain ⟨rfl,hroom⟩ := Ring.queue_ok hqueue
  obtain ⟨hnew,hagree,-⟩ := hi.filled halloc header (contents (mem.bytes req))
  refine ⟨req,pool,mem,halloc,hroom,rfl,(Ring.addrs_queue.map _).trans ?_⟩
  rw [List.map_cons,Heap.setHeader_header_self,hsize]
  have heq := held_congr (K := K) hagree pool
  unfold held at heq
  rw [heq]
  exact List.Perm.refl _

/-- A new send is the last of its direction and carries what was written. -/
theorem Inv.enqueue_send (hi : Inv K kind rxLen extra P)
    (hsize : K.bufferFor header.eventType = size) (hkind : kind header = some .send)
    (h : P.enqueue size header contents .send len = .ok P') :
    Inv K kind rxLen extra P' ∧ P.ring.sq.length < P.ring.sqEntries ∧
      P'.ring.sq.length = P.ring.sq.length + 1 ∧ P'.ring.sqEntries = P.ring.sqEntries ∧
      P'.ring.cq = P.ring.cq ∧
      ∃ old, P'.view kind rxLen = { P.view kind rxLen with
        tx := (P.view kind rxLen).tx ++ [(contents old).take len] } := by
  obtain ⟨req,pool,mem,halloc,hroom,rfl,hheld⟩ := hi.held_enqueue hsize h
  obtain ⟨hnew,hagree,hown⟩ := hi.filled halloc header (contents (mem.bytes req))
  have htyped := hi.typed.congr hagree
  have hk : kind (((mem.setBytes req (contents (mem.bytes req))).setHeader req header).header req) =
      some .send := by rw [Heap.setHeader_header_self,hkind]
  refine ⟨⟨htyped.queue_send rfl hnew hk,?_⟩,hroom,by simp,rfl,rfl,mem.bytes req,?_⟩
  · exact hown.perm ((hheld.append_left extra).trans List.perm_middle)
  · change Ring.view kind rxLen _ { P.ring with sq := P.ring.sq ++ [⟨.send,req,len⟩] } = _
    rw [Ring.view_queue_send rfl,Ring.view_congr hagree]
    simp [view]

theorem Inv.enqueue_recv (hi : Inv K kind rxLen extra P)
    (hsize : K.bufferFor header.eventType = size) (hkind : kind header = some .recv)
    (h : P.enqueue size header contents .recv rxLen = .ok P') :
    Inv K kind rxLen extra P' ∧ P.ring.sq.length < P.ring.sqEntries ∧
      P'.ring.sq.length = P.ring.sq.length + 1 ∧ P'.ring.sqEntries = P.ring.sqEntries ∧
      P'.ring.cq = P.ring.cq ∧
      P'.view kind rxLen = { P.view kind rxLen with rx := (P.view kind rxLen).rx + 1 } := by
  obtain ⟨req,pool,mem,halloc,hroom,rfl,hheld⟩ := hi.held_enqueue hsize h
  obtain ⟨hnew,hagree,hown⟩ := hi.filled halloc header (contents (mem.bytes req))
  have htyped := hi.typed.congr hagree
  have hk : kind (((mem.setBytes req (contents (mem.bytes req))).setHeader req header).header req) =
      some .recv := by rw [Heap.setHeader_header_self,hkind]
  refine ⟨⟨htyped.queue_recv rfl hnew hk rfl,?_⟩,hroom,by simp,rfl,rfl,?_⟩
  · exact hown.perm ((hheld.append_left extra).trans List.perm_middle)
  · change Ring.view kind rxLen _ { P.ring with sq := P.ring.sq ++ [⟨.recv,req,rxLen⟩] } = _
    rw [Ring.view_queue_recv rfl,Ring.view_congr hagree]
    simp [view]

theorem Inv.held_requeue (hi : Inv K kind rxLen [(req,size)] P)
    (hsize : K.bufferFor header.eventType = size) (h : P.requeue req header opcode len = .ok P') :
    req ∉ P.ring.addrs ∧ P.ring.sq.length < P.ring.sqEntries ∧
      P' = ⟨P.mem.setHeader req header,P.pool,
        { P.ring with sq := P.ring.sq ++ [⟨opcode,req,len⟩] }⟩ ∧
      (P'.held K).Perm ((req,size) :: P.held K) := by
  obtain ⟨ring,hqueue,h⟩ := bind_ok.mp h
  cases h
  obtain ⟨rfl,hroom⟩ := Ring.queue_ok hqueue
  have hnew : req ∉ P.ring.addrs := by
    rw [← held_fst (K := K)]
    exact hi.owned.head_notMem
  refine ⟨hnew,hroom,rfl,(Ring.addrs_queue.map _).trans ?_⟩
  rw [List.map_cons,Heap.setHeader_header_self,hsize]
  have heq := held_congr (K := K) (Heap.agreeOn_setHeader P.mem header hnew) P.pool
  unfold held at heq
  rw [heq]
  exact List.Perm.refl _

theorem Inv.requeue_recv (hi : Inv K kind rxLen [(req,size)] P)
    (hsize : K.bufferFor header.eventType = size) (hkind : kind header = some .recv)
    (h : P.requeue req header .recv rxLen = .ok P') :
    Inv K kind rxLen [] P' ∧ P.ring.sq.length < P.ring.sqEntries ∧
      P'.ring.sq.length = P.ring.sq.length + 1 ∧ P'.ring.sqEntries = P.ring.sqEntries ∧
      P'.ring.cq = P.ring.cq ∧
      P'.view kind rxLen = { P.view kind rxLen with rx := (P.view kind rxLen).rx + 1 } := by
  obtain ⟨hnew,hroom,rfl,hheld⟩ := hi.held_requeue hsize h
  have hagree := Heap.agreeOn_setHeader P.mem header hnew
  have htyped := hi.typed.congr hagree
  have hk : kind ((P.mem.setHeader req header).header req) = some .recv := by
    rw [Heap.setHeader_header_self,hkind]
  have hown : BufferPool.Owned (P.mem.setHeader req header) P.pool ((req,size) :: P.held K) :=
    hi.owned.heap rfl
  refine ⟨⟨htyped.queue_recv rfl hnew hk rfl,hown.perm hheld⟩,hroom,by simp,rfl,rfl,?_⟩
  change Ring.view kind rxLen _ { P.ring with sq := P.ring.sq ++ [⟨.recv,req,rxLen⟩] } = _
  rw [Ring.view_queue_recv rfl,Ring.view_congr hagree]
  rfl

end Enqueue

@[simp] theorem held_submit (P : Process) : P.submit.held K = P.held K := by
  simp only [held,submit,Ring.submit_addrs]

theorem Inv.submit (hi : Inv K kind rxLen extra P) :
    Inv K kind rxLen extra P.submit ∧ P.submit.view kind rxLen = P.view kind rxLen := by
  refine ⟨⟨hi.typed.submit,?_⟩,Ring.view_submit⟩
  rw [held_submit]
  exact hi.owned

theorem held_seen {e : Cqe} {rest : List Cqe} (h : P.ring.cq = e :: rest) :
    (P.held K).Perm
      ((e.userData,K.bufferFor (P.mem.header e.userData).eventType) :: (P.seen rest).held K) :=
  (Ring.addrs_reap h).map (fun a => (a,K.bufferFor (P.mem.header a).eventType))

theorem Inv.seen (hi : Inv K kind rxLen [] P) {e : Cqe} {rest : List Cqe}
    (h : P.ring.cq = e :: rest) :
    Inv K kind rxLen [(e.userData,K.bufferFor (P.mem.header e.userData).eventType)] (P.seen rest) ∧
      e.userData ∉ (P.seen rest).ring.addrs ∧
      (P.view kind rxLen).cq = Ring.completion kind rxLen P.mem e ::
        ((P.seen rest).view kind rxLen).cq ∧
      (P.seen rest).view kind rxLen =
        (P.view kind rxLen).setCq ((P.seen rest).view kind rxLen).cq := by
  refine ⟨⟨hi.typed.reap h,?_⟩,hi.typed.reap_notMem h,Ring.view_reap h,rfl⟩
  exact hi.owned.perm (held_seen h).symm

theorem held_setHeader {req : Addr} (hreq : req ∉ P.ring.addrs) (header : RequestData) :
    (P.setHeader req header).held K = P.held K :=
  held_congr (Heap.agreeOn_setHeader P.mem header hreq) P.pool

theorem Inv.setHeader {req : Addr} {size : ℕ} (hi : Inv K kind rxLen [(req,size)] P)
    (hreq : req ∉ P.ring.addrs) (header : RequestData) :
    Inv K kind rxLen [(req,size)] (P.setHeader req header) ∧
      (P.setHeader req header).view kind rxLen = P.view kind rxLen := by
  have hagree := Heap.agreeOn_setHeader P.mem header hreq
  refine ⟨⟨hi.typed.congr hagree,?_⟩,Ring.view_congr hagree⟩
  rw [held_setHeader hreq]
  exact hi.owned.heap rfl

theorem Inv.release_ok {req : Addr} {size : ℕ} (hi : Inv K kind rxLen [(req,size)] P)
    (h : P.release req size = .ok P') :
    P'.ring = P.ring ∧ P.mem.AgreeOn P'.mem P.ring.addrs ∧
      BufferPool.Owned P'.mem P'.pool (P.held K) := by
  obtain ⟨pool,mem,hde,hown,hheader,hbytes⟩ := hi.owned.deallocate
  obtain ⟨⟨pool',mem'⟩,hde',h⟩ := bind_ok.mp h
  cases hde.symm.trans hde'
  cases h
  exact ⟨rfl,fun a _ => by simp [hheader,hbytes],hown⟩

theorem Inv.held_release {req : Addr} {size : ℕ} (hi : Inv K kind rxLen [(req,size)] P)
    (h : P.release req size = .ok P') : P'.held K = P.held K := by
  obtain ⟨hring,hagree,-⟩ := hi.release_ok h
  have heq := held_congr (K := K) hagree P'.pool
  rwa [← hring] at heq

theorem Inv.release {req : Addr} {size : ℕ} (hi : Inv K kind rxLen [(req,size)] P)
    (h : P.release req size = .ok P') :
    Inv K kind rxLen [] P' ∧ P'.ring = P.ring ∧ P'.view kind rxLen = P.view kind rxLen := by
  have hheld := hi.held_release h
  obtain ⟨hring,hagree,hown⟩ := hi.release_ok h
  refine ⟨⟨hring ▸ hi.typed.congr hagree,by rw [hheld]; exact hown⟩,hring,?_⟩
  unfold view
  rw [hring]
  exact Ring.view_congr hagree

/-- Giving back a held buffer with its own size does not fail. -/
theorem Inv.release_error {req : Addr} {size : ℕ} (hi : Inv K kind rxLen [(req,size)] P)
    {why : Stop} : P.release req size ≠ .error why := by
  intro h
  obtain ⟨pool,mem,hde,-⟩ := hi.owned.deallocate
  rcases bind_error.mp h with h | ⟨a,-,h⟩
  · rw [hde] at h
    cases h
  · cases h

/-- The kernel takes no buffer from an operation and gives none to one. -/
theorem Inv.held_kernel (hi : Inv K kind rxLen extra P) {e : KernelEvent}
    (h : P.kernel e = .ok P') : (P'.held K).Perm (P.held K) := by
  obtain ⟨⟨mem,ring⟩,hk,h⟩ := bind_ok.mp h
  cases h
  have hs := Ring.kernel_step hi.typed hk
  simp only [held,hs.header]
  exact hs.addrs.map _

/-- A kernel event is the move of its name, and the program's buffers stay its own. -/
theorem Inv.kernel (hi : Inv K kind rxLen extra P) {e : KernelEvent}
    (h : P.kernel e = .ok P') :
    Inv K kind rxLen extra P' ∧ P'.ring.sq = P.ring.sq ∧
      P'.ring.sqEntries = P.ring.sqEntries ∧
      RingView.Move rxLen (P.view kind rxLen) e (P'.view kind rxLen) := by
  have hheld := hi.held_kernel h
  obtain ⟨⟨mem,ring⟩,hk,h⟩ := bind_ok.mp h
  cases h
  have hs := Ring.kernel_step hi.typed hk
  refine ⟨⟨hs.typed,?_⟩,hs.sq,hs.sqEntries,hs.move⟩
  exact (hi.owned.heap hs.live).perm (List.Perm.append_left _ hheld)

/-- An allocator that never returns an address twice. -/
def countingSupply (n : ℕ) : Block RequestData := ⟨n + 1,⟨(0,0),.readEvent,0⟩,[0,0,0,0]⟩

end Process

end FastNet.Simple
