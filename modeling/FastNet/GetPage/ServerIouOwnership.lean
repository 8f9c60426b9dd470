import FastNet.Foundation.RingKernel
import FastNet.GetPage.ServerIouHeap

/-! # Who owns the blocks of the io_uring page server

Each operation in flight owns its request, and a read also the buffer that its
request points to. These are all the live blocks, so no access and no `free` of the
loop goes wrong, and 64 reads are in flight at any time. As each write is submitted
with a read behind it, the submission queue holds at most two entries for a read.
-/
namespace FastNet.GetPage.ServerIou.OnHeap
open Execution

/-- What a request owns. -/
def blocks (h : CustomRequest) (req : Addr) : List (Addr × ℕ) :=
  (req,sizeofCustomRequest) ::
    match h.eventType with
    | .read => [(h.iovBase,sizeofRequest)]
    | .write => []

/-- The vector of a read is its buffer, that of a write is empty. -/
def CustomRequest.Formed (h : CustomRequest) : Prop :=
  match h.eventType with
  | .read => h.iovLen = sizeofRequest
  | .write => h.iovBase = nullptr

theorem CustomRequest.Formed.iovLen {h : CustomRequest} (hf : h.Formed)
    (hr : h.eventType = .read) : h.iovLen = sizeofRequest := by
  simpa [Formed,hr] using hf

theorem CustomRequest.Formed.iovBase {h : CustomRequest} (hf : h.Formed)
    (hw : h.eventType = .write) : h.iovBase = nullptr := by
  simpa [Formed,hw] using hf

section Custody

/-- The live blocks are those of the requests and the ones in hand. -/
structure Custody (m : Heap CustomRequest) (reqs : List Addr) (hand : List (Addr × ℕ)) :
    Prop where
  covers : m.Covers (hand ++ Heap.owned blocks m reqs)
  formed : ∀ a ∈ reqs, (m.header a).Formed

/-- What the requests and their buffers hold is unchanged. -/
def Kept (m m' : Heap CustomRequest) (reqs : List Addr) : Prop :=
  m.AgreeOn m' ((Heap.owned blocks m reqs).map Prod.fst)

variable {m m' m'' : Heap CustomRequest} {reqs : List Addr} {hand : List (Addr × ℕ)} {a : Addr}
  {size : ℕ} {h : CustomRequest}

theorem request_mem (ha : a ∈ reqs) : a ∈ (Heap.owned blocks m reqs).map Prod.fst :=
  List.mem_map.mpr ⟨(a,sizeofCustomRequest),Heap.mem_owned ha (by simp [blocks]),rfl⟩

theorem buffer_mem (ha : a ∈ reqs) (hr : (m.header a).eventType = .read) :
    (m.header a).iovBase ∈ (Heap.owned blocks m reqs).map Prod.fst :=
  List.mem_map.mpr ⟨((m.header a).iovBase,sizeofRequest),
    Heap.mem_owned ha (by simp [blocks,hr]),rfl⟩

theorem Kept.header (hk : Kept m m' reqs) (ha : a ∈ reqs) : m'.header a = m.header a :=
  (hk a (request_mem ha)).1

theorem Kept.buffer (hk : Kept m m' reqs) (ha : a ∈ reqs)
    (hr : (m.header a).eventType = .read) : buffer m' a = buffer m a := by
  unfold OnHeap.buffer
  rw [hk.header ha]
  exact (hk _ (buffer_mem ha hr)).2

theorem Kept.trans (hk : Kept m m' reqs) (hk' : Kept m' m'' reqs) : Kept m m'' reqs := by
  refine Heap.AgreeOn.trans hk ?_
  unfold Kept at hk'
  rwa [Heap.owned_congr fun a ha => hk.header ha] at hk'

theorem Kept.of_eq (hh : m'.header = m.header) (hb : m'.bytes = m.bytes) : Kept m m' reqs := by
  intro b _
  rw [hh,hb]
  exact ⟨rfl,rfl⟩

theorem Custody.perm {reqs' : List Addr} (hc : Custody m reqs hand) (hp : reqs.Perm reqs') :
    Custody m reqs' hand :=
  ⟨hc.covers.perm ((Heap.owned_perm hp).append_left hand),
    fun a ha => hc.formed a (hp.mem_iff.mpr ha)⟩

theorem Custody.perm_hand {hand' : List (Addr × ℕ)} (hc : Custody m reqs hand)
    (hp : hand.Perm hand') : Custody m reqs hand' :=
  ⟨hc.covers.perm (hp.append_right _),hc.formed⟩

theorem Custody.live (hc : Custody m reqs hand) (ha : a ∈ reqs) :
    a ∈ m.live.map Prod.fst :=
  hc.covers.live (by
    rw [List.map_append]
    exact List.mem_append_right _ (request_mem ha))

theorem Custody.live_buffer (hc : Custody m reqs hand) (ha : a ∈ reqs)
    (hr : (m.header a).eventType = .read) : (m.header a).iovBase ∈ m.live.map Prod.fst :=
  hc.covers.live (by
    rw [List.map_append]
    exact List.mem_append_right _ (buffer_mem ha hr))

/-- A request in hand changes its contents and no other's. -/
theorem Custody.setHeader (hc : Custody m reqs hand) (ha : a ∈ hand.map Prod.fst)
    (h : CustomRequest) : Custody (m.setHeader a h) reqs hand ∧ Kept m (m.setHeader a h) reqs := by
  have hnot := hc.covers.notMem ha
  have hkept : Kept m (m.setHeader a h) reqs := Heap.agreeOn_setHeader m h hnot
  refine ⟨⟨?_,?_⟩,hkept⟩
  · rw [Heap.owned_congr fun b hb => hkept.header hb]
    exact hc.covers
  · intro b hb
    rw [hkept.header hb]
    exact hc.formed b hb

/-- Blocks in hand become those of a request. -/
theorem Custody.adopt (hc : Custody m reqs (blocks h a ++ hand)) (hh : m.header a = h)
    (hf : h.Formed) : Custody m (a :: reqs) hand := by
  constructor
  · rw [Heap.owned_cons,hh]
    refine hc.covers.perm ?_
    rw [← List.append_assoc]
    exact List.perm_append_comm.append_right _
  · intro b hb
    rcases List.mem_cons.mp hb with rfl | hb
    · rw [hh]
      exact hf
    · exact hc.formed b hb

/-- The blocks of a request are taken in hand. -/
theorem Custody.release (hc : Custody m (a :: reqs) hand) :
    Custody m reqs (blocks (m.header a) a ++ hand) := by
  refine ⟨?_,fun b hb => hc.formed b (List.mem_cons_of_mem _ hb)⟩
  refine hc.covers.perm ?_
  rw [Heap.owned_cons,← List.append_assoc]
  exact List.perm_append_comm.append_right _

variable (size) in
theorem Custody.malloc (hc : Custody m reqs hand) :
    malloc m size = .error (.stop .mallocLive) ∨
      ∃ a m', malloc m size = .ok (a,m') ∧ Custody m' reqs ((a,size) :: hand) ∧
        Kept m m' reqs ∧ m'.bytes a = (m.supply m.mallocs).bytes ∧ m'.supply = m.supply ∧
        m'.mallocs = m.mallocs + 1 ∧ ∀ b ∈ hand.map Prod.fst, m'.header b = m.header b := by
  rcases malloc_cases hc.covers size with herr | ⟨a,m',hok,hcovers,hagree,hcontents⟩
  · exact Or.inl herr
  · rw [List.map_append] at hagree
    have hkept : Kept m m' reqs := hagree.mono fun b hb => List.mem_append_right _ hb
    obtain ⟨hbytes,hsupply,hmallocs⟩ := hcontents
    refine Or.inr ⟨a,m',hok,⟨?_,?_⟩,hkept,hbytes,hsupply,hmallocs,?_⟩
    · rw [Heap.owned_congr fun b hb => hkept.header hb]
      exact hcovers
    · intro b hb
      rw [hkept.header hb]
      exact hc.formed b hb
    · intro b hb
      exact (hagree b (List.mem_append_left _ hb)).1

theorem Custody.free (hc : Custody m reqs ((a,size) :: hand)) :
    ∃ m', free m a = .ok m' ∧ Custody m' reqs hand ∧ m'.header = m.header ∧
      m'.bytes = m.bytes ∧ m'.supply = m.supply ∧ m'.mallocs = m.mallocs := by
  have hne : a ≠ nullptr := hc.covers.ne_nullptr (by simp)
  obtain ⟨m',hfree,hcovers,hheader,hbytes,hsupply,hmallocs⟩ := hc.covers.free
  refine ⟨m',?_,⟨?_,?_⟩,hheader,hbytes,hsupply,hmallocs⟩
  · rw [OnHeap.free,if_neg hne,hfree]
    rfl
  · rw [Heap.owned_congr fun b _ => congrFun hheader b]
    exact hcovers
  · intro b hb
    rw [hheader]
    exact hc.formed b hb

end Custody

section Adding
variable {s : State} {reqs : List Addr} {hand : List (Addr × ℕ)}

theorem Custody.newRequest {m : Heap CustomRequest} (hc : Custody m reqs hand)
    (eventType : EventType) :
    newRequest m eventType = .error (.stop .mallocLive) ∨
      ∃ req m', newRequest m eventType = .ok (req,m') ∧
        Custody m' reqs ((req,sizeofCustomRequest) :: hand) ∧ Kept m m' reqs ∧
        m'.supply = m.supply ∧ m'.mallocs = m.mallocs + 1 := by
  unfold OnHeap.newRequest
  rcases hc.malloc sizeofCustomRequest with
    herr | ⟨req,m',hok,hc',hkept,-,hsupply,hmallocs,-⟩
  · rw [herr]
    exact Or.inl rfl
  · rw [hok]
    obtain ⟨hc'',hkept'⟩ := hc'.setHeader (a := req) (by simp) ⟨eventType,nullptr,0⟩
    exact Or.inr ⟨req,_,rfl,hc'',hkept.trans hkept',hsupply,hmallocs⟩

/-- A write gets a request of its own. -/
theorem addWriteRequest_cases (hc : Custody s.heap reqs hand)
    (hroom : s.sq.length < ioUringQueueDepth) (iovCount : ℕ) :
    addWriteRequest s iovCount = .error (.stop .mallocLive) ∨
      ∃ req m, addWriteRequest s iovCount = .ok { s with
          heap := m
          sq := s.sq ++ [.writev req iovCount]
          headers := s.headers ++ [s.response.header] } ∧
        Custody m (req :: reqs) hand ∧ Kept s.heap m reqs ∧
        (m.header req).eventType = .write ∧ m.supply = s.heap.supply ∧
        m.mallocs = s.heap.mallocs + 1 := by
  unfold addWriteRequest
  rw [getSqe_ok hroom]
  rcases hc.newRequest .write with herr | ⟨req,m,hok,hc',hkept,hsupply,hmallocs⟩
  · rw [herr]
    exact Or.inl rfl
  · rw [hok]
    obtain ⟨hc'',hkept'⟩ := hc'.setHeader (a := req) (by simp) ⟨.write,nullptr,0⟩
    have hself := Heap.setHeader_header_self m req ⟨.write,nullptr,0⟩
    refine Or.inr ⟨req,_,rfl,?_,hkept.trans hkept',?_,hsupply,hmallocs⟩
    · exact Custody.adopt (h := ⟨.write,nullptr,0⟩) hc'' hself rfl
    · rw [hself]

/-- A read gets a request and a buffer of its own. -/
theorem addReadRequest_cases (hc : Custody s.heap reqs hand)
    (hroom : s.sq.length < ioUringQueueDepth) :
    addReadRequest s = .error (.stop .mallocLive) ∨
      ∃ req m, addReadRequest s = .ok { s with heap := m, sq := s.sq ++ [.readv req] } ∧
        Custody m (req :: reqs) hand ∧ Kept s.heap m reqs ∧
        (m.header req).eventType = .read ∧
        buffer m req = (s.heap.supply (s.heap.mallocs + 1)).bytes ∧
        m.supply = s.heap.supply ∧ m.mallocs = s.heap.mallocs + 2 := by
  unfold addReadRequest
  rw [getSqe_ok hroom]
  rcases hc.newRequest .read with herr | ⟨req,m1,hok,hc1,hkept1,hsupply1,hmallocs1⟩
  · rw [herr]
    exact Or.inl rfl
  · rw [hok]
    rcases hc1.malloc sizeofRequest with
      herr | ⟨base,m2,hok2,hc2,hkept2,hbytes,hsupply2,hmallocs2,-⟩
    · refine Or.inl ?_
      change GetPage.malloc m1 sizeofRequest >>= _ = _
      rw [herr]
      rfl
    · obtain ⟨hc3,hkept3⟩ := hc2.setHeader (a := req) (by simp) ⟨.read,base,sizeofRequest⟩
      have hself := Heap.setHeader_header_self m2 req ⟨.read,base,sizeofRequest⟩
      refine Or.inr ⟨req,_,?_,?_,(hkept1.trans hkept2).trans hkept3,?_,?_,?_,?_⟩
      · change GetPage.malloc m1 sizeofRequest >>= _ = _
        rw [hok2]
        rfl
      · refine Custody.adopt (h := ⟨.read,base,sizeofRequest⟩) ?_ hself rfl
        exact hc3.perm_hand (List.Perm.swap ..)
      · rw [hself]
      · rw [buffer,hself,Heap.setHeader_bytes,hbytes,hsupply1,hmallocs1]
      · exact hsupply2.trans hsupply1
      · change m2.mallocs = _
        rw [hmallocs2,hmallocs1]

end Adding

section Queue

/-- Each write has a read behind it. -/
def Paired : List Sqe → Prop
  | [] => True
  | .readv _ :: rest => Paired rest
  | .writev _ _ :: .readv _ :: rest => Paired rest
  | [.writev _ _] => False
  | .writev _ _ :: .writev _ _ :: _ => False

theorem Paired.tail {q : Sqe} {l : List Sqe} (h : Paired (q :: l)) : Paired l := by
  match q, l, h with
  | .readv _, _, h => exact h
  | .writev _ _, .readv _ :: _, h => exact h

theorem Paired.append {l : List Sqe} (h : Paired l) (a b : Addr) (n : ℕ) :
    Paired (l ++ [.writev a n,.readv b]) := by
  match l, h with
  | [], _ => exact trivial
  | .readv _ :: rest, h => exact Paired.append (l := rest) h a b n
  | .writev _ _ :: .readv _ :: rest, h => exact Paired.append (l := rest) h a b n

theorem Paired.length_le {l : List Sqe} (h : Paired l) :
    l.length ≤ 2 * (l.filterMap Sqe.read).length := by
  match l, h with
  | [], _ => exact Nat.zero_le _
  | .readv _ :: rest, h =>
    have hle := Paired.length_le (l := rest) h
    simp only [List.filterMap_cons,Sqe.read,List.length_cons] at hle ⊢
    omega
  | .writev _ _ :: .readv _ :: rest, h =>
    have hle := Paired.length_le (l := rest) h
    simp only [List.filterMap_cons,Sqe.read,List.length_cons] at hle ⊢
    omega

end Queue

section Invariant

/-- The requests of the reads without a completion in the queue, and of the writes. -/
def State.readers (s : State) : List Addr :=
  s.sq.filterMap Sqe.read ++ s.reads ++ s.readDone.map Cqe.userData

def State.writers (s : State) : List Addr :=
  (s.sq.filterMap Sqe.write).map Prod.fst ++ s.writes.map Prod.fst ++ s.writeDone.map Cqe.userData

/-- The requests of the operations in flight: those without a completion that is seen. -/
def State.inFlight (s : State) : List Addr :=
  s.readers ++ s.writers ++ s.cq.map Cqe.userData

def isRead (m : Heap CustomRequest) (req : Addr) : Bool := (m.header req).eventType = .read

structure Inv (s : State) : Prop where
  custody : Custody s.heap s.inFlight []
  readers : ∀ a ∈ s.readers, isRead s.heap a = true
  writers : ∀ a ∈ s.writers, isRead s.heap a = false
  count : s.inFlight.countP (isRead s.heap) = initialReads
  paired : Paired s.sq

variable {s t : State}

theorem countP_of_forall {p : Addr → Bool} {l : List Addr} (h : ∀ a ∈ l, p a = true) :
    l.countP p = l.length := List.countP_eq_length.mpr h

/-- The queue holds at most two entries for each read that has no completion. -/
theorem Inv.room (hs : Inv s) :
    s.sq.length + 2 * (s.cq.map Cqe.userData).countP (isRead s.heap) ≤ 2 * initialReads := by
  have hcount := hs.count
  have hlen := hs.paired.length_le
  unfold State.inFlight at hcount
  rw [List.countP_append,List.countP_append,countP_of_forall hs.readers] at hcount
  unfold State.readers at hcount
  rw [List.length_append,List.length_append] at hcount
  omega

/-- A step of the kernel moves operations and leaves the requests as they are. -/
theorem Inv.move (hs : Inv s) (hheader : t.heap.header = s.heap.header)
    (hlive : t.heap.live = s.heap.live) (hp : s.inFlight.Perm t.inFlight)
    (hr : ∀ a ∈ t.readers, a ∈ s.readers) (hw : ∀ a ∈ t.writers, a ∈ s.writers)
    (hq : Paired t.sq) : Inv t := by
  have hread : isRead t.heap = isRead s.heap := by
    funext a
    unfold isRead
    rw [hheader]
  constructor
  · have hc := hs.custody.perm hp
    constructor
    · rw [Heap.owned_congr fun a _ => congrFun hheader a]
      unfold Heap.Covers
      rw [hlive]
      exact hc.covers
    · intro a ha
      rw [hheader]
      exact hc.formed a ha
  · intro a ha
    rw [hread]
    exact hs.readers a (hr a ha)
  · intro a ha
    rw [hread]
    exact hs.writers a (hw a ha)
  · rw [hread,← hp.countP_eq]
    exact hs.count
  · exact hq

/-- The kernel moves operations without a completion in the queue. -/
theorem Inv.stay (hs : Inv s) (hheader : t.heap.header = s.heap.header)
    (hlive : t.heap.live = s.heap.live) (hr : s.readers.Perm t.readers)
    (hw : s.writers.Perm t.writers) (hcq : t.cq = s.cq) (hq : Paired t.sq) : Inv t := by
  refine hs.move hheader hlive ?_ (fun a ha => hr.mem_iff.mpr ha) (fun a ha => hw.mem_iff.mpr ha) hq
  unfold State.inFlight
  rw [hcq]
  exact (hr.append hw).append_right _

/-- The kernel posts the completion of a read or of a write. -/
theorem Inv.post (hs : Inv s) {c : Cqe} (hheap : t.heap = s.heap) (hsq : t.sq = s.sq)
    (hcq : t.cq = s.cq ++ [c])
    (hp : s.readers.Perm (c.userData :: t.readers) ∧ s.writers = t.writers ∨
      s.readers = t.readers ∧ s.writers.Perm (c.userData :: t.writers)) : Inv t := by
  have hr : ∀ a ∈ t.readers, a ∈ s.readers := by
    intro a ha
    rcases hp with ⟨hperm,-⟩ | ⟨heq,-⟩
    · exact hperm.mem_iff.mpr (List.mem_cons_of_mem _ ha)
    · rwa [heq]
  have hw : ∀ a ∈ t.writers, a ∈ s.writers := by
    intro a ha
    rcases hp with ⟨-,heq⟩ | ⟨-,hperm⟩
    · rwa [heq]
    · exact hperm.mem_iff.mpr (List.mem_cons_of_mem _ ha)
  refine hs.move (by rw [hheap]) (by rw [hheap]) ?_ hr hw (by rw [hsq]; exact hs.paired)
  have hboth : (s.readers ++ s.writers).Perm (c.userData :: (t.readers ++ t.writers)) := by
    rcases hp with ⟨hperm,heq⟩ | ⟨heq,hperm⟩
    · rw [heq]
      exact hperm.append_right _
    · rw [heq]
      exact (hperm.append_left _).trans List.perm_middle
  unfold State.inFlight
  rw [hcq,List.map_append,← List.append_assoc]
  have hseen : (s.readers ++ s.writers ++ s.cq.map Cqe.userData).Perm
      (c.userData :: (t.readers ++ t.writers ++ s.cq.map Cqe.userData)) := hboth.append_right _
  exact hseen.trans (List.perm_append_singleton _ _).symm

end Invariant

section Steps
variable (memoryBlock : MemoryBlock) (pageCount : ℕ)

/-- The requests of the operations in flight but for the completion that is seen. -/
def State.others (s : State) (rest : List Cqe) : List Addr :=
  s.readers ++ s.writers ++ rest.map Cqe.userData

/-- The state after a request was answered, with the new operations. -/
def answered (s : State) (rest : List Cqe) (request : GetPageRequest) (w r : Addr)
    (m : Heap CustomRequest) : State :=
  let s := setVariables pageCount { s with requests := s.requests ++ [request] } request
  { s with
    heap := m
    sq := s.sq ++ [.writev w (iovCountOf pageCount request),.readv r]
    headers := s.headers ++ [s.response.header]
    cq := rest }

/-- What the steps do. -/
inductive Step (s : State) : Event → State → Prop
  | takeRead {req : Addr} {rest : List Sqe} (hsq : s.sq = .readv req :: rest) :
    Step s .take { s with sq := rest, reads := s.reads ++ [req] }
  | takeWrite {req : Addr} {iovCount : ℕ} {rest : List Sqe}
    (hsq : s.sq = .writev req iovCount :: rest) :
    Step s .take { s with sq := rest, writes := s.writes ++ [(req,iovCount)] }
  | read {i : ℕ} {r : ReadResult} {req : Addr} (hi : s.reads[i]? = some req)
    (hlen : r.content.length ≤ sizeofRequest) :
    Step s (.read i r) { s with
      heap := s.heap.setBytes (s.heap.header req).iovBase
        (Bytes.overlay r.content (buffer s.heap req))
      reads := s.reads.eraseIdx i
      readDone := s.readDone ++ [⟨req,r.result⟩] }
  | postRead {i : ℕ} {c : Cqe} (hi : s.readDone[i]? = some c) :
    Step s (.postRead i) { s with readDone := s.readDone.eraseIdx i, cq := s.cq ++ [c] }
  | write {i : ℕ} {r : WriteResult} {req : Addr} {iovCount : ℕ} {bytes : List UInt8} {res : ℤ}
    (hi : s.writes[i]? = some (req,iovCount))
    (ht : r.transfer (gatherAll memoryBlock s.view iovCount) = some (bytes,res)) :
    Step s (.write i r) { s with
      writes := s.writes.eraseIdx i
      writeDone := s.writeDone ++ [⟨req,res⟩]
      sent := s.sent ++ bytes
      executed := s.executed + 1 }
  | postWrite {i : ℕ} {c : Cqe} (hi : s.writeDone[i]? = some c) :
    Step s (.postWrite i) { s with writeDone := s.writeDone.eraseIdx i, cq := s.cq ++ [c] }
  | close {c : Cqe} {rest : List Cqe} (hopen : s.closed = false) (hcq : s.cq = c :: rest)
    (hread : (s.heap.header c.userData).eventType = .read) (hres : c.res = 0) :
    Step s .serve { s with closed := true }
  | answer {c : Cqe} {rest : List Cqe} {w r : Addr} {m : Heap CustomRequest}
    (hopen : s.closed = false) (hcq : s.cq = c :: rest)
    (hread : (s.heap.header c.userData).eventType = .read) (hres : c.res ≠ 0)
    (hcustody : Custody m (r :: w :: s.others rest) []) (hkept : Kept s.heap m (s.others rest))
    (hw : (m.header w).eventType = .write) (hr : (m.header r).eventType = .read)
    (hbuffer : buffer m r = (s.heap.supply (s.heap.mallocs + 2)).bytes)
    (hsupply : m.supply = s.heap.supply) (hmallocs : m.mallocs = s.heap.mallocs + 3) :
    Step s .serve (answered pageCount s rest
      (GetPageRequest.ofBytes (buffer s.heap c.userData)).toHostOrder w r m)
  | drop {c : Cqe} {rest : List Cqe} {m : Heap CustomRequest}
    (hopen : s.closed = false) (hcq : s.cq = c :: rest)
    (hwrite : (s.heap.header c.userData).eventType = .write)
    (hcustody : Custody m (s.others rest) []) (hheader : m.header = s.heap.header)
    (hbytes : m.bytes = s.heap.bytes) (hsupply : m.supply = s.heap.supply)
    (hmallocs : m.mallocs = s.heap.mallocs) :
    Step s .serve { s with heap := m, cq := rest }

/-- What comes of a step. -/
def Outcome (s : State) (e : Event) : Except Fault State → Prop
  | .ok t => Step memoryBlock pageCount s e t
  | .error why => why.Harmless

variable {memoryBlock pageCount} {s t : State}

theorem setVariables_frame (s : State) (q : GetPageRequest) :
    (setVariables pageCount s q).heap = s.heap ∧ (setVariables pageCount s q).sq = s.sq := by
  unfold setVariables
  split <;> exact ⟨rfl,rfl⟩

theorem Inv.seen (hs : Inv s) {c : Cqe} {rest : List Cqe} (hcq : s.cq = c :: rest) :
    Custody s.heap (c.userData :: s.others rest) [] := by
  refine hs.custody.perm ?_
  unfold State.inFlight State.others
  rw [hcq,List.map_cons]
  exact List.perm_middle

/-- The completed read gives up its blocks and a write and a read get theirs. -/
theorem exchange_cases {reqs : List Addr} {c : Cqe} (rest : List Cqe) {base : Addr}
    (hc : Custody s.heap reqs [(base,sizeofRequest),(c.userData,sizeofCustomRequest)])
    (hroom : s.sq.length + 1 < ioUringQueueDepth) (iovCount : ℕ) :
    exchange s c rest base iovCount = .error (.stop .mallocLive) ∨
      ∃ w r m, exchange s c rest base iovCount = .ok { s with
          heap := m
          sq := s.sq ++ [.writev w iovCount,.readv r]
          headers := s.headers ++ [s.response.header]
          cq := rest } ∧
        Custody m (r :: w :: reqs) [] ∧ Kept s.heap m reqs ∧
        (m.header w).eventType = .write ∧ (m.header r).eventType = .read ∧
        buffer m r = (s.heap.supply (s.heap.mallocs + 2)).bytes ∧
        m.supply = s.heap.supply ∧ m.mallocs = s.heap.mallocs + 3 := by
  unfold exchange
  rcases addWriteRequest_cases hc (by omega) iovCount with
    herr | ⟨w,m1,hok,hc1,hkept1,hw,hsupply1,hmallocs1⟩
  · rw [herr]
    exact Or.inl rfl
  obtain ⟨m2,hfree2,hc2,hheader2,hbytes2,hsupply2,hmallocs2⟩ := hc1.free
  let s2 : State := { s with
    heap := m2
    sq := s.sq ++ [.writev w iovCount]
    headers := s.headers ++ [s.response.header] }
  have hroom2 : s2.sq.length < ioUringQueueDepth := by
    change (s.sq ++ [_]).length < _
    rwa [List.length_append]
  rw [hok]
  dsimp only [bind,Except.bind]
  rw [hfree2]
  dsimp only
  rcases addReadRequest_cases (s := s2) hc2 hroom2 with
    herr | ⟨r,m3,hok3,hc3,hkept3,hr,hbuffer,hsupply3,hmallocs3⟩
  · rw [herr]
    exact Or.inl rfl
  obtain ⟨m4,hfree4,hc4,hheader4,hbytes4,hsupply4,hmallocs4⟩ := hc3.free
  rw [hok3]
  dsimp only
  rw [hfree4]
  have hkept2 : Kept m1 m3 (w :: reqs) := (Kept.of_eq hheader2 hbytes2).trans hkept3
  have hkept : Kept m1 m3 reqs := hkept2.mono fun b hb => by
    rw [Heap.owned_cons,List.map_append]
    exact List.mem_append_right _ hb
  have hsq : s2.sq ++ [.readv r] = s.sq ++ [.writev w iovCount,.readv r] := by simp [s2]
  refine Or.inr ⟨w,r,m4,?_,hc4,(hkept1.trans hkept).trans (Kept.of_eq hheader4 hbytes4),
    ?_,?_,?_,?_,?_⟩
  · rw [← hsq]
  · rw [hheader4,hkept2.header (by simp)]
    exact hw
  · rw [hheader4]
    exact hr
  · have hb : buffer m4 r = buffer m3 r := by
      unfold buffer
      rw [hheader4,hbytes4]
    rw [hb,hbuffer]
    change (m2.supply (m2.mallocs + 1)).bytes = _
    rw [hsupply2,hmallocs2,hsupply1,hmallocs1]
  · exact hsupply4.trans (hsupply3.trans (hsupply2.trans hsupply1))
  · have hm3 : m3.mallocs = m2.mallocs + 2 := hmallocs3
    omega

theorem Inv.respond (hs : Inv s) {c : Cqe} {rest : List Cqe} (hopen : s.closed = false)
    (hcq : s.cq = c :: rest) (hread : (s.heap.header c.userData).eventType = .read)
    (hres : c.res ≠ 0) :
    Outcome memoryBlock pageCount s .serve
      (respond pageCount s c rest (s.heap.header c.userData).iovBase) := by
  have hseen := hs.seen hcq
  have hroom : s.sq.length + 2 ≤ 2 * initialReads := by
    have hle := hs.room
    have hc : isRead s.heap c.userData = true := decide_eq_true hread
    rw [hcq,List.map_cons,List.countP_cons_of_pos hc] at hle
    omega
  have hblocks : blocks (s.heap.header c.userData) c.userData =
      [(c.userData,sizeofCustomRequest),((s.heap.header c.userData).iovBase,sizeofRequest)] := by
    simp [blocks,hread]
  have hhand := hseen.release
  rw [hblocks,List.append_nil] at hhand
  let q := (GetPageRequest.ofBytes (buffer s.heap c.userData)).toHostOrder
  let s1 := setVariables pageCount { s with requests := s.requests ++ [q] } q
  obtain ⟨hheap,hsq⟩ : s1.heap = s.heap ∧ s1.sq = s.sq := setVariables_frame _ _
  have hdepth : 2 * initialReads < ioUringQueueDepth := by decide
  unfold OnHeap.respond
  rw [access_ok (hseen.live_buffer (by simp) hread)]
  change Outcome _ _ _ _ (exchange s1 c rest _ (iovCountOf pageCount q))
  rcases exchange_cases (s := s1) (c := c) rest
    (by rw [hheap]; exact hhand.perm_hand (List.Perm.swap ..)) (by rw [hsq]; omega)
    (iovCountOf pageCount q) with herr | ⟨w,r,m,hok,hc,hkept,hw,hr,hbuffer,hsupply,hmallocs⟩
  · rw [herr]
    exact Or.inr rfl
  · rw [hok]
    rw [hheap] at hkept hbuffer hsupply hmallocs
    exact .answer hopen hcq hread hres hc hkept hw hr hbuffer hsupply hmallocs

theorem Inv.serve (hs : Inv s) :
    Outcome memoryBlock pageCount s .serve (serve pageCount s) := by
  unfold OnHeap.serve
  split
  · exact Or.inl rfl
  · rename_i hopen
    have hopen := eq_false_of_ne_true hopen
    split
    · exact Or.inl rfl
    · rename_i c rest hcq
      have hseen := hs.seen hcq
      rw [access_ok (hseen.live (a := c.userData) (by simp))]
      dsimp only [bind,Except.bind]
      split
      · rename_i hread
        split
        · rename_i hres
          exact .close hopen hcq hread hres
        · rename_i hres
          exact hs.respond hopen hcq hread hres
      · rename_i hwrite
        have hnull : free s.heap (s.heap.header c.userData).iovBase = .ok s.heap :=
          if_pos ((hseen.formed c.userData (by simp)).iovBase hwrite)
        have hblocks : blocks (s.heap.header c.userData) c.userData =
            [(c.userData,sizeofCustomRequest)] := by
          simp [blocks,hwrite]
        have hhand := hseen.release
        rw [hblocks] at hhand
        obtain ⟨m,hfree,hcustody,hheader,hbytes,hsupply,hmallocs⟩ := hhand.free
        simp only [hnull,hfree]
        exact .drop hopen hcq hwrite hcustody hheader hbytes hsupply hmallocs

/-- Each step is one of the cases, or stops for a reason that is not the program's. -/
theorem Inv.outcome (hs : Inv s) (e : Event) :
    Outcome memoryBlock pageCount s e (step memoryBlock pageCount s e) := by
  cases e with
  | take =>
    simp only [step]
    split
    · exact Or.inl rfl
    · rename_i hsq
      exact .takeRead hsq
    · rename_i hsq
      exact .takeWrite hsq
  | read i r =>
    simp only [step]
    split
    · exact Or.inl rfl
    · rename_i req hi
      have hmem : req ∈ s.readers := by
        simp [State.readers,List.mem_of_getElem? hi]
      have hflight : req ∈ s.inFlight := by simp [State.inFlight,hmem]
      have hread : (s.heap.header req).eventType = .read := of_decide_eq_true (hs.readers req hmem)
      have hlen := (hs.custody.formed req hflight).iovLen hread
      rw [access_ok (hs.custody.live hflight)]
      dsimp only [bind,Except.bind]
      rw [access_ok (hs.custody.live_buffer hflight hread)]
      dsimp only
      rw [hlen]
      split
      · rename_i hr
        exact .read hi hr
      · exact Or.inl rfl
  | postRead i =>
    simp only [step]
    split
    · exact Or.inl rfl
    · rename_i hi
      exact .postRead hi
  | write i r =>
    simp only [step]
    split
    · exact Or.inl rfl
    · rename_i hi
      split
      · exact Or.inl rfl
      · rename_i ht
        exact .write hi ht
  | postWrite i =>
    simp only [step]
    split
    · exact Or.inl rfl
    · rename_i hi
      exact .postWrite hi
  | serve => exact hs.serve

theorem Inv.step_cases (hs : Inv s) {e : Event} (h : step memoryBlock pageCount s e = .ok t) :
    Step memoryBlock pageCount s e t := by
  have ho : Outcome memoryBlock pageCount s e (step memoryBlock pageCount s e) := hs.outcome e
  rwa [h] at ho

theorem Inv.step_error (hs : Inv s) {e : Event} {why : Fault}
    (h : step memoryBlock pageCount s e = .error why) : why.Harmless := by
  have ho : Outcome memoryBlock pageCount s e (step memoryBlock pageCount s e) := hs.outcome e
  rwa [h] at ho

variable (pageCount) in
theorem answered_frame (s : State) (rest : List Cqe) (q : GetPageRequest) (w r : Addr)
    (m : Heap CustomRequest) :
    (answered pageCount s rest q w r m).heap = m ∧
      (answered pageCount s rest q w r m).sq =
        s.sq ++ [.writev w (iovCountOf pageCount q),.readv r] ∧
      (answered pageCount s rest q w r m).readers =
        s.sq.filterMap Sqe.read ++ [r] ++ s.reads ++ s.readDone.map Cqe.userData ∧
      (answered pageCount s rest q w r m).writers =
        (s.sq.filterMap Sqe.write).map Prod.fst ++ [w] ++ s.writes.map Prod.fst ++
          s.writeDone.map Cqe.userData ∧
      (answered pageCount s rest q w r m).cq = rest := by
  unfold answered setVariables
  dsimp only
  split <;> simp [State.readers,State.writers,List.filterMap_cons,Sqe.read,Sqe.write]

theorem isRead_congr {m : Heap CustomRequest} {l : List Addr} (hk : Kept s.heap m l) {a : Addr}
    (ha : a ∈ l) : isRead m a = isRead s.heap a := by
  unfold isRead
  rw [hk.header ha]

/-- The operations that are left when a completion is seen, and the new ones. -/
theorem Inv.replace (hs : Inv s) {c : Cqe} {rest : List Cqe} (hcq : s.cq = c :: rest)
    (new : List Addr) (hcustody : Custody t.heap (new ++ s.others rest) [])
    (hkept : Kept s.heap t.heap (s.others rest)) (hp : (new ++ s.others rest).Perm t.inFlight)
    (hr : ∀ a ∈ t.readers, a ∈ s.readers ∨ isRead t.heap a = true)
    (hw : ∀ a ∈ t.writers, a ∈ s.writers ∨ isRead t.heap a = false)
    (hcount : new.countP (isRead t.heap) = [c.userData].countP (isRead s.heap))
    (hq : Paired t.sq) : Inv t := by
  constructor
  · exact hcustody.perm hp
  · intro a ha
    rcases hr a ha with ha | ha
    · rw [isRead_congr hkept (by simp [State.others,ha])]
      exact hs.readers a ha
    · exact ha
  · intro a ha
    rcases hw a ha with ha | ha
    · rw [isRead_congr hkept (by simp [State.others,ha])]
      exact hs.writers a ha
    · exact ha
  · have hothers : (s.others rest).countP (isRead t.heap) =
        (s.others rest).countP (isRead s.heap) :=
      List.countP_congr fun a ha => by rw [isRead_congr hkept ha]
    have hbefore : s.inFlight.Perm ([c.userData] ++ s.others rest) := by
      unfold State.inFlight State.others
      rw [hcq,List.map_cons]
      exact List.perm_middle
    have hcounts := hs.count
    rw [hbefore.countP_eq,List.countP_append] at hcounts
    rw [← hp.countP_eq,List.countP_append,hothers,hcount]
    exact hcounts
  · exact hq

theorem Inv.takeRead (hs : Inv s) {req : Addr} {rest : List Sqe} (hsq : s.sq = .readv req :: rest) :
    Inv { s with sq := rest, reads := s.reads ++ [req] } := by
  have hq := hs.paired
  rw [hsq] at hq
  refine hs.stay rfl rfl ?_ ?_ rfl hq.tail
  · refine List.perm_iff_count.mpr fun a => ?_
    simp only [State.readers,hsq,List.filterMap_cons,Sqe.read,List.count_append,List.count_cons,
      List.count_nil]
    omega
  · simp [State.writers,hsq,List.filterMap_cons,Sqe.write]

theorem Inv.takeWrite (hs : Inv s) {req : Addr} {iovCount : ℕ} {rest : List Sqe}
    (hsq : s.sq = .writev req iovCount :: rest) :
    Inv { s with sq := rest, writes := s.writes ++ [(req,iovCount)] } := by
  have hq := hs.paired
  rw [hsq] at hq
  refine hs.stay rfl rfl ?_ ?_ rfl hq.tail
  · simp [State.readers,hsq,List.filterMap_cons,Sqe.read]
  · refine List.perm_iff_count.mpr fun a => ?_
    simp only [State.writers,hsq,List.filterMap_cons,Sqe.write,List.map_append,List.map_cons,
      List.map_nil,List.count_append,List.count_cons,List.count_nil]
    omega

/-- An executed read writes to its buffer only. -/
theorem Inv.read (hs : Inv s) {i : ℕ} {req : Addr} (hi : s.reads[i]? = some req) (a : Addr)
    (bs : List UInt8) (res : ℤ) :
    Inv { s with
      heap := s.heap.setBytes a bs
      reads := s.reads.eraseIdx i
      readDone := s.readDone ++ [⟨req,res⟩] } := by
  refine hs.stay rfl rfl ?_ (List.Perm.refl _) rfl hs.paired
  refine List.perm_iff_count.mpr fun a => ?_
  have hcount := (Ring.perm_cons_eraseIdx hi).count_eq a
  simp only [State.readers,List.map_append,List.map_cons,List.map_nil,List.count_append,
    List.count_cons,List.count_nil] at hcount ⊢
  omega

theorem Inv.postRead (hs : Inv s) {i : ℕ} {c : Cqe} (hi : s.readDone[i]? = some c) :
    Inv { s with readDone := s.readDone.eraseIdx i, cq := s.cq ++ [c] } := by
  refine hs.post rfl rfl rfl (Or.inl ⟨?_,rfl⟩)
  have hperm := (Ring.perm_cons_eraseIdx hi).map Cqe.userData
  exact (hperm.append_left _).trans List.perm_middle

theorem Inv.write (hs : Inv s) {i : ℕ} {req : Addr} {iovCount : ℕ}
    (hi : s.writes[i]? = some (req,iovCount)) (res : ℤ) (sent : List UInt8) (executed : ℕ) :
    Inv { s with
      writes := s.writes.eraseIdx i
      writeDone := s.writeDone ++ [⟨req,res⟩]
      sent := sent
      executed := executed } := by
  refine hs.stay rfl rfl (List.Perm.refl _) ?_ rfl hs.paired
  refine List.perm_iff_count.mpr fun a => ?_
  have hcount := ((Ring.perm_cons_eraseIdx hi).map Prod.fst).count_eq a
  simp only [State.writers,List.map_append,List.map_cons,List.map_nil,List.count_append,
    List.count_cons,List.count_nil] at hcount ⊢
  omega

theorem Inv.postWrite (hs : Inv s) {i : ℕ} {c : Cqe} (hi : s.writeDone[i]? = some c) :
    Inv { s with writeDone := s.writeDone.eraseIdx i, cq := s.cq ++ [c] } := by
  refine hs.post rfl rfl rfl (Or.inr ⟨rfl,?_⟩)
  have hperm := (Ring.perm_cons_eraseIdx hi).map Cqe.userData
  exact (hperm.append_left _).trans List.perm_middle

/-- The request of the completion is replaced by those of a write and of a read. -/
theorem Inv.answer (hs : Inv s) {c : Cqe} {rest : List Cqe} {w r : Addr} {m : Heap CustomRequest}
    (hcq : s.cq = c :: rest) (hread : (s.heap.header c.userData).eventType = .read)
    (hcustody : Custody m (r :: w :: s.others rest) []) (hkept : Kept s.heap m (s.others rest))
    (hw : (m.header w).eventType = .write) (hr : (m.header r).eventType = .read)
    (q : GetPageRequest) : Inv (answered pageCount s rest q w r m) := by
  obtain ⟨hheap,hsq,hreaders,hwriters,hcq'⟩ := answered_frame pageCount s rest q w r m
  have hrp : (answered pageCount s rest q w r m).readers.Perm (r :: s.readers) := by
    rw [hreaders,State.readers]
    refine List.perm_iff_count.mpr fun a => ?_
    simp only [List.count_append,List.count_cons,List.count_nil]
    omega
  have hwp : (answered pageCount s rest q w r m).writers.Perm (w :: s.writers) := by
    rw [hwriters,State.writers]
    refine List.perm_iff_count.mpr fun a => ?_
    simp only [List.count_append,List.count_cons,List.count_nil]
    omega
  refine hs.replace hcq [r,w] ?_ ?_ ?_ ?_ ?_ ?_ ?_
  · rw [hheap]
    exact hcustody
  · rw [hheap]
    exact hkept
  · refine List.perm_iff_count.mpr fun a => ?_
    have hra := hrp.count_eq a
    have hwa := hwp.count_eq a
    unfold State.inFlight State.others
    rw [hcq']
    simp only [List.count_append,List.count_cons,List.count_nil] at hra hwa ⊢
    omega
  · intro a ha
    rw [hheap]
    rcases List.mem_cons.mp (hrp.mem_iff.mp ha) with rfl | ha
    · exact Or.inr (decide_eq_true hr)
    · exact Or.inl ha
  · intro a ha
    rw [hheap]
    rcases List.mem_cons.mp (hwp.mem_iff.mp ha) with rfl | ha
    · exact Or.inr (by simp [isRead,hw])
    · exact Or.inl ha
  · rw [hheap]
    simp [isRead,hw,hr,hread]
  · rw [hsq]
    exact hs.paired.append w r _

theorem Inv.drop (hs : Inv s) {c : Cqe} {rest : List Cqe} {m : Heap CustomRequest}
    (hcq : s.cq = c :: rest) (hwrite : (s.heap.header c.userData).eventType = .write)
    (hcustody : Custody m (s.others rest) []) (hheader : m.header = s.heap.header)
    (hbytes : m.bytes = s.heap.bytes) : Inv { s with heap := m, cq := rest } := by
  refine hs.replace hcq [] hcustody (Kept.of_eq hheader hbytes) (List.Perm.refl _)
    (fun a ha => Or.inl ha) (fun a ha => Or.inl ha) ?_ hs.paired
  simp [isRead,hwrite]

theorem Inv.step (hs : Inv s) {e : Event} (h : step memoryBlock pageCount s e = .ok t) :
    Inv t := by
  cases hs.step_cases h with
  | takeRead hsq => exact hs.takeRead hsq
  | takeWrite hsq => exact hs.takeWrite hsq
  | read hi _ => exact hs.read hi _ _ _
  | postRead hi => exact hs.postRead hi
  | write hi _ => exact hs.write hi _ _ _
  | postWrite hi => exact hs.postWrite hi
  | close _ _ _ _ =>
    exact hs.stay rfl rfl (List.Perm.refl _) (List.Perm.refl _) rfl hs.paired
  | answer _ hcq hread _ hcustody hkept hw hr _ _ _ =>
    exact hs.answer hcq hread hcustody hkept hw hr _
  | drop _ hcq hwrite hcustody hheader hbytes _ _ =>
    exact hs.drop hcq hwrite hcustody hheader hbytes

end Steps

section Runs
variable {memoryBlock : MemoryBlock} {pageCount : ℕ} {s t : State}
  {header : Addr → CustomRequest} {bytes : Addr → List UInt8} {supply : ℕ → Block CustomRequest}
  {response : GetPageResponse} {iov : IoVec × IoVec}

/-- The requests of the first reads and their buffers, in order. -/
structure Posted (supply : ℕ → Block CustomRequest) (m : Heap CustomRequest) (reqs : List Addr) :
    Prop where
  custody : Custody m reqs.reverse []
  reads : ∀ a ∈ reqs, isRead m a = true
  buffers : reqs.map (buffer m) =
    (List.range reqs.length).map (fun k => (supply (2 * k + 1)).bytes)
  supply : m.supply = supply
  mallocs : m.mallocs = 2 * reqs.length

theorem addReadRequests_cases (hs : Custody s.heap [] []) (hsq : s.sq = [])
    (hsupply : s.heap.supply = supply) (hmallocs : s.heap.mallocs = 0) {n : ℕ}
    (hn : n ≤ initialReads) :
    addReadRequests n s = .error (.stop .mallocLive) ∨
      ∃ m reqs, addReadRequests n s = .ok { s with heap := m, sq := reqs.map .readv } ∧
        reqs.length = n ∧ Posted supply m reqs := by
  induction n with
  | zero =>
    refine Or.inr ⟨s.heap,[],?_,rfl,hs,by simp,rfl,hsupply,hmallocs⟩
    rw [List.map_nil,← hsq]
    rfl
  | succ n ih =>
    rcases ih (by omega) with herr | ⟨m,reqs,hok,rfl,hp⟩
    · refine Or.inl ?_
      simp only [addReadRequests,herr]
      rfl
    · let u : State := { s with heap := m, sq := reqs.map .readv }
      have hdepth : initialReads < ioUringQueueDepth := by decide
      have hroom : u.sq.length < ioUringQueueDepth := by
        change (reqs.map Sqe.readv).length < _
        rw [List.length_map]
        omega
      have hnext : addReadRequests (reqs.length + 1) s = addReadRequest u := by
        simp only [addReadRequests,hok]
        rfl
      rcases addReadRequest_cases (s := u) hp.custody hroom with
        herr | ⟨req,m',hok',hcustody,hkept,hread,hbuffer,hsupply',hmallocs'⟩
      · exact Or.inl (hnext.trans herr)
      · have hold (a : Addr) (ha : a ∈ reqs) : a ∈ reqs.reverse := List.mem_reverse.mpr ha
        refine Or.inr ⟨m',reqs ++ [req],?_,by simp,?_,?_,?_,?_,?_⟩
        · rw [hnext,hok',List.map_append]
          rfl
        · simpa using hcustody
        · intro a ha
          rcases List.mem_append.mp ha with ha | ha
          · rw [isRead_congr hkept (hold a ha)]
            exact hp.reads a ha
          · rw [List.mem_singleton.mp ha]
            exact decide_eq_true hread
        · rw [List.map_append,List.length_append,List.length_singleton,List.range_succ,
            List.map_append,← hp.buffers]
          congr 1
          · refine List.map_congr_left fun a ha => ?_
            exact hkept.buffer (hold a ha) (of_decide_eq_true (hp.reads a ha))
          · rw [List.map_singleton,List.map_singleton,hbuffer]
            change [(m.supply (m.mallocs + 1)).bytes] = _
            rw [hp.supply,hp.mallocs]
        · exact hsupply'.trans hp.supply
        · rw [List.length_append,List.length_singleton]
          have hm : m'.mallocs = m.mallocs + 2 := hmallocs'
          rw [hm,hp.mallocs]
          omega

/-- A read owns two blocks, a write one. -/
theorem length_owned (m : Heap CustomRequest) (reqs : List Addr) :
    (Heap.owned blocks m reqs).length = reqs.countP (isRead m) + reqs.length := by
  induction reqs with
  | nil => rfl
  | cons a reqs ih =>
    rw [Heap.owned_cons,List.length_append,ih,List.countP_cons,List.length_cons]
    cases htype : (m.header a).eventType <;> simp [blocks,isRead,htype] <;> omega

theorem custody_fresh : Custody (Heap.fresh header bytes supply) [] [] :=
  ⟨List.Perm.refl _,by simp⟩

variable (header bytes supply response iov) in
/-- The head of the loop is reached with the first reads, or the allocator breaks its
contract. -/
theorem start_cases :
    start (Heap.fresh header bytes supply) response iov = .error (.stop .mallocLive) ∨
      ∃ s reqs, start (Heap.fresh header bytes supply) response iov = .ok s ∧
        reqs.length = initialReads ∧ Posted supply s.heap reqs ∧
        s = { entry s.heap response iov with sq := reqs.map .readv } := by
  unfold start
  rcases addReadRequests_cases (s := entry (Heap.fresh header bytes supply) response iov)
    custody_fresh rfl rfl rfl le_rfl with herr | ⟨m,reqs,hok,hlen,hp⟩
  · exact Or.inl herr
  · exact Or.inr ⟨_,reqs,hok,hlen,hp,rfl⟩

theorem paired_map (reqs : List Addr) : Paired (reqs.map Sqe.readv) := by
  induction reqs with
  | nil => trivial
  | cons a reqs ih => exact ih

theorem inv_start (h : start (Heap.fresh header bytes supply) response iov = .ok s) : Inv s := by
  rcases start_cases header bytes supply response iov with herr | ⟨u,reqs,hok,hlen,hp,hu⟩
  · cases h.symm.trans herr
  · cases h.symm.trans hok
    have hread : (fun req => (Sqe.readv req).read) = some := rfl
    have hreaders : s.readers = reqs := by
      rw [hu]
      simp [State.readers,entry,hread]
    have hwriters : s.writers = [] := by
      rw [hu]
      simp [State.writers,entry,Sqe.write]
    have hflight : s.inFlight = reqs := by
      rw [State.inFlight,hreaders,hwriters,hu]
      simp [entry]
    constructor
    · rw [hflight]
      exact hp.custody.perm (List.reverse_perm reqs)
    · rw [hreaders]
      exact hp.reads
    · simp [hwriters]
    · rw [hflight,countP_of_forall hp.reads]
      exact hlen
    · rw [hu]
      exact paired_map reqs

theorem run_ok {m : Heap CustomRequest} {es : List Event}
    (h : run memoryBlock pageCount m response iov es = .ok t) :
    ∃ s, start m response iov = .ok s ∧ execute (step memoryBlock pageCount) s es = .ok t :=
  bind_ok.mp h

theorem run_inv {es : List Event}
    (h : run memoryBlock pageCount (Heap.fresh header bytes supply) response iov es = .ok t) :
    Inv t := by
  obtain ⟨s,hs,hes⟩ := run_ok h
  exact execute_invariant (fun s e u hi hu => hi.step hu) hes (inv_start hs)

/-- No run goes wrong by the program's doing: a connection has always room in its
submission queue, follows no pointer to a freed block and frees no block twice. -/
theorem no_fault {es : List Event} {why : Fault}
    (h : run memoryBlock pageCount (Heap.fresh header bytes supply) response iov es = .error why) :
    why = .stop .disabled ∨ why = .stop .mallocLive := by
  rcases bind_error.mp h with herr | ⟨s,hs,herr⟩
  · rcases start_cases header bytes supply response iov with hlive | ⟨s,reqs,hok,-⟩
    · cases herr.symm.trans hlive
      exact Or.inr rfl
    · cases herr.symm.trans hok
  · exact execute_error (Q := Fault.Harmless) (fun s e u hi hu => hi.step hu)
      (fun s e w hi hw => hi.step_error hw) herr (inv_start hs)

section Small

/-- An allocator that never hands out an address twice. -/
def smallHeap : Heap CustomRequest :=
  Heap.fresh (fun _ => ⟨.read,nullptr,0⟩) (fun _ => [])
    (fun k => ⟨k + 1,⟨.read,nullptr,0⟩,List.replicate sizeofRequest 0⟩)

/-- A run on that allocator, for a block of one page. -/
def smallRun (es : List Event) : Except Fault State :=
  run (MemoryBlock.construct 1 alphabeticalFillingStrategy) 1 smallHeap GetPageResponse.zero
    (⟨.response,0⟩,⟨.response,0⟩) es

/-- The first page is asked for and sent. -/
def oneRequest : List Event :=
  List.replicate 64 .take ++
    [.read 0 (.bytes (List.replicate sizeofRequest 0)),.postRead 0,.serve,.take,.write 0 .whole,
      .postWrite 0]

/-- The write is reaped, its read is submitted again, and the page asked for and sent
a second time. -/
def twoRequests : List Event :=
  oneRequest ++ [.serve,.take,.read 0 (.bytes (List.replicate sizeofRequest 0)),.postRead 0,.serve,
    .take,.write 0 .whole,.postWrite 0]

theorem run_twoRequests : ∃ s, smallRun twoRequests = .ok s ∧ s.requests.length = 2 ∧
    s.sent.length = 2 * sizeofResponse := by
  have hrun : yields (smallRun twoRequests)
      (fun s => decide (s.requests.length = 2 ∧ s.sent.length = 2 * sizeofResponse)) = true := by
    decide +kernel
  obtain ⟨s,hs,htest⟩ := exists_of_yields hrun
  exact ⟨s,hs,of_decide_eq_true htest⟩

end Small

/-- Two requests are handled and their writes reaped; the loop waits for a completion. -/
theorem no_fault_late_serve : (∃ s, smallRun (twoRequests ++ [.serve]) = .ok s ∧
      s.requests.length = 2) ∧ ∃ why, smallRun (twoRequests ++ [.serve,.serve]) = .error why ∧
    (why = .stop .disabled ∨ why = .stop .mallocLive) := by
  have hrun : yields (smallRun (twoRequests ++ [.serve]))
      (fun s => decide (s.requests.length = 2)) = true := by decide +kernel
  obtain ⟨s,hs,htest⟩ := exists_of_yields hrun
  have hnone : yields (smallRun (twoRequests ++ [.serve,.serve])) (fun _ => true) = false := by
    decide +kernel
  refine ⟨⟨s,hs,of_decide_eq_true htest⟩,?_⟩
  cases h : smallRun (twoRequests ++ [.serve,.serve]) with
  | error why => exact ⟨why,rfl,no_fault h⟩
  | ok t => simp [h,yields] at hnone

/-- The live blocks are those of the operations in flight, of which 64 are reads. When
the connection is closed, these are the blocks that nothing frees any more. -/
theorem blocks_owned {es : List Event}
    (h : run memoryBlock pageCount (Heap.fresh header bytes supply) response iov es = .ok t) :
    t.heap.live.Perm (Heap.owned blocks t.heap t.inFlight) ∧
      t.inFlight.countP (isRead t.heap) = 64 ∧
      t.heap.live.length = 64 + t.inFlight.length ∧ t.sq.length ≤ 128 := by
  have hi := run_inv h
  have hcovers : t.heap.live.Perm (Heap.owned blocks t.heap t.inFlight) := hi.custody.covers
  refine ⟨hcovers,hi.count,?_,?_⟩
  · rw [hcovers.length_eq,length_owned,hi.count]
    rfl
  · have hroom := hi.room
    unfold initialReads at hroom
    omega

theorem blocks_owned_twoRequests : ∃ s, smallRun twoRequests = .ok s ∧
    s.inFlight.countP (isRead s.heap) = 64 ∧ s.heap.live.length = 64 + s.inFlight.length := by
  obtain ⟨s,hs,-⟩ := run_twoRequests
  obtain ⟨-,hreads,hlive,-⟩ := blocks_owned hs
  exact ⟨s,hs,hreads,hlive⟩

end Runs

end FastNet.GetPage.ServerIou.OnHeap
