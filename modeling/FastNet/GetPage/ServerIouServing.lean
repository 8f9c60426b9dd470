import FastNet.GetPage.ServerIouTiming

/-! # The io_uring page server between two writes

On a connection that delivers whole requests and is not closed, the handler keeps its 64
reads, and a step that executes neither a read nor a write moves one operation to its
next stage: nothing is sent, and the requests brought so far stay the same.
-/
namespace FastNet.GetPage

/-- The block that the server sends from. -/
abbrev block (serverPages : ℕ) (strategy : FillingStrategy) : MemoryBlock :=
  MemoryBlock.construct serverPages strategy

namespace ServerIou
variable {memoryBlock : MemoryBlock} {pageCount : ℕ} {malloc : ℕ → List UInt8} {s u : State}
  {ws : List (GetPageRequest × List UInt8)}

/-- The request that an executed read has brought. -/
def requestOf (a : ℤ × List UInt8) : GetPageRequest := (GetPageRequest.ofBytes a.2).toHostOrder

theorem requestOf_overlay {res : ℤ} {bs buffer : List UInt8} (h : bs.length = sizeofRequest) :
    requestOf (res,Bytes.overlay bs buffer) = (GetPageRequest.ofBytes bs).toHostOrder :=
  congrArg GetPageRequest.toHostOrder (ofBytes_overlay h)

/-- The requests brought so far, handled or not. -/
def State.brought (s : State) : List GetPageRequest := s.requests ++ s.arrivals.map requestOf

/-- How many operations there are at each stage between an executed read and the
completion of its answer, and how many requests are handled. -/
structure Stages where
  readDone : ℕ
  readCq : ℕ
  handled : ℕ
  writes : ℕ
  writeDone : ℕ
  writeCq : ℕ

def State.stages (s : State) : Stages where
  readDone := s.readDone.length
  readCq := s.cq.countP (·.arrival.isSome)
  handled := s.requests.length
  writes := s.writes.length
  writeDone := s.writeDone.length
  writeCq := s.cq.countP (·.arrival.isNone)

/-- One operation goes to its next stage; `n` are the others. -/
inductive Stages.Moved : Stages → Stages → Prop
  | postRead (n : Stages) :
      Moved { n with readDone := n.readDone + 1 } { n with readCq := n.readCq + 1 }
  | answer (n : Stages) :
      Moved { n with readCq := n.readCq + 1 }
        { n with handled := n.handled + 1, writes := n.writes + 1 }
  | postWrite (n : Stages) :
      Moved { n with writeDone := n.writeDone + 1 } { n with writeCq := n.writeCq + 1 }
  | reap (n : Stages) : Moved { n with writeCq := n.writeCq + 1 } n

/-- Weights that fall from stage to stage bound the moves. -/
theorem Stages.Moved.falls {a b : Stages} (h : Moved a b) :
    5 * b.readDone + 4 * b.readCq + 3 * b.writes + 2 * b.writeDone + b.writeCq <
      5 * a.readDone + 4 * a.readCq + 3 * a.writes + 2 * a.writeDone + a.writeCq := by
  cases h <;> dsimp only <;> omega

/-- With rising weights the same moves are counted from the other side. -/
theorem Stages.Moved.rises {a b : Stages} (h : Moved a b) :
    3 * a.handled + 2 * a.readCq + a.readDone + (2 * b.writeDone + b.writeCq) <
      3 * b.handled + 2 * b.readCq + b.readDone + (2 * a.writeDone + a.writeCq) := by
  cases h <;> dsimp only <;> omega

/-- No executed write comes back. -/
theorem Stages.Moved.written {a b : Stages} (h : Moved a b) :
    b.writeDone + b.writeCq ≤ a.writeDone + a.writeCq := by
  cases h <;> dsimp only <;> omega

variable (memoryBlock pageCount) in
/-- The handler is in its loop with all of its reads, each brings a whole request, and
`ws` are its executed writes. -/
structure Serving (s : State) (ws : List (GetPageRequest × List UInt8)) : Prop where
  log : Log memoryBlock pageCount s ws
  whole : ∀ a ∈ s.arrivals, a.1 = sizeofRequest
  reads : s.reads.length + s.arrivals.length = initialReads
  running : s.closed = false

/-- A step that the other end of the connection cannot see. -/
structure Quiet (s u : State) : Prop where
  sent : u.sent = s.sent
  executed : u.executed = s.executed
  brought : u.brought = s.brought
  handled : s.requests <+: u.requests
  moved : Stages.Moved s.stages u.stages

theorem Serving.start (response : GetPageResponse) (iov : IoVec × IoVec) :
    Serving memoryBlock pageCount (start malloc response iov) [] where
  log := .start response iov
  whole a ha := by cases ha
  reads := (Nat.add_zero _).trans (by simp [ServerIou.start])
  running := rfl

/-- What a state without a step of the handler itself keeps. -/
theorem Serving.congr (h : Serving memoryBlock pageCount s ws) (hsent : u.sent = s.sent)
    (hreq : u.requests = s.requests) (hexec : u.executed = s.executed)
    (hwrites : u.writes = s.writes) (hheaders : u.headers = s.headers)
    (hresp : u.response = s.response) (hiov : u.iov = s.iov) (harr : u.arrivals = s.arrivals)
    (hreads : u.reads = s.reads) (hclosed : u.closed = s.closed) :
    Serving memoryBlock pageCount u ws where
  log := h.log.congr hsent hreq hexec hwrites hheaders hresp hiov
  whole := harr ▸ h.whole
  reads := by
    rw [hreads,harr]
    exact h.reads
  running := hclosed.trans h.running

variable (h : Serving memoryBlock pageCount s ws)
include h

/-- A read takes a whole request off the connection. -/
theorem Serving.arrive {bs : List UInt8} (hlen : bs.length = sizeofRequest)
    (hs : step memoryBlock pageCount malloc s (.read (.bytes bs)) = .ok u) :
    Serving memoryBlock pageCount u ws ∧ u.sent = s.sent ∧ u.executed = s.executed ∧
      u.requests = s.requests ∧
      u.arrivals.map requestOf =
        s.arrivals.map requestOf ++ [(GetPageRequest.ofBytes bs).toHostOrder] ∧
      u.stages = { s.stages with readDone := s.stages.readDone + 1 } := by
  obtain ⟨buffer,rest,hreads,rfl⟩ := step_read hs
  have harr : ({ s with
      reads := rest
      readDone := s.readDone ++ [((ReadResult.bytes bs).result,
        Bytes.overlay (ReadResult.bytes bs).content buffer)] } : State).arrivals =
        s.arrivals ++ [((bs.length : ℤ),Bytes.overlay bs buffer)] := by
    simp [State.arrivals,ReadResult.result,ReadResult.content]
  refine ⟨⟨h.log.congr rfl rfl rfl rfl rfl rfl rfl,?_,?_,h.running⟩,rfl,rfl,rfl,?_,?_⟩
  · intro b hb
    rw [harr,List.mem_append,List.mem_singleton] at hb
    rcases hb with hb | rfl
    · exact h.whole b hb
    · exact congrArg Nat.cast hlen
  · have hold := h.reads
    rw [harr,List.length_append,List.length_singleton]
    rw [hreads,List.length_cons] at hold
    change rest.length + _ = _
    omega
  · rw [harr,List.map_append,List.map_singleton,requestOf_overlay hlen]
  · simp [State.stages]

theorem Serving.postRead (hs : step memoryBlock pageCount malloc s .postRead = .ok u) :
    Serving memoryBlock pageCount u ws ∧ Quiet s u := by
  obtain ⟨res,buffer,rest,hdone,rfl⟩ := step_postRead hs
  have harr : ({ s with
      readDone := rest, cq := s.cq ++ [.read res buffer] } : State).arrivals = s.arrivals := by
    simp [State.arrivals,hdone,arrival_read]
  refine ⟨h.congr rfl rfl rfl rfl rfl rfl rfl harr rfl rfl,rfl,rfl,?_,List.prefix_refl _,?_⟩
  · rw [State.brought,harr]
    rfl
  · simpa [State.stages,hdone,arrival_read] using
      Stages.Moved.postRead { s.stages with readDone := rest.length }

theorem Serving.postWrite (hs : step memoryBlock pageCount malloc s .postWrite = .ok u) :
    Serving memoryBlock pageCount u ws ∧ Quiet s u := by
  obtain ⟨res,rest,hdone,rfl⟩ := step_postWrite hs
  have harr : ({ s with
      writeDone := rest, cq := s.cq ++ [.write res] } : State).arrivals = s.arrivals := by
    simp [State.arrivals,List.filterMap_cons,arrival_write]
  refine ⟨h.congr rfl rfl rfl rfl rfl rfl rfl harr rfl rfl,rfl,rfl,?_,List.prefix_refl _,?_⟩
  · rw [State.brought,harr]
    rfl
  · simpa [State.stages,hdone,arrival_write] using
      Stages.Moved.postWrite { s.stages with writeDone := rest.length }

/-- A request is answered and its read posted again, or the completion of a write is
dropped; a read that brings a request does not close the connection. -/
theorem Serving.serve (hs : step memoryBlock pageCount malloc s .serve = .ok u) :
    Serving memoryBlock pageCount u ws ∧ Quiet s u := by
  obtain ⟨-,⟨buffer,rest,hcq,rfl⟩ | ⟨res,buffer,rest,hcq,-,rfl⟩ | ⟨res,rest,hcq,rfl⟩⟩ :=
    step_serve hs
  · have hmem : (0,buffer) ∈ s.arrivals := by simp [State.arrivals,hcq,arrival_read]
    have hzero := h.whole _ hmem
    simp [sizeofRequest] at hzero
  · have harr : s.arrivals = (res,buffer) :: ({ s with cq := rest } : State).arrivals := by
      simp [State.arrivals,hcq,arrival_read]
    have hcongr : Log memoryBlock pageCount { s with cq := rest } ws :=
      h.log.congr rfl rfl rfl rfl rfl rfl rfl
    obtain ⟨hlog,-⟩ := hcongr.respond malloc buffer
    obtain ⟨hsent,hexec⟩ := respond_frame pageCount malloc { s with cq := rest } buffer
    obtain ⟨hclosed,hposted,hreadDone,hwriteDone,hqueue⟩ :=
      respond_queues pageCount malloc { s with cq := rest } buffer
    refine ⟨⟨hlog,?_,?_,hclosed.trans h.running⟩,hsent,hexec,?_,?_,?_⟩
    · rw [respond_arrivals]
      exact fun a ha => h.whole a (harr ▸ List.mem_cons_of_mem _ ha)
    · have hold := h.reads
      rw [harr,List.length_cons] at hold
      rw [respond_arrivals,hposted,List.length_append,List.length_singleton]
      change s.reads.length + 1 + _ = _
      omega
    · rw [State.brought,State.brought,respond_requests,respond_arrivals,harr]
      simp [requestOf]
    · rw [respond_requests]
      exact List.prefix_append _ _
    · simpa [State.stages,hreadDone,hwriteDone,hqueue,hcq,respond_writes,arrival_read,
        List.countP_cons] using
        Stages.Moved.answer { s.stages with readCq := rest.countP (·.arrival.isSome) }
  · have harr : ({ s with cq := rest } : State).arrivals = s.arrivals := by
      simp [State.arrivals,hcq,List.filterMap_cons,arrival_write]
    refine ⟨h.congr rfl rfl rfl rfl rfl rfl rfl harr rfl rfl,rfl,rfl,?_,List.prefix_refl _,?_⟩
    · rw [State.brought,harr]
      rfl
    · simpa [State.stages,hcq,arrival_write,List.countP_cons] using
        Stages.Moved.reap { s.stages with writeCq := rest.countP (·.arrival.isNone) }

end ServerIou

end FastNet.GetPage
