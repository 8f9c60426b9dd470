import FastNet.Foundation.Execution
import FastNet.Foundation.Heap
import FastNet.GetPage.Server

/-! # The io_uring page server

`event_loop` as a step function. A `writev` carries a pointer to the array `iov`,
whose first entry points to `response`; both are variables of the block that
handles a request and their storage holds those of the latest one. The kernel
reads them when it executes the write. Operations of one kind execute and post in
submission order, and a write transfers all its bytes.
-/
namespace FastNet.GetPage.ServerIou
open Execution

/-- Where an I/O vector points: to the variable `response` or into the block. -/
inductive Base
  | response
  | block (offset : ℕ)
  deriving DecidableEq, Repr

structure IoVec where
  base : Base
  len : ℕ
  deriving DecidableEq, Repr

inductive Completion
  | read (res : ℤ) (buffer : List UInt8)
  | write (res : ℤ)

structure State where
  closed : Bool
  /-- The buffers of the submitted reads, oldest first. -/
  reads : List (List UInt8)
  readDone : List (ℤ × List UInt8)
  /-- The numbers of vectors of the submitted writes, oldest first. -/
  writes : List ℕ
  writeDone : List ℤ
  cq : List Completion
  response : GetPageResponse
  iov : IoVec × IoVec
  mallocs : ℕ
  /-- The bytes put on the connection. -/
  sent : List UInt8
  /-- The requests handled so far, and the header each answer was given. -/
  requests : List GetPageRequest
  headers : List GetPageResponseHeader
  executed : ℕ

inductive Event
  | read (r : ReadResult)
  | postRead
  | write
  | postWrite
  | serve

variable (memoryBlock : MemoryBlock) (pageCount : ℕ) (malloc : ℕ → List UInt8)

/-- `add_read_request` with the buffer that `malloc` returns. -/
def addReadRequest (s : State) : State :=
  { s with reads := s.reads ++ [malloc s.mallocs], mallocs := s.mallocs + 1 }

/-- `add_write_request` for the first vectors of `iov`. -/
def addWriteRequest (s : State) (iovCount : ℕ) : State :=
  { s with writes := s.writes ++ [iovCount], headers := s.headers ++ [s.response.header] }

/-- The case of a completed read with a non-zero result. -/
def respond (s : State) (buffer : List UInt8) : State :=
  let request := (GetPageRequest.ofBytes buffer).toHostOrder
  let s := { s with requests := s.requests ++ [request] }
  let s :=
    if pageCount ≤ request.pageNumber.toNat then
      addWriteRequest { s with
        response := Server.errorResponse request
        iov := (⟨.response,sizeofResponse⟩,s.iov.2) } 1
    else
      addWriteRequest { s with
        response := { GetPageResponse.zero with
          header := Server.responseHeader statusSuccess request }
        iov := (⟨.response,sizeofHeader⟩,⟨.block (request.pageNumber.toNat * pageSize),pageSize⟩) } 2
  addReadRequest malloc s

/-- What a vector points to at this moment. -/
def gather (s : State) (v : IoVec) : List UInt8 :=
  match v.base with
  | .response => s.response.bytes.take v.len
  | .block offset => memoryBlock.read offset v.len

/-- The bytes of the first vectors of `iov` at this moment. -/
def gatherAll (s : State) (iovCount : ℕ) : List UInt8 :=
  (([s.iov.1,s.iov.2].take iovCount).map (gather memoryBlock s)).flatten

def step (s : State) : Event → Except Stop State
  | .read r =>
    match s.reads with
    | [] => .error .disabled
    | buffer :: rest =>
      match r with
      | .bytes bs => .ok { s with
          reads := rest
          readDone := s.readDone ++ [((bs.length : ℤ),Bytes.overlay bs buffer)] }
      | .failed => .ok { s with reads := rest, readDone := s.readDone ++ [(-1,buffer)] }
  | .postRead =>
    match s.readDone with
    | [] => .error .disabled
    | (res,buffer) :: rest => .ok { s with readDone := rest, cq := s.cq ++ [.read res buffer] }
  | .write =>
    match s.writes with
    | [] => .error .disabled
    | iovCount :: rest =>
      let bytes := gatherAll memoryBlock s iovCount
      .ok { s with
        writes := rest
        writeDone := s.writeDone ++ [(bytes.length : ℤ)]
        sent := s.sent ++ bytes
        executed := s.executed + 1 }
  | .postWrite =>
    match s.writeDone with
    | [] => .error .disabled
    | res :: rest => .ok { s with writeDone := rest, cq := s.cq ++ [.write res] }
  | .serve =>
    if s.closed then .error .disabled
    else
      match s.cq with
      | [] => .error .disabled
      | .read res buffer :: rest =>
        if res = 0 then .ok { s with closed := true }
        else .ok (respond pageCount malloc { s with cq := rest } buffer)
      | .write _ :: rest => .ok { s with cq := rest }

/-- The number of reads that are posted at the start. -/
def initialReads : ℕ := 64

/-- The head of the loop; `response` and `iov` hold what was on the stack. -/
def start (response : GetPageResponse) (iov : IoVec × IoVec) : State where
  closed := false
  reads := (List.range initialReads).map malloc
  readDone := []
  writes := []
  writeDone := []
  cq := []
  response := response
  iov := iov
  mallocs := initialReads
  sent := []
  requests := []
  headers := []
  executed := 0

/-- What the executed reads were given, in order. -/
def received (es : List Event) : List ReadResult :=
  es.filterMap (fun e => match e with
    | .read r => some r
    | _ => none)

/-- Every read is given a whole request. -/
def WholeReads (es : List Event) : Prop :=
  ∀ r ∈ received es, ∃ bs, r = .bytes bs ∧ bs.length = sizeofRequest

variable {memoryBlock pageCount malloc}

section Inversion
variable {s t : State}

theorem step_read {r : ReadResult} (h : step memoryBlock pageCount malloc s (.read r) = .ok t) :
    ∃ buffer rest, s.reads = buffer :: rest ∧
      t = { s with
        reads := rest
        readDone := s.readDone ++ [(r.result,Bytes.overlay r.content buffer)] } := by
  simp only [step] at h
  split at h
  · cases h
  · rename_i buffer rest hreads
    refine ⟨buffer,rest,hreads,?_⟩
    cases r <;> exact (Except.ok.inj h).symm

theorem step_postRead (h : step memoryBlock pageCount malloc s .postRead = .ok t) :
    ∃ res buffer rest, s.readDone = (res,buffer) :: rest ∧
      t = { s with readDone := rest, cq := s.cq ++ [.read res buffer] } := by
  simp only [step] at h
  split at h
  · cases h
  · rename_i res buffer rest hdone
    cases h
    exact ⟨res,buffer,rest,hdone,rfl⟩

theorem step_write (h : step memoryBlock pageCount malloc s .write = .ok t) :
    ∃ iovCount rest, s.writes = iovCount :: rest ∧
      t = { s with
        writes := rest
        writeDone := s.writeDone ++ [((gatherAll memoryBlock s iovCount).length : ℤ)]
        sent := s.sent ++ gatherAll memoryBlock s iovCount
        executed := s.executed + 1 } := by
  simp only [step] at h
  split at h
  · cases h
  · rename_i iovCount rest hw
    cases h
    exact ⟨iovCount,rest,hw,rfl⟩

theorem step_postWrite (h : step memoryBlock pageCount malloc s .postWrite = .ok t) :
    ∃ res rest, s.writeDone = res :: rest ∧
      t = { s with writeDone := rest, cq := s.cq ++ [.write res] } := by
  simp only [step] at h
  split at h
  · cases h
  · rename_i res rest hdone
    cases h
    exact ⟨res,rest,hdone,rfl⟩

/-- The handler closes the connection, answers a request or drops a completion. -/
theorem step_serve (h : step memoryBlock pageCount malloc s .serve = .ok t) :
    s.closed = false ∧
      ((∃ buffer rest, s.cq = .read 0 buffer :: rest ∧ t = { s with closed := true }) ∨
        (∃ res buffer rest, s.cq = .read res buffer :: rest ∧ res ≠ 0 ∧
          t = respond pageCount malloc { s with cq := rest } buffer) ∨
        ∃ res rest, s.cq = .write res :: rest ∧ t = { s with cq := rest }) := by
  simp only [step] at h
  split at h
  · cases h
  · rename_i hclosed
    refine ⟨eq_false_of_ne_true hclosed,?_⟩
    split at h
    · cases h
    · rename_i res buffer rest hcq
      split at h
      · rename_i hres
        subst hres
        cases h
        exact Or.inl ⟨buffer,rest,hcq,rfl⟩
      · rename_i hres
        cases h
        exact Or.inr (Or.inl ⟨res,buffer,rest,hcq,hres,rfl⟩)
    · rename_i res rest hcq
      cases h
      exact Or.inr (Or.inr ⟨res,rest,hcq,rfl⟩)

end Inversion

section Reads

def Completion.arrival : Completion → Option (ℤ × List UInt8)
  | .read res buffer => some (res,buffer)
  | .write _ => none

/-- The executed reads that are not handled, oldest first. -/
def State.arrivals (s : State) : List (ℤ × List UInt8) :=
  s.cq.filterMap Completion.arrival ++ s.readDone

/-- A buffer with a whole request, and its number of bytes as the result. -/
def Holds (q : GetPageRequest) (a : ℤ × List UInt8) : Prop :=
  a.1 = sizeofRequest ∧ (GetPageRequest.ofBytes a.2).toHostOrder = q

/-- The requests received are those handled and those in the ring, in order. -/
def Reading (es : List Event) (s : State) : Prop :=
  ∃ waiting, Server.leadingRequests (received es) = s.requests ++ waiting ∧
    List.Forall₂ Holds waiting s.arrivals

theorem ofBytes_overlay {bs buffer : List UInt8} (h : bs.length = sizeofRequest) :
    GetPageRequest.ofBytes (Bytes.overlay bs buffer) = GetPageRequest.ofBytes bs := by
  unfold sizeofRequest at h
  have h1 : (Bytes.overlay bs buffer).take 4 = bs.take 4 := by
    rw [Bytes.overlay,List.take_append_of_le_length (by omega)]
  have h2 : ((Bytes.overlay bs buffer).drop 4).take 4 = (bs.drop 4).take 4 := by
    rw [Bytes.overlay,List.drop_append_of_le_length (by omega),
      List.take_append_of_le_length (by simp [h])]
  rw [GetPageRequest.ofBytes,h1,h2,GetPageRequest.ofBytes]

theorem leadingRequests_append {rs : List ReadResult} {r : ReadResult} {q : GetPageRequest}
    (hrs : ∀ r ∈ rs, ∃ bs, r = .bytes bs ∧ bs.length = sizeofRequest)
    (hr : Server.wholeRequest r = some q) :
    Server.leadingRequests (rs ++ [r]) = Server.leadingRequests rs ++ [q] := by
  induction rs with
  | nil => simp [Server.leadingRequests,hr]
  | cons x xs ih =>
    obtain ⟨bs,rfl,hbs⟩ := hrs x (by simp)
    have hx : Server.wholeRequest (.bytes bs) = some (GetPageRequest.ofBytes bs).toHostOrder := by
      simp [Server.wholeRequest,hbs]
    rw [List.cons_append,Server.leadingRequests,hx,Server.leadingRequests,hx,
      ih (fun r hr => hrs r (by simp [hr]))]
    rfl

@[simp] theorem respond_requests (s : State) (buffer : List UInt8) :
    (respond pageCount malloc s buffer).requests =
      s.requests ++ [(GetPageRequest.ofBytes buffer).toHostOrder] := by
  unfold respond
  dsimp only
  split <;> rfl

@[simp] theorem respond_arrivals (s : State) (buffer : List UInt8) :
    (respond pageCount malloc s buffer).arrivals = s.arrivals := by
  unfold respond
  dsimp only
  split <;> rfl

theorem Reading.step {es : List Event} {s t : State} {e : Event} (hs : Reading es s)
    (hwhole : WholeReads (es ++ [e])) (h : step memoryBlock pageCount malloc s e = .ok t) :
    Reading (es ++ [e]) t := by
  obtain ⟨waiting,hsplit,hwait⟩ := hs
  cases e with
  | read r =>
    obtain ⟨buffer,rest,hreads,rfl⟩ := step_read h
    have hrec : received (es ++ [Event.read r]) = received es ++ [r] := by simp [received]
    obtain ⟨bs,rfl,hbs⟩ := hwhole r (by simp [hrec])
    have hq : Server.wholeRequest (.bytes bs) = some (GetPageRequest.ofBytes bs).toHostOrder := by
      simp [Server.wholeRequest,hbs]
    have hpre : ∀ r ∈ received es, ∃ bs, r = .bytes bs ∧ bs.length = sizeofRequest :=
      fun r hr => hwhole r (by simp [hrec,hr])
    have hlead := leadingRequests_append hpre hq
    refine ⟨waiting ++ [(GetPageRequest.ofBytes bs).toHostOrder],?_,?_⟩
    · rw [hrec,hlead,hsplit,List.append_assoc]
    · have harr (a : ℤ × List UInt8) :
          ({ s with reads := rest, readDone := s.readDone ++ [a] } : State).arrivals =
            s.arrivals ++ [a] := by
        simp [State.arrivals]
      rw [harr]
      refine List.rel_append hwait (.cons ⟨?_,?_⟩ .nil)
      · exact congrArg Nat.cast hbs
      · exact congrArg GetPageRequest.toHostOrder (ofBytes_overlay hbs)
  | postRead =>
    obtain ⟨res,buffer,rest,hdone,rfl⟩ := step_postRead h
    refine ⟨waiting,by simpa [received] using hsplit,?_⟩
    simpa [State.arrivals,hdone,Completion.arrival] using hwait
  | write =>
    obtain ⟨iovCount,rest,-,rfl⟩ := step_write h
    exact ⟨waiting,by simpa [received] using hsplit,hwait⟩
  | postWrite =>
    obtain ⟨res,rest,-,rfl⟩ := step_postWrite h
    refine ⟨waiting,by simpa [received] using hsplit,?_⟩
    simpa [State.arrivals,List.filterMap_cons,Completion.arrival] using hwait
  | serve =>
    have hrec : received (es ++ [Event.serve]) = received es := by simp [received]
    obtain ⟨-,⟨buffer,rest,hcq,rfl⟩ | ⟨res,buffer,rest,hcq,-,rfl⟩ | ⟨res,rest,hcq,rfl⟩⟩ :=
      step_serve h
    · exact ⟨waiting,by rw [hrec]; exact hsplit,hwait⟩
    · have harr : s.arrivals = (res,buffer) :: ({ s with cq := rest } : State).arrivals := by
        simp [State.arrivals,hcq,Completion.arrival]
      rw [harr] at hwait
      obtain ⟨q,qs,hq,hrest,rfl⟩ := List.forall₂_cons_right_iff.mp hwait
      refine ⟨qs,?_,by simpa using hrest⟩
      rw [hrec,hsplit,respond_requests,hq.2]
      simp
    · refine ⟨waiting,by rw [hrec]; exact hsplit,?_⟩
      simpa [State.arrivals,hcq,List.filterMap_cons,Completion.arrival] using hwait

theorem reading_of_run {es : List Event} {s : State} {response : GetPageResponse}
    {iov : IoVec × IoVec}
    (h : execute (step memoryBlock pageCount malloc) (start malloc response iov) es = .ok s)
    (hw : WholeReads es) : Reading es s := by
  refine execute_induction (P := fun es s => WholeReads es → Reading es s) ?_ ?_ h hw
  · intro _
    exact ⟨[],rfl,.nil⟩
  · intro es s e t _ ih hstep hwhole
    refine (ih ?_).step hwhole hstep
    intro r hr
    exact hwhole r (by simp only [received,List.filterMap_append,List.mem_append]; exact Or.inl hr)

end Reads

section Writes

variable (pageCount) in
/-- The number of vectors of the answer to a request. -/
def iovCountOf (q : GetPageRequest) : ℕ := if pageCount ≤ q.pageNumber.toNat then 1 else 2

variable (pageCount) in
/-- What the block-local variables hold once a request is handled. -/
structure Slots (s : State) (q : GetPageRequest) : Prop where
  invalid : pageCount ≤ q.pageNumber.toNat → s.response = Server.errorResponse q ∧
    s.iov.1 = ⟨.response,sizeofResponse⟩
  valid : ¬ pageCount ≤ q.pageNumber.toNat →
    s.response.header = Server.responseHeader statusSuccess q ∧
    s.iov.1 = ⟨.response,sizeofHeader⟩ ∧
    s.iov.2 = ⟨.block (q.pageNumber.toNat * pageSize),pageSize⟩

theorem respond_slots (s : State) (buffer : List UInt8) :
    Slots pageCount (respond pageCount malloc s buffer)
      (GetPageRequest.ofBytes buffer).toHostOrder := by
  unfold respond
  dsimp only
  split
  · rename_i hp
    exact ⟨fun _ => ⟨rfl,rfl⟩,fun hn => (hn hp).elim⟩
  · rename_i hp
    exact ⟨fun hn => (hp hn).elim,fun _ => ⟨rfl,rfl,rfl⟩⟩

theorem respond_writes (s : State) (buffer : List UInt8) :
    (respond pageCount malloc s buffer).writes =
      s.writes ++ [iovCountOf pageCount (GetPageRequest.ofBytes buffer).toHostOrder] := by
  unfold respond iovCountOf
  dsimp only
  split <;> rfl

theorem respond_headers (s : State) (buffer : List UInt8) :
    (respond pageCount malloc s buffer).headers = s.headers ++
      [Server.responseHeader (Server.statusOf pageCount (GetPageRequest.ofBytes buffer).toHostOrder)
        (GetPageRequest.ofBytes buffer).toHostOrder] := by
  unfold respond Server.statusOf
  dsimp only
  split <;> rfl

variable (pageCount malloc) in
theorem respond_frame (s : State) (buffer : List UInt8) :
    (respond pageCount malloc s buffer).sent = s.sent ∧
      (respond pageCount malloc s buffer).executed = s.executed := by
  unfold respond
  dsimp only
  split <;> exact ⟨rfl,rfl⟩

variable (pageCount malloc) in
/-- An answered request leaves the kernel's queues alone, but for a new read. -/
theorem respond_queues (s : State) (buffer : List UInt8) :
    (respond pageCount malloc s buffer).closed = s.closed ∧
      (respond pageCount malloc s buffer).reads = s.reads ++ [malloc s.mallocs] ∧
      (respond pageCount malloc s buffer).readDone = s.readDone ∧
      (respond pageCount malloc s buffer).writeDone = s.writeDone ∧
      (respond pageCount malloc s buffer).cq = s.cq := by
  unfold respond
  dsimp only
  split <;> exact ⟨rfl,rfl,rfl,rfl,rfl⟩

/-- A write executed while the variables hold request `a` starts with the header of
`a`; if it answers `a`, it is the answer of the blocking server. -/
theorem gatherAll_slots {s : State} {a q : GetPageRequest} (h : Slots pageCount s a) :
    (Server.responseHeader (Server.statusOf pageCount a) a).bytes <+:
        gatherAll memoryBlock s (iovCountOf pageCount q) ∧
      (a = q → gatherAll memoryBlock s (iovCountOf pageCount q) =
        Server.respond memoryBlock pageCount q) := by
  have hfirst : ∃ rest, gatherAll memoryBlock s (iovCountOf pageCount q) =
      gather memoryBlock s s.iov.1 ++ rest := by
    unfold iovCountOf gatherAll
    split
    · exact ⟨[],by simp⟩
    · exact ⟨gather memoryBlock s s.iov.2,by simp⟩
  by_cases ha : pageCount ≤ a.pageNumber.toNat
  · obtain ⟨hresp,hiov⟩ := h.invalid ha
    have hgather : gather memoryBlock s s.iov.1 = (Server.errorResponse a).bytes := by
      rw [hiov,gather,hresp]
      exact List.take_of_length_le (GetPageResponse.length_bytes _).le
    constructor
    · obtain ⟨rest,hrest⟩ := hfirst
      rw [hrest,hgather,Server.statusOf,if_pos ha]
      exact (List.prefix_append _ _).trans (List.prefix_append _ _)
    · rintro rfl
      simp [gatherAll,iovCountOf,ha,hgather,Server.respond]
  · obtain ⟨hheader,hiov,hiov2⟩ := h.valid ha
    have hgather : gather memoryBlock s s.iov.1 =
        (Server.responseHeader statusSuccess a).bytes := by
      rw [hiov,gather,GetPageResponse.bytes,hheader]
      exact List.take_left' (GetPageResponseHeader.length_bytes _)
    constructor
    · obtain ⟨rest,hrest⟩ := hfirst
      rw [hrest,hgather,Server.statusOf,if_neg ha]
      exact List.prefix_append _ _
    · rintro rfl
      have hpage : gather memoryBlock s s.iov.2 =
          memoryBlock.read (a.pageNumber.toNat * pageSize) pageSize := by
        rw [hiov2,gather]
      simp [gatherAll,iovCountOf,ha,hgather,hpage,Server.respond]

/-- At the execution of a write, the request handled last equals the one that the
write answers. -/
def Timely (s : State) (e : Event) : Prop :=
  e = .write → s.requests.getLast? = s.requests[s.executed]?

end Writes

section Completions

theorem arrival_read (res : ℤ) (buffer : List UInt8) :
    (Completion.read res buffer).arrival = some (res,buffer) := rfl

theorem arrival_write (res : ℤ) : (Completion.write res).arrival = none := rfl

end Completions

section Errors

/-- A step stops only because it is not on offer. -/
theorem step_error {memoryBlock : MemoryBlock} {pageCount : ℕ} {malloc : ℕ → List UInt8}
    {s : State} {e : Event} {why : Stop} (h : step memoryBlock pageCount malloc s e = .error why) :
    why = .disabled := by
  cases e with
  | read r =>
    simp only [step] at h
    split at h
    · exact (Except.error.inj h).symm
    · cases r <;> cases h
  | postRead | write | postWrite =>
    simp only [step] at h
    split at h
    · exact (Except.error.inj h).symm
    · cases h
  | serve =>
    simp only [step] at h
    split at h
    · exact (Except.error.inj h).symm
    · split at h
      · exact (Except.error.inj h).symm
      · split at h <;> cases h
      · cases h

end Errors

end FastNet.GetPage.ServerIou
