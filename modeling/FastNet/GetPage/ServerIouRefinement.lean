import FastNet.GetPage.ServerIouOwnership

/-! # The heap of the io_uring page server refines its buffers

The blocks of different requests are apart, so what a read leaves in its buffer
stays there until the request is handled, whatever is allocated and freed meanwhile.
In a run where the kernel keeps the order of submission and writes are whole, the
state seen through the buffers takes the steps of the machine that has no heap; when
the polling thread takes an entry makes no difference.
-/
namespace FastNet.GetPage.ServerIou.OnHeap
open Execution

section View
variable {m m' : Heap CustomRequest} {l reqs : List Addr}

theorem Kept.completion (hk : Kept m m' l) {c : Cqe} (hc : c.userData ∈ l) :
    completion m' c = completion m c := by
  unfold OnHeap.completion
  rw [hk.header hc]
  split
  · rename_i hread
    rw [hk.buffer hc hread]
  · rfl

theorem completion_read {c : Cqe} (h : (m.header c.userData).eventType = .read) :
    completion m c = .read c.res (buffer m c.userData) := by
  simp only [completion,h]

theorem completion_write {c : Cqe} (h : (m.header c.userData).eventType = .write) :
    completion m c = .write c.res := by
  simp only [completion,h]

theorem isRead_false {a : Addr} (h : isRead m a = false) : (m.header a).eventType = .write := by
  cases htype : (m.header a).eventType with
  | read => simp [isRead,htype] at h
  | write => rfl

theorem cons_of_getElem?_zero {α : Type} {l : List α} {x : α} (h : l[0]? = some x) :
    ∃ rest, l = x :: rest := by
  cases l with
  | nil => cases h
  | cons y rest => exact ⟨rest,by rw [Option.some.inj h]⟩

/-- What the kernel puts into the buffer of a request is in no other buffer. -/
theorem Custody.setBytes {a : Addr} (hc : Custody m (a :: reqs) [])
    (hread : (m.header a).eventType = .read) (bs : List UInt8) :
    Kept m (m.setBytes (m.header a).iovBase bs) reqs := by
  have hhand := hc.release.covers
  rw [List.append_nil] at hhand
  exact Heap.agreeOn_setBytes m bs (hhand.notMem (by simp [blocks,hread]))

end View

/-- The place in the supply of the buffer of the `k`-th read. -/
def bufferIndex (k : ℕ) : ℕ := if k < initialReads then 2 * k + 1 else 3 * k - 62

/-- What the buffers hold when they are made. -/
def contents (supply : ℕ → Block CustomRequest) (k : ℕ) : List UInt8 :=
  (supply (bufferIndex k)).bytes

/-- The events of the machine without a heap. -/
def plain : Event → List ServerIou.Event
  | .take => []
  | .read _ r => [.read r]
  | .postRead _ => [.postRead]
  | .write _ _ => [.write]
  | .postWrite _ => [.postWrite]
  | .serve => [.serve]

/-- The oldest operation moves on, and a write is whole. -/
def InOrder : Event → Prop
  | .take | .serve => True
  | .read i _ | .postRead i | .postWrite i => i = 0
  | .write i r => i = 0 ∧ r = .whole

section Simulation
variable {memoryBlock : MemoryBlock} {pageCount : ℕ} {s t : State}
  {supply : ℕ → Block CustomRequest}

/-- The blocks handed out so far: two for a read, one for a write. -/
structure Supplied (supply : ℕ → Block CustomRequest) (s : State) : Prop where
  supply : s.heap.supply = supply
  mallocs : s.heap.mallocs = 2 * initialReads + 3 * s.requests.length

variable (pageCount) in
theorem answered_requests (s : State) (rest : List Cqe) (q : GetPageRequest) (w r : Addr)
    (m : Heap CustomRequest) : (answered pageCount s rest q w r m).requests = s.requests ++ [q] := by
  unfold answered setVariables
  dsimp only
  split <;> rfl

theorem Supplied.step (hs : Inv s) (h : Supplied supply s) {e : Event}
    (hstep : step memoryBlock pageCount s e = .ok t) : Supplied supply t := by
  cases hs.step_cases hstep with
  | takeRead | takeWrite | read | postRead | write | postWrite | close => exact ⟨h.supply,h.mallocs⟩
  | @answer c rest w r m hopen hcq hread hres hcustody hkept hw hr hbuffer hsupply hmallocs =>
    obtain ⟨hheap,-⟩ := answered_frame pageCount s rest
      (GetPageRequest.ofBytes (buffer s.heap c.userData)).toHostOrder w r m
    constructor
    · rw [hheap,hsupply]
      exact h.supply
    · rw [hheap,hmallocs,h.mallocs,answered_requests,List.length_append,List.length_singleton]
      omega
  | drop hopen hcq hwrite hcustody hheader hbytes hsupply hmallocs =>
    exact ⟨hsupply.trans h.supply,hmallocs.trans h.mallocs⟩

theorem step_read_view (u : ServerIou.State) (r : ReadResult) {b : List UInt8}
    {rest : List (List UInt8)} (hreads : u.reads = b :: rest) :
    ServerIou.step memoryBlock pageCount (contents supply) u (.read r) = .ok { u with
      reads := rest
      readDone := u.readDone ++ [(r.result,Bytes.overlay r.content b)] } := by
  cases r <;> simp [ServerIou.step,hreads,ReadResult.result,ReadResult.content,Bytes.overlay]

/-- A read that is executed changes the buffer of its own request. -/
theorem view_read (hs : Inv s) {req : Addr} {rest : List Addr} (hreads : s.reads = req :: rest)
    (r : ReadResult) :
    State.view { s with
        heap := s.heap.setBytes (s.heap.header req).iovBase
          (Bytes.overlay r.content (buffer s.heap req))
        reads := rest
        readDone := s.readDone ++ [⟨req,r.result⟩] } =
      { s.view with
        reads := (rest ++ s.sq.filterMap Sqe.read).map (buffer s.heap)
        readDone := s.view.readDone ++
          [(r.result,Bytes.overlay r.content (buffer s.heap req))] } := by
  have hread : (s.heap.header req).eventType = .read :=
    of_decide_eq_true (hs.readers req (by simp [State.readers,hreads]))
  set m := s.heap.setBytes (s.heap.header req).iovBase
    (Bytes.overlay r.content (buffer s.heap req)) with hm
  -- the requests of the other operations
  let others := s.sq.filterMap Sqe.read ++ rest ++ s.readDone.map Cqe.userData ++ s.writers ++
    s.cq.map Cqe.userData
  have hperm : s.inFlight.Perm (req :: others) := by
    refine List.perm_iff_count.mpr fun a => ?_
    simp only [others,State.inFlight,State.readers,hreads,List.count_append,List.count_cons]
    omega
  have hkept : Kept s.heap m others := (hs.custody.perm hperm).setBytes hread _
  have hold (a : Addr) (ha : a ∈ others) (ha' : a ∈ s.readers) :
      buffer m a = buffer s.heap a :=
    hkept.buffer ha (of_decide_eq_true (hs.readers a ha'))
  have hrest (a : Addr) (ha : a ∈ rest) : buffer m a = buffer s.heap a :=
    hold a (by simp [others,ha]) (by simp [State.readers,hreads,ha])
  have hqueue (a : Addr) (ha : a ∈ s.sq.filterMap Sqe.read) : buffer m a = buffer s.heap a := by
    refine hold a ?_ ?_ <;> simp only [others,State.readers,List.mem_append] <;> tauto
  have hdone (c : Cqe) (hc : c ∈ s.readDone) :
      buffer m c.userData = buffer s.heap c.userData := by
    have hmem : c.userData ∈ s.readDone.map Cqe.userData := List.mem_map_of_mem hc
    refine hold _ ?_ ?_ <;> simp only [others,State.readers,List.mem_append] <;> tauto
  have hcq (c : Cqe) (hc : c ∈ s.cq) : completion m c = completion s.heap c := by
    refine hkept.completion ?_
    simp only [others,List.mem_append]
    exact Or.inr (List.mem_map_of_mem hc)
  have hself : buffer m req = Bytes.overlay r.content (buffer s.heap req) := by
    simp [hm,buffer]
  simp only [State.view,List.map_append,List.map_singleton,hself,List.map_congr_left hrest,
    List.map_congr_left hqueue,List.map_congr_left hcq]
  congr 2
  exact List.map_congr_left fun c hc => by rw [hdone c hc]

/-- The answer as the machine without a heap gives it. -/
theorem view_answered (hs : Inv s) (hsup : Supplied supply s) {c : Cqe} {rest : List Cqe}
    {q : GetPageRequest} {w r : Addr} {m : Heap CustomRequest}
    (hq : q = (GetPageRequest.ofBytes (buffer s.heap c.userData)).toHostOrder)
    (hkept : Kept s.heap m (s.others rest))
    (hbuffer : buffer m r = (s.heap.supply (s.heap.mallocs + 2)).bytes) :
    (answered pageCount s rest q w r m).view =
      ServerIou.respond pageCount (contents supply)
        { s.view with cq := rest.map (completion s.heap) } (buffer s.heap c.userData) := by
  have hold (a : Addr) (ha : a ∈ s.readers) : buffer m a = buffer s.heap a :=
    hkept.buffer (by simp [State.others,ha]) (of_decide_eq_true (hs.readers a ha))
  have hreads : s.reads.map (buffer m) = s.reads.map (buffer s.heap) :=
    List.map_congr_left fun a ha => hold a (by simp [State.readers,ha])
  have hqueue : (s.sq.filterMap Sqe.read).map (buffer m) =
      (s.sq.filterMap Sqe.read).map (buffer s.heap) := by
    refine List.map_congr_left fun a ha => hold a ?_
    simp only [State.readers,List.mem_append]
    exact Or.inl (Or.inl ha)
  have hdone (d : Cqe) (hd : d ∈ s.readDone) :
      buffer m d.userData = buffer s.heap d.userData := by
    refine hold _ ?_
    simp only [State.readers,List.mem_append]
    exact Or.inr (List.mem_map_of_mem hd)
  have hcq (d : Cqe) (hd : d ∈ rest) : completion m d = completion s.heap d := by
    refine hkept.completion ?_
    simp only [State.others,List.mem_append]
    exact Or.inr (List.mem_map_of_mem hd)
  have hnew : buffer m r = contents supply (initialReads + s.requests.length) := by
    have hindex : bufferIndex (initialReads + s.requests.length) = s.heap.mallocs + 2 := by
      rw [hsup.mallocs,bufferIndex,if_neg (by omega)]
      unfold initialReads
      omega
    rw [hbuffer,contents,hindex,hsup.supply]
  by_cases hp : pageCount ≤ q.pageNumber.toNat
  · simp [answered,setVariables,ServerIou.respond,State.view,ServerIou.addReadRequest,
      ServerIou.addWriteRequest,iovCountOf,← hq,hp,List.filterMap_cons,Sqe.read,Sqe.write,
      hreads,hqueue,hnew]
    exact ⟨hdone,hcq,rfl⟩
  · simp [answered,setVariables,ServerIou.respond,State.view,ServerIou.addReadRequest,
      ServerIou.addWriteRequest,iovCountOf,← hq,hp,List.filterMap_cons,Sqe.read,Sqe.write,
      hreads,hqueue,hnew]
    exact ⟨hdone,hcq,rfl⟩

theorem view_step (hs : Inv s) (hsup : Supplied supply s) {e : Event} (ho : InOrder e)
    (h : step memoryBlock pageCount s e = .ok t) :
    execute (ServerIou.step memoryBlock pageCount (contents supply)) s.view (plain e) =
      .ok t.view := by
  cases hs.step_cases h with
  | takeRead hsq =>
    simp [plain,State.view,hsq,List.filterMap_cons,Sqe.read,Sqe.write]
  | takeWrite hsq =>
    simp [plain,State.view,hsq,List.filterMap_cons,Sqe.read,Sqe.write]
  | @read i r req hi hlen =>
    obtain rfl : i = 0 := ho
    obtain ⟨rest,hreads⟩ := cons_of_getElem?_zero hi
    have hview : s.view.reads = buffer s.heap req ::
        (rest ++ s.sq.filterMap Sqe.read).map (buffer s.heap) := by
      simp [State.view,hreads]
    simp only [plain,execute,step_read_view s.view r hview,hreads,List.eraseIdx_cons_zero]
    rw [view_read hs hreads r]
  | @postRead i c hi =>
    obtain rfl : i = 0 := ho
    obtain ⟨rest,hdone⟩ := cons_of_getElem?_zero hi
    have hread : (s.heap.header c.userData).eventType = .read :=
      of_decide_eq_true (hs.readers c.userData (by simp [State.readers,hdone]))
    simp [plain,execute,ServerIou.step,State.view,hdone,completion_read hread]
  | @write i r req iovCount bytes res hi ht =>
    obtain ⟨rfl,rfl⟩ := ho
    obtain ⟨rest,hwrites⟩ := cons_of_getElem?_zero hi
    obtain ⟨rfl,rfl⟩ : gatherAll memoryBlock s.view iovCount = bytes ∧
        ((gatherAll memoryBlock s.view iovCount).length : ℤ) = res := by
      simpa [WriteResult.transfer] using ht
    have hview : s.view.writes =
        iovCount :: (rest ++ s.sq.filterMap Sqe.write).map Prod.snd := by
      simp [State.view,hwrites]
    simp [plain,execute,ServerIou.step,hview]
    simp [State.view,hwrites]
  | @postWrite i c hi =>
    obtain rfl : i = 0 := ho
    obtain ⟨rest,hdone⟩ := cons_of_getElem?_zero hi
    have hwrite := hs.writers c.userData (by simp [State.writers,hdone])
    simp [plain,execute,ServerIou.step,State.view,hdone,completion_write (isRead_false hwrite)]
  | close hopen hcq hread hres =>
    simp [plain,execute,ServerIou.step,State.view,hopen,hcq,completion_read hread,hres]
  | @answer c rest w r m hopen hcq hread hres hcustody hkept hw hr hbuffer hsupply hmallocs =>
    rw [view_answered hs hsup rfl hkept hbuffer]
    simp [plain,execute,ServerIou.step,State.view,hopen,hcq,completion_read hread,hres]
  | @drop c rest m hopen hcq hwrite hcustody hheader hbytes hsupply hmallocs =>
    have hbuffer : buffer m = buffer s.heap := by
      funext a
      rw [buffer,hheader,hbytes,buffer]
    have hcompletion : completion m = completion s.heap := by
      funext d
      rw [completion,hheader,hbuffer,completion]
    simp [plain,execute,ServerIou.step,State.view,hopen,hcq,completion_write hwrite,hbuffer,
      hcompletion]

variable {header : Addr → CustomRequest} {bytes : Addr → List UInt8} {response : GetPageResponse}
  {iov : IoVec × IoVec}

theorem supplied_start (h : start (Heap.fresh header bytes supply) response iov = .ok s) :
    Supplied supply s ∧ s.view = ServerIou.start (contents supply) response iov := by
  rcases start_cases header bytes supply response iov with herr | ⟨u,reqs,hok,hlen,hp,hu⟩
  · cases h.symm.trans herr
  · cases h.symm.trans hok
    have hread : (fun req => (Sqe.readv req).read) = some := rfl
    have hcontents : reqs.map (buffer s.heap) = (List.range initialReads).map (contents supply) := by
      rw [hp.buffers,hlen]
      refine List.map_congr_left fun k hk => ?_
      rw [contents,bufferIndex,if_pos (List.mem_range.mp hk)]
    refine ⟨⟨hp.supply,?_⟩,?_⟩
    · rw [hp.mallocs,hlen,hu]
      rfl
    · rw [hu]
      simp [State.view,entry,ServerIou.start,hread,Sqe.write,hcontents]

/-- The heap is a refinement: a run in order is one of the machine that keeps the
buffers of the reads in lists, with the same requests and the same bytes sent. -/
theorem heap_refines {es : List Event} (ho : ∀ e ∈ es, InOrder e)
    (h : run memoryBlock pageCount (Heap.fresh header bytes supply) response iov es = .ok t) :
    execute (ServerIou.step memoryBlock pageCount (contents supply))
      (ServerIou.start (contents supply) response iov) (es.flatMap plain) = .ok t.view := by
  obtain ⟨s,hs,hes⟩ := run_ok h
  obtain ⟨hsup,hview⟩ := supplied_start hs
  rw [← hview]
  have hrun := execute_induction (P := fun es t => (∀ e ∈ es, InOrder e) →
    Inv t ∧ Supplied supply t ∧ execute (ServerIou.step memoryBlock pageCount (contents supply))
      s.view (es.flatMap plain) = .ok t.view) ?_ ?_ hes
  · exact (hrun ho).2.2
  · exact fun _ => ⟨inv_start hs,hsup,rfl⟩
  · intro es t e u _ ih hu ho
    obtain ⟨hi,hsup,hpath⟩ := ih fun d hd => ho d (List.mem_append_left _ hd)
    refine ⟨hi.step hu,hsup.step hi hu,?_⟩
    rw [List.flatMap_append,execute_append_ok]
    refine ⟨t.view,hpath,?_⟩
    rw [List.flatMap_singleton]
    exact view_step hi hsup (ho e (by simp)) hu

theorem heap_refines_twoRequests : ∃ s u, smallRun twoRequests = .ok s ∧
    execute (ServerIou.step (MemoryBlock.construct 1 alphabeticalFillingStrategy) 1
      (contents smallHeap.supply)) (ServerIou.start (contents smallHeap.supply)
        GetPageResponse.zero (⟨.response,0⟩,⟨.response,0⟩)) (twoRequests.flatMap plain) = .ok u ∧
      u.sent = s.sent := by
  obtain ⟨s,hs,-⟩ := run_twoRequests
  refine ⟨s,s.view,hs,heap_refines ?_ hs,rfl⟩
  have htake : ∀ e ∈ List.replicate 64 Event.take, InOrder e := by
    intro e he
    rw [(List.mem_replicate.mp he).2]
    trivial
  simp only [twoRequests,oneRequest,List.forall_mem_append]
  exact ⟨⟨htake,by simp [InOrder]⟩,by simp [InOrder]⟩

end Simulation

end FastNet.GetPage.ServerIou.OnHeap
