import FastNet.Foundation.RingKernel
import FastNet.GetPage.ClientIouHeap

/-! # The requests of the io_uring page client

All requests that the thread has made are live, so no pointer dangles, and none is
given back. The entries of a batch end with receives, which are consumed before the
next batch: then the kernel has taken all entries, and the queue has room for two for
each index of the batch. Without its pointers a run is one of the thread that keeps
the type with the completion.
-/
namespace FastNet.GetPage.ClientIou.OnHeap
open Execution

section Blocks
variable {m m' : Heap EventType} {reqs : List Addr}

/-- The live blocks are the requests at the addresses. -/
def Owned (m : Heap EventType) (reqs : List Addr) : Prop :=
  m.Covers (reqs.map (fun a => (a,sizeofCustomRequest)))

theorem map_blocks (reqs : List Addr) :
    (reqs.map (fun a => (a,sizeofCustomRequest))).map Prod.fst = reqs := by
  simp [Function.comp_def]

theorem Owned.perm {reqs' : List Addr} (h : Owned m reqs) (hp : reqs.Perm reqs') : Owned m reqs' :=
  Heap.Covers.perm h (hp.map _)

theorem Owned.live {a : Addr} (h : Owned m reqs) (ha : a ∈ reqs) : a ∈ m.live.map Prod.fst :=
  Heap.Covers.live h (by rwa [map_blocks])

theorem Owned.length (h : Owned m reqs) : m.live.length = reqs.length := by
  have hlen : m.live.length = (reqs.map (fun a => (a,sizeofCustomRequest))).length :=
    List.Perm.length_eq h
  rwa [List.length_map] at hlen

end Blocks

section Enqueue
variable {s : State} {reqs : List Addr}

/-- An entry is added with a request of its own, and the other requests are as before. -/
theorem enqueue_cases (hc : Owned s.heap reqs) (hroom : s.sq.length < ioUringQueueDepth)
    (eventType : EventType) (entry : Addr → Sqe) :
    enqueue s eventType entry = .error (.stop .mallocLive) ∨
      ∃ req m, enqueue s eventType entry = .ok { s with heap := m, sq := s.sq ++ [entry req] } ∧
        Owned m (req :: reqs) ∧ (∀ a ∈ reqs, m.header a = s.heap.header a) ∧
        m.header req = eventType := by
  unfold enqueue
  rw [getSqe_ok hroom]
  rcases malloc_cases hc sizeofCustomRequest with herr | ⟨req,m,hok,hcovers,hagree,-⟩
  · rw [herr]
    exact Or.inl rfl
  · rw [hok]
    rw [map_blocks] at hagree
    refine Or.inr ⟨req,_,rfl,hcovers,?_,Heap.setHeader_header_self m req eventType⟩
    intro a ha
    have hne : a ≠ req := by
      rintro rfl
      have hnot := Heap.Covers.notMem (e := [(a,sizeofCustomRequest)]) (a := a) hcovers (by simp)
      rw [map_blocks] at hnot
      exact hnot ha
    rw [Heap.setHeader_header_ne m eventType hne]
    exact (hagree a ha).1

/-- A loop that queues an entry for each index. -/
theorem foldlM_enqueue (eventType : EventType) (entry : Addr → ℕ → Sqe)
    (prepare : (ℕ → GetPageRequest) → ℕ → ℕ → GetPageRequest) (js : List ℕ) (s : State)
    (reqs : List Addr) (hc : Owned s.heap reqs)
    (hroom : s.sq.length + js.length ≤ ioUringQueueDepth) :
    js.foldlM (fun s j => enqueue { s with requests := prepare s.requests j } eventType
        (entry · j)) s = .error (.stop .mallocLive) ∨
      ∃ new m, new.length = js.length ∧
        js.foldlM (fun s j => enqueue { s with requests := prepare s.requests j } eventType
          (entry · j)) s = .ok { s with
            requests := js.foldl prepare s.requests
            heap := m
            sq := s.sq ++ List.zipWith entry new js } ∧
        Owned m (new ++ reqs) ∧ (∀ a ∈ reqs, m.header a = s.heap.header a) ∧
        ∀ a ∈ new, m.header a = eventType := by
  induction js generalizing s reqs with
  | nil => exact Or.inr ⟨[],s.heap,rfl,by simp [pure,Except.pure],hc,fun _ _ => rfl,by simp⟩
  | cons j js ih =>
    rw [List.length_cons] at hroom
    rw [List.foldlM_cons]
    rcases enqueue_cases (s := { s with requests := prepare s.requests j }) hc
      (by dsimp only; omega) eventType (entry · j) with herr | ⟨req,m,hok,hc',hkept,hreq⟩
    · rw [herr]
      exact Or.inl rfl
    · rw [hok]
      rcases ih { s with requests := prepare s.requests j, heap := m, sq := s.sq ++ [entry req j] }
        (req :: reqs) hc' (by simp only [List.length_append,List.length_singleton]; omega) with
        herr | ⟨new,m',hlen,hok',hc'',hkept',hnew⟩
      · exact Or.inl herr
      · refine Or.inr ⟨req :: new,m',by simp [hlen],?_,?_,?_,?_⟩
        · refine hok'.trans ?_
          simp
        · exact hc''.perm List.perm_middle
        · intro a ha
          rw [hkept' a (List.mem_cons_of_mem _ ha)]
          exact hkept a ha
        · intro a ha
          rcases List.mem_cons.mp ha with rfl | ha
          · rw [hkept' a List.mem_cons_self]
            exact hreq
          · exact hnew a ha

end Enqueue

/-- The requests of the sends that are not posted. -/
def State.senders (s : State) : List Addr :=
  (s.sends ++ s.sq.filterMap Sqe.sending).map Prod.fst ++ s.sendDone.map Cqe.userData

/-- The requests of the receives that are not posted. -/
def State.receivers (s : State) : List Addr :=
  (s.receives ++ s.sq.filterMap Sqe.receiving).map Prod.fst ++ s.receiveDone.map Cqe.userData

/-- The requests of all operations that are not consumed. -/
def State.inFlight (s : State) : List Addr :=
  s.senders ++ s.receivers ++ s.cq.map Cqe.userData

/-- The requests in flight are live with the types of their operations; the queue ends
with a receive. -/
structure Inv (J : Job) (s : State) (posted : ℕ) : Prop where
  owned : ∃ spent, Owned s.heap (spent ++ s.inFlight)
  senders : ∀ a ∈ s.senders, s.heap.header a = .send
  receivers : ∀ a ∈ s.receivers, s.heap.header a = .receive
  queued : ∀ e ∈ s.sq.getLast?, e.receiving.isSome
  room : s.sq.length ≤ 2 * batchSize
  batching : ∃ count, Batching J s.view posted count
  live : s.heap.live.length = 2 * (posted - J.start)

variable {pageCount : ℕ} {J : Job} {s t : State} {posted : ℕ}

section Views

theorem completion_send {m : Heap EventType} {c : Cqe} (h : m.header c.userData = .send) :
    completion m c = .send c.res := by
  simp only [completion,h]

theorem completion_receive {m : Heap EventType} {c : Cqe} (h : m.header c.userData = .receive) :
    completion m c = .receive c.res := by
  simp only [completion,h]

/-- The polling thread moves an entry, and the thread sees nothing of it. -/
theorem step_take (h : step pageCount J s .take = .ok t) :
    t.view = s.view ∧ t.heap = s.heap ∧ t.inFlight.Perm s.inFlight ∧
      t.senders.Perm s.senders ∧ t.receivers.Perm s.receivers ∧ t.sq = s.sq.tail := by
  simp only [step] at h
  split at h
  · cases h
  · rename_i req j rest hsq
    cases h
    have hsend : (Sqe.send req j).sending = some (req,j) := rfl
    have hrecv : (Sqe.send req j).receiving = none := rfl
    refine ⟨?_,rfl,?_,?_,?_,?_⟩
    · simp [State.view,hsq,hsend,hrecv]
    all_goals
      simp [State.inFlight,State.senders,State.receivers,hsq,hsend,hrecv]
  · rename_i req j rest hsq
    cases h
    have hsend : (Sqe.recv req j).sending = none := rfl
    have hrecv : (Sqe.recv req j).receiving = some (req,j) := rfl
    refine ⟨?_,rfl,?_,?_,?_,?_⟩
    · simp [State.view,hsq,hsend,hrecv]
    all_goals
      simp [State.inFlight,State.senders,State.receivers,hsq,hsend,hrecv]

/-- Where the thread has consumed all receives, the kernel has taken all entries. -/
theorem Inv.drained (hs : Inv J s posted) (hu : unreaped s.view = 0) : s.sq = [] := by
  by_contra hne
  have hlast := hs.queued (s.sq.getLast hne) (by rw [List.getLast?_eq_some_getLast hne]; rfl)
  obtain ⟨x,hx⟩ := Option.isSome_iff_exists.mp hlast
  have hmem : x ∈ s.sq.filterMap Sqe.receiving :=
    List.mem_filterMap.mpr ⟨_,List.getLast_mem hne,hx⟩
  have hpos := List.length_pos_of_mem hmem
  simp only [unreaped,State.view,List.length_map,List.length_append] at hu
  omega

end Views

section Batch

variable (pageCount) in
/-- What is written to the vector of requests for an index. -/
def prepare (requests : ℕ → GetPageRequest) (j : ℕ) : ℕ → GetPageRequest :=
  Function.update requests j
    (GetPageRequest.mk (UInt32.ofNat j) (UInt32.ofNat (j % pageCount))).toNetworkOrder

theorem foldl_sendRequest_eq (js : List ℕ) (u : ClientIou.State) :
    js.foldl (ClientIou.sendRequest pageCount) u =
      { u with requests := js.foldl (prepare pageCount) u.requests, sends := u.sends ++ js } := by
  induction js generalizing u with
  | nil => simp
  | cons j js ih =>
    rw [List.foldl_cons,ih]
    simp [ClientIou.sendRequest,prepare]

theorem sending_send (new js : List ℕ) (h : new.length = js.length) :
    (List.zipWith Sqe.send new js).filterMap Sqe.sending = new.zip js ∧
      (List.zipWith Sqe.send new js).filterMap Sqe.receiving = [] := by
  induction new generalizing js with
  | nil => simp
  | cons a new ih =>
    obtain ⟨j,js,rfl⟩ := List.exists_cons_of_length_eq_add_one h.symm
    obtain ⟨hsend,hrecv⟩ := ih js (Nat.succ.inj h)
    simp [List.filterMap_cons,Sqe.sending,Sqe.receiving,hsend,hrecv]

theorem receiving_recv (new js : List ℕ) (h : new.length = js.length) :
    (List.zipWith Sqe.recv new js).filterMap Sqe.sending = [] ∧
      (List.zipWith Sqe.recv new js).filterMap Sqe.receiving = new.zip js := by
  induction new generalizing js with
  | nil => simp
  | cons a new ih =>
    obtain ⟨j,js,rfl⟩ := List.exists_cons_of_length_eq_add_one h.symm
    obtain ⟨hsend,hrecv⟩ := ih js (Nat.succ.inj h)
    simp [List.filterMap_cons,Sqe.sending,Sqe.receiving,hsend,hrecv]

/-- The state after a batch: entries for its sends, then for its receives. -/
def batched (pageCount : ℕ) (J : Job) (s : State) (new new' : List Addr) (m : Heap EventType) :
    State :=
  { s with
    phase := .waiting
    j := 0
    requests := (List.range' s.i (batchEnd J s.i - s.i)).foldl (prepare pageCount) s.requests
    heap := m
    sq := List.zipWith Sqe.send new (List.range' s.i (batchEnd J s.i - s.i)) ++
      List.zipWith Sqe.recv new' (List.range' s.i (batchEnd J s.i - s.i)) }

theorem batch_cases (hs : Inv J s posted) (hp : s.phase = .sending) (hpc : pageCount ≠ 0)
    {reqs : List Addr} (hc : Owned s.heap reqs) :
    clientStep pageCount J s .batch = .error (.stop .mallocLive) ∨
      ∃ new new' m, new.length = batchEnd J s.i - s.i ∧ new'.length = batchEnd J s.i - s.i ∧
        clientStep pageCount J s .batch = .ok (batched pageCount J s new new' m) ∧
        Owned m (new' ++ (new ++ reqs)) ∧ (∀ a ∈ reqs, m.header a = s.heap.header a) ∧
        (∀ a ∈ new, m.header a = .send) ∧ ∀ a ∈ new', m.header a = .receive := by
  obtain ⟨count,hb⟩ := hs.batching
  obtain ⟨-,hlt,hu⟩ := hb.sending hp
  have hlt : s.i < J.stop := hlt
  have hsq := hs.drained hu
  have hend : batchEnd J s.i ≤ s.i + 64 := by
    rw [batchEnd_eq hlt]
    unfold batchSize
    omega
  have hdepth : 128 ≤ ioUringQueueDepth := by decide
  set js := List.range' s.i (batchEnd J s.i - s.i) with hjs
  have hlen : js.length = batchEnd J s.i - s.i := List.length_range'
  have hsend : sendRequest pageCount = fun s j =>
      enqueue { s with requests := prepare pageCount s.requests j } .send (Sqe.send · j) := by
    funext s j
    exact if_neg hpc
  simp only [clientStep,if_pos hp]
  rcases foldlM_enqueue .send Sqe.send (prepare pageCount) js s reqs hc
    (by rw [hsq,List.length_nil]; omega) with herr | ⟨new,m,hnew,hok,hc',hkept,hheader⟩
  · rw [sendRequests,hsend,← hjs,herr]
    exact Or.inl rfl
  · rw [sendRequests,hsend,← hjs,hok]
    rcases foldlM_enqueue .receive Sqe.recv (fun requests _ => requests) js { s with
        requests := js.foldl (prepare pageCount) s.requests
        heap := m
        sq := s.sq ++ List.zipWith Sqe.send new js } (new ++ reqs) hc'
      (by simp only [hsq,List.nil_append,List.length_zipWith]; omega) with
      herr | ⟨new',m',hnew',hok',hc'',hkept',hheader'⟩
    · refine Or.inl ?_
      change (postReceives _ _ _ >>= _) = _
      rw [postReceives,← hjs,herr]
      rfl
    · refine Or.inr ⟨new,new',m',hnew.trans hlen,hnew'.trans hlen,?_,hc'',?_,?_,hheader'⟩
      · change (postReceives _ _ _ >>= _) = _
        rw [postReceives,← hjs,hok']
        simp only [batched,← hjs,hsq,List.nil_append,List.foldl_fixed]
        rfl
      · intro a ha
        rw [hkept' a (List.mem_append_right _ ha)]
        exact hkept a ha
      · intro a ha
        rw [hkept' a (List.mem_append_left _ ha)]
        exact hheader a ha

variable {new new' : List Addr} (m : Heap EventType)

variable (pageCount) in
theorem batched_entries (hnew : new.length = batchEnd J s.i - s.i)
    (hnew' : new'.length = batchEnd J s.i - s.i) :
    (batched pageCount J s new new' m).sq.filterMap Sqe.sending =
        new.zip (List.range' s.i (batchEnd J s.i - s.i)) ∧
      (batched pageCount J s new new' m).sq.filterMap Sqe.receiving =
        new'.zip (List.range' s.i (batchEnd J s.i - s.i)) := by
  obtain ⟨hs,hr⟩ := sending_send new (List.range' s.i (batchEnd J s.i - s.i))
    (by rw [hnew,List.length_range'])
  obtain ⟨hs',hr'⟩ := receiving_recv new' (List.range' s.i (batchEnd J s.i - s.i))
    (by rw [hnew',List.length_range'])
  simp [batched,hs,hr,hs',hr']

variable (pageCount) in
/-- The requests in flight are those before and the ones of the batch. -/
theorem batched_requests (hsq : s.sq = []) (hnew : new.length = batchEnd J s.i - s.i)
    (hnew' : new'.length = batchEnd J s.i - s.i) :
    (batched pageCount J s new new' m).senders.Perm (new ++ s.senders) ∧
      (batched pageCount J s new new' m).receivers.Perm (new' ++ s.receivers) := by
  obtain ⟨hsend,hrecv⟩ := batched_entries pageCount m hnew hnew'
  constructor
  · rw [State.senders,hsend,List.map_append,List.map_fst_zip (by rw [hnew,List.length_range'])]
    refine List.perm_iff_count.mpr fun a => ?_
    simp only [State.senders,batched,hsq,List.filterMap_nil,List.append_nil,List.count_append]
    omega
  · rw [State.receivers,hrecv,List.map_append,List.map_fst_zip (by rw [hnew',List.length_range'])]
    refine List.perm_iff_count.mpr fun a => ?_
    simp only [State.receivers,batched,hsq,List.filterMap_nil,List.append_nil,List.count_append]
    omega

/-- The last entry of a batch is a receive. -/
theorem batched_last (hlt : s.i < batchEnd J s.i) (hnew' : new'.length = batchEnd J s.i - s.i) :
    ∀ e ∈ (batched pageCount J s new new' m).sq.getLast?, e.receiving.isSome := by
  intro e he
  have hne : List.zipWith Sqe.recv new' (List.range' s.i (batchEnd J s.i - s.i)) ≠ [] := by
    apply List.ne_nil_of_length_pos
    rw [List.length_zipWith,List.length_range',hnew']
    omega
  rw [batched,List.getLast?_append_of_ne_nil _ hne] at he
  have hmem := List.mem_of_getLast? he
  obtain ⟨k,hk,rfl⟩ := List.mem_iff_getElem.mp hmem
  rw [List.getElem_zipWith]
  rfl

theorem view_batched (hsq : s.sq = []) (hnew : new.length = batchEnd J s.i - s.i)
    (hnew' : new'.length = batchEnd J s.i - s.i)
    (hcq : ∀ c ∈ s.cq, m.header c.userData = s.heap.header c.userData) :
    (batched pageCount J s new new' m).view =
      { ClientIou.postReceives
          (ClientIou.sendRequests pageCount s.view s.i (batchEnd J s.i)) s.i (batchEnd J s.i) with
        phase := .waiting
        j := 0 } := by
  obtain ⟨hsend,hrecv⟩ := batched_entries pageCount m hnew hnew'
  have hcompletions : s.cq.map (completion m) = s.cq.map (completion s.heap) := by
    refine List.map_congr_left fun c hc => ?_
    rw [completion,completion,hcq c hc]
  have hzip : (new.zip (List.range' s.i (batchEnd J s.i - s.i))).map Prod.snd =
      List.range' s.i (batchEnd J s.i - s.i) :=
    List.map_snd_zip (by rw [hnew,List.length_range'])
  have hzip' : (new'.zip (List.range' s.i (batchEnd J s.i - s.i))).map Prod.snd =
      List.range' s.i (batchEnd J s.i - s.i) :=
    List.map_snd_zip (by rw [hnew',List.length_range'])
  rw [ClientIou.sendRequests,foldl_sendRequest_eq]
  simp only [State.view,hsend,hrecv,List.map_append,hzip,hzip']
  simp [batched,ClientIou.postReceives,hsq,hcompletions]

end Batch

section Steps

theorem mem_getLast?_tail {l : List Sqe} {e : Sqe} (h : e ∈ l.tail.getLast?) : e ∈ l.getLast? := by
  cases l with
  | nil => exact h
  | cons x rest =>
    cases rest with
    | nil => cases h
    | cons y rest => exact h

/-- A step that makes no request. -/
theorem Inv.move (hs : Inv J s posted) (hheap : t.heap = s.heap) (gone : List Addr)
    (hp : (gone ++ t.inFlight).Perm s.inFlight) (hsend : ∀ a ∈ t.senders, a ∈ s.senders)
    (hrecv : ∀ a ∈ t.receivers, a ∈ s.receivers) (hsq : t.sq = s.sq ∨ t.sq = s.sq.tail)
    (hb : ∃ count, Batching J t.view posted count) : Inv J t posted := by
  obtain ⟨spent,howned⟩ := hs.owned
  refine ⟨⟨spent ++ gone,?_⟩,?_,?_,?_,?_,hb,?_⟩
  · rw [hheap,List.append_assoc]
    exact howned.perm (hp.symm.append_left spent)
  · rw [hheap]
    exact fun a ha => hs.senders a (hsend a ha)
  · rw [hheap]
    exact fun a ha => hs.receivers a (hrecv a ha)
  · intro e he
    rcases hsq with hsq | hsq
    · exact hs.queued e (hsq ▸ he)
    · exact hs.queued e (mem_getLast?_tail (hsq ▸ he))
  · have hroom := hs.room
    rcases hsq with hsq | hsq
    · rwa [hsq]
    · rw [hsq,List.length_tail]
      omega
  · rw [hheap]
    exact hs.live

/-- What a step of the thread or of its kernel does: what it does without the pointers,
or nothing that is the program's doing. -/
def Outcome (pageCount : ℕ) (J : Job) (posted : ℕ) (s : State) (e : ClientIou.Event) :
    Except Fault State → Prop
  | .ok t => ClientIou.step pageCount J s.view e = .ok t.view ∧
      Inv J t (postedAfter J s.view posted e)
  | .error why => why.Harmless ∨ why = .stop .divisionByZero ∧ pageCount = 0

theorem disabled_harmless : Fault.Harmless (.stop .disabled) := Or.inl rfl

theorem Inv.silent (hs : Inv J s posted) {e : ClientIou.Event}
    (hstep : ClientIou.step pageCount J s.view e = .ok t.view)
    (he : postedAfter J s.view posted e = posted) (hheap : t.heap = s.heap) (gone : List Addr)
    (hp : (gone ++ t.inFlight).Perm s.inFlight) (hsend : ∀ a ∈ t.senders, a ∈ s.senders)
    (hrecv : ∀ a ∈ t.receivers, a ∈ s.receivers) (hsq : t.sq = s.sq) :
    Outcome pageCount J posted s e (.ok t) := by
  obtain ⟨count,hb⟩ := hs.batching
  have hb' := hb.step hstep
  refine ⟨hstep,?_⟩
  rw [he] at hb' ⊢
  exact hs.move hheap gone hp hsend hrecv (Or.inl hsq) ⟨_,hb'⟩

theorem Inv.reap (hs : Inv J s posted) :
    Outcome pageCount J posted s .reap (clientStep pageCount J s .reap) := by
  simp only [clientStep]
  split
  · rename_i hp
    cases hcq : s.cq with
    | nil => exact Or.inl disabled_harmless
    | cons c rest =>
      obtain ⟨spent,howned⟩ := hs.owned
      have hlive := howned.live (a := c.userData) (by simp [State.inFlight,hcq])
      have hgone : ([c.userData] ++ (s.senders ++ s.receivers ++ rest.map Cqe.userData)).Perm
          s.inFlight := by
        rw [State.inFlight,hcq,List.map_cons,List.singleton_append]
        exact List.perm_middle.symm
      have hstep : ClientIou.step pageCount J s.view .reap =
          .ok (ClientIou.consume s.view (completion s.heap c) (rest.map (completion s.heap))) := by
        have hview : s.view.cq = completion s.heap c :: rest.map (completion s.heap) := by
          rw [State.view,hcq]
          rfl
        simp only [ClientIou.step,hview]
        exact if_pos hp
      dsimp only
      unfold consume
      rw [access_ok hlive]
      change Outcome pageCount J posted s .reap (if c.res < 0 then _ else _)
      split
      · rename_i hneg
        refine hs.silent (hstep.trans (congrArg Except.ok ?_)) rfl rfl [] (List.Perm.refl _)
          (fun a ha => ha) (fun a ha => ha) rfl
        cases hheader : s.heap.header c.userData <;>
          simp [ClientIou.consume,completion,hheader,Completion.res,hneg,State.view]
      · rename_i hpos
        refine hs.silent (hstep.trans (congrArg Except.ok ?_)) rfl rfl [c.userData] hgone
          (fun a ha => ha) (fun a ha => ha) rfl
        cases hheader : s.heap.header c.userData <;>
          simp [ClientIou.consume,completion,hheader,Completion.res,Completion.isReceive,hpos,
            State.view]
  · exact Or.inl disabled_harmless

theorem Inv.next (hs : Inv J s posted) :
    Outcome pageCount J posted s .next (clientStep pageCount J s .next) := by
  simp only [clientStep]
  split
  · rename_i hp
    exact hs.silent (if_pos hp) rfl rfl [] (List.Perm.refl _) (fun a ha => ha) (fun a ha => ha) rfl
  · exact Or.inl disabled_harmless

theorem Inv.send (hs : Inv J s posted) (res : ℤ) :
    Outcome pageCount J posted s (.send res) (clientStep pageCount J s (.send res)) := by
  simp only [clientStep]
  split
  · exact Or.inl disabled_harmless
  · rename_i req j rest hsends
    split
    · rename_i hactive
      refine hs.silent ?_ rfl rfl [] ?_ ?_ (fun a ha => ha) rfl
      · have hview : s.view.sends = j :: (rest ++ s.sq.filterMap Sqe.sending).map Prod.snd := by
          simp [State.view,hsends]
        simp only [ClientIou.step,hview]
        refine (if_pos hactive).trans ?_
        simp [State.view]
      · refine List.perm_iff_count.mpr fun a => ?_
        simp only [State.inFlight,State.senders,State.receivers,hsends,List.nil_append,
          List.map_append,List.map_cons,List.map_nil,List.cons_append,List.count_append,
          List.count_cons,List.count_nil]
        omega
      · intro a ha
        simp only [State.senders,hsends,List.map_append,List.map_cons,List.map_nil,List.mem_append,
          List.mem_cons] at ha ⊢
        tauto
    · exact Or.inl disabled_harmless

theorem Inv.postSend (hs : Inv J s posted) (i : ℕ) :
    Outcome pageCount J posted s (.postSend i) (clientStep pageCount J s (.postSend i)) := by
  simp only [clientStep]
  split
  · exact Or.inl disabled_harmless
  · rename_i c hi
    split
    · rename_i hactive
      have hperm := (Ring.perm_cons_eraseIdx hi).map Cqe.userData
      refine hs.silent ?_ rfl rfl [] ?_ ?_ (fun a ha => ha) rfl
      · have hsend := hs.senders c.userData (by
          simp only [State.senders,List.mem_append]
          exact Or.inr (List.mem_map_of_mem (List.mem_of_getElem? hi)))
        have hview : s.view.sendDone[i]? = some c.res := by
          simp [State.view,hi]
        simp only [ClientIou.step,hview]
        refine (if_pos hactive).trans ?_
        simp [State.view,List.eraseIdx_map,completion_send hsend]
      · refine List.perm_iff_count.mpr fun a => ?_
        have hcount := hperm.count_eq a
        simp only [State.inFlight,State.senders,State.receivers,List.nil_append,
          List.map_append,List.map_cons,List.map_nil,List.count_append,
          List.count_cons,List.count_nil] at hcount ⊢
        omega
      · intro a ha
        simp only [State.senders,List.mem_append] at ha ⊢
        refine ha.imp_right fun ha => ?_
        obtain ⟨d,hd,rfl⟩ := List.mem_map.mp ha
        exact List.mem_map_of_mem (List.mem_of_mem_eraseIdx hd)
    · exact Or.inl disabled_harmless

theorem Inv.receive (hs : Inv J s posted) (r : ReadResult) :
    Outcome pageCount J posted s (.receive r) (clientStep pageCount J s (.receive r)) := by
  simp only [clientStep]
  split
  · exact Or.inl disabled_harmless
  · rename_i req k rest hreceives
    have hview : s.view.receives = k :: (rest ++ s.sq.filterMap Sqe.receiving).map Prod.snd := by
      simp [State.view,hreceives]
    have hmoved (res : ℤ) (responses : ℕ → List UInt8) (stream : List UInt8) :
        (State.inFlight { s with
          receives := rest
          receiveDone := s.receiveDone ++ [⟨req,res⟩]
          responses := responses
          stream := stream }).Perm s.inFlight := by
      refine List.perm_iff_count.mpr fun a => ?_
      simp only [State.inFlight,State.senders,State.receivers,hreceives,
        List.map_append,List.map_cons,List.map_nil,List.cons_append,List.count_append,
        List.count_cons,List.count_nil]
      omega
    have hmem (res : ℤ) (responses : ℕ → List UInt8) (stream : List UInt8) :
        ∀ a ∈ State.receivers { s with
          receives := rest
          receiveDone := s.receiveDone ++ [⟨req,res⟩]
          responses := responses
          stream := stream }, a ∈ s.receivers := by
      intro a ha
      simp only [State.receivers,hreceives,List.map_append,List.map_cons,List.map_nil,
        List.mem_append,List.mem_cons] at ha ⊢
      tauto
    split
    · rename_i bs
      split
      · rename_i hbs
        refine hs.silent ?_ rfl rfl [] (hmoved _ _ _) (fun a ha => ha) (hmem _ _ _) rfl
        simp only [ClientIou.step,hview]
        refine (if_pos hbs).trans ?_
        simp [State.view]
      · exact Or.inl disabled_harmless
    · split
      · rename_i hactive
        refine hs.silent ?_ rfl rfl [] (hmoved _ _ _) (fun a ha => ha) (hmem _ _ _) rfl
        simp only [ClientIou.step,hview]
        refine (if_pos hactive).trans ?_
        simp [State.view]
      · exact Or.inl disabled_harmless

theorem Inv.postReceive (hs : Inv J s posted) (i : ℕ) :
    Outcome pageCount J posted s (.postReceive i) (clientStep pageCount J s (.postReceive i)) := by
  simp only [clientStep]
  split
  · exact Or.inl disabled_harmless
  · rename_i c hi
    split
    · rename_i hactive
      have hperm := (Ring.perm_cons_eraseIdx hi).map Cqe.userData
      refine hs.silent ?_ rfl rfl [] ?_ (fun a ha => ha) ?_ rfl
      · have hrecv := hs.receivers c.userData (by
          simp only [State.receivers,List.mem_append]
          exact Or.inr (List.mem_map_of_mem (List.mem_of_getElem? hi)))
        have hview : s.view.receiveDone[i]? = some c.res := by
          simp [State.view,hi]
        simp only [ClientIou.step,hview]
        refine (if_pos hactive).trans ?_
        simp [State.view,List.eraseIdx_map,completion_receive hrecv]
      · refine List.perm_iff_count.mpr fun a => ?_
        have hcount := hperm.count_eq a
        simp only [State.inFlight,State.senders,State.receivers,List.nil_append,
          List.map_append,List.map_cons,List.map_nil,List.count_append,
          List.count_cons,List.count_nil] at hcount ⊢
        omega
      · intro a ha
        simp only [State.receivers,List.mem_append] at ha ⊢
        refine ha.imp_right fun ha => ?_
        obtain ⟨d,hd,rfl⟩ := List.mem_map.mp ha
        exact List.mem_map_of_mem (List.mem_of_mem_eraseIdx hd)
    · exact Or.inl disabled_harmless

theorem Inv.batch (hs : Inv J s posted) :
    Outcome pageCount J posted s .batch (clientStep pageCount J s .batch) := by
  by_cases hp : s.phase = .sending
  · obtain ⟨count,hb⟩ := hs.batching
    obtain ⟨hposted,hlt,hu⟩ := hb.sending hp
    have hlt : s.i < J.stop := hlt
    have hposted : posted = s.i := hposted
    have hstart : J.start ≤ s.i := hb.start_le
    have hend := batchEnd_eq hlt
    have hsize : batchSize = 64 := rfl
    by_cases hpc : pageCount = 0
    · have hfirst : batchEnd J s.i - s.i ≠ 0 := by omega
      obtain ⟨n,hn⟩ := Nat.exists_eq_succ_of_ne_zero hfirst
      simp only [clientStep,if_pos hp,sendRequests,hn,List.range'_succ,List.foldlM_cons,
        sendRequest,if_pos hpc]
      exact Or.inr ⟨rfl,hpc⟩
    · obtain ⟨spent,howned⟩ := hs.owned
      rcases batch_cases hs hp hpc howned with
        herr | ⟨new,new',m,hnew,hnew',hok,howned',hkept,hsend,hrecv⟩
      · rw [herr]
        exact Or.inl (Or.inr rfl)
      · rw [hok]
        have hsq := hs.drained hu
        obtain ⟨hsenders,hreceivers⟩ := batched_requests pageCount m hsq hnew hnew'
        have hflight (a : Addr) (ha : a ∈ s.inFlight) : m.header a = s.heap.header a :=
          hkept a (List.mem_append_right _ ha)
        have hstep : ClientIou.step pageCount J s.view .batch =
            .ok (batched pageCount J s new new' m).view := by
          rw [view_batched m hsq hnew hnew' fun c hc => hflight _ (by
            simp only [State.inFlight,List.mem_append]
            exact Or.inr (List.mem_map_of_mem hc))]
          exact (if_pos hp).trans (if_neg hpc)
        refine ⟨hstep,⟨spent,?_⟩,?_,?_,?_,?_,⟨_,hb.step hstep⟩,?_⟩
        · refine howned'.perm (List.perm_iff_count.mpr fun a => ?_)
          have hs' := hsenders.count_eq a
          have hr' := hreceivers.count_eq a
          rw [State.inFlight]
          simp only [State.inFlight,List.count_append] at hs' hr' ⊢
          change _ = _ + (_ + (s.cq.map Cqe.userData).count a)
          omega
        · intro a ha
          rcases List.mem_append.mp (hsenders.mem_iff.mp ha) with ha | ha
          · exact hsend a ha
          · rw [← hs.senders a ha]
            exact hflight a (List.mem_append_left _ (List.mem_append_left _ ha))
        · intro a ha
          rcases List.mem_append.mp (hreceivers.mem_iff.mp ha) with ha | ha
          · exact hrecv a ha
          · rw [← hs.receivers a ha]
            exact hflight a (List.mem_append_left _ (List.mem_append_right _ ha))
        · exact batched_last m (by omega) hnew'
        · simp only [batched,List.length_append,List.length_zipWith,List.length_range']
          omega
        · have hlive := hs.live
          have hbefore := howned.length
          have hafter := howned'.length
          rw [List.length_append] at hafter
          rw [List.length_append] at hafter
          change m.live.length = 2 * (batchEnd J s.i - J.start)
          omega
  · simp only [clientStep,if_neg hp]
    exact Or.inl disabled_harmless

theorem Inv.take (hs : Inv J s posted) (h : step pageCount J s .take = .ok t) :
    t.view = s.view ∧ Inv J t posted := by
  obtain ⟨hview,hheap,hflight,hsend,hrecv,hsq⟩ := step_take h
  refine ⟨hview,hs.move hheap [] hflight (fun a ha => hsend.mem_iff.mp ha)
    (fun a ha => hrecv.mem_iff.mp ha) (Or.inr hsq) ?_⟩
  rw [hview]
  exact hs.batching

theorem take_error {why : Fault} (h : step pageCount J s .take = .error why) :
    why = .stop .disabled := by
  simp only [step] at h
  split at h <;> cases h
  rfl

theorem Inv.client (hs : Inv J s posted) (e : ClientIou.Event) :
    Outcome pageCount J posted s e (clientStep pageCount J s e) := by
  cases e with
  | batch => exact hs.batch
  | reap => exact hs.reap
  | next => exact hs.next
  | send res => exact hs.send res
  | postSend i => exact hs.postSend i
  | receive r => exact hs.receive r
  | postReceive i => exact hs.postReceive i

end Steps

section Runs
variable {header : Addr → EventType} {bytes : Addr → List UInt8} {supply : ℕ → Block EventType}
  {stream : List UInt8}

/-- What the thread that keeps the types sees of an event. -/
def plain : Event → Option ClientIou.Event
  | .take => none
  | .client e => some e

variable (J) in
theorem Inv.start (header : Addr → EventType) (bytes : Addr → List UInt8)
    (supply : ℕ → Block EventType) (stream : List UInt8) :
    Inv J (start J (Heap.fresh header bytes supply) stream) J.start where
  owned := ⟨[],List.Perm.refl []⟩
  senders := by simp [State.senders,OnHeap.start,testBatch]
  receivers := by simp [State.receivers,OnHeap.start,testBatch]
  queued := by simp [OnHeap.start,testBatch]
  room := Nat.zero_le _
  batching := ⟨0,Batching.start stream⟩
  live := by
    rw [Nat.sub_self]
    rfl

theorem Inv.step_ok (hs : Inv J s posted) {e : Event} (h : step pageCount J s e = .ok t) :
    (∃ posted', Inv J t posted') ∧
      execute (ClientIou.step pageCount J) s.view (plain e).toList = .ok t.view := by
  cases e with
  | take =>
    obtain ⟨hview,hi⟩ := hs.take h
    exact ⟨⟨_,hi⟩,congrArg Except.ok hview.symm⟩
  | client e =>
    have hout : Outcome pageCount J posted s e (clientStep pageCount J s e) := hs.client e
    rw [show clientStep pageCount J s e = .ok t from h] at hout
    exact ⟨⟨_,hout.2⟩,execute_cons_ok.mpr ⟨_,hout.1,rfl⟩⟩

theorem Inv.step_error (hs : Inv J s posted) {e : Event} {why : Fault}
    (h : step pageCount J s e = .error why) :
    why.Harmless ∨ why = .stop .divisionByZero ∧ pageCount = 0 := by
  cases e with
  | take =>
    rw [take_error h]
    exact Or.inl disabled_harmless
  | client e =>
    have hout : Outcome pageCount J posted s e (clientStep pageCount J s e) := hs.client e
    rwa [show clientStep pageCount J s e = .error why from h] at hout

theorem run_inv {es : List Event}
    (h : run pageCount J (Heap.fresh header bytes supply) stream es = .ok t) :
    (∃ posted, Inv J t posted) ∧ execute (ClientIou.step pageCount J) (ClientIou.start J stream)
      (es.filterMap plain) = .ok t.view := by
  rw [List.filterMap_eq_flatMap_toList]
  have hrun : execute (step pageCount J) (start J (Heap.fresh header bytes supply) stream) es =
      .ok t := h
  refine execute_simulates (P := fun s => ∃ posted, Inv J s posted) State.view ?_ hrun
    ⟨_,Inv.start J header bytes supply stream⟩
  rintro s e t ⟨posted,hi⟩ ht
  exact hi.step_ok ht

/-- A run follows no dangling pointer and always finds an entry in its queue of 512, of
which it has at most 128 in use; without pointers and queue it is one of the thread that
keeps the type with the completion. -/
theorem pointers_unnoticed (pageCount : ℕ) (J : Job) (header : Addr → EventType)
    (bytes : Addr → List UInt8) (supply : ℕ → Block EventType) (stream : List UInt8)
    (es : List Event) :
    match run pageCount J (Heap.fresh header bytes supply) stream es with
    | .ok s => execute (ClientIou.step pageCount J) (ClientIou.start J stream)
        (es.filterMap plain) = .ok s.view ∧ s.sq.length ≤ 128
    | .error why => (why = .stop .disabled ∨ why = .stop .mallocLive) ∨
        why = .stop .divisionByZero ∧ pageCount = 0 := by
  split
  · rename_i s h
    obtain ⟨⟨posted,hi⟩,hpath⟩ := run_inv h
    exact ⟨hpath,hi.room⟩
  · rename_i why h
    refine execute_error (P := fun s => ∃ posted, Inv J s posted)
      (Q := fun why => why.Harmless ∨ why = .stop .divisionByZero ∧ pageCount = 0) ?_ ?_ h
      ⟨_,Inv.start J header bytes supply stream⟩
    · rintro s e t ⟨posted,hi⟩ ht
      exact (hi.step_ok ht).1
    · rintro s e w ⟨posted,hi⟩ hw
      exact hi.step_error hw

/-- Where a batch ends that is under way, or the whole range. -/
def State.reached (J : Job) (s : State) : ℕ :=
  match s.phase with
  | .sending => s.i
  | .waiting => min J.stop (s.i + batchSize)
  | .done | .failed => J.stop

theorem Inv.reached (hs : Inv J s posted) (hp : s.phase ≠ .failed) : posted = s.reached J := by
  obtain ⟨count,hb⟩ := hs.batching
  unfold State.reached
  split
  · rename_i hphase
    exact (hb.sending hphase).1
  · rename_i hphase
    exact (hb.waiting hphase).1
  · rename_i hphase
    exact (hb.done hphase).1
  · rename_i hphase
    exact absurd hphase hp

/-- No request is given back: two are live for each index that is reached, and at the
end of the thread two for each index of its range. -/
theorem requests_leak {es : List Event}
    (h : run pageCount J (Heap.fresh header bytes supply) stream es = .ok t)
    (hp : t.phase ≠ .failed) : t.heap.live.length = 2 * (t.reached J - J.start) := by
  obtain ⟨⟨posted,hi⟩,-⟩ := run_inv h
  rw [hi.live,hi.reached hp]

/-- A thread for two indices, on an allocator that never hands out an address twice. -/
def smallRun (es : List Event) : Except Fault State :=
  run 1 ⟨3,5,by decide,by decide⟩
    (Heap.fresh (fun _ => .send) (fun _ => []) (fun k => ⟨k + 1,.send,[]⟩))
    (List.replicate (2 * sizeofResponse) 0) es

/-- Both requests are sent whole, and each receive takes a frame. -/
def twoIndices : List Event :=
  [.client .batch,.take,.client (.send 8),.take,.client (.send 8),.take,.take,
    .client (.postSend 0),.client .reap,
    .client (.receive (.bytes (List.replicate sizeofResponse 0))),.client (.postReceive 0),
    .client .reap,.client (.postSend 0),.client .reap,
    .client (.receive (.bytes (List.replicate sizeofResponse 0))),.client (.postReceive 0),
    .client .reap,.client .next]

theorem requests_leak_twoIndices : ∃ t, smallRun twoIndices = .ok t ∧ t.phase = .done ∧
    t.stream = [] ∧ t.heap.live.length = 4 := by
  have hrun : yields (smallRun twoIndices)
      (fun t => decide (t.phase = .done ∧ t.stream = [])) = true := by decide +kernel
  obtain ⟨t,ht,htest⟩ := exists_of_yields hrun
  obtain ⟨hp,hstream⟩ := of_decide_eq_true htest
  refine ⟨t,ht,hp,hstream,?_⟩
  rw [requests_leak ht (by rw [hp]; decide),State.reached,hp]
  rfl

end Runs

end FastNet.GetPage.ClientIou.OnHeap
