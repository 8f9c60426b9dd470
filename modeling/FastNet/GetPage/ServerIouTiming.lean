import FastNet.GetPage.ServerIou

/-! # When the io_uring page server sends what the blocking one sends

Each executed write starts with the header of the request handled last, so the
stream shows which request that was. It is the stream of the blocking server just
when this is, at every write, the request that the write answers.
-/
namespace FastNet.GetPage.ServerIou
open Execution
variable {memoryBlock : MemoryBlock} {pageCount : ℕ} {malloc : ℕ → List UInt8}

variable (memoryBlock pageCount) in
/-- Bytes sent for request `q` while the variables held those of `w.1`. -/
def Chunk (w : GetPageRequest × List UInt8) (q : GetPageRequest) : Prop :=
  (Server.responseHeader (Server.statusOf pageCount w.1) w.1).bytes <+: w.2 ∧
    (w.1 = q → w.2 = Server.respond memoryBlock pageCount q)

/-- The stream of the chunks is that of the answers only if every chunk was sent
for the request it holds. -/
theorem flatten_eq_iff {ws : List (GetPageRequest × List UInt8)} {qs : List GetPageRequest}
    (h : List.Forall₂ (Chunk memoryBlock pageCount) ws qs) :
    (ws.map Prod.snd).flatten = (qs.map (Server.respond memoryBlock pageCount)).flatten ↔
      ws.map Prod.fst = qs := by
  induction h with
  | nil => simp
  | @cons w q ws qs hw _ ih =>
    simp only [List.map_cons,List.flatten_cons,List.cons.injEq]
    constructor
    · intro heq
      have h1 := hw.1.trans (List.prefix_append w.2 (ws.map Prod.snd).flatten)
      have h2 := (Server.header_prefix_respond memoryBlock pageCount q).trans
        (List.prefix_append _ (qs.map (Server.respond memoryBlock pageCount)).flatten)
      rw [heq] at h1
      have hheader := List.prefix_of_prefix_length_le h1 h2 (by simp)
      have hbytes := hheader.eq_of_length (by simp)
      have hreq := Server.responseHeader_injective
        (GetPageResponseHeader.bytes_injective hbytes)
      rw [hw.2 hreq] at heq
      exact ⟨hreq,ih.mp (List.append_cancel_left heq)⟩
    · rintro ⟨hreq,hrest⟩
      rw [hw.2 hreq,ih.mpr hrest]

variable (memoryBlock pageCount) in
/-- The writes executed so far, each with the request that was handled last. -/
structure Log (s : State) (ws : List (GetPageRequest × List UInt8)) : Prop where
  sent : s.sent = (ws.map Prod.snd).flatten
  chunks : List.Forall₂ (Chunk memoryBlock pageCount) ws (s.requests.take s.executed)
  executed_le : s.executed ≤ s.requests.length
  writes : s.writes = (s.requests.drop s.executed).map (iovCountOf pageCount)
  headers : s.headers =
    s.requests.map (fun q => Server.responseHeader (Server.statusOf pageCount q) q)
  slots : ∀ q, s.requests.getLast? = some q → Slots pageCount s q

section Steps
variable {s t : State} {ws : List (GetPageRequest × List UInt8)}

theorem Log.congr (h : Log memoryBlock pageCount s ws) (hsent : t.sent = s.sent)
    (hreq : t.requests = s.requests) (hexec : t.executed = s.executed)
    (hwrites : t.writes = s.writes) (hheaders : t.headers = s.headers)
    (hresp : t.response = s.response) (hiov : t.iov = s.iov) :
    Log memoryBlock pageCount t ws := by
  refine ⟨hsent.trans h.sent,?_,?_,?_,?_,?_⟩
  · rw [hreq,hexec]
    exact h.chunks
  · rw [hreq,hexec]
    exact h.executed_le
  · rw [hwrites,hreq,hexec]
    exact h.writes
  · rw [hheaders,hreq]
    exact h.headers
  · intro q hq
    rw [hreq] at hq
    have hslots := h.slots q hq
    constructor
    · rw [hresp,hiov]
      exact hslots.invalid
    · rw [hresp,hiov]
      exact hslots.valid

variable (malloc) in
theorem Log.respond (h : Log memoryBlock pageCount s ws) (buffer : List UInt8) :
    Log memoryBlock pageCount (respond pageCount malloc s buffer) ws ∧
      (respond pageCount malloc s buffer).requests.take
        (respond pageCount malloc s buffer).executed = s.requests.take s.executed := by
  obtain ⟨hsent,hexec⟩ := respond_frame pageCount malloc s buffer
  have hle := h.executed_le
  have htake : (s.requests ++ [(GetPageRequest.ofBytes buffer).toHostOrder]).take s.executed =
      s.requests.take s.executed := List.take_append_of_le_length hle
  refine ⟨⟨hsent.trans h.sent,?_,?_,?_,?_,?_⟩,?_⟩
  · rw [respond_requests,hexec,htake]
    exact h.chunks
  · rw [respond_requests,hexec,List.length_append]
    omega
  · rw [respond_writes,respond_requests,hexec,List.drop_append_of_le_length hle,h.writes]
    simp
  · rw [respond_headers,respond_requests,h.headers]
    simp
  · intro q hq
    rw [respond_requests,List.getLast?_concat] at hq
    cases hq
    exact respond_slots s buffer
  · rw [respond_requests,hexec,htake]

theorem Log.write (h : Log memoryBlock pageCount s ws) {iovCount : ℕ} {rest : List ℕ}
    (hw : s.writes = iovCount :: rest) (done : List ℤ) :
    ∃ a q, s.requests.getLast? = some a ∧ s.requests[s.executed]? = some q ∧
      s.requests.take (s.executed + 1) = s.requests.take s.executed ++ [q] ∧
      Log memoryBlock pageCount { s with
        writes := rest
        writeDone := done
        sent := s.sent ++ gatherAll memoryBlock s iovCount
        executed := s.executed + 1 } (ws ++ [(a,gatherAll memoryBlock s iovCount)]) := by
  have hwrites := h.writes
  rw [hw] at hwrites
  have hlt : s.executed < s.requests.length := by
    by_contra hge
    rw [List.drop_eq_nil_of_le (by omega)] at hwrites
    cases hwrites
  have hdrop : s.requests.drop s.executed =
      s.requests[s.executed] :: s.requests.drop (s.executed + 1) := List.drop_eq_getElem_cons hlt
  rw [hdrop,List.map_cons] at hwrites
  obtain ⟨rfl,hrest⟩ := List.cons.inj hwrites
  have hne : s.requests ≠ [] := by
    rintro hnil
    simp [hnil] at hlt
  have htake : s.requests.take (s.executed + 1) =
      s.requests.take s.executed ++ [s.requests[s.executed]] := List.take_succ_eq_append_getElem hlt
  have hlast := List.getLast?_eq_getLast_of_ne_nil hne
  refine ⟨_,_,hlast,List.getElem?_eq_getElem hlt,htake,?_⟩
  have hslots := h.slots _ hlast
  refine ⟨?_,?_,hlt,hrest,h.headers,?_⟩
  · simp [h.sent]
  · change List.Forall₂ _ _ (s.requests.take (s.executed + 1))
    rw [htake]
    exact List.rel_append h.chunks (.cons (gatherAll_slots hslots) .nil)
  · intro q hq
    exact ⟨(h.slots q hq).invalid,(h.slots q hq).valid⟩

theorem Log.start (response : GetPageResponse) (iov : IoVec × IoVec) :
    Log memoryBlock pageCount (start malloc response iov) [] :=
  ⟨rfl,.nil,Nat.le_refl 0,rfl,rfl,fun _ hq => by cases hq⟩

end Steps

section Runs
variable {s t : State} {es : List Event} {response : GetPageResponse} {iov : IoVec × IoVec}

theorem log_of_run
    (h : execute (step memoryBlock pageCount malloc) (start malloc response iov) es = .ok s) :
    ∃ ws, Log memoryBlock pageCount s ws ∧
      (Throughout (step memoryBlock pageCount malloc) Timely (start malloc response iov) es ↔
        ws.map Prod.fst = s.requests.take s.executed) := by
  refine execute_induction (P := fun es s => ∃ ws, Log memoryBlock pageCount s ws ∧
    (Throughout (step memoryBlock pageCount malloc) Timely (start malloc response iov) es ↔
      ws.map Prod.fst = s.requests.take s.executed)) ?_ ?_ h
  · exact ⟨[],Log.start response iov,by simp [throughout_nil,start]⟩
  · rintro es s e t hs ⟨ws,hlog,htimely⟩ hstep
    rw [throughout_concat hs,htimely]
    cases e with
    | read r =>
      obtain ⟨buffer,rest,-,rfl⟩ := step_read hstep
      exact ⟨ws,hlog.congr rfl rfl rfl rfl rfl rfl rfl,by simp [Timely]⟩
    | postRead =>
      obtain ⟨res,buffer,rest,-,rfl⟩ := step_postRead hstep
      exact ⟨ws,hlog.congr rfl rfl rfl rfl rfl rfl rfl,by simp [Timely]⟩
    | write =>
      obtain ⟨iovCount,rest,hw,rfl⟩ := step_write hstep
      obtain ⟨a,q,ha,hq,htake,hlog'⟩ := hlog.write hw
        (s.writeDone ++ [((gatherAll memoryBlock s iovCount).length : ℤ)])
      refine ⟨_,hlog',?_⟩
      have htime : Timely s .write ↔ a = q := by simp [Timely,ha,hq]
      change _ ↔ (ws ++ [_]).map Prod.fst = s.requests.take (s.executed + 1)
      rw [htake,htime,List.map_append,List.map_singleton]
      constructor
      · rintro ⟨hall,rfl⟩
        rw [hall]
      · intro hall
        obtain ⟨hall,haq⟩ := List.append_inj' hall rfl
        exact ⟨hall,List.singleton_inj.mp haq⟩
    | postWrite =>
      obtain ⟨res,rest,-,rfl⟩ := step_postWrite hstep
      exact ⟨ws,hlog.congr rfl rfl rfl rfl rfl rfl rfl,by simp [Timely]⟩
    | serve =>
      obtain ⟨-,⟨buffer,rest,-,rfl⟩ | ⟨res,buffer,rest,-,-,rfl⟩ | ⟨res,rest,-,rfl⟩⟩ :=
        step_serve hstep
      · exact ⟨ws,hlog.congr rfl rfl rfl rfl rfl rfl rfl,by simp [Timely]⟩
      · have hcongr : Log memoryBlock pageCount { s with cq := rest } ws :=
          hlog.congr rfl rfl rfl rfl rfl rfl rfl
        obtain ⟨hlog',htake⟩ := hcongr.respond malloc buffer
        refine ⟨ws,hlog',?_⟩
        rw [htake]
        simp [Timely]
      · exact ⟨ws,hlog.congr rfl rfl rfl rfl rfl rfl rfl,by simp [Timely]⟩

theorem handleClient_written
    (h : execute (step memoryBlock pageCount malloc) (start malloc response iov) es = .ok s)
    (hw : WholeReads es) :
    ((Server.handleClient memoryBlock pageCount (received es)).written.take s.executed) =
      (s.requests.take s.executed).map (Server.respond memoryBlock pageCount) := by
  obtain ⟨waiting,hsplit,-⟩ := reading_of_run h hw
  obtain ⟨ws,hlog,-⟩ := log_of_run h
  rw [Server.handleClient_eq,hsplit]
  change ((s.requests ++ waiting).map _).take s.executed = _
  rw [← List.map_take,List.take_append_of_le_length hlog.executed_le]

/-- The bytes sent are the first answers of the blocking server to the same reads
just when every write was executed while its own request was the latest. -/
theorem sent_iff_timely
    (h : execute (step memoryBlock pageCount malloc) (start malloc response iov) es = .ok s)
    (hw : WholeReads es) :
    s.sent = ((Server.handleClient memoryBlock pageCount (received es)).written.take
        s.executed).flatten ↔
      Throughout (step memoryBlock pageCount malloc) Timely (start malloc response iov) es := by
  obtain ⟨ws,hlog,htimely⟩ := log_of_run h
  rw [handleClient_written h hw,hlog.sent,htimely]
  exact flatten_eq_iff hlog.chunks

/-- Two pages. -/
def smallBlock : MemoryBlock := MemoryBlock.construct 2 (pseudoRandomFillingStrategy 42)

/-- The loop over them, on a stack that held nothing of use. -/
def smallStart : State := start (fun _ => []) .zero (⟨.response,0⟩,⟨.response,0⟩)

def smallRun (es : List Event) : Except Stop State :=
  execute (step smallBlock 2 (fun _ => [])) smallStart es

/-- Requests for pages 0 and 1, the first answered before the second is handled. -/
def promptEvents : List Event :=
  [.read (.bytes [0,0,0,0,0,0,0,0]),.postRead,.serve,.write,
    .read (.bytes [0,0,0,1,0,0,0,1]),.postRead,.serve,.write]

theorem sent_iff_timely_prompt : ∃ s, smallRun promptEvents = .ok s ∧ s.executed = 2 ∧
    Throughout (step smallBlock 2 (fun _ => [])) Timely smallStart promptEvents := by
  have hrun : yields (smallRun promptEvents) (fun s => s.executed = 2 &&
      s.sent = ((Server.handleClient smallBlock 2 (received promptEvents)).written.take
        s.executed).flatten) = true := by decide +kernel
  obtain ⟨s,hs,htest⟩ := exists_of_yields hrun
  simp only [Bool.and_eq_true,decide_eq_true_eq] at htest
  have hwhole : WholeReads promptEvents := by
    simp [WholeReads,received,promptEvents,sizeofRequest]
  exact ⟨s,hs,htest.1,(sent_iff_timely hs hwhole).mp htest.2⟩

/-- Requests for pages 0 and 1 are handled before the first answer is executed. -/
def lateEvents : List Event :=
  [.read (.bytes [0,0,0,0,0,0,0,0]),.postRead,.read (.bytes [0,0,0,1,0,0,0,1]),.postRead,.serve,
    .serve,.write,.write]

/-- Both answers are sent, and the stream is not that of the blocking server. -/
theorem late_writes_differ : WholeReads lateEvents ∧ ∃ s, smallRun lateEvents = .ok s ∧
    s.executed = 2 ∧ (Server.handleClient smallBlock 2 (received lateEvents)).written.length = 2 ∧
    s.sent ≠ (Server.handleClient smallBlock 2 (received lateEvents)).written.flatten := by
  have hrun : yields (smallRun lateEvents) (fun s => s.executed = 2 &&
      decide ((Server.handleClient smallBlock 2 (received lateEvents)).written.length = 2) &&
      decide (s.sent ≠ (Server.handleClient smallBlock 2 (received lateEvents)).written.flatten)) =
      true := by decide +kernel
  obtain ⟨s,hs,htest⟩ := exists_of_yields hrun
  simp only [Bool.and_eq_true,decide_eq_true_eq] at htest
  refine ⟨?_,s,hs,htest.1.1,htest.1.2,htest.2⟩
  simp [WholeReads,received,lateEvents,sizeofRequest]

end Runs

end FastNet.GetPage.ServerIou
