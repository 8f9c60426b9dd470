import FastNet.GetPage.EndToEnd
import FastNet.GetPage.IouConnection
import FastNet.GetPage.ServerIouServing

/-! # A handler of the io_uring server on its connection

The handler is given whole requests, in order and all for pages it has. What it sends
is then a response for each, though not always the right one: a write is executed with
the variables of the request handled last, so it is the response to that request or to
a later one.
-/
namespace FastNet.GetPage.IouHandler
open Execution IouThread
open IouConnection (Queued)

/-- The requests on their way, and the handler. -/
abbrev Link : Type := IouConnection.Link ServerIou.State

/-- A read that is executed, or another event of the handler or its kernel. -/
inductive Event
  | arrive
  | server (e : ServerIou.Event)

variable (pageCount serverPages : ℕ) (strategy : FillingStrategy) (malloc : ℕ → List UInt8)

def step (l : Link) : Event → Except Stop Link
  | .arrive =>
    if sizeofRequest ≤ l.toServer.length then
      (ServerIou.step (block serverPages strategy) serverPages malloc l.server
        (.read (.bytes (l.toServer.take sizeofRequest)))).map (fun server =>
          ⟨l.toServer.drop sizeofRequest,server⟩)
    else .error .disabled
  | .server (.read _) => .error .disabled
  | .server e =>
    (ServerIou.step (block serverPages strategy) serverPages malloc l.server e).map
      (fun server => { l with server := server })

def start (response : GetPageResponse) (iov : ServerIou.IoVec × ServerIou.IoVec) : Link :=
  ⟨[],ServerIou.start malloc response iov⟩

/-- The steps that the handler has left, six for a request. -/
def work (l : Link) : ℕ :=
  6 * (l.toServer.length / sizeofRequest) + 5 * l.server.readDone.length +
    4 * l.server.cq.countP (·.arrival.isSome) + 3 * l.server.writes.length +
    2 * l.server.writeDone.length + l.server.cq.countP (·.arrival.isNone)

variable {pageCount serverPages strategy malloc} {l l' : Link}

section Requests

theorem step_error {e : Event} {why : Stop} (h : step serverPages strategy malloc l e = .error why) :
    why = .disabled := by
  have hmap {f : ServerIou.State → Link} {d : ServerIou.Event}
      (hd : (ServerIou.step (block serverPages strategy) serverPages malloc l.server d).map f =
        .error why) : why = .disabled := by
    cases hu : ServerIou.step (block serverPages strategy) serverPages malloc l.server d with
    | ok u => simp [hu,Except.map] at hd
    | error w =>
      rw [hu] at hd
      cases hd
      exact ServerIou.step_error hu
  cases e with
  | arrive =>
    simp only [step] at h
    split at h
    · exact hmap h
    · exact (Except.error.inj h).symm
  | server d =>
    cases d with
    | read r => exact (Except.error.inj h).symm
    | postRead | write | postWrite | serve => exact hmap h

end Requests

section Handling

variable (pageCount serverPages strategy) in
/-- An executed write: the request handled last, and the bytes of its response. -/
def entry (j : ℕ) : GetPageRequest × List UInt8 :=
  (Client.query pageCount j,EndToEnd.answerBytes pageCount serverPages strategy j)

variable (pageCount serverPages strategy) in
/-- Of the `sent` requests from `first` on, `served` have been read; `late` tells for each
executed write the request whose response it was. -/
structure Handling (first : ℕ) (l : Link) (sent served : ℕ) (late : List ℕ) : Prop where
  brought : l.server.brought = (List.range' first served).map (Client.query pageCount)
  queued : Queued pageCount first l sent served
  serving : ServerIou.Serving (block serverPages strategy) serverPages l.server
    (late.map (entry pageCount serverPages strategy))
  late_ge : ∀ k j, late[k]? = some j → first + k ≤ j
  late_lt : ∀ j ∈ late, j < first + l.server.requests.length

variable {first sent served : ℕ} {late : List ℕ}

theorem Handling.start (response : GetPageResponse) (iov : ServerIou.IoVec × ServerIou.IoVec) :
    Handling pageCount serverPages strategy first (start malloc response iov) 0 0 [] := by
  refine ⟨rfl,⟨le_rfl,rfl⟩,.start response iov,?_,?_⟩
  · intro k j hk
    cases hk
  · intro j hj
    cases hj

theorem Handling.length_late (h : Handling pageCount serverPages strategy first l sent served late) :
    late.length = l.server.executed ∧ l.server.executed ≤ l.server.requests.length := by
  have hle := h.serving.log.executed_le
  have hlen := h.serving.log.chunks.length_eq
  rw [List.length_map,List.length_take] at hlen
  exact ⟨by omega,hle⟩

theorem Handling.length_requests
    (h : Handling pageCount serverPages strategy first l sent served late) :
    l.server.requests.length + l.server.arrivals.length = served := by
  have hlen := congrArg List.length h.brought
  rwa [ServerIou.State.brought,List.length_append,List.length_map,List.length_map,
    List.length_range'] at hlen

theorem Handling.request (h : Handling pageCount serverPages strategy first l sent served late)
    {k : ℕ} {q : GetPageRequest} (hk : l.server.requests[k]? = some q) :
    q = Client.query pageCount (first + k) := by
  obtain ⟨hlt,-⟩ := List.getElem?_eq_some_iff.mp hk
  have hlen := h.length_requests
  have hall := congrArg (fun qs => qs[k]?) h.brought
  rw [ServerIou.State.brought,List.getElem?_append_left hlt,hk,List.getElem?_map,List.getElem?_range' (by omega),
    Option.map_some,Nat.one_mul] at hall
  exact Option.some.inj hall

theorem length_of_answers : ∀ frame ∈ late.map (EndToEnd.answerBytes pageCount serverPages strategy),
    frame.length = sizeofResponse := by
  intro frame hf
  obtain ⟨j,-,rfl⟩ := List.mem_map.mp hf
  exact EndToEnd.length_answerBytes j

/-- What the handler has sent, in responses. -/
theorem Handling.sent_eq (h : Handling pageCount serverPages strategy first l sent served late) :
    l.server.sent =
      (late.map (EndToEnd.answerBytes pageCount serverPages strategy)).flatten := by
  rw [h.serving.log.sent,List.map_map]
  rfl

variable (pageCount serverPages strategy) in
/-- The handler goes on and has less to do; it has sent the response to one request or
nothing. -/
def Next (first : ℕ) (l : Link) (sent : ℕ) (late : List ℕ) (l' : Link) : Prop :=
  ∃ served' new, Handling pageCount serverPages strategy first l' sent served' (late ++ new) ∧
    l'.server.sent = l.server.sent ++
      (new.map (EndToEnd.answerBytes pageCount serverPages strategy)).flatten ∧
    new.length ≤ 1 ∧ work l' < work l

/-- A step that sends nothing. -/
theorem Handling.silent {served' : ℕ}
    (h : Handling pageCount serverPages strategy first l' sent served' late)
    (hsent : l'.server.sent = l.server.sent) (hwork : work l' < work l) :
    Next pageCount serverPages strategy first l sent late l' := by
  refine ⟨served',[],?_,?_,Nat.zero_le 1,hwork⟩
  · rwa [List.append_nil]
  · rw [List.map_nil,List.flatten_nil,List.append_nil,hsent]

/-- A step that the client cannot see. -/
theorem Handling.quiet (h : Handling pageCount serverPages strategy first l sent served late)
    {u : ServerIou.State}
    (hu : ServerIou.Serving (block serverPages strategy) serverPages u
      (late.map (entry pageCount serverPages strategy)) ∧ ServerIou.Quiet l.server u) :
    Next pageCount serverPages strategy first l sent late { l with server := u } := by
  obtain ⟨hserving,hquiet⟩ := hu
  refine Handling.silent (?_ : Handling pageCount serverPages strategy first { l with server := u }
    sent served late) hquiet.sent ?_
  · refine ⟨hquiet.brought.trans h.brought,⟨h.queued.served_le,h.queued.toServer⟩,hserving,
      h.late_ge,?_⟩
    intro j hj
    exact (h.late_lt j hj).trans_le (Nat.add_le_add_left hquiet.handled.length_le _)
  · have hfalls := hquiet.moved.falls
    simp only [ServerIou.State.stages] at hfalls
    simp only [work]
    omega

variable (h : Handling pageCount serverPages strategy first l sent served late)
  {u : ServerIou.State}
include h

theorem Handling.arrive (hlen : sizeofRequest ≤ l.toServer.length)
    (hs : ServerIou.step (block serverPages strategy) serverPages malloc l.server
      (.read (.bytes (l.toServer.take sizeofRequest))) = .ok u) :
    Next pageCount serverPages strategy first l sent late
      ⟨l.toServer.drop sizeofRequest,u⟩ := by
  obtain ⟨htake,hqueued,hdiv⟩ := h.queued.take hlen u
  have hsize : (Client.request pageCount (first + served)).bytes.length = sizeofRequest :=
    GetPageRequest.length_bytes _
  rw [htake] at hs
  obtain ⟨hserving,hsent,-,hrequests,harrivals,hstages⟩ := h.serving.arrive hsize hs
  rw [GetPageRequest.ofBytes_bytes,Client.request_toHostOrder] at harrivals
  refine Handling.silent (?_ : Handling pageCount serverPages strategy first _ sent (served + 1)
    late) hsent ?_
  · refine ⟨?_,hqueued,hserving,h.late_ge,?_⟩
    · have hbrought := h.brought
      rw [ServerIou.State.brought] at hbrought ⊢
      rw [hrequests,harrivals,← List.append_assoc,hbrought,List.range'_concat,List.map_append,
        Nat.one_mul]
      rfl
    · rw [hrequests]
      exact h.late_lt
  · simp only [ServerIou.State.stages,ServerIou.Stages.mk.injEq] at hstages
    simp only [work]
    omega

omit h in
theorem query_valid (hpc : 0 < pageCount) (hserver : pageCount ≤ serverPages) (j : ℕ) :
    ¬ serverPages ≤ (Client.query pageCount j).pageNumber.toNat := by
  have hlt := Nat.mod_lt j hpc
  have hle := Nat.mod_le (j % pageCount) 4294967296
  simp only [Client.query,UInt32.toNat_ofNat']
  omega

variable (hpages : pageSize * serverPages < sizeMod) (hpc : 0 < pageCount)
  (hserver : pageCount ≤ serverPages)
include hpages hpc hserver

/-- A write is executed with the variables of the request handled last, and sends the
response to that one. -/
theorem Handling.write
    (hs : ServerIou.step (block serverPages strategy) serverPages malloc l.server .write = .ok u) :
    Next pageCount serverPages strategy first l sent late { l with server := u } := by
  obtain ⟨iovCount,rest,hw,rfl⟩ := ServerIou.step_write hs
  obtain ⟨a,q,ha,hq,-,hlog⟩ := h.serving.log.write hw
    (l.server.writeDone ++ [((ServerIou.gatherAll (block serverPages strategy) l.server
      iovCount).length : ℤ)])
  obtain ⟨hlate,-⟩ := h.length_late
  obtain ⟨hlt,hget⟩ := List.getElem?_eq_some_iff.mp hq
  obtain ⟨n,hn⟩ : ∃ n, l.server.requests.length = n + 1 := Nat.exists_eq_add_one.mpr (by omega)
  have hslots := h.serving.log.slots a ha
  rw [List.getLast?_eq_getElem?,hn,Nat.add_sub_cancel] at ha
  obtain rfl := h.request ha
  have hvectors := h.serving.log.writes
  rw [hw,List.drop_eq_getElem_cons hlt,List.map_cons,hget,h.request hq] at hvectors
  obtain ⟨hcount,-⟩ := List.cons.inj hvectors
  have hsame : iovCount = ServerIou.iovCountOf serverPages (Client.query pageCount (first + n)) := by
    rw [hcount,ServerIou.iovCountOf,ServerIou.iovCountOf,if_neg (query_valid hpc hserver _),
      if_neg (query_valid hpc hserver _)]
  have hbytes : ServerIou.gatherAll (block serverPages strategy) l.server iovCount =
      EndToEnd.answerBytes pageCount serverPages strategy (first + n) := by
    rw [hsame,(ServerIou.gatherAll_slots hslots).2 rfl,
      Server.respond_construct strategy serverPages hpages]
    rfl
  rw [hbytes] at hlog ⊢
  refine ⟨served,[first + n],?_,by simp,le_rfl,?_⟩
  · refine ⟨h.brought,⟨h.queued.served_le,h.queued.toServer⟩,⟨?_,h.serving.whole,h.serving.reads,
      h.serving.running⟩,?_,?_⟩
    · rw [List.map_append]
      exact hlog
    · intro k j hk
      rcases lt_trichotomy k late.length with hlt | rfl | hgt
      · rw [List.getElem?_append_left hlt] at hk
        exact h.late_ge k j hk
      · rw [List.getElem?_concat_length] at hk
        cases hk
        omega
      · rw [List.getElem?_eq_none (by simp; omega)] at hk
        cases hk
    · intro j hj
      rcases List.mem_append.mp hj with hj | hj
      · exact h.late_lt j hj
      · rw [List.mem_singleton.mp hj]
        change first + n < first + l.server.requests.length
        omega
  · simp only [work,hw,List.length_append,List.length_cons,List.length_nil]
    omega

/-- Each step of the handler or its kernel. -/
theorem Handling.step {e : Event} (hs : IouHandler.step serverPages strategy malloc l e = .ok l') :
    Next pageCount serverPages strategy first l sent late l' := by
  cases e with
  | arrive =>
    simp only [IouHandler.step] at hs
    split at hs
    · rename_i hlen
      obtain ⟨u,hu,rfl⟩ := map_ok.mp hs
      exact h.arrive hlen hu
    · cases hs
  | server e =>
    cases e with
    | read r => cases hs
    | postRead =>
      obtain ⟨u,hu,rfl⟩ := map_ok.mp hs
      exact h.quiet (h.serving.postRead hu)
    | write =>
      obtain ⟨u,hu,rfl⟩ := map_ok.mp hs
      exact h.write hpages hpc hserver hu
    | postWrite =>
      obtain ⟨u,hu,rfl⟩ := map_ok.mp hs
      exact h.quiet (h.serving.postWrite hu)
    | serve =>
      obtain ⟨u,hu,rfl⟩ := map_ok.mp hs
      exact h.quiet (h.serving.serve hu)

omit hpages hpc hserver in
/-- A handler that cannot go on has sent a response for each request. -/
theorem Handling.enabled (malloc : ℕ → List UInt8) :
    (∃ e l', IouHandler.step serverPages strategy malloc l e = .ok l') ∨
      l.server.sent.length = sizeofResponse * sent := by
  cases hcq : l.server.cq with
  | cons x rest =>
    refine Or.inl ⟨.server .serve,?_⟩
    simp only [IouHandler.step,ServerIou.step,h.serving.running,hcq,Bool.false_eq_true,if_false]
    cases x with
    | read res buffer =>
      dsimp only
      split <;> exact ⟨_,rfl⟩
    | write res => exact ⟨_,rfl⟩
  | nil =>
    cases hdone : l.server.readDone with
    | cons a rest =>
      refine Or.inl ⟨.server .postRead,?_⟩
      simp only [IouHandler.step,ServerIou.step,hdone]
      exact ⟨_,rfl⟩
    | nil =>
      cases hwrites : l.server.writes with
      | cons k rest =>
        refine Or.inl ⟨.server .write,?_⟩
        simp only [IouHandler.step,ServerIou.step,hwrites]
        exact ⟨_,rfl⟩
      | nil =>
        have harr : l.server.arrivals = [] := by
          rw [ServerIou.State.arrivals,hcq,hdone]
          rfl
        by_cases hlen : sizeofRequest ≤ l.toServer.length
        · have hreads := h.serving.reads
          rw [harr,List.length_nil] at hreads
          obtain ⟨buffer,rest,hbuffer⟩ := List.exists_cons_of_length_eq_add_one hreads
          refine Or.inl ⟨.arrive,?_⟩
          simp only [IouHandler.step,if_pos hlen,ServerIou.step,hbuffer]
          exact ⟨_,rfl⟩
        · have hwaiting := h.queued.waiting
          have hrequests := h.length_requests
          obtain ⟨hlate,hexec⟩ := h.length_late
          have hqueue := congrArg List.length h.serving.log.writes
          rw [hwrites,List.length_nil,List.length_map,List.length_drop] at hqueue
          rw [harr,List.length_nil] at hrequests
          have hserved := h.queued.served_le
          have hall : late.length = sent := by
            unfold sizeofRequest at hwaiting hlen
            omega
          refine Or.inr ?_
          rw [h.sent_eq,Bytes.length_flatten_of_all length_of_answers,List.length_map,hall,
            Nat.mul_comm]

end Handling

end FastNet.GetPage.IouHandler
