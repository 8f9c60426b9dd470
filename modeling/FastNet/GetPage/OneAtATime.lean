import FastNet.GetPage.EndToEnd
import FastNet.GetPage.ServerIouServing

/-! # The blocking client against the io_uring server

The client waits for each response, so the server has one request at a time, and a
write is executed while the variables it points to still hold that request. The pair
is then a refinement of the client with the blocking server: an executed write is the
answer, and what the server does besides cannot be seen.
-/
namespace FastNet.GetPage.OneAtATime
open Execution
open ServerIou (requestOf)

structure State where
  client : Client.State
  server : ServerIou.State
  toServer : List UInt8
  toClient : List UInt8

/-- A call of the client, a read of the server that is executed, or another event of
the server or its kernel. -/
inductive Event
  | send
  | arrive
  | server (e : ServerIou.Event)
  | read (k : ℕ)

/-- The server goes on, and what it has sent is on its way. -/
def State.deliver (s : State) (server : ServerIou.State) : State :=
  { s with server := server, toClient := s.toClient ++ server.sent.drop s.server.sent.length }

variable (numRequests pageCount serverPages : ℕ) (strategy : FillingStrategy)
  (malloc : ℕ → List UInt8)

def step (s : State) : Event → Except Stop State
  | .send => do
    let client ← Client.step numRequests pageCount strategy s.client (.send (some sizeofRequest))
    return { s with
      client := client
      toServer := s.toServer ++ (Client.request pageCount s.client.i).bytes }
  | .arrive =>
    if sizeofRequest ≤ s.toServer.length then do
      let server ← ServerIou.step (block serverPages strategy) serverPages malloc s.server
        (.read (.bytes (s.toServer.take sizeofRequest)))
      return { s with server := server, toServer := s.toServer.drop sizeofRequest }
    else .error .disabled
  | .server (.read _) => .error .disabled
  | .server e => do
    let server ← ServerIou.step (block serverPages strategy) serverPages malloc s.server e
    return s.deliver server
  | .read k =>
    if 0 < k ∧ k ≤ s.toClient.length then do
      let client ← Client.step numRequests pageCount strategy s.client
        (.read (.bytes (s.toClient.take k)))
      return { s with client := client, toClient := s.toClient.drop k }
    else .error .disabled

def start (response : GetPageResponse) (iov : ServerIou.IoVec × ServerIou.IoVec) : State :=
  ⟨Client.start numRequests,ServerIou.start malloc response iov,[],[]⟩

/-- The requests that the server has read and not answered. -/
def State.pending (s : State) : List GetPageRequest :=
  s.server.requests.drop s.server.executed ++ s.server.arrivals.map requestOf

/-- The pair with the blocking server, which reads a request when this one answers it. -/
def view (s : State) : EndToEnd.State where
  client := s.client
  server := ⟨false,(s.server.requests.take s.server.executed).map
    (Server.respond (block serverPages strategy) serverPages)⟩
  toServer := s.pending.flatMap (fun q => q.toNetworkOrder.bytes) ++ s.toServer
  toClient := s.toClient

/-- The requests that the client has sent. -/
def asked (c : Client.State) : ℕ :=
  c.i + match c.phase with
    | .reading _ => 1
    | _ => 0

/-- The event of the pair with the blocking server, if there is one. -/
def visible : Event → List EndToEnd.Event
  | .send => [.send]
  | .server .write => [.serve]
  | .read k => [.read k]
  | _ => []

/-- The two sides are in step, and the server is in order. -/
structure Inv (s : State) : Prop where
  synced : EndToEnd.Synced numRequests pageCount serverPages strategy
    (view serverPages strategy s)
  serving : ∃ ws, ServerIou.Serving (block serverPages strategy) serverPages s.server ws
  written : s.server.writeDone.length + s.server.cq.countP (·.arrival.isNone) ≤ s.server.executed
  count : s.server.executed + s.pending.length + s.toServer.length / sizeofRequest =
    asked s.client

/-- The steps that the server has taken without the client's notice. -/
def hidden (s : ServerIou.State) : ℕ :=
  3 * s.requests.length + 2 * s.cq.countP (·.arrival.isSome) + s.readDone.length +
    (2 * s.executed - 2 * s.writeDone.length - s.cq.countP (·.arrival.isNone))

/-- A bound for the number of steps up to a state. -/
def spent (s : State) : ℕ := EndToEnd.spent (view serverPages strategy s) + hidden s.server

variable {numRequests pageCount serverPages strategy malloc} {s t : State}

section Requests

theorem bytes_ofBytes {bs : List UInt8} (h : bs.length = sizeofRequest) :
    (GetPageRequest.ofBytes bs).toHostOrder.toNetworkOrder.bytes = bs := by
  have hhost (r : GetPageRequest) : r.toHostOrder.toNetworkOrder = r := by
    simp [GetPageRequest.toHostOrder,GetPageRequest.toNetworkOrder]
  have h1 : (bs.take 4).length = 4 := by rw [List.length_take,h]; rfl
  have h2 : ((bs.drop 4).take 4).length = 4 := by rw [List.length_take,List.length_drop,h]; rfl
  have hdrop : (bs.drop 4).take 4 = bs.drop 4 := by
    refine List.take_of_length_le ?_
    rw [List.length_drop,h]
    decide
  rw [hhost,GetPageRequest.ofBytes,GetPageRequest.bytes,u32Bytes_u32OfBytes h1,
    u32Bytes_u32OfBytes h2,hdrop,List.take_append_drop]

theorem length_requests (qs : List GetPageRequest) :
    (qs.flatMap (fun q => q.toNetworkOrder.bytes)).length = sizeofRequest * qs.length := by
  induction qs with
  | nil => rfl
  | cons q qs ih =>
    rw [List.flatMap_cons,List.length_append,GetPageRequest.length_bytes,ih,List.length_cons]
    ring

/-- At most one request is on its way or with the server. -/
theorem Inv.one (h : Inv numRequests pageCount serverPages strategy s) :
    sizeofRequest * s.pending.length + s.toServer.length ≤ sizeofRequest ∧
      asked s.client ≤ numRequests := by
  have hlen : (view serverPages strategy s).toServer.length =
      sizeofRequest * s.pending.length + s.toServer.length := by
    rw [view,List.length_append,length_requests]
  rw [← hlen]
  have hclient : (view serverPages strategy s).client = s.client := rfl
  cases h.synced.exchange with
  | ready hp hi hserver _ =>
    rw [hserver,asked,← hclient,hp]
    exact ⟨Nat.zero_le _,hi.le⟩
  | finished hp hi hserver _ =>
    rw [hserver,asked,← hclient,hp]
    exact ⟨Nat.zero_le _,hi.le⟩
  | asked hp hi hserver _ =>
    rw [hserver,asked,← hclient,hp,GetPageRequest.length_bytes]
    exact ⟨le_rfl,hi⟩
  | answered _ hp hi _ hserver _ =>
    rw [hserver,OneAtATime.asked,← hclient,hp]
    exact ⟨Nat.zero_le _,hi⟩

end Requests

section Views

variable (s) in
@[simp] theorem view_client : (view serverPages strategy s).client = s.client := rfl

variable (numRequests pageCount serverPages strategy malloc s) in
theorem view_send : EndToEnd.step numRequests pageCount serverPages strategy
    (view serverPages strategy s) .send =
      (step numRequests pageCount serverPages strategy malloc s .send).map
        (view serverPages strategy) := by
  simp only [EndToEnd.step,step,view_client]
  cases Client.step numRequests pageCount strategy s.client (.send (some sizeofRequest)) with
  | error why => rfl
  | ok client =>
    simp [bind,Except.bind,Except.map,pure,Except.pure,view,State.pending]

variable (numRequests pageCount serverPages strategy malloc s) in
theorem view_readResponse (k : ℕ) : EndToEnd.step numRequests pageCount serverPages strategy
    (view serverPages strategy s) (.read k) =
      (step numRequests pageCount serverPages strategy malloc s (.read k)).map
        (view serverPages strategy) := by
  have hclient : (view serverPages strategy s).toClient = s.toClient := rfl
  by_cases hk : 0 < k ∧ k ≤ s.toClient.length
  · rw [EndToEnd.step,if_pos (by rwa [hclient]),step,if_pos hk,view_client,hclient]
    cases Client.step numRequests pageCount strategy s.client (.read (.bytes (s.toClient.take k)))
    · rfl
    · rfl
  · rw [EndToEnd.step,if_neg (by rwa [hclient]),step,if_neg hk]
    rfl

end Views

section Server

/-- What has been brought and not answered. -/
theorem pending_eq (h : s.server.executed ≤ s.server.requests.length) :
    s.pending = s.server.brought.drop s.server.executed := by
  rw [State.pending,ServerIou.State.brought,List.drop_append_of_le_length h]

variable (h : Inv numRequests pageCount serverPages strategy s)
include h

/-- An event that the client cannot see leaves the view as it is. -/
theorem Inv.quiet {server : ServerIou.State} {ws : List (GetPageRequest × List UInt8)}
    (hle : s.server.executed ≤ s.server.requests.length)
    (hserver : ServerIou.Serving (block serverPages strategy) serverPages server ws ∧
      ServerIou.Quiet s.server server) :
    (Inv numRequests pageCount serverPages strategy (s.deliver server) ∧
      view serverPages strategy (s.deliver server) = view serverPages strategy s) ∧
      hidden s.server < hidden server := by
  obtain ⟨hserving,hsent,hexec,hbrought,hhandled,hmoved⟩ := hserver
  have hdeliver : s.deliver server = { s with server := server } := by
    rw [State.deliver,hsent,List.drop_length,List.append_nil]
  have hpending : ({ s with server := server } : State).pending = s.pending := by
    rw [pending_eq hle,pending_eq (hexec.trans_le (hle.trans hhandled.length_le)),hexec,hbrought]
  have htake : server.requests.take server.executed =
      s.server.requests.take s.server.executed := by
    obtain ⟨rest,hrest⟩ := hhandled
    rw [hexec,← hrest,List.take_append_of_le_length hle]
  have hview : view serverPages strategy { s with server := server } =
      view serverPages strategy s := by
    simp only [view,htake,hpending]
  have hwritten := h.written
  rw [hdeliver,hview]
  have hfewer := hmoved.written
  have hrises := hmoved.rises
  simp only [ServerIou.State.stages] at hfewer hrises
  refine ⟨⟨⟨hview ▸ h.synced,⟨ws,hserving⟩,?_,?_⟩,rfl⟩,?_⟩
  · change server.writeDone.length + server.cq.countP _ ≤ server.executed
    omega
  · rw [hpending]
    change server.executed + _ + _ = _
    rw [hexec]
    exact h.count
  · simp only [hidden]
    omega

theorem Inv.arrive
    (hs : step numRequests pageCount serverPages strategy malloc s .arrive = .ok t) :
    Inv numRequests pageCount serverPages strategy t ∧
      view serverPages strategy t = view serverPages strategy s ∧
      hidden s.server < hidden t.server := by
  simp only [step] at hs
  split at hs
  · rename_i hlen
    obtain ⟨server,hserver,ht⟩ := bind_ok.mp hs
    cases ht
    have hsize : (s.toServer.take sizeofRequest).length = sizeofRequest := by
      rw [List.length_take]
      omega
    obtain ⟨ws,hserving⟩ := h.serving
    obtain ⟨hserving,-,hexec,hrequests,harrivals,hstages⟩ := hserving.arrive hsize hserver
    have hpending : ({ s with
        server := server, toServer := s.toServer.drop sizeofRequest } : State).pending =
          s.pending ++ [(GetPageRequest.ofBytes (s.toServer.take sizeofRequest)).toHostOrder] := by
      simp only [State.pending,hexec,hrequests,harrivals,List.append_assoc]
    have hview : view serverPages strategy { s with
        server := server, toServer := s.toServer.drop sizeofRequest } =
          view serverPages strategy s := by
      simp only [view,hexec,hrequests,hpending,List.flatMap_append,List.flatMap_singleton,
        bytes_ofBytes hsize,List.append_assoc,List.take_append_drop]
    simp only [ServerIou.State.stages,ServerIou.Stages.mk.injEq] at hstages
    refine ⟨⟨?_,⟨ws,hserving⟩,?_,?_⟩,hview,?_⟩
    · rw [hview]
      exact h.synced
    · have hwritten := h.written
      change server.writeDone.length + server.cq.countP _ ≤ server.executed
      omega
    · have hcount := h.count
      rw [hpending,List.length_append,List.length_singleton]
      change server.executed + _ + (s.toServer.drop sizeofRequest).length / _ = asked s.client
      rw [hexec,List.length_drop]
      unfold sizeofRequest at hcount hlen ⊢
      omega
    · simp only [hidden]
      omega
  · cases hs

/-- While a write is under way nothing else is, and it holds the answer to the one
request. -/
theorem Inv.write {server : ServerIou.State}
    (hs : ServerIou.step (block serverPages strategy) serverPages malloc s.server .write =
      .ok server) :
    ∃ q, s.pending = [q] ∧ s.toServer = [] ∧
      server.requests.take server.executed = s.server.requests.take s.server.executed ++ [q] ∧
      (s.deliver server).pending = [] ∧
      server.sent = s.server.sent ++ Server.respond (block serverPages strategy) serverPages q ∧
      (∃ ws, ServerIou.Serving (block serverPages strategy) serverPages server ws) ∧
      server.executed = s.server.executed + 1 := by
  obtain ⟨hone,-⟩ := h.one
  obtain ⟨ws,hlog,hwhole,hreads,hrunning⟩ := h.serving
  obtain ⟨iovCount,rest,hw,rfl⟩ := ServerIou.step_write hs
  obtain ⟨a,q,ha,hq,htake,hlog'⟩ := hlog.write hw
    (s.server.writeDone ++ [((ServerIou.gatherAll (block serverPages strategy) s.server
      iovCount).length : ℤ)])
  obtain ⟨hlt,rfl⟩ := List.getElem?_eq_some_iff.mp hq
  have hdrop : s.server.requests.drop s.server.executed =
      s.server.requests[s.server.executed] :: s.server.requests.drop (s.server.executed + 1) :=
    List.drop_eq_getElem_cons hlt
  have hpending : s.pending = s.server.requests[s.server.executed] ::
      (s.server.requests.drop (s.server.executed + 1) ++ s.server.arrivals.map requestOf) := by
    rw [State.pending,hdrop,List.cons_append]
  rw [hpending,List.length_cons] at hone
  have hrest : s.server.requests.drop (s.server.executed + 1) ++
      s.server.arrivals.map requestOf = [] := by
    apply List.eq_nil_of_length_eq_zero
    unfold sizeofRequest at hone
    omega
  have hlast : a = s.server.requests[s.server.executed] := by
    have hlen := congrArg List.length (List.append_eq_nil_iff.mp hrest).1
    rw [List.length_drop,List.length_nil] at hlen
    have hend : s.server.requests.length - 1 = s.server.executed := by omega
    rw [List.getLast?_eq_getElem?,hend,hq] at ha
    exact (Option.some.inj ha).symm
  have hvectors := hlog.writes
  rw [hw,hdrop,List.map_cons] at hvectors
  obtain ⟨rfl,-⟩ := List.cons.inj hvectors
  refine ⟨_,by rw [hpending,hrest],?_,htake,hrest,?_,⟨_,hlog',hwhole,hreads,hrunning⟩,rfl⟩
  · apply List.eq_nil_of_length_eq_zero
    unfold sizeofRequest at hone
    omega
  · exact congrArg _ ((ServerIou.gatherAll_slots (hlog.slots a ha)).2 hlast)

/-- For the client an executed write is the answer of the blocking server. -/
theorem Inv.view_write {server : ServerIou.State}
    (hs : ServerIou.step (block serverPages strategy) serverPages malloc s.server .write =
      .ok server) :
    EndToEnd.step numRequests pageCount serverPages strategy (view serverPages strategy s) .serve =
      .ok (view serverPages strategy (s.deliver server)) := by
  obtain ⟨q,hpending,hserver,htake,hnone,hsent,-,-⟩ := h.write hs
  have hbytes : (view serverPages strategy s).toServer = q.toNetworkOrder.bytes := by
    simp [view,hpending,hserver]
  have hlen : (view serverPages strategy s).toServer.length = sizeofRequest := by
    rw [hbytes,GetPageRequest.length_bytes]
  have hhost : q.toNetworkOrder.toHostOrder = q := GetPageRequest.toHostOrder_toNetworkOrder q
  have hrequest : Server.wholeRequest
      (.bytes ((view serverPages strategy s).toServer.take sizeofRequest)) = some q := by
    rw [List.take_of_length_le hlen.le,hbytes,Server.wholeRequest,
      if_pos (GetPageRequest.length_bytes _),GetPageRequest.ofBytes_bytes,hhost]
  have hdo : Server.step (block serverPages strategy) serverPages (view serverPages strategy s).server
      (.bytes ((view serverPages strategy s).toServer.take sizeofRequest)) =
        ⟨false,(view serverPages strategy s).server.written ++
          [Server.respond (block serverPages strategy) serverPages q]⟩ := by
    rw [Server.step_running rfl,hrequest]
    rfl
  have hview : view serverPages strategy (s.deliver server) =
      ⟨s.client,⟨false,(view serverPages strategy s).server.written ++
        [Server.respond (block serverPages strategy) serverPages q]⟩,[],
        s.toClient ++ Server.respond (block serverPages strategy) serverPages q⟩ := by
    rw [view,hnone]
    simp [view,State.deliver,htake,hsent,hserver]
  rw [EndToEnd.step,if_pos ⟨hlen.ge,rfl⟩,hdo,List.drop_eq_nil_of_le hlen.le,hview]
  dsimp only
  rw [List.drop_left,List.flatten_singleton]
  rfl

end Server

section Steps

theorem step_send (hs : step numRequests pageCount serverPages strategy malloc s .send = .ok t) :
    asked t.client = asked s.client + 1 ∧ t.server = s.server ∧ t.pending = s.pending ∧
      t.toServer.length = s.toServer.length + sizeofRequest := by
  obtain ⟨client,hclient,ht⟩ := bind_ok.mp hs
  cases ht
  obtain ⟨hp,⟨-,rfl⟩ | ⟨hne,-⟩⟩ := Client.send_cases hclient
  · have hasked : asked s.client = s.client.i := by rw [asked,hp]; rfl
    refine ⟨by rw [hasked]; rfl,rfl,rfl,?_⟩
    rw [List.length_append]
    exact congrArg _ (GetPageRequest.length_bytes _)
  · exact (hne rfl).elim

variable (numRequests) in
theorem asked_test (c : Client.State) : asked (Client.test numRequests c) = c.i := by
  by_cases h : c.i < numRequests <;> simp [asked,Client.test,h]

theorem step_readResponse {k : ℕ}
    (hs : step numRequests pageCount serverPages strategy malloc s (.read k) = .ok t) :
    asked t.client = asked s.client ∧ t.server = s.server ∧ t.pending = s.pending ∧
      t.toServer = s.toServer := by
  simp only [step] at hs
  split at hs
  · rename_i hk
    obtain ⟨client,hclient,ht⟩ := bind_ok.mp hs
    cases ht
    refine ⟨?_,rfl,rfl,rfl⟩
    have hne : (ReadResult.bytes (s.toClient.take k)).content ≠ [] := by
      rw [ReadResult.content]
      refine List.ne_nil_of_length_pos ?_
      rw [List.length_take]
      omega
    obtain ⟨totalRead,hp,⟨hnil,-⟩ | ⟨-,-,rfl⟩ | ⟨-,-,hloop⟩⟩ := Client.read_cases hclient
    · exact (hne hnil).elim
    · rw [asked,asked,hp]
    · obtain ⟨-,rfl⟩ := Client.continueLoop_cases hloop
      change asked (Client.test numRequests _) = _
      rw [asked_test,asked,hp,Client.judge_i]
  · cases hs

variable (hn : numRequests < 2147483648) (hpages : pageSize * serverPages < sizeMod)
  (hpc : 0 < pageCount)
include hn hpages hpc

theorem synced_next {s t : EndToEnd.State} {e : EndToEnd.Event}
    (h : EndToEnd.Synced numRequests pageCount serverPages strategy s)
    (ht : EndToEnd.step numRequests pageCount serverPages strategy s e = .ok t) :
    EndToEnd.Synced numRequests pageCount serverPages strategy t ∧
      EndToEnd.spent s < EndToEnd.spent t := by
  rcases h.step hn hpages hpc e with ⟨u,hu,hsynced⟩ | hno
  · cases hu.symm.trans ht
    exact hsynced
  · cases hno.symm.trans ht

/-- An event of the client. -/
theorem Inv.seen {d : EndToEnd.Event} (h : Inv numRequests pageCount serverPages strategy s)
    (hd : EndToEnd.step numRequests pageCount serverPages strategy (view serverPages strategy s) d =
      .ok (view serverPages strategy t)) (hserver : t.server = s.server)
    (hcount : t.server.executed + t.pending.length + t.toServer.length / sizeofRequest =
      asked t.client) :
    Inv numRequests pageCount serverPages strategy t ∧
      spent serverPages strategy s < spent serverPages strategy t := by
  obtain ⟨hsynced,hlt⟩ := synced_next hn hpages hpc h.synced hd
  refine ⟨⟨hsynced,?_,?_,hcount⟩,?_⟩
  · exact hserver ▸ h.serving
  · exact hserver ▸ h.written
  · rw [spent,spent,hserver]
    omega

theorem Inv.answer {server : ServerIou.State}
    (h : Inv numRequests pageCount serverPages strategy s)
    (hs : ServerIou.step (block serverPages strategy) serverPages malloc s.server .write =
      .ok server) :
    Inv numRequests pageCount serverPages strategy (s.deliver server) ∧
      spent serverPages strategy s < spent serverPages strategy (s.deliver server) := by
  obtain ⟨hsynced,hlt⟩ := synced_next hn hpages hpc h.synced (h.view_write hs)
  obtain ⟨q,hpending,hserver,-,hnone,-,hserving,hexec⟩ := h.write hs
  obtain ⟨iovCount,rest,-,rfl⟩ := ServerIou.step_write hs
  have hwritten := h.written
  have hcount := h.count
  rw [hpending,hserver,List.length_singleton] at hcount
  refine ⟨⟨hsynced,hserving,?_,?_⟩,?_⟩
  · rw [State.deliver,List.length_append,List.length_singleton]
    change s.server.writeDone.length + 1 + s.server.cq.countP _ ≤ s.server.executed + 1
    omega
  · rw [hnone]
    change s.server.executed + 1 + 0 + s.toServer.length / _ = asked s.client
    rw [hserver]
    exact hcount
  · simp only [spent,hidden,State.deliver,List.length_append,List.length_singleton] at hlt ⊢
    omega

/-- A step that the client sees is one of the pair with the blocking server, and any
other leaves what it sees as it is. -/
theorem Inv.step {e : Event} (h : Inv numRequests pageCount serverPages strategy s)
    (hs : step numRequests pageCount serverPages strategy malloc s e = .ok t) :
    Inv numRequests pageCount serverPages strategy t ∧
      spent serverPages strategy s < spent serverPages strategy t ∧
      execute (EndToEnd.step numRequests pageCount serverPages strategy)
        (view serverPages strategy s) (visible e) = .ok (view serverPages strategy t) := by
  have hquiet {u : State} (hu : (Inv numRequests pageCount serverPages strategy u ∧
      view serverPages strategy u = view serverPages strategy s) ∧
        hidden s.server < hidden u.server) :
      Inv numRequests pageCount serverPages strategy u ∧
        spent serverPages strategy s < spent serverPages strategy u ∧
        execute (EndToEnd.step numRequests pageCount serverPages strategy)
          (view serverPages strategy s) [] = .ok (view serverPages strategy u) := by
    obtain ⟨⟨hinv,hview⟩,hlt⟩ := hu
    refine ⟨hinv,?_,congrArg Except.ok hview.symm⟩
    rw [spent,spent,hview]
    omega
  have hcount := h.count
  obtain ⟨ws,hserving⟩ := h.serving
  have hle := hserving.log.executed_le
  cases e with
  | send =>
    obtain ⟨hasked,hserver,hpending,hlen⟩ := step_send hs
    have hview := view_send numRequests pageCount serverPages strategy malloc s
    rw [hs] at hview
    obtain ⟨hinv,hlt⟩ := h.seen hn hpages hpc hview hserver (by
      rw [hserver,hpending,hlen,hasked,Nat.add_div_right _ (by decide)]
      omega)
    exact ⟨hinv,hlt,execute_cons_ok.mpr ⟨_,hview,rfl⟩⟩
  | arrive =>
    obtain ⟨hinv,hview,hlt⟩ := h.arrive hs
    exact hquiet ⟨⟨hinv,hview⟩,hlt⟩
  | server e =>
    cases e with
    | read r => cases hs
    | postRead =>
      obtain ⟨server,hserver,ht⟩ := bind_ok.mp hs
      cases ht
      exact hquiet (h.quiet hle (hserving.postRead hserver))
    | write =>
      obtain ⟨server,hserver,ht⟩ := bind_ok.mp hs
      cases ht
      obtain ⟨hinv,hlt⟩ := h.answer hn hpages hpc hserver
      exact ⟨hinv,hlt,execute_cons_ok.mpr ⟨_,h.view_write hserver,rfl⟩⟩
    | postWrite =>
      obtain ⟨server,hserver,ht⟩ := bind_ok.mp hs
      cases ht
      exact hquiet (h.quiet hle (hserving.postWrite hserver))
    | serve =>
      obtain ⟨server,hserver,ht⟩ := bind_ok.mp hs
      cases ht
      exact hquiet (h.quiet hle (hserving.serve hserver))
  | read k =>
    obtain ⟨hasked,hserver,hpending,hlen⟩ := step_readResponse hs
    have hview := view_readResponse numRequests pageCount serverPages strategy malloc s k
    rw [hs] at hview
    obtain ⟨hinv,hlt⟩ := h.seen hn hpages hpc hview hserver (by
      rw [hserver,hpending,hlen,hasked]
      exact hcount)
    exact ⟨hinv,hlt,execute_cons_ok.mpr ⟨_,hview,rfl⟩⟩

end Steps

section Progress

theorem Inv.start (response : GetPageResponse) (iov : ServerIou.IoVec × ServerIou.IoVec) :
    Inv numRequests pageCount serverPages strategy (start numRequests malloc response iov) := by
  refine ⟨EndToEnd.Synced.start numRequests,⟨[],.start response iov⟩,Nat.zero_le _,?_⟩
  change 0 + 0 + 0 / sizeofRequest = asked (Client.start numRequests)
  rw [Nat.zero_div,Client.start,asked_test]

theorem Inv.length_pending (h : Inv numRequests pageCount serverPages strategy s) :
    s.server.executed ≤ s.server.requests.length ∧
      s.server.requests.length + (s.server.cq.countP (·.arrival.isSome) +
        s.server.readDone.length) = s.server.executed + s.pending.length := by
  obtain ⟨ws,hserving⟩ := h.serving
  have hle := hserving.log.executed_le
  refine ⟨hle,?_⟩
  rw [State.pending,List.length_append,List.length_drop,List.length_map,ServerIou.State.arrivals,
    List.length_append,List.length_filterMap_eq_countP]
  omega

theorem Inv.spent_le (h : Inv numRequests pageCount serverPages strategy s) :
    spent serverPages strategy s ≤ 147 * numRequests := by
  have hview := h.synced.spent_le
  have hcount : s.server.executed + s.pending.length ≤ asked s.client := by
    rw [← h.count]
    exact Nat.le_add_right _ _
  obtain ⟨-,hasked⟩ := h.one
  obtain ⟨hle,hlen⟩ := h.length_pending
  simp only [spent,hidden]
  omega

variable (malloc)

/-- What the server has of a request can go on. -/
theorem Inv.enabled_server (h : Inv numRequests pageCount serverPages strategy s)
    (hpending : s.pending ≠ []) :
    ∃ e t, OneAtATime.step numRequests pageCount serverPages strategy malloc s e = .ok t := by
  obtain ⟨ws,hserving⟩ := h.serving
  have hdeliver {e : ServerIou.Event}
      (hs : ∃ server, ServerIou.step (block serverPages strategy) serverPages malloc s.server e =
        .ok server)
      (he : OneAtATime.step numRequests pageCount serverPages strategy malloc s (.server e) =
        (ServerIou.step (block serverPages strategy) serverPages malloc s.server e >>=
          fun server => pure (s.deliver server))) :
      ∃ e t, OneAtATime.step numRequests pageCount serverPages strategy malloc s e = .ok t := by
    obtain ⟨server,hs⟩ := hs
    exact ⟨_,_,he.trans (bind_ok.mpr ⟨server,hs,rfl⟩)⟩
  by_cases hdrop : s.server.requests.drop s.server.executed = []
  · cases hcq : s.server.cq with
    | nil =>
      cases hdone : s.server.readDone with
      | nil =>
        refine (hpending ?_).elim
        rw [State.pending,hdrop,ServerIou.State.arrivals,hcq,hdone]
        rfl
      | cons a rest =>
        refine hdeliver (e := .postRead) ?_ rfl
        simp only [ServerIou.step,hdone]
        exact ⟨_,rfl⟩
    | cons c rest =>
      refine hdeliver (e := .serve) ?_ rfl
      simp only [ServerIou.step,hserving.running,hcq,Bool.false_eq_true,if_false]
      cases c with
      | read res buffer =>
        dsimp only
        split <;> exact ⟨_,rfl⟩
      | write res => exact ⟨_,rfl⟩
  · obtain ⟨q,qs,hq⟩ := List.exists_cons_of_ne_nil hdrop
    have hwrites := hserving.log.writes
    rw [hq,List.map_cons] at hwrites
    refine hdeliver (e := .write) ?_ rfl
    simp only [ServerIou.step,hwrites]
    exact ⟨_,rfl⟩

theorem Inv.enabled_arrive (h : Inv numRequests pageCount serverPages strategy s)
    (hlen : sizeofRequest ≤ s.toServer.length) :
    ∃ e t, OneAtATime.step numRequests pageCount serverPages strategy malloc s e = .ok t := by
  obtain ⟨hone,-⟩ := h.one
  have hpending : s.pending = [] := by
    apply List.eq_nil_of_length_eq_zero
    unfold sizeofRequest at hone hlen
    omega
  obtain ⟨-,harr⟩ := List.append_eq_nil_iff.mp hpending
  obtain ⟨ws,hserving⟩ := h.serving
  have hreads := hserving.reads
  rw [List.map_eq_nil_iff.mp harr,List.length_nil] at hreads
  obtain ⟨buffer,rest,hbuffer⟩ := List.exists_cons_of_length_eq_add_one hreads
  refine ⟨.arrive,?_⟩
  simp only [OneAtATime.step,if_pos hlen,ServerIou.step,hbuffer]
  exact ⟨_,rfl⟩

variable {malloc} (hn : numRequests < 2147483648) (hpages : pageSize * serverPages < sizeMod)
  (hpc : 0 < pageCount)
include hn hpages hpc

theorem Inv.error {e : Event} {why : Stop}
    (h : Inv numRequests pageCount serverPages strategy s)
    (hs : OneAtATime.step numRequests pageCount serverPages strategy malloc s e = .error why) :
    why = .disabled := by
  have hseen {d : EndToEnd.Event}
      (hd : EndToEnd.step numRequests pageCount serverPages strategy (view serverPages strategy s)
        d = .error why) : why = .disabled := by
    rcases h.synced.step hn hpages hpc d with ⟨u,hu,-⟩ | hno
    · cases hu.symm.trans hd
    · cases hno.symm.trans hd
      rfl
  cases e with
  | send =>
    have hview := view_send numRequests pageCount serverPages strategy malloc s
    rw [hs] at hview
    exact hseen hview
  | arrive =>
    simp only [OneAtATime.step] at hs
    split at hs
    · rcases bind_error.mp hs with hserver | ⟨server,-,hserver⟩
      · exact ServerIou.step_error hserver
      · cases hserver
    · exact (Except.error.inj hs).symm
  | server e =>
    cases e with
    | read r => exact (Except.error.inj hs).symm
    | postRead | write | postWrite | serve =>
      rcases bind_error.mp hs with hserver | ⟨server,-,hserver⟩
      · exact ServerIou.step_error hserver
      · cases hserver
  | read k =>
    have hview := view_readResponse numRequests pageCount serverPages strategy malloc s k
    rw [hs] at hview
    exact hseen hview

/-- Until the client has finished, one of the two sides or the kernel can go on. -/
theorem Inv.enabled (h : Inv numRequests pageCount serverPages strategy s)
    (hp : s.client.phase ≠ .finished) :
    ∃ e t, OneAtATime.step numRequests pageCount serverPages strategy malloc s e = .ok t := by
  obtain ⟨d,u,hd⟩ := h.synced.enabled hn hpages hpc hp
  cases d with
  | send =>
    rw [view_send numRequests pageCount serverPages strategy malloc] at hd
    obtain ⟨t,ht,-⟩ := map_ok.mp hd
    exact ⟨_,t,ht⟩
  | serve =>
    by_cases hpending : s.pending = []
    · refine h.enabled_arrive malloc ?_
      by_contra hlen
      rw [EndToEnd.step,if_neg (by simpa [view,hpending] using hlen)] at hd
      cases hd
    · exact h.enabled_server malloc hpending
  | read k =>
    rw [view_readResponse numRequests pageCount serverPages strategy malloc] at hd
    obtain ⟨t,ht,-⟩ := map_ok.mp hd
    exact ⟨_,t,ht⟩

end Progress

section Main
variable (numRequests pageCount serverPages : ℕ) (strategy : FillingStrategy)
  (malloc : ℕ → List UInt8) (response : GetPageResponse) (iov : ServerIou.IoVec × ServerIou.IoVec)

theorem run_inv (hn : numRequests < 2147483648) (hpages : pageSize * serverPages < sizeMod)
    (hpc : 0 < pageCount) {es : List Event}
    (h : execute (step numRequests pageCount serverPages strategy malloc)
      (start numRequests malloc response iov) es = .ok s) :
    Inv numRequests pageCount serverPages strategy s ∧ es.length ≤ 147 * numRequests := by
  have hstep : ∀ s e t, Inv numRequests pageCount serverPages strategy s →
      step numRequests pageCount serverPages strategy malloc s e = .ok t →
      Inv numRequests pageCount serverPages strategy t ∧
        spent serverPages strategy s < spent serverPages strategy t := by
    intro s e t hs ht
    obtain ⟨hinv,hlt,-⟩ := hs.step hn hpages hpc ht
    exact ⟨hinv,hlt⟩
  obtain ⟨hs,hle⟩ := execute_length_le hstep h (.start response iov)
  have hbound := hs.spent_le
  exact ⟨hs,by omega⟩

/-- To its one blocking client the io_uring server is the blocking server: each run is
one of that pair once the steps nobody sees are left out, with the same client and the
same bytes on their way to it. -/
theorem acts_as_blocking (hn : numRequests < 2147483648) (hpages : pageSize * serverPages < sizeMod)
    (hpc : 0 < pageCount) {es : List Event}
    (h : execute (step numRequests pageCount serverPages strategy malloc)
      (start numRequests malloc response iov) es = .ok s) :
    ∃ u, execute (EndToEnd.step numRequests pageCount serverPages strategy)
        (EndToEnd.start numRequests) (es.flatMap visible) = .ok u ∧
      u.client = s.client ∧ u.toClient = s.toClient ∧ u.server.written =
        (s.server.requests.take s.server.executed).map
          (Server.respond (block serverPages strategy) serverPages) := by
  have hstep : ∀ s e t, Inv numRequests pageCount serverPages strategy s →
      step numRequests pageCount serverPages strategy malloc s e = .ok t →
      Inv numRequests pageCount serverPages strategy t ∧
        execute (EndToEnd.step numRequests pageCount serverPages strategy)
          (view serverPages strategy s) (visible e) = .ok (view serverPages strategy t) := by
    intro s e t hs ht
    obtain ⟨hinv,-,hpath⟩ := hs.step hn hpages hpc ht
    exact ⟨hinv,hpath⟩
  obtain ⟨-,hpath⟩ := execute_simulates (view serverPages strategy) hstep h (.start response iov)
  exact ⟨_,hpath,rfl,rfl,rfl⟩

/-- Two requests, the second for a page the server does not have; the completion of the
first write is handled between them. -/
def mixedRun : List Event :=
  [.send,.arrive,.server .postRead,.server .serve,.server .write,.read sizeofHeader,
    .server .postWrite,.read pageSize,.send,.arrive,.server .serve,.server .postRead,
    .server .serve,.server .write,.read sizeofResponse]

def mixedStart : State := start 2 (fun _ => []) .zero (⟨.response,0⟩,⟨.response,0⟩)

def mixedStep : State → Event → Except Stop State :=
  step 2 2 1 (pseudoRandomFillingStrategy 42) (fun _ => [])

theorem run_mixed : ∃ s, execute mixedStep mixedStart mixedRun = .ok s ∧
    s.client.phase = .finished := by
  have hrun : yields (execute mixedStep mixedStart mixedRun)
      (fun s => s.client.phase = .finished) = true := by decide +kernel
  obtain ⟨s,hs,hp⟩ := exists_of_yields hrun
  exact ⟨s,hs,of_decide_eq_true hp⟩

theorem acts_as_blocking_mixed : ∃ s u, execute mixedStep mixedStart mixedRun = .ok s ∧
    execute (EndToEnd.step 2 2 1 (pseudoRandomFillingStrategy 42)) (EndToEnd.start 2)
      (mixedRun.flatMap visible) = .ok u ∧ u.client = s.client := by
  obtain ⟨s,hs,-⟩ := run_mixed
  obtain ⟨u,hu,hclient,-,-⟩ := acts_as_blocking 2 2 1 (pseudoRandomFillingStrategy 42)
    (fun _ => []) .zero (⟨.response,0⟩,⟨.response,0⟩) (by decide) (by decide) (by decide) hs
  exact ⟨s,u,hs,hu,hclient⟩

/-- Every run of the pair is finite, never faults and can be continued until the client
has finished; the counts are then those of the page numbers, and what it has decoded are
the responses to its requests. -/
theorem ends_with_counts (hn : numRequests < 2147483648) (hpages : pageSize * serverPages < sizeMod)
    (hpc : 0 < pageCount) {es : List Event}
    (h : execute (step numRequests pageCount serverPages strategy malloc)
      (start numRequests malloc response iov) es = .ok s) :
    es.length ≤ 147 * numRequests ∧
    (∀ e why, step numRequests pageCount serverPages strategy malloc s e = .error why →
      why = .disabled) ∧
    (s.client.phase ≠ .finished →
      ∃ e t, step numRequests pageCount serverPages strategy malloc s e = .ok t) ∧
    s.client.decoded =
      (List.range s.client.i).map (Client.expected pageCount strategy serverPages) ∧
    (s.client.phase = .finished → s.client.i = numRequests ∧
      s.client.correctResponses.toNat =
        (List.range numRequests).countP (fun i => i % pageCount < serverPages) ∧
      s.client.incorrectResponses.toNat =
        numRequests - (List.range numRequests).countP (fun i => i % pageCount < serverPages)) := by
  obtain ⟨hs,hlen⟩ := run_inv numRequests pageCount serverPages strategy malloc response iov hn
    hpages hpc h
  have htally := hs.synced.tally
  refine ⟨hlen,fun e why => hs.error hn hpages hpc,hs.enabled hn hpages hpc,htally.decoded,?_⟩
  intro hp
  have hall : s.client.i = numRequests := by
    cases hs.synced.exchange with
    | ready hp' _ _ _ => cases hp.symm.trans hp'
    | asked hp' _ _ _ => cases hp.symm.trans hp'
    | answered _ hp' _ _ _ _ => cases hp.symm.trans hp'
    | finished _ hi _ _ => exact hi
  have hcorrect := htally.correct
  have hincorrect := htally.incorrect
  rw [view_client,hall] at hcorrect hincorrect
  exact ⟨hall,hcorrect,hincorrect⟩

theorem ends_with_counts_mixed : ∃ s, execute mixedStep mixedStart mixedRun = .ok s ∧
    s.client.correctResponses.toNat = 1 ∧ s.client.incorrectResponses.toNat = 1 := by
  obtain ⟨s,hs,hp⟩ := run_mixed
  obtain ⟨-,-,-,-,hcounts⟩ := ends_with_counts 2 2 1 (pseudoRandomFillingStrategy 42)
    (fun _ => []) .zero (⟨.response,0⟩,⟨.response,0⟩) (by decide) (by decide) (by decide) hs
  obtain ⟨-,hcorrect,hincorrect⟩ := hcounts hp
  exact ⟨s,hs,hcorrect,hincorrect⟩

end Main

end FastNet.GetPage.OneAtATime
