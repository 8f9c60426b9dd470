import FastNet.Simple.Connection
import FastNet.Foundation.RingStream

/-! # The relay of requests and pages

Every request is at one place: with the client's sends, on the way to the server,
in a read of the server, answered. Every answer is at one place too: with the
server's writes, on the way back, in a receive of the client, reaped. Both lines
are first in first out, so their concatenation never changes its order.
-/
namespace FastNet.Simple.Connection
open Execution Client
variable {K : Consts} {J : Job} {L : Link}

/-- The number the server reads in request `k`. -/
def value (J : Job) (k : ℕ) : ℤ := Bytes.int32OfBytes (request J k)

/-- The requests in the server's reads; reads at the end of the stream hold none. -/
def View.reads (v : View) : List (List UInt8) :=
  (v.server.ring.arrivals.filter (fun a => a.1 ≠ 0)).map Prod.snd

/-- `back` and `forth` are the messages on the way in the two directions. -/
structure Relay (K : Consts) (J : Job) (v : View) (forth back : List (List UInt8)) : Prop where
  requests : v.requests = forth.flatten
  pages : v.pages = back.flatten
  answers : v.client.recvs ++ v.client.ring.arrivals.map Prod.snd ++ back ++ v.server.ring.tx =
    v.server.responses.map K.page
  values : v.server.responses = (List.range v.server.responses.length).map (value J)
  asked : v.reads ++ forth ++ v.client.ring.tx =
    (List.range' v.server.responses.length
      (v.client.sendIndex - v.server.responses.length)).map (request J)
  responses_le : v.server.responses.length ≤ v.client.sendIndex

variable {v w : View} {forth back : List (List UInt8)}

theorem length_request (k : ℕ) : (request J k).length = sizeofInt32 := Bytes.length_int32Bytes _

theorem Relay.mem_asked (h : Relay K J v forth back) {c : List UInt8}
    (hc : c ∈ v.reads ++ forth ++ v.client.ring.tx) : c.length = sizeofInt32 := by
  rw [h.asked] at hc
  obtain ⟨k,-,rfl⟩ := List.mem_map.mp hc
  exact length_request k

theorem Relay.mem_answers (h : Relay K J v forth back) {p : List UInt8}
    (hp : p ∈ v.client.recvs ++ v.client.ring.arrivals.map Prod.snd ++ back ++ v.server.ring.tx) :
    p.length = K.pageLen := by
  rw [h.answers] at hp
  obtain ⟨x,-,rfl⟩ := List.mem_map.mp hp
  exact K.length_page x

theorem Relay.mem_forth (h : Relay K J v forth back) : ∀ c ∈ forth, c.length = sizeofInt32 :=
  fun _ hc => h.mem_asked (List.mem_append_left _ (List.mem_append_right _ hc))

theorem Relay.mem_back (h : Relay K J v forth back) : ∀ p ∈ back, p.length = K.pageLen :=
  fun _ hp => h.mem_answers (List.mem_append_left _ (List.mem_append_right _ hp))

section Sends

/-- A whole transfer of the oldest send is its payload. -/
theorem exec_first {rxLen k : ℕ} {r r' : RingView} {bytes : List UInt8}
    (h : RingView.Move rxLen r (.execTx 0 bytes) r') (hall : ∀ p ∈ r.tx, p.length = k)
    (hlen : bytes.length = k) :
    r.tx = bytes :: r'.tx ∧ r'.cq = r.cq ∧ r'.rxDone = r.rxDone ∧ r'.rx = r.rx ∧
      r'.txDone.length = r.txDone.length + 1 := by
  cases h with
  | execTx i bytes payload h hp =>
    cases htx : r.tx with
    | nil => simp [htx] at h
    | cons p ps =>
      rw [htx] at h
      obtain rfl : p = payload := by simpa using h
      have hfull := hall p (by simp [htx])
      obtain rfl := hp.eq_of_length (hlen.trans hfull.symm)
      exact ⟨rfl,rfl,rfl,rfl,by simp⟩

theorem Relay.clientSend (h : Relay K J v forth back) {c : RingView} {bytes : List UInt8}
    (hmove : RingView.Move K.pageLen v.client.ring (.execTx 0 bytes) c)
    (hlen : bytes.length = sizeofInt32) :
    Relay K J { v with client := { v.client with ring := c }, requests := v.requests ++ bytes }
      (forth ++ [bytes]) back := by
  obtain ⟨htx,hcq,hrx,-,-⟩ := exec_first hmove (fun p hp => h.mem_asked
    (List.mem_append_right _ hp)) hlen
  have harr : c.arrivals = v.client.ring.arrivals := by simp [RingView.arrivals,hcq,hrx]
  refine ⟨by simp [h.requests],h.pages,?_,h.values,?_,h.responses_le⟩
  · simpa [harr] using h.answers
  · have hasked := h.asked
    rw [htx] at hasked
    rw [← hasked]
    simp [View.reads]

theorem Relay.serverSend (h : Relay K J v forth back) {d : RingView} {bytes : List UInt8}
    (hmove : RingView.Move sizeofInt32 v.server.ring (.execTx 0 bytes) d)
    (hlen : bytes.length = K.pageLen) :
    Relay K J { v with server := { v.server with ring := d }, pages := v.pages ++ bytes }
      forth (back ++ [bytes]) := by
  obtain ⟨htx,hcq,hrx,-,-⟩ := exec_first hmove (fun p hp => h.mem_answers
    (List.mem_append_right _ hp)) hlen
  have harr : d.arrivals = v.server.ring.arrivals := by simp [RingView.arrivals,hcq,hrx]
  refine ⟨h.requests,by simp [h.pages],?_,h.values,?_,h.responses_le⟩
  · have hanswers := h.answers
    rw [htx] at hanswers
    rw [← hanswers]
    simp
  · have hasked := h.asked
    simpa [View.reads,harr] using hasked

end Sends

section Receives

/-- The buffer of an executed receive, behind the older arrivals. -/
theorem exec_receive {rxLen : ℕ} {r r' : RingView} {i : ℕ} {bytes : List UInt8}
    (h : RingView.Move rxLen r (.execRx i bytes) r') :
    ∃ data, r'.arrivals = r.arrivals ++ [((bytes.length : ℤ),data)] ∧ bytes <+: data ∧
      data.length ≤ rxLen ∧ r'.tx = r.tx ∧ r'.txDone = r.txDone ∧ r'.cq = r.cq := by
  cases h with
  | execRx i bytes data h hl hp => exact ⟨data,by simp [RingView.arrivals],hp,hl,rfl,rfl,rfl⟩

theorem Relay.clientRecv (h : Relay K J v forth back) {c : RingView} {bytes : List UInt8}
    (hmove : RingView.Move K.pageLen v.client.ring (.execRx 0 bytes) c)
    (hlen : bytes.length = K.pageLen) (hp : bytes <+: v.pages) :
    ∃ rest, back = bytes :: rest ∧
      Relay K J { v with
        client := { v.client with ring := c }
        pages := v.pages.drop bytes.length } forth rest := by
  rw [h.pages] at hp
  obtain ⟨rest,hback,hdrop⟩ := Bytes.cons_of_prefix_flatten K.pageLen_pos h.mem_back hlen hp
  obtain ⟨data,harr,hpre,hle,htx,-,-⟩ := exec_receive hmove
  obtain rfl := hpre.eq_of_length_le (by omega)
  refine ⟨rest,hback,h.requests,by simpa [h.pages] using hdrop,?_,h.values,?_,h.responses_le⟩
  · rw [← h.answers,hback]
    simp [harr]
  · have hasked := h.asked
    simpa [View.reads,htx] using hasked

theorem Relay.serverRead (h : Relay K J v forth back) {d : RingView} {bytes : List UInt8}
    (hmove : RingView.Move sizeofInt32 v.server.ring (.execRx 0 bytes) d)
    (hlen : bytes.length = sizeofInt32) (hp : bytes <+: v.requests) :
    ∃ rest, forth = bytes :: rest ∧
      Relay K J { v with
        server := { v.server with ring := d }
        requests := v.requests.drop bytes.length } rest back := by
  rw [h.requests] at hp
  obtain ⟨rest,hforth,hdrop⟩ := Bytes.cons_of_prefix_flatten (by decide) h.mem_forth hlen hp
  obtain ⟨data,harr,hpre,hle,htx,-,-⟩ := exec_receive hmove
  obtain rfl := hpre.eq_of_length_le (by omega)
  have hkeep : [((bytes.length : ℤ),bytes)].filter (fun a => a.1 ≠ 0) =
      [((bytes.length : ℤ),bytes)] := by
    rw [hlen]
    rfl
  refine ⟨rest,hforth,by simpa [h.requests] using hdrop,h.pages,?_,h.values,?_,h.responses_le⟩
  · have hanswers := h.answers
    simpa [htx] using hanswers
  · change ((d.arrivals.filter _).map _ ++ _ ++ _ : List (List UInt8)) = _
    rw [← h.asked,hforth,harr,List.filter_append,hkeep]
    simp [View.reads]

/-- A read at the end of the stream carries no request. -/
theorem Relay.serverEof (h : Relay K J v forth back) {d : RingView}
    (hmove : RingView.Move sizeofInt32 v.server.ring (.execRx 0 []) d) :
    Relay K J { v with server := { v.server with ring := d } } forth back := by
  obtain ⟨data,harr,-,-,htx,-,-⟩ := exec_receive hmove
  refine ⟨h.requests,h.pages,?_,h.values,?_,h.responses_le⟩
  · have hanswers := h.answers
    simpa [htx] using hanswers
  · have hasked := h.asked
    simpa [View.reads,harr] using hasked

end Receives

section Posts

theorem post_first {rxLen : ℕ} {r r' : RingView} {e : KernelEvent}
    (h : RingView.Move rxLen r e r') (he : e = .postTx 0 ∨ e = .postRx 0) :
    r'.arrivals = r.arrivals ∧ r'.tx = r.tx := by
  have ho : e.RxInOrder := by rcases he with rfl | rfl <;> simp [KernelEvent.RxInOrder]
  have hr : e.received = [] := by rcases he with rfl | rfl <;> rfl
  refine ⟨h.arrivals_eq ho hr,?_⟩
  rcases he with rfl | rfl <;> cases h <;> rfl

theorem Relay.clientPost (h : Relay K J v forth back) {c : RingView} {e : KernelEvent}
    (hmove : RingView.Move K.pageLen v.client.ring e c) (he : e = .postTx 0 ∨ e = .postRx 0) :
    Relay K J { v with client := { v.client with ring := c } } forth back := by
  obtain ⟨harr,htx⟩ := post_first hmove he
  have hanswers := h.answers
  have hasked := h.asked
  exact ⟨h.requests,h.pages,by simpa [harr] using hanswers,h.values,
    by simpa [View.reads,htx] using hasked,h.responses_le⟩

theorem Relay.serverPost (h : Relay K J v forth back) {d : RingView} {e : KernelEvent}
    (hmove : RingView.Move sizeofInt32 v.server.ring e d) (he : e = .postTx 0 ∨ e = .postRx 0) :
    Relay K J { v with server := { v.server with ring := d } } forth back := by
  obtain ⟨harr,htx⟩ := post_first hmove he
  have hanswers := h.answers
  have hasked := h.asked
  exact ⟨h.requests,h.pages,by simpa [htx] using hanswers,h.values,
    by simpa [View.reads,harr] using hasked,h.responses_le⟩

end Posts

section Programs

theorem Relay.iterate (h : Relay K J v forth back) {i j : ℕ} (hi : v.client.sendIndex ≤ i) :
    Relay K J { v with client := { (v.client.sent J i).posted j with phase := .reaping } }
      forth back := by
  have hanswers := h.answers
  have hle := h.responses_le
  refine ⟨h.requests,h.pages,hanswers,h.values,?_,hle.trans hi⟩
  have hrange := @List.range'_append_1 v.server.responses.length
    (v.client.sendIndex - v.server.responses.length) (i - v.client.sendIndex)
  have hmid : v.server.responses.length + (v.client.sendIndex - v.server.responses.length) =
      v.client.sendIndex := by omega
  have hlen : v.client.sendIndex - v.server.responses.length + (i - v.client.sendIndex) =
      i - v.server.responses.length := by omega
  rw [hmid,hlen] at hrange
  change v.reads ++ forth ++ (v.client.ring.tx ++
    (List.range' v.client.sendIndex (i - v.client.sendIndex)).map (request J)) =
    (List.range' v.server.responses.length (i - v.server.responses.length)).map (request J)
  rw [← hrange,List.map_append,← h.asked]
  simp

theorem Relay.reapSend (h : Relay K J v forth back) {res : ℤ} {rest : List Completion}
    (hcq : v.client.ring.cq = .tx res :: rest) :
    Relay K J { v with client := { v.client with ring := v.client.ring.setCq rest } }
      forth back := by
  have hanswers := h.answers
  rw [RingView.arrivals_reap_tx hcq] at hanswers
  exact ⟨h.requests,h.pages,hanswers,h.values,h.asked,h.responses_le⟩

theorem Relay.reapRecv (h : Relay K J v forth back) {res : ℤ} {data : List UInt8}
    {rest : List Completion} (hcq : v.client.ring.cq = .rx res data :: rest)
    (total iterations : ℕ) :
    Relay K J { v with client := { v.client with
      ring := v.client.ring.setCq rest
      totalReceived := total
      iterationsReceived := iterations
      recvs := v.client.recvs ++ [data] } } forth back := by
  have hanswers := h.answers
  rw [RingView.arrivals_reap_rx hcq] at hanswers
  exact ⟨h.requests,h.pages,by simpa using hanswers,h.values,h.asked,h.responses_le⟩

theorem Relay.respond (h : Relay K J v forth back) {res : ℤ} {data : List UInt8}
    {rest : List Completion} (hcq : v.server.ring.cq = .rx res data :: rest) (hres : res ≠ 0) :
    Relay K J { v with server := { v.server with
      ring := Server.answered K v.server.ring rest (Bytes.int32OfBytes data)
      handled := v.server.handled + 1
      responses := v.server.responses ++ [Bytes.int32OfBytes data] } } forth back := by
  have hasked := h.asked
  have hle := h.responses_le
  have hreads : v.reads = data ::
      ((v.server.ring.setCq rest).arrivals.filter (fun a => a.1 ≠ 0)).map Prod.snd := by
    rw [View.reads,RingView.arrivals_reap_rx hcq]
    simp [hres]
  rw [hreads] at hasked
  have hlt : v.server.responses.length < v.client.sendIndex := by
    by_contra hge
    have hzero : v.client.sendIndex - v.server.responses.length = 0 := by omega
    rw [hzero] at hasked
    simp at hasked
  have hsucc : v.client.sendIndex - v.server.responses.length =
      v.client.sendIndex - (v.server.responses.length + 1) + 1 := by omega
  rw [hsucc,List.range'_succ,List.map_cons,List.cons_append,List.cons_append] at hasked
  obtain ⟨hdata,htail⟩ := List.cons.inj hasked
  refine ⟨h.requests,h.pages,?_,?_,?_,?_⟩
  · have hanswers := h.answers
    change _ ++ _ ++ _ ++ (v.server.ring.tx ++ [K.page (Bytes.int32OfBytes data)]) =
      (v.server.responses ++ [Bytes.int32OfBytes data]).map K.page
    rw [List.map_append,← hanswers]
    simp
  · change v.server.responses ++ [Bytes.int32OfBytes data] = _
    rw [List.length_append,List.length_singleton,List.range_succ,List.map_append,← h.values,
      List.map_singleton,value,hdata]
  · rw [List.append_assoc,List.length_append,List.length_singleton]
    rw [List.append_assoc] at htail
    exact htail
  · rw [List.length_append,List.length_singleton]
    exact hlt

theorem Relay.written (h : Relay K J v forth back) {res : ℤ} {rest : List Completion}
    (hcq : v.server.ring.cq = .tx res :: rest) :
    Relay K J { v with server := { v.server with ring := v.server.ring.setCq rest } }
      forth back := by
  have hasked := h.asked
  rw [View.reads,RingView.arrivals_reap_tx hcq] at hasked
  exact ⟨h.requests,h.pages,h.answers,h.values,hasked,h.responses_le⟩

end Programs

section Runs

theorem Relay.clientKernel (h : Relay K J v forth back) {e : KernelEvent} {c : RingView}
    {requests pages : List UInt8}
    (hlink : clientLink K L v.requests v.pages v.server.ring.txDone.length (.kernel e) =
      some (requests,pages)) (hmove : RingView.Move K.pageLen v.client.ring e c) :
    ∃ forth back, Relay K J { v with
      client := { v.client with ring := c }
      requests := requests
      pages := pages } forth back := by
  cases clientLink_kernel hlink with
  | send bytes hlen hroom => exact ⟨_,_,h.clientSend hmove hlen⟩
  | receive bytes hlen hp =>
    obtain ⟨rest,-,hrelay⟩ := h.clientRecv hmove hlen (hp.trans (prefix_readable _ _))
    exact ⟨_,_,hrelay⟩
  | postSend => exact ⟨_,_,h.clientPost hmove (Or.inl rfl)⟩
  | postReceive => exact ⟨_,_,h.clientPost hmove (Or.inr rfl)⟩

theorem Relay.serverKernel (h : Relay K J v forth back) {e : KernelEvent} {d : RingView}
    {requests pages : List UInt8} {closed : Bool}
    (hlink : serverLink K L v.requests v.pages closed (.kernel e) = some (requests,pages))
    (hmove : RingView.Move sizeofInt32 v.server.ring e d) :
    ∃ forth back, Relay K J { v with
      server := { v.server with ring := d }
      requests := requests
      pages := pages } forth back := by
  cases serverLink_kernel hlink with
  | write bytes hlen hroom => exact ⟨_,_,h.serverSend hmove hlen⟩
  | read bytes hlen hp =>
    obtain ⟨rest,-,hrelay⟩ := h.serverRead hmove hlen hp
    exact ⟨_,_,hrelay⟩
  | eof hclosed hnil => exact ⟨_,_,h.serverEof hmove⟩
  | postWrite => exact ⟨_,_,h.serverPost hmove (Or.inl rfl)⟩
  | postRead => exact ⟨_,_,h.serverPost hmove (Or.inr rfl)⟩

theorem Relay.step {e : Event} (h : Relay K J v forth back) (hstep : Step K J L v e w) :
    ∃ forth back, Relay K J w forth back := by
  cases hstep with
  | client e c requests pages hlink hstep =>
    cases hstep with
    | iterate hp =>
      cases hlink
      exact ⟨_,_,h.iterate v.client.le_sendEdge⟩
    | reapSend res rest hp hcq hres =>
      cases hlink
      exact ⟨_,_,h.reapSend hcq⟩
    | reapRecv res data rest hp hcq hres =>
      cases hlink
      exact ⟨_,_,h.reapRecv hcq _ _⟩
    | reapFailed hp hcq =>
      cases hlink
      exact ⟨forth,back,h.requests,h.pages,h.answers,h.values,h.asked,h.responses_le⟩
    | finishLeave hp hcq hexit =>
      cases hlink
      exact ⟨forth,back,h.requests,h.pages,h.answers,h.values,h.asked,h.responses_le⟩
    | finishAgain hp hcq hbreak hloop =>
      cases hlink
      exact ⟨forth,back,h.requests,h.pages,h.answers,h.values,h.asked,h.responses_le⟩
    | kernel e c hp hmove => exact h.clientKernel hlink hmove
  | server e d requests pages hlink hstep =>
    cases hstep with
    | read res data rest hp hcq hres =>
      cases hlink
      exact ⟨_,_,h.respond hcq hres⟩
    | closed data rest hp hcq =>
      cases hlink
      exact ⟨forth,back,h.requests,h.pages,h.answers,h.values,h.asked,h.responses_le⟩
    | written res rest hp hcq =>
      cases hlink
      exact ⟨_,_,h.written hcq⟩
    | kernel e d hp hmove => exact h.serverKernel hlink hmove

theorem Relay.start : Relay K J (View.start K J) [] [] where
  requests := rfl
  pages := rfl
  answers := rfl
  values := rfl
  asked := rfl
  responses_le := Nat.le_refl 0

theorem relay_of_path {es : List Event} (h : Path (Step K J L) (View.start K J) es v) :
    ∃ forth back, Relay K J v forth back := by
  refine h.invariant (P := fun v => ∃ forth back, Relay K J v forth back) ?_ ⟨_,_,Relay.start⟩
  rintro v e w ⟨forth,back,hv⟩ hstep
  exact hv.step hstep

/-- The values of a range below 2^31 are those asked for. -/
theorem value_eq {k : ℕ} (h : J.startIndex + k < 2147483648) :
    value J k = ((J.startIndex + k : ℕ) : ℤ) :=
  Bytes.int32OfBytes_of_lt (Int.natCast_nonneg _) (by omega)

/-- The reaped pages are those of the first requests, in order. -/
theorem Relay.recvs (h : Relay K J v forth back) {k : ℕ} {page : List UInt8}
    (hk : v.client.recvs[k]? = some page) :
    k < v.client.sendIndex ∧ page = K.page (value J k) := by
  have hlt := (List.getElem?_eq_some_iff.mp hk).1
  have hwhole : (v.server.responses.map K.page)[k]? = some page := by
    rw [← h.answers,List.append_assoc,List.append_assoc,List.getElem?_append_left hlt]
    exact hk
  rw [h.values,List.map_map,List.getElem?_map] at hwhole
  obtain ⟨j,hj,rfl⟩ := Option.map_eq_some_iff.mp hwhole
  obtain ⟨hrange,rfl⟩ := List.getElem?_eq_some_iff.mp hj
  have hle := h.responses_le
  rw [List.length_range] at hrange
  exact ⟨by omega,by simp⟩

theorem counts_of_step {e : Event} (h : Counts K J v.client) (hstep : Step K J L v e w) :
    Counts K J w.client := by
  cases hstep with
  | client e c requests pages hlink hstep => exact h.step hstep
  | server e d requests pages hlink hstep => exact h

theorem counts_of_path {es : List Event} (h : Path (Step K J L) (View.start K J) es v) :
    Counts K J v.client :=
  h.invariant (P := fun v => Counts K J v.client) (fun _ _ _ hv hstep => counts_of_step hv hstep)
    (Counts.start K J)

/-- The `k`-th receive the client reaps holds copies of the `k`-th value it asked
for. -/
theorem reaped_pages {clientNum : ℕ} {es : List Event} {s : State}
    (h : Run K J clientNum L es s) (hend : J.endIndex ≤ 2147483648) :
    s.client.recvs.length = s.client.iterationsReceived ∧
      ∀ k page, s.client.recvs[k]? = some page →
        page = K.page ((J.startIndex + k : ℕ) : ℤ) ∧
          Bytes.int32s page = List.replicate K.pageSize ((J.startIndex + k : ℕ) : ℤ) := by
  obtain ⟨-,hpath⟩ := h.path
  obtain ⟨forth,back,hrelay⟩ := relay_of_path hpath
  have hcounts := counts_of_path hpath
  refine ⟨hcounts.reaped,?_⟩
  intro k page hk
  obtain ⟨hlt,rfl⟩ := hrelay.recvs hk
  have hsend := hcounts.send_le
  have hstart := J.start_le
  unfold Job.numRequests at hsend
  have hbound : J.startIndex + k < 2147483648 := by omega
  rw [value_eq hbound]
  exact ⟨rfl,K.int32s_page (Int.natCast_nonneg _) (by omega)⟩

/-- One page of one integer is asked for, answered and reaped, and both sends are. -/
def exchange (k : UInt8) : List Event :=
  [.client .iterate,.client (.kernel (.execTx 0 [k,0,0,0])),
    .server (.kernel (.execRx 0 [k,0,0,0])),.server (.kernel (.postRx 0)),.server .serve,
    .server (.kernel (.execTx 0 [k,0,0,0])),.server (.kernel (.postTx 0)),.server .serve,
    .client (.kernel (.execRx 0 [k,0,0,0])),.client (.kernel (.postRx 0)),.client .reap,
    .client (.kernel (.postTx 0)),.client .reap,.client .finish]

def threeRequests : Job := ⟨7,10,0,by decide⟩

def roomyLink : Link := ⟨4,4,true⟩

def smallRun (K : Consts) (J : Job) (L : Link) (es : List Event) : Except Stop State := do
  let client ← Client.start K J (fun _ => ⟨(0,0),.readEvent,0⟩) (fun _ => [])
    Process.countingSupply
  let server ← Server.start K 0 (fun _ => ⟨(0,0),.readEvent,0⟩) (fun _ => [])
    Process.countingSupply
  execute (Connection.step K J 0 L) ⟨client,server,[],[]⟩ es

theorem run_of_smallRun {es : List Event} {s : State} (h : smallRun K J L es = .ok s) :
    Run K J 0 L es s := by
  obtain ⟨client,hc,h⟩ := bind_ok.mp h
  obtain ⟨server,hd,h⟩ := bind_ok.mp h
  exact ⟨_,⟨⟨_,_,_,hc⟩,⟨_,_,_,hd⟩,rfl,rfl⟩,h⟩

theorem reaped_pages_exchange : ∃ s,
    smallRun Consts.small threeRequests roomyLink (exchange 7 ++ exchange 8) = .ok s ∧
      s.client.recvs = [[7,0,0,0],[8,0,0,0]] ∧ Bytes.int32s [8,0,0,0] = [8] := by
  have hrun : yields (smallRun Consts.small threeRequests roomyLink (exchange 7 ++ exchange 8))
      (fun s => s.client.recvs = [[7,0,0,0],[8,0,0,0]]) = true := by decide +kernel
  obtain ⟨s,hs,htest⟩ := exists_of_yields hrun
  have hrecvs : s.client.recvs = [[7,0,0,0],[8,0,0,0]] := by simpa using htest
  have hpage := (reaped_pages (run_of_smallRun hs) (by decide)).2 1 [8,0,0,0] (by simp [hrecvs])
  exact ⟨s,hs,hrecvs,hpage.2⟩

end Runs

end FastNet.Simple.Connection
