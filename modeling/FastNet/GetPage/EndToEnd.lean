import FastNet.Foundation.Execution
import FastNet.GetPage.Client

/-! # The blocking client and the blocking server on one connection

The request loop of the client composed with `handle_client`. Requests are
delivered whole and no call fails, while a read of the client takes any number of
the bytes that wait. Every run ends with the counts the page numbers give.
-/
namespace FastNet.GetPage.EndToEnd
open Execution Client

structure State where
  client : Client.State
  server : Server.State
  toServer : List UInt8
  toClient : List UInt8

inductive Event
  | send
  | serve
  | read (k : ℕ)

variable (numRequests pageCount serverPages : ℕ) (strategy : FillingStrategy)

def step (s : State) : Event → Except Stop State
  | .send => do
    let client ← Client.step numRequests pageCount strategy s.client (.send (some sizeofRequest))
    return { s with
      client := client
      toServer := s.toServer ++ (request pageCount s.client.i).bytes }
  | .serve =>
    if sizeofRequest ≤ s.toServer.length ∧ s.server.closed = false then
      let server := Server.step (MemoryBlock.construct serverPages strategy) serverPages s.server
        (.bytes (s.toServer.take sizeofRequest))
      .ok { s with
        server := server
        toServer := s.toServer.drop sizeofRequest
        toClient := s.toClient ++ (server.written.drop s.server.written.length).flatten }
    else .error .disabled
  | .read k =>
    if 0 < k ∧ k ≤ s.toClient.length then do
      let client ← Client.step numRequests pageCount strategy s.client
        (.read (.bytes (s.toClient.take k)))
      return { s with client := client, toClient := s.toClient.drop k }
    else .error .disabled

def start : State := ⟨Client.start numRequests,⟨false,[]⟩,[],[]⟩

/-- The bytes of the response to the request of iteration `i`. -/
def answerBytes (i : ℕ) : List UInt8 :=
  (Server.answer strategy serverPages (query pageCount i)).bytes

/-- The number of the first `i` requests for pages that the server has. -/
def servedCount (i : ℕ) : ℕ := (List.range i).countP (served pageCount serverPages)

/-- What the client has counted and decoded after its first iterations. -/
structure Tally (c : Client.State) : Prop where
  decoded : c.decoded = (List.range c.i).map (expected pageCount strategy serverPages)
  correct : c.correctResponses.toNat = servedCount pageCount serverPages c.i
  incorrect : c.incorrectResponses.toNat = c.i - servedCount pageCount serverPages c.i
  memory : c.response.length = sizeofResponse

/-- Where the one request is that may be under way. -/
inductive Exchange (s : State) : Prop
  | ready (hp : s.client.phase = .sending) (hi : s.client.i < numRequests)
      (hserver : s.toServer = []) (hclient : s.toClient = [])
  | asked (hp : s.client.phase = .reading 0) (hi : s.client.i < numRequests)
      (hserver : s.toServer = (request pageCount s.client.i).bytes) (hclient : s.toClient = [])
  | answered (totalRead : ℕ) (hp : s.client.phase = .reading totalRead)
      (hi : s.client.i < numRequests) (hlt : totalRead < sizeofResponse)
      (hserver : s.toServer = [])
      (hclient : s.client.response.take totalRead ++ s.toClient =
        answerBytes pageCount serverPages strategy s.client.i)
  | finished (hp : s.client.phase = .finished) (hi : s.client.i = numRequests)
      (hserver : s.toServer = []) (hclient : s.toClient = [])

structure Synced (s : State) : Prop where
  tally : Tally pageCount serverPages strategy s.client
  exchange : Exchange numRequests pageCount serverPages strategy s
  running : s.server.closed = false

/-- A bound for the number of steps up to a state. -/
def spent (s : State) : ℕ :=
  142 * s.client.i + match s.client.phase with
    | .reading totalRead => if s.toServer = [] then totalRead + 2 else 1
    | _ => 0

variable {numRequests pageCount serverPages strategy}

section Counting

theorem servedCount_le (pageCount serverPages i : ℕ) : servedCount pageCount serverPages i ≤ i := by
  have h := List.countP_le_length (l := List.range i) (p := served pageCount serverPages)
  rw [List.length_range] at h
  exact h

theorem servedCount_succ (pageCount serverPages i : ℕ) : servedCount pageCount serverPages (i + 1) =
    servedCount pageCount serverPages i + if served pageCount serverPages i then 1 else 0 := by
  rw [servedCount,List.range_succ,List.countP_append,List.countP_singleton]
  rfl

/-- The next response is counted on the side its page number says. -/
theorem Tally.judge {c : Client.State} (h : Tally pageCount serverPages strategy c)
    (hpages : pageSize * serverPages < sizeMod) (hpc : 0 < pageCount) (hi : c.i + 1 < 2147483648)
    (hc : c.response = answerBytes pageCount serverPages strategy c.i) :
    Tally pageCount serverPages strategy
      (test numRequests { judge pageCount strategy c with i := c.i + 1 }) := by
  have hle := servedCount_le pageCount serverPages c.i
  have hcorrect := h.correct
  have hincorrect := h.incorrect
  have hsucc := servedCount_succ pageCount serverPages c.i
  rw [judge_expected hpages hpc (by omega) hc]
  constructor
  · change c.decoded ++ _ = (List.range (c.i + 1)).map _
    rw [h.decoded,List.range_succ,List.map_append]
    rfl
  · change (c.correctResponses + _).toNat = servedCount pageCount serverPages (c.i + 1)
    rw [hsucc]
    cases hs : served pageCount serverPages c.i with
    | true =>
      simp only [if_true,UInt32.toNat_add,UInt32.toNat_one]
      omega
    | false =>
      simp only [Bool.false_eq_true,if_false,UInt32.add_zero]
      omega
  · change (c.incorrectResponses + _).toNat = c.i + 1 - servedCount pageCount serverPages (c.i + 1)
    rw [hsucc]
    cases hs : served pageCount serverPages c.i with
    | true =>
      simp only [if_true,UInt32.add_zero]
      omega
    | false =>
      simp only [Bool.false_eq_true,if_false,UInt32.toNat_add,UInt32.toNat_one]
      omega
  · exact GetPageResponse.length_bytes _

end Counting

section Steps
variable {s t : State}

theorem length_answerBytes (i : ℕ) :
    (answerBytes pageCount serverPages strategy i).length = sizeofResponse :=
  GetPageResponse.length_bytes _

theorem Synced.send (h : Synced numRequests pageCount serverPages strategy s) (hpc : 0 < pageCount)
    (hp : s.client.phase = .sending) :
    ∃ t, step numRequests pageCount serverPages strategy s .send = .ok t ∧
      Synced numRequests pageCount serverPages strategy t ∧ spent s < spent t := by
  cases h.exchange with
  | ready _ hi hserver hclient =>
    refine ⟨_,bind_ok.mpr ⟨_,step_send hp hpc,rfl⟩,⟨?_,?_,h.running⟩,?_⟩
    · exact ⟨h.tally.decoded,h.tally.correct,h.tally.incorrect,h.tally.memory⟩
    · refine .asked rfl hi ?_ hclient
      change s.toServer ++ _ = _
      rw [hserver,List.nil_append]
    · have hne : s.toServer ++ (request pageCount s.client.i).bytes ≠ [] := by
        simp [GetPageRequest.bytes,u32Bytes,Bytes.leBytes]
      simp [spent,hp,hne]
  | asked hp' _ _ _ => cases hp.symm.trans hp'
  | answered _ hp' _ _ _ _ => cases hp.symm.trans hp'
  | finished hp' _ _ _ => cases hp.symm.trans hp'

theorem Synced.serve (h : Synced numRequests pageCount serverPages strategy s)
    (hpages : pageSize * serverPages < sizeMod) (hp : s.client.phase = .reading 0)
    (hi : s.client.i < numRequests) (hserver : s.toServer = (request pageCount s.client.i).bytes)
    (hclient : s.toClient = []) :
    ∃ t, step numRequests pageCount serverPages strategy s .serve = .ok t ∧
      Synced numRequests pageCount serverPages strategy t ∧ spent s < spent t := by
  have hlen : s.toServer.length = sizeofRequest := by rw [hserver,GetPageRequest.length_bytes]
  have htake : s.toServer.take sizeofRequest = (request pageCount s.client.i).bytes := by
    rw [List.take_of_length_le hlen.le,hserver]
  have hrequest : Server.wholeRequest (.bytes (s.toServer.take sizeofRequest)) =
      some (query pageCount s.client.i) := by
    rw [htake,Server.wholeRequest,if_pos (GetPageRequest.length_bytes _),
      GetPageRequest.ofBytes_bytes,request_toHostOrder]
  have hdo : Server.step (MemoryBlock.construct serverPages strategy) serverPages s.server
      (.bytes (s.toServer.take sizeofRequest)) = _ := Server.step_running h.running _
  rw [hrequest] at hdo
  refine ⟨_,if_pos ⟨hlen.ge,h.running⟩,⟨?_,?_,?_⟩,?_⟩
  · exact h.tally
  · refine .answered 0 hp hi (by decide) (List.drop_eq_nil_of_le hlen.le) ?_
    simp only [hdo]
    rw [hclient,List.take_zero,List.drop_left]
    simp [Server.respond_construct strategy serverPages hpages,answerBytes]
  · change (Server.step _ _ _ _).closed = false
    rw [hdo]
    exact h.running
  · have hne : s.toServer ≠ [] := by
      intro hnil
      simp [hnil,sizeofRequest] at hlen
    simp [spent,hp,hne,hlen]

section Reading
variable {totalRead k : ℕ} (h : Synced numRequests pageCount serverPages strategy s)
  (hp : s.client.phase = .reading totalRead) (hi : s.client.i < numRequests)
  (hserver : s.toServer = []) (hclient : s.client.response.take totalRead ++ s.toClient =
    answerBytes pageCount serverPages strategy s.client.i) (hk : 0 < k) (hle : k ≤ s.toClient.length)

include h hclient in
theorem Synced.length_waiting (hlt : totalRead < sizeofResponse) :
    totalRead + s.toClient.length = sizeofResponse := by
  have hmemory := h.tally.memory
  have hlen := congrArg List.length hclient
  rw [List.length_append,List.length_take,length_answerBytes] at hlen
  omega

include h hp hi hserver hclient hk hle in
theorem Synced.readPart (hmore : totalRead + k < sizeofResponse) :
    ∃ t, step numRequests pageCount serverPages strategy s (.read k) = .ok t ∧
      Synced numRequests pageCount serverPages strategy t ∧ spent s < spent t := by
  have hmemory := h.tally.memory
  have hlen : (s.toClient.take k).length = k := by
    rw [List.length_take]
    omega
  have hfit : totalRead + (s.toClient.take k).length ≤ s.client.response.length := by omega
  have hclientStep : Client.step numRequests pageCount strategy s.client
      (.read (.bytes (s.toClient.take k))) = _ :=
    step_read_part hp (hk.trans_eq hlen.symm) (by omega)
  refine ⟨_,(if_pos ⟨hk,hle⟩).trans (bind_ok.mpr ⟨_,hclientStep,rfl⟩),⟨?_,?_,h.running⟩,?_⟩
  · exact ⟨h.tally.decoded,h.tally.correct,h.tally.incorrect,(length_store hfit).trans hmemory⟩
  · refine .answered (totalRead + k) ?_ hi hmore hserver ?_
    · change Phase.reading _ = Phase.reading _
      rw [hlen]
    · have hstore := take_store hfit
      rw [hlen] at hstore
      change (store _ _ _).take _ ++ s.toClient.drop k = _
      rw [hstore,List.append_assoc,List.take_append_drop]
      exact hclient
  · simp only [spent,hp,hserver,hlen,if_true]
    omega

include h hp hi hserver hclient hk hle in
theorem Synced.readWhole (hn : numRequests < 2147483648)
    (hpages : pageSize * serverPages < sizeMod) (hpc : 0 < pageCount)
    (hwhole : totalRead + k = sizeofResponse) (hall : s.toClient.take k = s.toClient) :
    ∃ t, step numRequests pageCount serverPages strategy s (.read k) = .ok t ∧
      Synced numRequests pageCount serverPages strategy t ∧ spent s < spent t := by
  have hmemory := h.tally.memory
  have hlen : s.toClient.length = k := by
    rw [← hall,List.length_take]
    omega
  have hfit : totalRead + s.toClient.length ≤ s.client.response.length := by omega
  have hsize := (length_store hfit).trans hmemory
  have hanswer : store s.client.response totalRead s.toClient =
      answerBytes pageCount serverPages strategy s.client.i := by
    have hstore := take_store hfit
    rw [hlen,hwhole,List.take_of_length_le hsize.le] at hstore
    rw [hstore,hclient]
  have hnext : s.client.i + 1 < 2147483648 := by omega
  have hread : Client.step numRequests pageCount strategy s.client
      (.read (.bytes s.toClient)) = _ := step_read_whole hp (hk.trans_eq hlen.symm) (by omega)
  have hloop : continueLoop numRequests (judge pageCount strategy { s.client with
      response := store s.client.response totalRead s.toClient }) = _ :=
    continueLoop_ok (by rw [judge_i]; exact hnext)
  rw [judge_i] at hloop
  have hsame : Client.step numRequests pageCount strategy s.client
      (.read (.bytes (s.toClient.take k))) = Client.step numRequests pageCount strategy s.client
        (.read (.bytes s.toClient)) := by rw [hall]
  refine ⟨_,(if_pos ⟨hk,hle⟩).trans (bind_ok.mpr ⟨_,hsame.trans (hread.trans hloop),rfl⟩),
    ⟨?_,?_,h.running⟩,?_⟩
  · have htally : Tally pageCount serverPages strategy { s.client with
        response := store s.client.response totalRead s.toClient } :=
      ⟨h.tally.decoded,h.tally.correct,h.tally.incorrect,hsize⟩
    exact htally.judge hpages hpc hnext hanswer
  · have hdrop : s.toClient.drop k = [] := List.drop_eq_nil_of_le hlen.le
    by_cases hlast : s.client.i + 1 < numRequests
    · exact .ready (if_pos hlast) hlast hserver hdrop
    · have hi' : s.client.i + 1 = numRequests := by omega
      exact .finished (if_neg hlast) hi' hserver hdrop
  · have hframe : sizeofResponse = 140 := rfl
    have hspent : spent s = 142 * s.client.i + (totalRead + 2) := by
      simp [spent,hp,hserver]
    have hnext : 142 * (s.client.i + 1) ≤ spent { s with
        client := test numRequests { judge pageCount strategy { s.client with
          response := store s.client.response totalRead s.toClient } with
            i := s.client.i + 1 }
        toClient := s.toClient.drop k } := Nat.le_add_right _ _
    refine Nat.lt_of_lt_of_le ?_ hnext
    omega

include h hp hi hserver hclient hk hle in
theorem Synced.read (hn : numRequests < 2147483648) (hpages : pageSize * serverPages < sizeMod)
    (hpc : 0 < pageCount) (hlt : totalRead < sizeofResponse) :
    ∃ t, step numRequests pageCount serverPages strategy s (.read k) = .ok t ∧
      Synced numRequests pageCount serverPages strategy t ∧ spent s < spent t := by
  have hwaiting := h.length_waiting hclient hlt
  by_cases hmore : totalRead + k < sizeofResponse
  · exact h.readPart hp hi hserver hclient hk hle hmore
  · have hall : s.toClient.take k = s.toClient := List.take_of_length_le (by omega)
    exact h.readWhole hp hi hserver hclient hk hle hn hpages hpc (by omega) hall

end Reading

theorem Synced.start (numRequests : ℕ) :
    Synced numRequests pageCount serverPages strategy (start numRequests) := by
  refine ⟨⟨rfl,rfl,rfl,GetPageResponse.length_bytes _⟩,?_,rfl⟩
  by_cases h : 0 < numRequests
  · exact .ready (if_pos h) h rfl rfl
  · have hzero : 0 = numRequests := by omega
    exact .finished (if_neg h) hzero rfl rfl

theorem serve_disabled (h : s.toServer = []) :
    step numRequests pageCount serverPages strategy s .serve = .error .disabled := by
  apply if_neg
  simp [h,sizeofRequest]

theorem read_disabled (h : s.toClient = []) (k : ℕ) :
    step numRequests pageCount serverPages strategy s (.read k) = .error .disabled := by
  apply if_neg
  rw [h,List.length_nil]
  omega

theorem send_disabled (h : s.client.phase ≠ .sending) :
    step numRequests pageCount serverPages strategy s .send = .error .disabled := by
  have hclient : Client.step numRequests pageCount strategy s.client
      (.send (some sizeofRequest)) = .error .disabled := if_neg h
  rw [step,hclient]
  rfl

variable (hn : numRequests < 2147483648) (hpages : pageSize * serverPages < sizeMod)
  (hpc : 0 < pageCount)
include hn hpages hpc

/-- No step faults, and one that happens keeps both sides in step. -/
theorem Synced.step (h : Synced numRequests pageCount serverPages strategy s) (e : Event) :
    (∃ t, step numRequests pageCount serverPages strategy s e = .ok t ∧
      Synced numRequests pageCount serverPages strategy t ∧ spent s < spent t) ∨
    step numRequests pageCount serverPages strategy s e = .error .disabled := by
  cases h.exchange with
  | ready hp hi hserver hclient =>
    cases e with
    | send => exact Or.inl (h.send hpc hp)
    | serve => exact Or.inr (serve_disabled hserver)
    | read k => exact Or.inr (read_disabled hclient k)
  | asked hp hi hserver hclient =>
    cases e with
    | send => exact Or.inr (send_disabled (by rw [hp]; simp))
    | serve => exact Or.inl (h.serve hpages hp hi hserver hclient)
    | read k => exact Or.inr (read_disabled hclient k)
  | answered totalRead hp hi hlt hserver hclient =>
    cases e with
    | send => exact Or.inr (send_disabled (by rw [hp]; simp))
    | serve => exact Or.inr (serve_disabled hserver)
    | read k =>
      by_cases hk : 0 < k ∧ k ≤ s.toClient.length
      · exact Or.inl (h.read hp hi hserver hclient hk.1 hk.2 hn hpages hpc hlt)
      · exact Or.inr (if_neg hk)
  | finished hp hi hserver hclient =>
    cases e with
    | send => exact Or.inr (send_disabled (by rw [hp]; simp))
    | serve => exact Or.inr (serve_disabled hserver)
    | read k => exact Or.inr (read_disabled hclient k)

/-- Until the client has finished, one of the two sides can go on. -/
theorem Synced.enabled (h : Synced numRequests pageCount serverPages strategy s)
    (hp : s.client.phase ≠ .finished) :
    ∃ e t, EndToEnd.step numRequests pageCount serverPages strategy s e = .ok t := by
  cases h.exchange with
  | ready hp' _ _ _ =>
    obtain ⟨t,ht,-⟩ := h.send hpc hp'
    exact ⟨_,t,ht⟩
  | asked hp' hi hserver hclient =>
    obtain ⟨t,ht,-⟩ := h.serve hpages hp' hi hserver hclient
    exact ⟨_,t,ht⟩
  | answered totalRead hp' hi hlt hserver hclient =>
    have hwaiting := h.length_waiting hclient hlt
    have hsome : 0 < s.toClient.length := by omega
    obtain ⟨t,ht,-⟩ := h.read hp' hi hserver hclient Nat.one_pos hsome hn hpages hpc hlt
    exact ⟨_,t,ht⟩
  | finished hp' _ _ _ => exact (hp hp').elim

omit hn hpages hpc in
theorem Synced.spent_le (h : Synced numRequests pageCount serverPages strategy s) :
    spent s ≤ 142 * numRequests := by
  have hsize : sizeofResponse = 140 := rfl
  unfold spent
  cases h.exchange with
  | ready hp hi hserver _ =>
    simp only [hp]
    omega
  | asked hp hi hserver _ =>
    simp only [hp]
    split <;> omega
  | answered totalRead hp hi hlt hserver _ =>
    simp only [hp,if_pos hserver]
    omega
  | finished hp hi _ _ =>
    simp only [hp]
    omega

theorem synced_of_run {es : List Event}
    (h : execute (EndToEnd.step numRequests pageCount serverPages strategy)
      (EndToEnd.start numRequests) es = .ok s) :
    Synced numRequests pageCount serverPages strategy s ∧ es.length ≤ 142 * numRequests := by
  have hstep : ∀ s e t, Synced numRequests pageCount serverPages strategy s →
      EndToEnd.step numRequests pageCount serverPages strategy s e = .ok t →
      Synced numRequests pageCount serverPages strategy t ∧ spent s < spent t := by
    intro s e t hs ht
    rcases hs.step hn hpages hpc e with ⟨u,hu,hsynced⟩ | hno
    · cases hu.symm.trans ht
      exact hsynced
    · cases hno.symm.trans ht
  obtain ⟨hs,hle⟩ := execute_length_le hstep h (Synced.start numRequests)
  have hbound := hs.spent_le
  exact ⟨hs,by omega⟩

end Steps

section Main

/-- Every run is finite, never faults and can be continued until the client has
finished; the counts are then those of the page numbers, and each response decoded
on the way is the one for its request. -/
theorem finishes_with_counts (numRequests pageCount serverPages : ℕ) (strategy : FillingStrategy)
    (hn : numRequests < 2147483648) (hpc : 0 < pageCount)
    (hpages : pageSize * serverPages < sizeMod) {es : List Event} {s : State}
    (h : execute (step numRequests pageCount serverPages strategy) (start numRequests) es = .ok s) :
    es.length ≤ 142 * numRequests ∧
    (∀ e why, step numRequests pageCount serverPages strategy s e = .error why →
      why = .disabled) ∧
    (s.client.phase ≠ .finished →
      ∃ e t, step numRequests pageCount serverPages strategy s e = .ok t) ∧
    (s.client.phase = .finished → s.client.decoded.length = numRequests ∧
      s.client.correctResponses.toNat =
        (List.range numRequests).countP (fun i => i % pageCount < serverPages) ∧
      s.client.incorrectResponses.toNat =
        numRequests - (List.range numRequests).countP (fun i => i % pageCount < serverPages)) ∧
    ∀ i r, s.client.decoded[i]? = some r →
      r.header.requestId.toNat = i ∧ r.header.pageNumber.toNat = i % pageCount ∧
      (i % pageCount < serverPages → r.header.status = statusSuccess ∧
        r.content.toList = (MemoryBlock.construct serverPages strategy).read
          (i % pageCount * pageSize) pageSize) ∧
      (serverPages ≤ i % pageCount → r.header.status = statusInvalidPageNumber ∧
        r.content.toList = List.replicate pageSize 0xFA) := by
  obtain ⟨hs,hlen⟩ := synced_of_run hn hpages hpc h
  have hi : s.client.i ≤ numRequests := by
    cases hs.exchange <;> omega
  refine ⟨hlen,?_,hs.enabled hn hpages hpc,?_,?_⟩
  · intro e why hwhy
    rcases hs.step hn hpages hpc e with ⟨t,ht,-⟩ | hno
    · cases ht.symm.trans hwhy
    · cases hno.symm.trans hwhy
      rfl
  · intro hp
    have hall : s.client.i = numRequests := by
      cases hs.exchange with
      | ready hp' _ _ _ => cases hp.symm.trans hp'
      | asked hp' _ _ _ => cases hp.symm.trans hp'
      | answered _ hp' _ _ _ _ => cases hp.symm.trans hp'
      | finished _ hi _ _ => exact hi
    have hdecoded := congrArg List.length hs.tally.decoded
    rw [List.length_map,List.length_range,hall] at hdecoded
    have hcorrect := hs.tally.correct
    have hincorrect := hs.tally.incorrect
    rw [hall] at hcorrect hincorrect
    exact ⟨hdecoded,hcorrect,hincorrect⟩
  · intro i r hr
    rw [hs.tally.decoded,List.getElem?_map] at hr
    obtain ⟨j,hj,rfl⟩ := Option.map_eq_some_iff.mp hr
    obtain ⟨hlt,rfl⟩ := List.getElem?_eq_some_iff.mp hj
    rw [List.length_range] at hlt
    rw [List.getElem_range]
    exact expected_spec hpages (by omega)

/-- Two requests, the second for a page the server does not have. -/
def mixedRun : List Event :=
  [.send,.serve,.read sizeofHeader,.read pageSize,.send,.serve,.read sizeofResponse]

theorem finishes_with_counts_mixed :
    ∃ s, execute (step 2 2 1 (pseudoRandomFillingStrategy 42)) (start 2) mixedRun = .ok s ∧
      s.client.correctResponses.toNat = 1 ∧ s.client.incorrectResponses.toNat = 1 := by
  have hrun : yields (execute (step 2 2 1 (pseudoRandomFillingStrategy 42)) (start 2) mixedRun)
      (fun s => s.client.phase = .finished) = true := by decide +kernel
  obtain ⟨s,hs,hp⟩ := exists_of_yields hrun
  obtain ⟨-,-,-,hcounts,-⟩ := finishes_with_counts 2 2 1 (pseudoRandomFillingStrategy 42)
    (by decide) (by decide) (by decide) hs
  obtain ⟨-,hcorrect,hincorrect⟩ := hcounts (of_decide_eq_true hp)
  exact ⟨s,hs,hcorrect,hincorrect⟩

end Main

end FastNet.GetPage.EndToEnd
