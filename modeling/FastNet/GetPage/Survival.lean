import FastNet.Foundation.Execution
import FastNet.GetPage.Client

/-! # What the blocking client does not survive

The client goes on after a call that fails. The server answers every complete
request in the bytes that were sent, in order; the client reads these answers as one
stream of bytes and never looks at the identifier in a response. A send or a read
that stops half way therefore moves all later responses.
-/
namespace FastNet.GetPage.Survival
open Execution Client

/-- A response that was counted as correct: the request it was taken for, where its
bytes start in the stream of answers, and whether an earlier send had put part of a
request on the connection or an earlier read had failed. -/
structure Counted where
  i : ℕ
  origin : ℕ
  response : GetPageResponse
  truncated : Bool
  interrupted : Bool

structure State where
  client : Client.State
  /-- The bytes put on the connection to the server. -/
  asked : List UInt8
  /-- The number of bytes read from the answers. -/
  consumed : ℕ
  /-- That number when the last request was sent. -/
  origin : ℕ
  truncated : Bool
  interrupted : Bool
  counted : List Counted

variable (numRequests pageCount serverPages : ℕ) (strategy : FillingStrategy)

/-- The answers to the complete requests in the bytes sent. -/
def frames (asked : List UInt8) : List (List UInt8) :=
  (Bytes.blocks sizeofRequest asked).map (fun bs =>
    Server.respond (MemoryBlock.construct serverPages strategy) serverPages
      (GetPageRequest.ofBytes bs).toHostOrder)

/-- The entries for the responses that a step of the client counts as correct. -/
def newlyCounted (s : State) (client : Client.State) : List Counted :=
  if client.correctResponses = s.client.correctResponses then []
  else (client.decoded.drop s.client.decoded.length).map
    (fun response => ⟨s.client.i,s.origin,response,s.truncated,s.interrupted⟩)

def step (s : State) : Client.Event → Except Stop State
  | .send sent =>
    if sent.getD 0 ≤ sizeofRequest then do
      let client ← Client.step numRequests pageCount strategy s.client (.send sent)
      return { s with
        client := client
        asked := s.asked ++ (request pageCount s.client.i).bytes.take (sent.getD 0)
        origin := s.consumed
        truncated := s.truncated || decide (0 < sent.getD 0 ∧ sent.getD 0 < sizeofRequest) }
    else .error .disabled
  | .read r =>
    if r.content <+: (frames serverPages strategy s.asked).flatten.drop s.consumed then do
      let client ← Client.step numRequests pageCount strategy s.client (.read r)
      return { s with
        client := client
        consumed := s.consumed + r.content.length
        interrupted := s.interrupted || r.content.isEmpty
        counted := s.counted ++ newlyCounted s client }
    else .error .disabled

def start : State := ⟨Client.start numRequests,[],0,0,false,false,[]⟩

/-- The response is one single answer, the one to the request it was taken for. -/
def Synced (asked : List UInt8) (c : Counted) : Prop :=
  ∃ q f, (frames serverPages strategy asked)[q]? = some f ∧ c.origin = sizeofResponse * q ∧
    c.response = (GetPageResponse.ofBytes f).toHostOrder ∧
    c.response.header.requestId = UInt32.ofNat c.i

/-- Where the response to the request under way, or to the next one, starts. -/
def State.base (s : State) : ℕ :=
  match s.client.phase with
  | .reading _ => s.origin
  | _ => s.consumed

/-- The request under way. -/
def State.current (s : State) : List ℕ :=
  match s.client.phase with
  | .reading _ => [s.client.i]
  | _ => []

/-- As long as no send is cut short, all bytes sent are whole requests, and the response
to the current one starts behind the answers to the others unless a read has failed. -/
structure Placed (s : State) (older : List ℕ) : Prop where
  asked : s.asked = ((older ++ s.current).map (fun j => (request pageCount j).bytes)).flatten
  older_lt : ∀ j ∈ older, j < s.client.i
  base_le : s.base ≤ sizeofResponse * older.length
  base_eq : s.base = sizeofResponse * older.length ↔ s.interrupted = false

structure Inv (s : State) : Prop where
  memory : s.client.response.length = sizeofResponse
  small : s.client.i < 2147483648
  reading : ∀ totalRead, s.client.phase = .reading totalRead →
    totalRead < sizeofResponse ∧ s.consumed = s.origin + totalRead ∧
      s.client.response.take totalRead =
        ((frames serverPages strategy s.asked).flatten.drop s.origin).take totalRead
  placed : s.truncated = false → ∃ older, Placed pageCount s older
  counted : ∀ c ∈ s.counted, c.truncated = false →
    c.origin < (frames serverPages strategy s.asked).flatten.length ∧
      (Synced serverPages strategy s.asked c ↔ c.interrupted = false)
  correct : s.client.correctResponses = UInt32.ofNat s.counted.length

variable {numRequests pageCount serverPages strategy} {s t : State}

section Frames

theorem frames_prefix (asked more : List UInt8) :
    frames serverPages strategy asked <+: frames serverPages strategy (asked ++ more) :=
  (Bytes.blocks_prefix _ _ _).map _

variable (hpages : pageSize * serverPages < sizeMod)
include hpages

theorem mem_frames {asked f : List UInt8} (h : f ∈ frames serverPages strategy asked) :
    f.length = sizeofResponse := by
  obtain ⟨bs,-,rfl⟩ := List.mem_map.mp h
  exact Server.length_respond strategy serverPages hpages _

/-- The server answers whole requests with the responses the client expects. -/
theorem frames_requests (js : List ℕ) :
    frames serverPages strategy (js.map (fun j => (request pageCount j).bytes)).flatten =
      js.map (fun j => (Server.answer strategy serverPages (query pageCount j)).bytes) := by
  have hlen : ∀ c ∈ js.map (fun j => (request pageCount j).bytes), c.length = sizeofRequest := by
    intro c hc
    obtain ⟨j,-,rfl⟩ := List.mem_map.mp hc
    exact GetPageRequest.length_bytes _
  rw [frames,Bytes.blocks_flatten (by decide) hlen,List.map_map]
  refine List.map_congr_left fun j _ => ?_
  rw [Function.comp_apply,GetPageRequest.ofBytes_bytes,request_toHostOrder,
    Server.respond_construct strategy serverPages hpages]

/-- A response that starts before the end of the answers keeps its place. -/
theorem synced_append {asked more : List UInt8} {c : Counted}
    (h : c.origin < (frames serverPages strategy asked).flatten.length) :
    Synced serverPages strategy (asked ++ more) c ↔ Synced serverPages strategy asked c := by
  have hprefix : frames serverPages strategy asked <+: _ := frames_prefix asked more
  obtain ⟨rest,hrest⟩ := hprefix
  rw [Bytes.length_flatten_of_all fun f hf => mem_frames hpages hf] at h
  have hsame : ∀ q, c.origin = sizeofResponse * q →
      (frames serverPages strategy (asked ++ more))[q]? =
        (frames serverPages strategy asked)[q]? := by
    intro q hq
    rw [hq] at h
    rw [← hrest,List.getElem?_append_left (Nat.lt_of_mul_lt_mul_left h)]
  constructor
  · rintro ⟨q,f,hf,horigin,hresponse⟩
    exact ⟨q,f,by rw [← hsame q horigin]; exact hf,horigin,hresponse⟩
  · rintro ⟨q,f,hf,horigin,hresponse⟩
    exact ⟨q,f,by rw [hsame q horigin]; exact hf,horigin,hresponse⟩

end Frames

section Phases

theorem base_reading {k : ℕ} (h : s.client.phase = .reading k) :
    s.base = s.origin ∧ s.current = [s.client.i] := by
  simp [State.base,State.current,h]

theorem base_between (h : ∀ k, s.client.phase ≠ .reading k) : s.base = s.consumed ∧ s.current = [] := by
  unfold State.base State.current
  cases hp : s.client.phase with
  | reading k => exact absurd hp (h k)
  | sending => exact ⟨rfl,rfl⟩
  | finished => exact ⟨rfl,rfl⟩

theorem test_phase (c : Client.State) (k : ℕ) : (test numRequests c).phase ≠ .reading k := by
  unfold test
  split <;> simp

theorem newlyCounted_nil {client : Client.State}
    (h : client.correctResponses = s.client.correctResponses) : newlyCounted s client = [] := if_pos h

end Phases

section Sends
variable (hpages : pageSize * serverPages < sizeMod)
include hpages

theorem Inv.counted_append (hi : Inv pageCount serverPages strategy s) (more : List UInt8) :
    ∀ c ∈ s.counted, c.truncated = false →
      c.origin < (frames serverPages strategy (s.asked ++ more)).flatten.length ∧
        (Synced serverPages strategy (s.asked ++ more) c ↔ c.interrupted = false) := by
  intro c hc hcut
  obtain ⟨hlt,hiff⟩ := hi.counted c hc hcut
  have hprefix : frames serverPages strategy s.asked <+: frames serverPages strategy (s.asked ++ more) :=
    frames_prefix s.asked more
  obtain ⟨rest,hrest⟩ := hprefix
  refine ⟨?_,(synced_append hpages hlt).trans hiff⟩
  rw [← hrest,List.flatten_append,List.length_append]
  omega

theorem Inv.send (hi : Inv pageCount serverPages strategy s) {sent : Option ℕ}
    (h : step numRequests pageCount serverPages strategy s (.send sent) = .ok t) :
    Inv pageCount serverPages strategy t := by
  simp only [step] at h
  split at h
  · rename_i hle
    obtain ⟨client,hclient,h⟩ := bind_ok.mp h
    cases h
    obtain ⟨hp,hcase⟩ := send_cases hclient
    obtain ⟨hbase,hcurrent⟩ := base_between (s := s) (by simp [hp])
    rcases hcase with ⟨rfl,rfl⟩ | ⟨hsent,hloop⟩
    · refine ⟨hi.memory,hi.small,?_,?_,hi.counted_append hpages _,hi.correct⟩
      · intro totalRead hphase
        cases hphase
        exact ⟨by decide,rfl,by simp⟩
      · intro hcut
        obtain ⟨older,hplaced⟩ := hi.placed (by simpa using hcut)
        have hwhole : (request pageCount s.client.i).bytes.take sizeofRequest =
            (request pageCount s.client.i).bytes :=
          List.take_of_length_le (GetPageRequest.length_bytes _).le
        refine ⟨older,?_,hplaced.older_lt,?_,?_⟩
        · have hasked := hplaced.asked
          rw [hcurrent,List.append_nil] at hasked
          simp [State.current,hasked,hwhole]
        · exact hbase ▸ hplaced.base_le
        · exact hbase ▸ hplaced.base_eq
    · obtain ⟨hlt,rfl⟩ := continueLoop_cases hloop
      refine ⟨hi.memory,hlt,fun totalRead hphase => absurd hphase (test_phase _ _),?_,
        hi.counted_append hpages _,hi.correct⟩
      intro hcut
      obtain ⟨hcut,hzero⟩ : s.truncated = false ∧
          (0 < sent.getD 0 → sizeofRequest ≤ sent.getD 0) := by simpa using hcut
      have hnone : sent.getD 0 = 0 := by
        cases sent with
        | none => rfl
        | some n =>
          simp only [Option.getD_some,ne_eq,Option.some.injEq] at hle hzero hsent ⊢
          omega
      obtain ⟨older,hplaced⟩ := hi.placed hcut
      refine ⟨older,?_,?_,?_,?_⟩
      · have hasked := hplaced.asked
        rw [hcurrent] at hasked
        rw [(base_between (test_phase _)).2]
        simpa [hnone] using hasked
      · intro j hj
        exact Nat.lt_succ_of_lt (hplaced.older_lt j hj)
      · rw [(base_between (test_phase _)).1]
        exact hbase ▸ hplaced.base_le
      · rw [(base_between (test_phase _)).1]
        exact hbase ▸ hplaced.base_eq
  · cases h

end Sends

section Reads
variable {totalRead : ℕ} {bs : List UInt8}

/-- The bytes of the response read so far are those of the answers from its start. -/
theorem Inv.store (hi : Inv pageCount serverPages strategy s)
    (hp : s.client.phase = .reading totalRead)
    (hbs : bs <+: (frames serverPages strategy s.asked).flatten.drop s.consumed)
    (hfit : totalRead + bs.length ≤ sizeofResponse) :
    (store s.client.response totalRead bs).length = sizeofResponse ∧
      (store s.client.response totalRead bs).take (totalRead + bs.length) =
        ((frames serverPages strategy s.asked).flatten.drop s.origin).take
          (totalRead + bs.length) := by
  obtain ⟨hlt,hconsumed,htake⟩ := hi.reading totalRead hp
  have hmemory := hi.memory
  have hinside : totalRead + bs.length ≤ s.client.response.length := by omega
  refine ⟨(length_store hinside).trans hmemory,?_⟩
  rw [take_store hinside,htake,List.take_add,List.drop_drop,← hconsumed]
  exact congrArg _ (List.prefix_iff_eq_take.mp hbs)

theorem decoded_requestId (pageCount serverPages : ℕ) (strategy : FillingStrategy) {j : ℕ}
    (hj : j < 2147483648) :
    (GetPageResponse.ofBytes
      (Server.answer strategy serverPages (query pageCount j)).bytes).toHostOrder.header.requestId =
        UInt32.ofNat j := by
  rw [GetPageResponse.ofBytes_bytes]
  exact congrArg GetPageResponseHeader.requestId (expected_header pageCount strategy serverPages hj)

section Judged
variable (hi : Inv pageCount serverPages strategy s) (hpages : pageSize * serverPages < sizeMod)
  {older : List ℕ} (hplaced : Placed pageCount s older) (hp : s.client.phase = .reading totalRead)
include hpages hplaced hp

theorem Placed.frames_eq : frames serverPages strategy s.asked =
    (older ++ [s.client.i]).map
      (fun j => (Server.answer strategy serverPages (query pageCount j)).bytes) := by
  rw [hplaced.asked,(base_reading hp).2]
  exact frames_requests hpages _

theorem Placed.length_answers : (frames serverPages strategy s.asked).flatten.length =
    sizeofResponse * (older.length + 1) := by
  rw [Bytes.length_flatten_of_all fun f hf => mem_frames hpages hf,hplaced.frames_eq hpages hp,
    List.length_map,List.length_append,List.length_singleton]

include hi in
/-- A response at the place of an older one has the identifier of that one. -/
theorem Placed.requestId_ne {q : ℕ} {f : List UInt8} (hq : q < older.length)
    (hf : (frames serverPages strategy s.asked)[q]? = some f) :
    (GetPageResponse.ofBytes f).toHostOrder.header.requestId ≠ UInt32.ofNat s.client.i := by
  rw [hplaced.frames_eq hpages hp,List.getElem?_map,List.getElem?_append_left hq,
    List.getElem?_eq_getElem hq] at hf
  cases hf
  have hlt := hplaced.older_lt _ (List.getElem_mem hq)
  have hsmall := hi.small
  rw [decoded_requestId pageCount serverPages strategy (by omega)]
  intro heq
  have hnat := congrArg UInt32.toNat heq
  simp only [UInt32.toNat_ofNat'] at hnat
  omega

include hi in
/-- A response that is complete is the one to its request unless a read has failed. -/
theorem Placed.judged {bs : List UInt8}
    (hbs : bs <+: (frames serverPages strategy s.asked).flatten.drop s.consumed)
    (hall : totalRead + bs.length = sizeofResponse) {c : Counted}
    (hc : c = ⟨s.client.i,s.origin,(GetPageResponse.ofBytes
      (Client.store s.client.response totalRead bs)).toHostOrder,s.truncated,s.interrupted⟩) :
    c.origin < (frames serverPages strategy s.asked).flatten.length ∧
      (Synced serverPages strategy s.asked c ↔ c.interrupted = false) := by
  obtain ⟨hlen,hstore⟩ := hi.store hp hbs hall.le
  rw [hall,List.take_of_length_le hlen.le] at hstore
  have hframes : frames serverPages strategy s.asked = _ := hplaced.frames_eq hpages hp
  have hle := hplaced.base_le
  have heq := hplaced.base_eq
  rw [(base_reading hp).1] at hle heq
  have hpos : 0 < sizeofResponse := by decide
  subst hc
  constructor
  · rw [hplaced.length_answers hpages hp,Nat.mul_succ]
    exact lt_of_le_of_lt hle (Nat.lt_add_of_pos_right hpos)
  constructor
  · rintro ⟨q,f,hf,horigin,hresponse,hid⟩
    rw [← heq]
    by_contra hne
    dsimp only at horigin hresponse hid
    have hq : q < older.length := by
      apply Nat.lt_of_mul_lt_mul_left (a := sizeofResponse)
      omega
    exact hplaced.requestId_ne hi hpages hp hq hf (hresponse ▸ hid)
  · intro hok
    have horigin := heq.mpr hok
    have hlast : older.length < (frames serverPages strategy s.asked).length := by
      rw [hframes]
      simp
    have hget : (frames serverPages strategy s.asked)[older.length] =
        (Server.answer strategy serverPages (query pageCount s.client.i)).bytes := by
      simp only [hframes,List.getElem_map,List.getElem_concat_length]
    have hbytes : Client.store s.client.response totalRead bs =
        (Server.answer strategy serverPages (query pageCount s.client.i)).bytes := by
      rw [hstore,horigin,Bytes.take_drop_flatten (fun f hf => mem_frames hpages hf) hlast,hget]
    refine ⟨older.length,_,List.getElem?_eq_getElem hlast,horigin,?_,?_⟩
    · rw [hget,← hbytes]
    · dsimp only
      rw [hbytes]
      exact decoded_requestId pageCount serverPages strategy hi.small

end Judged

/-- Going on to the next request puts the current one with the older ones. -/
theorem Placed.next {older : List ℕ} (hplaced : Placed pageCount s older)
    (hp : s.client.phase = .reading totalRead) (hconsumed : s.consumed = s.origin + totalRead)
    {n : ℕ} (hfit : totalRead + n ≤ sizeofResponse) {failed : Bool}
    (hfailed : totalRead + n = sizeofResponse ↔ failed = false)
    (ht : t.asked = s.asked ∧ t.client.i = s.client.i + 1 ∧ t.consumed = s.consumed + n ∧
      t.interrupted = (s.interrupted || failed) ∧ ∀ k, t.client.phase ≠ .reading k) :
    Placed pageCount t (older ++ [s.client.i]) := by
  obtain ⟨hasked,hnext,hread,hint,hphase⟩ := ht
  obtain ⟨hbase,hcurrent⟩ := base_reading hp
  obtain ⟨hbase',hcurrent'⟩ := base_between hphase
  have hle := hplaced.base_le
  have heq := hplaced.base_eq
  rw [hbase] at hle heq
  have hlen : sizeofResponse * (older ++ [s.client.i]).length =
      sizeofResponse * older.length + sizeofResponse := by
    rw [List.length_append,List.length_singleton,Nat.mul_succ]
  refine ⟨?_,?_,?_,?_⟩
  · rw [hasked,hcurrent',List.append_nil,hplaced.asked,hcurrent]
  · intro j hj
    rw [hnext]
    rcases List.mem_append.mp hj with hj | hj
    · exact Nat.lt_succ_of_lt (hplaced.older_lt j hj)
    · rw [List.mem_singleton.mp hj]
      exact Nat.lt_succ_self _
  · rw [hbase',hread,hlen]
    omega
  · rw [hbase',hread,hlen,hint,Bool.or_eq_false_iff,← heq,← hfailed]
    omega

theorem Inv.readNothing (hi : Inv pageCount serverPages strategy s)
    (hp : s.client.phase = .reading totalRead) {client : Client.State}
    (hloop : afterReads numRequests pageCount strategy s.client totalRead = .ok client)
    (ht : t = { s with
      client := client
      interrupted := true
      counted := s.counted ++ newlyCounted s client }) :
    Inv pageCount serverPages strategy t := by
  obtain ⟨hlt,hconsumed,-⟩ := hi.reading totalRead hp
  rw [afterReads,if_pos hlt.ne] at hloop
  obtain ⟨hsmall,hclient⟩ := continueLoop_cases hloop
  rw [newlyCounted_nil (by rw [hclient]; rfl),List.append_nil] at ht
  subst hclient
  subst ht
  refine ⟨hi.memory,hsmall,fun k hk => absurd hk (test_phase _ _),?_,hi.counted,hi.correct⟩
  intro hcut
  obtain ⟨older,hplaced⟩ := hi.placed hcut
  have hnot : totalRead + 0 = sizeofResponse ↔ true = false := by simpa using hlt.ne
  exact ⟨_,hplaced.next hp hconsumed hlt.le hnot
    ⟨rfl,rfl,rfl,(Bool.or_true _).symm,test_phase _⟩⟩

theorem Inv.readPart (hi : Inv pageCount serverPages strategy s)
    (hp : s.client.phase = .reading totalRead) {bs : List UInt8}
    (hbs : bs <+: (frames serverPages strategy s.asked).flatten.drop s.consumed)
    (hmore : totalRead + bs.length < sizeofResponse) {client : Client.State}
    (hclient : client = { s.client with
      response := Client.store s.client.response totalRead bs
      phase := .reading (totalRead + bs.length) })
    (ht : t = { s with
      client := client
      consumed := s.consumed + bs.length
      counted := s.counted ++ newlyCounted s client }) :
    Inv pageCount serverPages strategy t := by
  obtain ⟨-,hconsumed,-⟩ := hi.reading totalRead hp
  obtain ⟨hlen,hstore⟩ := hi.store hp hbs hmore.le
  rw [newlyCounted_nil (by rw [hclient]),List.append_nil] at ht
  subst hclient
  subst ht
  refine ⟨hlen,hi.small,?_,?_,hi.counted,hi.correct⟩
  · intro k hk
    cases hk
    refine ⟨hmore,?_,hstore⟩
    change s.consumed + bs.length = s.origin + (totalRead + bs.length)
    omega
  · intro hcut
    obtain ⟨older,hplaced⟩ := hi.placed hcut
    obtain ⟨hbase,hcurrent⟩ := base_reading hp
    refine ⟨older,?_,hplaced.older_lt,?_,?_⟩
    · have hasked := hplaced.asked
      rw [hcurrent] at hasked
      exact hasked
    · exact hbase ▸ hplaced.base_le
    · exact hbase ▸ hplaced.base_eq

theorem newlyCounted_cases {client : Client.State} {response : GetPageResponse}
    (hdecoded : client.decoded = s.client.decoded ++ [response])
    (hcorrect : client.correctResponses = s.client.correctResponses ∨
      client.correctResponses = s.client.correctResponses + 1) :
    newlyCounted s client = [] ∧ client.correctResponses = s.client.correctResponses ∨
      newlyCounted s client = [⟨s.client.i,s.origin,response,s.truncated,s.interrupted⟩] ∧
        client.correctResponses = s.client.correctResponses + 1 := by
  rcases hcorrect with heq | heq
  · exact Or.inl ⟨newlyCounted_nil heq,heq⟩
  · have hne : client.correctResponses ≠ s.client.correctResponses := by simp [heq]
    refine Or.inr ⟨?_,heq⟩
    rw [newlyCounted,if_neg hne,hdecoded,List.drop_left,List.map_singleton]

theorem Inv.readWhole (hi : Inv pageCount serverPages strategy s)
    (hpages : pageSize * serverPages < sizeMod) (hp : s.client.phase = .reading totalRead)
    {bs : List UInt8} (hbs : bs <+: (frames serverPages strategy s.asked).flatten.drop s.consumed)
    (hall : totalRead + bs.length = sizeofResponse) {client : Client.State}
    (hloop : continueLoop numRequests (judge pageCount strategy
      { s.client with response := Client.store s.client.response totalRead bs }) = .ok client)
    (ht : t = { s with
      client := client
      consumed := s.consumed + bs.length
      counted := s.counted ++ newlyCounted s client }) :
    Inv pageCount serverPages strategy t := by
  obtain ⟨-,hconsumed,-⟩ := hi.reading totalRead hp
  obtain ⟨hmemory,hdecoded,hcorrect⟩ := judge_spec pageCount strategy
    { s.client with response := Client.store s.client.response totalRead bs }
  obtain ⟨hsmall,hclient⟩ := continueLoop_cases hloop
  rw [judge_i] at hsmall hclient
  have hnew := newlyCounted_cases
    ((congrArg Client.State.decoded hclient).trans ((test_decoded _).trans hdecoded))
    (by rw [hclient,test_correctResponses]; exact hcorrect)
  have hentry : ∀ c ∈ newlyCounted s client, c.truncated = false →
      c.origin < (frames serverPages strategy s.asked).flatten.length ∧
        (Synced serverPages strategy s.asked c ↔ c.interrupted = false) := by
    intro c hc hcut
    rcases hnew with ⟨hnil,-⟩ | ⟨hone,-⟩
    · rw [hnil] at hc
      exact absurd hc List.not_mem_nil
    · rw [hone,List.mem_singleton] at hc
      rw [hc] at hcut
      obtain ⟨older,hplaced⟩ := hi.placed hcut
      exact hplaced.judged hi hpages hp hbs hall hc
  subst ht
  refine ⟨?_,?_,?_,?_,?_,?_⟩
  · rw [hclient,test_response]
    exact hmemory
  · rw [hclient,test_i]
    exact hsmall
  · intro k hk
    rw [hclient] at hk
    exact absurd hk (test_phase _ _)
  · intro hcut
    obtain ⟨older,hplaced⟩ := hi.placed hcut
    have hnot : totalRead + bs.length = sizeofResponse ↔ false = false := by simpa using hall
    refine ⟨_,hplaced.next hp hconsumed hall.le hnot ⟨rfl,?_,rfl,(Bool.or_false _).symm,?_⟩⟩
    · rw [hclient,test_i]
    · rw [hclient]
      exact test_phase _
  · intro c hc hcut
    exact (List.mem_append.mp hc).elim (fun h => hi.counted c h hcut) (fun h => hentry c h hcut)
  · have hold := hi.correct
    rcases hnew with ⟨hnil,heq⟩ | ⟨hone,heq⟩
    · rw [hnil,List.append_nil,heq]
      exact hold
    · rw [hone,heq,hold,List.length_append,List.length_singleton,UInt32.ofNat_add]
      rfl

theorem Inv.read (hi : Inv pageCount serverPages strategy s)
    (hpages : pageSize * serverPages < sizeMod) {r : ReadResult}
    (h : step numRequests pageCount serverPages strategy s (.read r) = .ok t) :
    Inv pageCount serverPages strategy t := by
  simp only [step] at h
  split at h
  · rename_i hbs
    obtain ⟨client,hclient,h⟩ := bind_ok.mp h
    cases h
    obtain ⟨totalRead,hp,hcase⟩ := read_cases hclient
    rcases hcase with ⟨hnil,hloop⟩ | ⟨hne,hmore,hclient⟩ | ⟨hne,hall,hloop⟩
    · exact hi.readNothing hp hloop (by simp [hnil])
    · exact hi.readPart hp hbs hmore hclient (by simp [hne])
    · exact hi.readWhole hpages hp hbs hall hloop (by simp [hne])
  · cases h

end Reads

theorem Inv.start : Inv pageCount serverPages strategy (start numRequests) := by
  refine ⟨GetPageResponse.length_bytes _,(by decide : 0 < 2147483648),
    fun k hk => absurd hk (test_phase _ _),?_,by simp [Survival.start],rfl⟩
  intro _
  obtain ⟨hbase,hcurrent⟩ := base_between (s := Survival.start numRequests) (test_phase _)
  exact ⟨[],by rw [hcurrent]; rfl,by simp,by rw [hbase]; exact Nat.le_refl 0,
    by rw [hbase]; exact iff_of_true rfl rfl⟩

theorem Inv.step (hpages : pageSize * serverPages < sizeMod)
    (hi : Inv pageCount serverPages strategy s) {e : Client.Event}
    (h : step numRequests pageCount serverPages strategy s e = .ok t) :
    Inv pageCount serverPages strategy t := by
  cases e with
  | send sent => exact hi.send hpages h
  | read r => exact hi.read hpages h

section Main

/-- Before a send has been cut short, a response counted as correct is the one to its
request exactly when no read has failed. -/
theorem counted_synced_iff (numRequests pageCount serverPages : ℕ) (strategy : FillingStrategy)
    (hpages : pageSize * serverPages < sizeMod) {es : List Client.Event} {s : State}
    (h : execute (step numRequests pageCount serverPages strategy) (start numRequests) es = .ok s) :
    s.client.correctResponses = UInt32.ofNat s.counted.length ∧
      ∀ c ∈ s.counted, c.truncated = false →
        (Synced serverPages strategy s.asked c ↔ c.interrupted = false) := by
  have hi : Inv pageCount serverPages strategy s :=
    execute_invariant (fun _ _ _ hi => hi.step hpages) h Inv.start
  exact ⟨hi.correct,fun c hc hcut => (hi.counted c hc hcut).2⟩

/-- The bytes with which a server of two pages answers a request. -/
def smallAnswer (requestId pageNumber : UInt32) : List UInt8 :=
  (Server.answer (pseudoRandomFillingStrategy 42) 2 ⟨requestId,pageNumber⟩).bytes

def smallRun (es : List Client.Event) : Except Stop State :=
  execute (step 2 2 2 (pseudoRandomFillingStrategy 42)) (start 2) es

/-- The first send fails, the second request is answered. -/
def survived : List Client.Event :=
  [.send none,.send (some sizeofRequest),.read (.bytes (smallAnswer 1 1))]

theorem counted_synced_survived :
    ∃ s c, smallRun survived = .ok s ∧ c ∈ s.counted ∧ c.i = 1 ∧
      Synced 2 (pseudoRandomFillingStrategy 42) s.asked c := by
  have hrun : yields (smallRun survived) (fun s => s.counted.any (fun c =>
      c.i = 1 ∧ c.truncated = false ∧ c.interrupted = false)) = true := by decide +kernel
  obtain ⟨s,hs,htest⟩ := exists_of_yields hrun
  obtain ⟨c,hc,hflags⟩ := List.any_eq_true.mp htest
  obtain ⟨hi,hcut,hfail⟩ : c.i = 1 ∧ c.truncated = false ∧ c.interrupted = false := by
    simpa using hflags
  obtain ⟨-,hall⟩ := counted_synced_iff 2 2 2 (pseudoRandomFillingStrategy 42) (by decide) hs
  exact ⟨s,c,hs,hc,hi,(hall c hc hcut).mpr hfail⟩

/-- The read of the first response fails, and the second request gets that response. -/
def interruptedRead : List Client.Event :=
  [.send (some sizeofRequest),.read .failed,.send (some sizeofRequest),
    .read (.bytes (smallAnswer 0 0))]

/-- Half of the first request and half of the second make a third one. -/
def truncatedSend : List Client.Event :=
  [.send (some 4),.send (some sizeofRequest),.read (.bytes (smallAnswer 0 1))]

/-- The second request is taken to be answered by a response with another identifier. -/
def Mistaken (es : List Client.Event) : Prop :=
  ∃ s c, smallRun es = .ok s ∧ c ∈ s.counted ∧ c.i = 1 ∧ c.response.header.requestId = 0 ∧
    ¬ Synced 2 (pseudoRandomFillingStrategy 42) s.asked c

theorem mistaken_of_run {es : List Client.Event}
    (h : yields (smallRun es) (fun s => s.counted.any (fun c =>
      c.i = 1 ∧ c.response.header.requestId = 0)) = true) : Mistaken es := by
  obtain ⟨s,hs,htest⟩ := exists_of_yields h
  obtain ⟨c,hc,hflags⟩ := List.any_eq_true.mp htest
  obtain ⟨hi,hid⟩ : c.i = 1 ∧ c.response.header.requestId = 0 := by simpa using hflags
  refine ⟨s,c,hs,hc,hi,hid,?_⟩
  rintro ⟨q,f,-,-,-,hsame⟩
  rw [hi,hid] at hsame
  exact absurd hsame (by decide)

theorem counted_not_synced : Mistaken interruptedRead ∧ Mistaken truncatedSend :=
  ⟨mistaken_of_run (by decide +kernel),mistaken_of_run (by decide +kernel)⟩

end Main

end FastNet.GetPage.Survival
