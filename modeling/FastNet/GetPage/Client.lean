import FastNet.Foundation.Heap
import FastNet.GetPage.Server

/-! # The blocking page client

The request loop of the program as a step function: one step for each result of
`send` and of `read`. A call that fails leaves the request behind, and the
response memory and the socket are used again for the next one.
-/
namespace FastNet.GetPage.Client

/-- At a send, in the loop over reads with so many bytes read, or past the loop. -/
inductive Phase
  | sending
  | reading (totalRead : ℕ)
  | finished
  deriving DecidableEq, Repr

structure State where
  phase : Phase
  i : ℕ
  /-- The memory of the structure `response`. -/
  response : List UInt8
  correctResponses : UInt32
  incorrectResponses : UInt32
  /-- The responses converted to host order, oldest first. -/
  decoded : List GetPageResponse

/-- The number of bytes sent, none if the call failed, or the result of `read`. -/
inductive Event
  | send (sent : Option ℕ)
  | read (r : ReadResult)

variable (numRequests pageCount : ℕ) (strategy : FillingStrategy)

/-- The request prepared in iteration `i`. -/
def request (i : ℕ) : GetPageRequest :=
  (GetPageRequest.mk (UInt32.ofNat i) (UInt32.ofNat (i % pageCount))).toNetworkOrder

/-- The test of the loop. -/
def test (s : State) : State :=
  { s with phase := if s.i < numRequests then .sending else .finished }

/-- The counter is an `int`. -/
def continueLoop (s : State) : Except Stop State :=
  if s.i + 1 < 2147483648 then .ok (test numRequests { s with i := s.i + 1 })
  else .error .intOverflow

/-- What is done with a response that has been read in full. -/
def judge (s : State) : State :=
  let response := (GetPageResponse.ofBytes s.response).toHostOrder
  let s := { s with response := response.bytes, decoded := s.decoded ++ [response] }
  if response.header.status ≠ statusSuccess then
    { s with incorrectResponses := s.incorrectResponses + 1 }
  else if verify pageCount strategy response.content response.header.pageNumber.toNat then
    { s with correctResponses := s.correctResponses + 1 }
  else { s with incorrectResponses := s.incorrectResponses + 1 }

/-- The rest of an iteration after the loop over reads. -/
def afterReads (s : State) (totalRead : ℕ) : Except Stop State :=
  if totalRead ≠ sizeofResponse then continueLoop numRequests s
  else continueLoop numRequests (judge pageCount strategy s)

/-- Bytes that `read` puts at an offset into the response. -/
def store (memory : List UInt8) (offset : ℕ) (bs : List UInt8) : List UInt8 :=
  memory.take offset ++ bs ++ memory.drop (offset + bs.length)

def step (s : State) : Event → Except Stop State
  | .send sent =>
    if s.phase = .sending then
      if pageCount = 0 then .error .divisionByZero
      else if sent = some sizeofRequest then .ok { s with phase := .reading 0 }
      else continueLoop numRequests s
    else .error .disabled
  | .read r =>
    match s.phase with
    | .reading totalRead =>
      match r with
      | .failed => afterReads numRequests pageCount strategy s totalRead
      | .bytes bs =>
        if bs.length = 0 then afterReads numRequests pageCount strategy s totalRead
        else if bs.length ≤ sizeofResponse - totalRead then
          let s := { s with response := store s.response totalRead bs }
          if totalRead + bs.length < sizeofResponse then
            .ok { s with phase := .reading (totalRead + bs.length) }
          else afterReads numRequests pageCount strategy s (totalRead + bs.length)
        else .error .disabled
    | _ => .error .disabled

/-- Before the loop, with everything value-initialised. -/
def start : State :=
  test numRequests
    { phase := .sending
      i := 0
      response := GetPageResponse.zero.bytes
      correctResponses := 0
      incorrectResponses := 0
      decoded := [] }

variable {numRequests pageCount strategy}

section Memory

theorem length_store {memory bs : List UInt8} {offset : ℕ}
    (h : offset + bs.length ≤ memory.length) : (store memory offset bs).length = memory.length := by
  simp only [store,List.length_append,List.length_take,List.length_drop]
  omega

theorem take_store {memory bs : List UInt8} {offset : ℕ}
    (h : offset + bs.length ≤ memory.length) :
    (store memory offset bs).take (offset + bs.length) = memory.take offset ++ bs := by
  apply List.take_left'
  rw [List.length_append,List.length_take]
  omega

end Memory

section Steps
variable {s : State} {bs : List UInt8} {totalRead : ℕ}

@[simp] theorem test_i (s : State) : (test numRequests s).i = s.i := rfl

@[simp] theorem test_response (s : State) : (test numRequests s).response = s.response := rfl

@[simp] theorem test_correctResponses (s : State) :
    (test numRequests s).correctResponses = s.correctResponses := rfl

@[simp] theorem test_decoded (s : State) : (test numRequests s).decoded = s.decoded := rfl

theorem judge_i (s : State) : (judge pageCount strategy s).i = s.i := by
  unfold judge
  dsimp only
  split
  · rfl
  · split <;> rfl

theorem continueLoop_ok (h : s.i + 1 < 2147483648) :
    continueLoop numRequests s = .ok (test numRequests { s with i := s.i + 1 }) := if_pos h

theorem step_send (hp : s.phase = .sending) (hpc : 0 < pageCount) :
    step numRequests pageCount strategy s (.send (some sizeofRequest)) =
      .ok { s with phase := .reading 0 } := by
  have hne : pageCount ≠ 0 := hpc.ne'
  simp [step,hp,hne]

theorem step_read_part (hp : s.phase = .reading totalRead) (hbs : 0 < bs.length)
    (h : totalRead + bs.length < sizeofResponse) :
    step numRequests pageCount strategy s (.read (.bytes bs)) =
      .ok { s with
        response := store s.response totalRead bs
        phase := .reading (totalRead + bs.length) } := by
  have hne : bs.length ≠ 0 := hbs.ne'
  have hle : bs.length ≤ sizeofResponse - totalRead := by omega
  simp only [step,hp,if_neg hne,if_pos hle,if_pos h]

theorem step_read_whole (hp : s.phase = .reading totalRead) (hbs : 0 < bs.length)
    (h : totalRead + bs.length = sizeofResponse) :
    step numRequests pageCount strategy s (.read (.bytes bs)) =
      continueLoop numRequests
        (judge pageCount strategy { s with response := store s.response totalRead bs }) := by
  have hne : bs.length ≠ 0 := hbs.ne'
  have hle : bs.length ≤ sizeofResponse - totalRead := by omega
  simp only [step,hp,if_neg hne,if_pos hle,h,afterReads,Nat.lt_irrefl,ne_eq,not_true_eq_false,
    if_false]

theorem continueLoop_cases {t : State} (h : continueLoop numRequests s = .ok t) :
    s.i + 1 < 2147483648 ∧ t = test numRequests { s with i := s.i + 1 } := by
  unfold continueLoop at h
  split at h
  · rename_i hlt
    cases h
    exact ⟨hlt,rfl⟩
  · cases h

theorem send_cases {t : State} {sent : Option ℕ}
    (h : step numRequests pageCount strategy s (.send sent) = .ok t) :
    s.phase = .sending ∧
      (sent = some sizeofRequest ∧ t = { s with phase := .reading 0 } ∨
        sent ≠ some sizeofRequest ∧ continueLoop numRequests s = .ok t) := by
  simp only [step] at h
  split at h
  · rename_i hp
    refine ⟨hp,?_⟩
    split at h
    · cases h
    · split at h
      · rename_i hsent
        cases h
        exact Or.inl ⟨hsent,rfl⟩
      · rename_i hsent
        exact Or.inr ⟨hsent,h⟩
  · cases h

/-- The three outcomes of a read: nothing, a part of the response, or all that was left. -/
theorem read_cases {t : State} {r : ReadResult}
    (h : step numRequests pageCount strategy s (.read r) = .ok t) :
    ∃ totalRead, s.phase = .reading totalRead ∧
      (r.content = [] ∧ afterReads numRequests pageCount strategy s totalRead = .ok t ∨
        r.content ≠ [] ∧ totalRead + r.content.length < sizeofResponse ∧ t = { s with
          response := store s.response totalRead r.content
          phase := .reading (totalRead + r.content.length) } ∨
        r.content ≠ [] ∧ totalRead + r.content.length = sizeofResponse ∧
          continueLoop numRequests (judge pageCount strategy
            { s with response := store s.response totalRead r.content }) = .ok t) := by
  simp only [step] at h
  split at h
  · rename_i totalRead hp
    refine ⟨totalRead,hp,?_⟩
    cases r with
    | failed => exact Or.inl ⟨rfl,h⟩
    | bytes bs =>
      dsimp only [ReadResult.content] at h ⊢
      split at h
      · rename_i hbs
        exact Or.inl ⟨List.eq_nil_of_length_eq_zero hbs,h⟩
      · rename_i hbs
        have hne : bs ≠ [] := fun hnil => hbs (by simp [hnil])
        split at h
        · split at h
          · rename_i hlt
            cases h
            exact Or.inr (Or.inl ⟨hne,hlt,rfl⟩)
          · have hall : totalRead + bs.length = sizeofResponse := by omega
            simp only [afterReads,hall,ne_eq,not_true_eq_false,if_false] at h
            exact Or.inr (Or.inr ⟨hne,hall,h⟩)
        · cases h
  · cases h

variable (pageCount strategy) in
theorem judge_spec (s : State) :
    (judge pageCount strategy s).response.length = sizeofResponse ∧
      (judge pageCount strategy s).decoded =
        s.decoded ++ [(GetPageResponse.ofBytes s.response).toHostOrder] ∧
      ((judge pageCount strategy s).correctResponses = s.correctResponses ∨
        (judge pageCount strategy s).correctResponses = s.correctResponses + 1) := by
  unfold judge
  dsimp only
  split
  · exact ⟨GetPageResponse.length_bytes _,rfl,Or.inl rfl⟩
  · split
    · exact ⟨GetPageResponse.length_bytes _,rfl,Or.inr rfl⟩
    · exact ⟨GetPageResponse.length_bytes _,rfl,Or.inl rfl⟩

end Steps

section Judgement
variable (serverPages : ℕ)

variable (pageCount) in
/-- The request of iteration `i` in host order. -/
def query (i : ℕ) : GetPageRequest := ⟨UInt32.ofNat i,UInt32.ofNat (i % pageCount)⟩

variable (pageCount strategy) in
/-- The response that the server gives to the request of iteration `i`, in host order. -/
def expected (i : ℕ) : GetPageResponse :=
  (Server.answer strategy serverPages (query pageCount i)).toHostOrder

variable (pageCount) in
/-- The page of iteration `i` is one the server has. -/
def served (i : ℕ) : Bool := i % pageCount < serverPages

variable {serverPages} {i : ℕ}

theorem request_toHostOrder (i : ℕ) : (request pageCount i).toHostOrder = query pageCount i :=
  GetPageRequest.toHostOrder_toNetworkOrder _

theorem query_pageNumber (hi : i < 2147483648) :
    (query pageCount i).pageNumber.toNat = i % pageCount := by
  have hle := Nat.mod_le i pageCount
  simp only [query,UInt32.toNat_ofNat']
  omega

variable (pageCount strategy serverPages) in
theorem expected_header (hi : i < 2147483648) : (expected pageCount strategy serverPages i).header =
    ⟨UInt32.ofNat i,if served pageCount serverPages i then statusSuccess
      else statusInvalidPageNumber,UInt32.ofNat (i % pageCount)⟩ := by
  unfold expected Server.answer served
  rw [query_pageNumber hi]
  by_cases h : i % pageCount < serverPages
  · rw [if_neg (by omega)]
    simp [h,GetPageResponse.toHostOrder,Server.responseHeader,query]
  · rw [if_pos (by omega)]
    simp [h,GetPageResponse.toHostOrder,Server.errorResponse,Server.responseHeader,query]

variable (pageCount strategy) in
theorem expected_content (hpages : pageSize * serverPages < sizeMod) (hi : i < 2147483648) :
    (expected pageCount strategy serverPages i).content.toList =
      if served pageCount serverPages i then
        (MemoryBlock.construct serverPages strategy).read (i % pageCount * pageSize) pageSize
      else List.replicate pageSize 0xFA := by
  unfold expected Server.answer served
  rw [query_pageNumber hi]
  by_cases h : i % pageCount < serverPages
  · have hinside : i % pageCount * pageSize + pageSize ≤ pageSize * serverPages % sizeMod := by
      rw [Nat.mod_eq_of_lt hpages]
      unfold pageSize
      omega
    rw [if_neg (by omega),if_pos (by simpa using h),MemoryBlock.read_construct strategy hinside]
    apply List.ext_getElem
    · simp [GetPageResponse.toHostOrder]
    · intro k h1 h2
      simp [GetPageResponse.toHostOrder]
  · rw [if_pos (by omega),if_neg (by simpa using h)]
    simp [GetPageResponse.toHostOrder,Server.errorResponse]

/-- What the client decodes for its request, and from which page. -/
theorem expected_spec (hpages : pageSize * serverPages < sizeMod) (hi : i < 2147483648) :
    (expected pageCount strategy serverPages i).header.requestId.toNat = i ∧
    (expected pageCount strategy serverPages i).header.pageNumber.toNat = i % pageCount ∧
    (i % pageCount < serverPages →
      (expected pageCount strategy serverPages i).header.status = statusSuccess ∧
      (expected pageCount strategy serverPages i).content.toList =
        (MemoryBlock.construct serverPages strategy).read (i % pageCount * pageSize) pageSize) ∧
    (serverPages ≤ i % pageCount →
      (expected pageCount strategy serverPages i).header.status = statusInvalidPageNumber ∧
      (expected pageCount strategy serverPages i).content.toList =
        List.replicate pageSize 0xFA) := by
  have hid : (UInt32.ofNat i).toNat = i := by
    rw [UInt32.toNat_ofNat']
    omega
  rw [expected_header pageCount strategy serverPages hi,expected_content pageCount strategy hpages hi]
  refine ⟨hid,query_pageNumber hi,?_,?_⟩
  · intro hpage
    have hserved : served pageCount serverPages i = true := by simpa [served] using hpage
    rw [if_pos hserved,if_pos hserved]
    exact ⟨rfl,rfl⟩
  · intro hpage
    have hserved : ¬ served pageCount serverPages i = true := by
      simp only [served,decide_eq_true_eq]
      omega
    rw [if_neg hserved,if_neg hserved]
    exact ⟨rfl,rfl⟩

/-- The verifier accepts a page that both sides have. -/
theorem verify_expected (hpages : pageSize * serverPages < sizeMod) (hpc : 0 < pageCount)
    (hi : i < 2147483648) (h : served pageCount serverPages i = true) :
    verify pageCount strategy (expected pageCount strategy serverPages i).content
      (i % pageCount) = true := by
  have hlt : i % pageCount < serverPages := by simpa [served] using h
  apply verify_iff.mpr
  refine ⟨Nat.mod_lt i hpc,?_⟩
  intro k
  have hk := k.isLt
  have hindex : (i % pageCount * pageSize + k) % sizeMod = i % pageCount * pageSize + k := by
    apply Nat.mod_eq_of_lt
    unfold pageSize at hk hpages ⊢
    omega
  rw [hindex]
  unfold expected Server.answer
  rw [query_pageNumber hi,if_neg (by omega)]
  simp [GetPageResponse.toHostOrder]

/-- The response to the request of iteration `i` is judged by its page alone. -/
theorem judge_expected (hpages : pageSize * serverPages < sizeMod) (hpc : 0 < pageCount)
    (hi : i < 2147483648) {s : State}
    (hs : s.response = (Server.answer strategy serverPages (query pageCount i)).bytes) :
    judge pageCount strategy s =
      { s with
        response := (expected pageCount strategy serverPages i).bytes
        decoded := s.decoded ++ [expected pageCount strategy serverPages i]
        correctResponses := s.correctResponses +
          if served pageCount serverPages i then 1 else 0
        incorrectResponses := s.incorrectResponses +
          if served pageCount serverPages i then 0 else 1 } := by
  have hdecode : (GetPageResponse.ofBytes s.response).toHostOrder =
      expected pageCount strategy serverPages i := by
    rw [hs,GetPageResponse.ofBytes_bytes]
    rfl
  have hheader := expected_header pageCount strategy serverPages hi
  have hpage : (UInt32.ofNat (i % pageCount)).toNat = i % pageCount := query_pageNumber hi
  unfold judge
  simp only [hdecode,hheader,hpage]
  by_cases h : served pageCount serverPages i = true
  · have hverify : verify pageCount strategy (expected pageCount strategy serverPages i).content
        (i % pageCount) = true := verify_expected hpages hpc hi h
    simp [h,hverify]
  · simp [h,statusSuccess,statusInvalidPageNumber]

end Judgement

end FastNet.GetPage.Client
