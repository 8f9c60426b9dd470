import FastNet.Foundation.Execution
import FastNet.Foundation.Heap
import FastNet.GetPage.Server
import Mathlib.Logic.Function.Basic

/-! # The io_uring page client

`client_thread` as a step function: an event starts a batch, consumes one
completion, ends a batch, or is one of the kernel's. Receives take bytes in the
order they were posted, each straight into its response slot; completions are
posted in any order.
-/
namespace FastNet.GetPage.ClientIou
open Execution

def batchSize : ℕ := 64

/-- The range of a thread. The elements of the two vectors have eight bytes each, so
an index plus a batch is far below the end of `size_t`. -/
structure Job where
  start : ℕ
  stop : ℕ
  start_le : start ≤ stop
  stop_lt : stop + batchSize < sizeMod

/-- At the head of a batch, in the loop over completions, at the end, or left by an
exception. -/
inductive Phase
  | sending
  | waiting
  | done
  | failed
  deriving DecidableEq, Repr

inductive Completion
  | send (res : ℤ)
  | receive (res : ℤ)
  deriving DecidableEq, Repr

def Completion.res : Completion → ℤ
  | .send res | .receive res => res

def Completion.isReceive : Completion → Bool
  | .send _ => false
  | .receive _ => true

structure State where
  phase : Phase
  /-- The start of the batch, and the counter of the loop over completions. -/
  i : ℕ
  j : ℕ
  requests : ℕ → GetPageRequest
  responses : ℕ → List UInt8
  /-- The submitted operations by index, oldest first. -/
  sends : List ℕ
  sendDone : List ℤ
  receives : List ℕ
  receiveDone : List ℤ
  cq : List Completion
  /-- What the server sent and no receive has taken. -/
  stream : List UInt8

inductive Event
  | batch
  | reap
  | next
  | send (res : ℤ)
  | postSend (i : ℕ)
  | receive (r : ReadResult)
  | postReceive (i : ℕ)

variable (pageCount : ℕ) (J : Job)

/-- The body of the loop of `send_requests`. -/
def sendRequest (s : State) (j : ℕ) : State :=
  { s with
    requests := Function.update s.requests j
      (GetPageRequest.mk (UInt32.ofNat j) (UInt32.ofNat (j % pageCount))).toNetworkOrder
    sends := s.sends ++ [j] }

def sendRequests (s : State) (start stop : ℕ) : State :=
  (List.range' start (stop - start)).foldl (sendRequest pageCount) s

/-- The first loop of `receive_responses`. -/
def postReceives (s : State) (start stop : ℕ) : State :=
  { s with receives := s.receives ++ List.range' start (stop - start) }

def batchEnd (i : ℕ) : ℕ := min J.stop ((i + batchSize) % sizeMod)

/-- One pass of the second loop of `receive_responses`; a send takes the count back
before it is raised. -/
def consume (s : State) (c : Completion) (rest : List Completion) : State :=
  let j := if c.isReceive then s.j else (s.j + (sizeMod - 1)) % sizeMod
  if c.res < 0 then { s with phase := .failed }
  else { s with cq := rest, j := (j + 1) % sizeMod }

/-- The test of the loop over batches. -/
def testBatch (s : State) (i : ℕ) : State :=
  { s with i := i, phase := if i < J.stop then .sending else .done }

/-- The kernel works while the thread is in its loop. -/
def Active (s : State) : Prop := s.phase = .sending ∨ s.phase = .waiting

instance (s : State) : Decidable (Active s) := by unfold Active; infer_instance

def step (s : State) : Event → Except Stop State
  | .batch =>
    if s.phase = .sending then
      if pageCount = 0 then .error .divisionByZero
      else
        let s := postReceives (sendRequests pageCount s s.i (batchEnd J s.i)) s.i (batchEnd J s.i)
        .ok { s with phase := .waiting, j := 0 }
    else .error .disabled
  | .reap =>
    if s.phase = .waiting ∧ s.j < batchEnd J s.i - s.i then
      match s.cq with
      | [] => .error .disabled
      | c :: rest => .ok (consume s c rest)
    else .error .disabled
  | .next =>
    if s.phase = .waiting ∧ ¬ s.j < batchEnd J s.i - s.i then
      .ok (testBatch J s ((s.i + batchSize) % sizeMod))
    else .error .disabled
  | .send res =>
    match s.sends with
    | [] => .error .disabled
    | _ :: rest =>
      if Active s then .ok { s with sends := rest, sendDone := s.sendDone ++ [res] }
      else .error .disabled
  | .postSend i =>
    match s.sendDone[i]? with
    | none => .error .disabled
    | some res =>
      if Active s then
        .ok { s with sendDone := s.sendDone.eraseIdx i, cq := s.cq ++ [.send res] }
      else .error .disabled
  | .receive r =>
    match s.receives with
    | [] => .error .disabled
    | k :: rest =>
      match r with
      | .bytes bs =>
        if Active s ∧ bs.length ≤ sizeofResponse ∧ bs <+: s.stream then
          .ok { s with
            receives := rest
            receiveDone := s.receiveDone ++ [(bs.length : ℤ)]
            responses := Function.update s.responses k (Bytes.overlay bs (s.responses k))
            stream := s.stream.drop bs.length }
        else .error .disabled
      | .failed =>
        if Active s then .ok { s with receives := rest, receiveDone := s.receiveDone ++ [-1] }
        else .error .disabled
  | .postReceive i =>
    match s.receiveDone[i]? with
    | none => .error .disabled
    | some res =>
      if Active s then
        .ok { s with receiveDone := s.receiveDone.eraseIdx i, cq := s.cq ++ [.receive res] }
      else .error .disabled

/-- The head of the loop over batches, with the response slots as `main` made them. -/
def start (stream : List UInt8) : State :=
  testBatch J
    { phase := .sending
      i := J.start
      j := 0
      requests := fun _ => ⟨0,0⟩
      responses := fun _ => GetPageResponse.zero.bytes
      sends := []
      sendDone := []
      receives := []
      receiveDone := []
      cq := []
      stream := stream } J.start

/-- What the receives took, in the order they were posted. -/
def taken (es : List Event) : List (List UInt8) :=
  es.filterMap (fun e => match e with
    | .receive r => some r.content
    | _ => none)

variable {pageCount J}

section Inversion
variable {s t : State}

theorem step_batch (h : step pageCount J s .batch = .ok t) :
    s.phase = .sending ∧ pageCount ≠ 0 ∧
      t = { postReceives (sendRequests pageCount s s.i (batchEnd J s.i)) s.i (batchEnd J s.i) with
        phase := .waiting
        j := 0 } := by
  simp only [step] at h
  split at h
  · rename_i hp
    split at h
    · cases h
    · rename_i hpc
      cases h
      exact ⟨hp,hpc,rfl⟩
  · cases h

theorem step_reap (h : step pageCount J s .reap = .ok t) :
    ∃ c rest, s.phase = .waiting ∧ s.j < batchEnd J s.i - s.i ∧ s.cq = c :: rest ∧
      t = consume s c rest := by
  simp only [step] at h
  split at h
  · rename_i hp
    split at h
    · cases h
    · rename_i c rest hcq
      cases h
      exact ⟨c,rest,hp.1,hp.2,hcq,rfl⟩
  · cases h

theorem step_next (h : step pageCount J s .next = .ok t) :
    s.phase = .waiting ∧ ¬ s.j < batchEnd J s.i - s.i ∧
      t = testBatch J s ((s.i + batchSize) % sizeMod) := by
  simp only [step] at h
  split at h
  · rename_i hp
    cases h
    exact ⟨hp.1,hp.2,rfl⟩
  · cases h

theorem step_send {res : ℤ} (h : step pageCount J s (.send res) = .ok t) :
    ∃ j rest, Active s ∧ s.sends = j :: rest ∧
      t = { s with sends := rest, sendDone := s.sendDone ++ [res] } := by
  simp only [step] at h
  split at h
  · cases h
  · rename_i j rest hsends
    split at h
    · rename_i hp
      cases h
      exact ⟨j,rest,hp,hsends,rfl⟩
    · cases h

theorem step_postSend {i : ℕ} (h : step pageCount J s (.postSend i) = .ok t) :
    ∃ res, Active s ∧ s.sendDone[i]? = some res ∧
      t = { s with sendDone := s.sendDone.eraseIdx i, cq := s.cq ++ [.send res] } := by
  simp only [step] at h
  split at h
  · cases h
  · rename_i res hi
    split at h
    · rename_i hp
      cases h
      exact ⟨res,hp,hi,rfl⟩
    · cases h

/-- A failed receive leaves its slot and the stream as a receive of no bytes does. -/
theorem step_receive {r : ReadResult} (h : step pageCount J s (.receive r) = .ok t) :
    ∃ k rest, ∃ res : ℤ, Active s ∧ s.receives = k :: rest ∧ r.content.length ≤ sizeofResponse ∧
      r.content <+: s.stream ∧
      t = { s with
        receives := rest
        receiveDone := s.receiveDone ++ [res]
        responses := Function.update s.responses k (Bytes.overlay r.content (s.responses k))
        stream := s.stream.drop r.content.length } := by
  simp only [step] at h
  split at h
  · cases h
  · rename_i k rest hk
    split at h
    · rename_i bs
      split at h
      · rename_i hbs
        cases h
        exact ⟨k,rest,bs.length,hbs.1,hk,hbs.2.1,hbs.2.2,rfl⟩
      · cases h
    · split at h
      · rename_i hp
        cases h
        refine ⟨k,rest,-1,hp,hk,Nat.zero_le _,List.nil_prefix,?_⟩
        simp [ReadResult.content,Bytes.overlay]
      · cases h

theorem step_postReceive {i : ℕ} (h : step pageCount J s (.postReceive i) = .ok t) :
    ∃ res, Active s ∧ s.receiveDone[i]? = some res ∧
      t = { s with receiveDone := s.receiveDone.eraseIdx i, cq := s.cq ++ [.receive res] } := by
  simp only [step] at h
  split at h
  · cases h
  · rename_i res hi
    split at h
    · rename_i hp
      cases h
      exact ⟨res,hp,hi,rfl⟩
    · cases h

end Inversion
section Requests

variable (pageCount) in
theorem sendRequests_frame (s : State) (start stop : ℕ) :
    (sendRequests pageCount s start stop).responses = s.responses ∧
      (sendRequests pageCount s start stop).receives = s.receives ∧
      (sendRequests pageCount s start stop).receiveDone = s.receiveDone ∧
      (sendRequests pageCount s start stop).cq = s.cq ∧
      (sendRequests pageCount s start stop).stream = s.stream ∧
      (sendRequests pageCount s start stop).i = s.i := by
  unfold sendRequests
  induction List.range' start (stop - start) generalizing s with
  | nil => exact ⟨rfl,rfl,rfl,rfl,rfl,rfl⟩
  | cons j js ih =>
    rw [List.foldl_cons]
    exact ih (sendRequest pageCount s j)

end Requests

section Batches

/-- The receives of the thread that are not consumed. -/
def unreaped (s : State) : ℕ :=
  s.receives.length + s.receiveDone.length + s.cq.countP (·.isReceive)

/-- The receives up to `posted` are posted and the first `count` of them executed;
in the loop over completions `j` of the batch are consumed. -/
structure Batching (J : Job) (s : State) (posted count : ℕ) : Prop where
  receives : s.receives = List.range' (J.start + count) (posted - (J.start + count))
  count_le : J.start + count ≤ posted
  start_le : J.start ≤ s.i
  sending : s.phase = .sending → posted = s.i ∧ s.i < J.stop ∧ unreaped s = 0
  waiting : s.phase = .waiting → posted = min J.stop (s.i + batchSize) ∧ s.i < J.stop ∧
    s.j + unreaped s = posted - s.i
  done : s.phase = .done → posted = J.stop ∧ unreaped s = 0

theorem batchEnd_eq {i : ℕ} (h : i < J.stop) : batchEnd J i = min J.stop (i + batchSize) := by
  have hlt := J.stop_lt
  unfold batchSize sizeMod at hlt
  unfold batchEnd batchSize sizeMod
  omega

variable {s t : State} {posted count : ℕ}

theorem Batching.start (stream : List UInt8) : Batching J (start J stream) J.start 0 := by
  have hle := J.start_le
  refine ⟨?_,le_rfl,le_rfl,?_,?_,?_⟩
  · simp [ClientIou.start,testBatch]
  · intro hp
    refine ⟨rfl,?_,rfl⟩
    simp only [ClientIou.start,testBatch] at hp ⊢
    split at hp
    · assumption
    · cases hp
  · intro hp
    simp only [ClientIou.start,testBatch] at hp
    split at hp <;> cases hp
  · intro hp
    simp only [ClientIou.start,testBatch] at hp
    split at hp
    · cases hp
    · exact ⟨by omega,rfl⟩

theorem Batching.batch (h : Batching J s posted count) (hp : s.phase = .sending) :
    Batching J { postReceives (sendRequests pageCount s s.i (batchEnd J s.i)) s.i
      (batchEnd J s.i) with phase := .waiting, j := 0 } (batchEnd J s.i) count := by
  obtain ⟨hposted,hlt,hzero⟩ := h.sending hp
  obtain ⟨-,hrecv,hdone,hcq,-,hi⟩ :=
    sendRequests_frame pageCount s s.i (batchEnd J s.i)
  have hend := batchEnd_eq hlt
  have hle := h.count_le
  have hnil : s.receives = [] := by
    apply List.eq_nil_of_length_eq_zero
    unfold unreaped at hzero
    omega
  have hlen := congrArg List.length h.receives
  rw [hnil,List.length_nil,List.length_range'] at hlen
  have hcount : J.start + count = s.i := by omega
  have hbs : batchSize = 64 := rfl
  refine ⟨?_,by omega,?_,?_,?_,?_⟩
  · change (sendRequests _ _ _ _).receives ++ _ = _
    rw [hrecv,hnil,List.nil_append,hcount]
  · change J.start ≤ (sendRequests _ _ _ _).i
    rw [hi]
    exact h.start_le
  · intro hp'
    cases hp'
  · intro _
    change batchEnd J s.i = min J.stop ((sendRequests _ _ _ _).i + batchSize) ∧
      (sendRequests _ _ _ _).i < J.stop ∧ 0 + unreaped _ = batchEnd J s.i - (sendRequests _ _ _ _).i
    rw [hi]
    refine ⟨hend,hlt,?_⟩
    unfold unreaped at hzero ⊢
    change 0 + (((sendRequests _ _ _ _).receives ++ _).length +
      (sendRequests _ _ _ _).receiveDone.length + (sendRequests _ _ _ _).cq.countP _) = _
    rw [hrecv,hdone,hcq,List.length_append,List.length_range']
    omega
  · intro hp'
    cases hp'

theorem Batching.congr (h : Batching J s posted count) (hrecv : t.receives = s.receives)
    (hphase : t.phase = s.phase) (hi : t.i = s.i) (hj : t.j + unreaped t = s.j + unreaped s)
    (hzero : unreaped s = 0 → unreaped t = 0) : Batching J t posted count := by
  constructor
  · rw [hrecv]
    exact h.receives
  · exact h.count_le
  · rw [hi]
    exact h.start_le
  · rw [hphase,hi]
    intro hp
    obtain ⟨hposted,hlt,hu⟩ := h.sending hp
    exact ⟨hposted,hlt,hzero hu⟩
  · rw [hphase,hi,hj]
    exact h.waiting
  · rw [hphase]
    intro hp
    obtain ⟨hposted,hu⟩ := h.done hp
    exact ⟨hposted,hzero hu⟩

theorem Batching.reap (h : Batching J s posted count) (hp : s.phase = .waiting)
    {c : Completion} {rest : List Completion} (hcq : s.cq = c :: rest) :
    Batching J (consume s c rest) posted count := by
  obtain ⟨hposted,hlt,hj⟩ := h.waiting hp
  unfold consume
  dsimp only
  by_cases hres : c.res < 0
  · rw [if_pos hres]
    exact ⟨h.receives,h.count_le,h.start_le,(by simp),(by simp),(by simp)⟩
  · rw [if_neg hres]
    refine h.congr rfl rfl rfl ?_ ?_
    · have hbatch : batchSize = 64 := rfl
      have hle : s.j + unreaped s ≤ 64 := by omega
      unfold unreaped at hle ⊢
      rw [hcq] at hle ⊢
      cases hc : c.isReceive with
      | false =>
        simp only [hc,Bool.false_eq_true,if_false,List.countP_cons,sizeMod] at hle ⊢
        omega
      | true =>
        simp only [hc,if_true,List.countP_cons,sizeMod] at hle ⊢
        omega
    · simp only [unreaped,hcq,List.countP_cons]
      omega

theorem Batching.next (h : Batching J s posted count) (hp : s.phase = .waiting)
    (hj : ¬ s.j < batchEnd J s.i - s.i) :
    Batching J (testBatch J s ((s.i + batchSize) % sizeMod)) posted count := by
  obtain ⟨hposted,hlt,hcount⟩ := h.waiting hp
  have hend := batchEnd_eq hlt
  have hstop := J.stop_lt
  have hstart := h.start_le
  have hi : (s.i + batchSize) % sizeMod = s.i + batchSize := Nat.mod_eq_of_lt (by omega)
  have hzero : unreaped s = 0 := by omega
  rw [hi]
  constructor
  · exact h.receives
  · exact h.count_le
  · exact hstart.trans (Nat.le_add_right _ _)
  · intro hp'
    have hmore : s.i + batchSize < J.stop := by
      by_contra hless
      simp only [testBatch,if_neg hless] at hp'
      cases hp'
    have hlast : posted = s.i + batchSize := by omega
    exact ⟨hlast,hmore,hzero⟩
  · intro hp'
    simp only [testBatch] at hp'
    split at hp' <;> cases hp'
  · intro hp'
    have hless : ¬ s.i + batchSize < J.stop := by
      intro hmore
      simp only [testBatch,if_pos hmore] at hp'
      cases hp'
    exact ⟨by omega,hzero⟩

theorem Batching.receive (h : Batching J s posted count) {k : ℕ} {rest : List ℕ}
    (hk : s.receives = k :: rest) (res : ℤ) (responses : ℕ → List UInt8) (stream : List UInt8) :
    k = J.start + count ∧ Batching J { s with
      receives := rest
      receiveDone := s.receiveDone ++ [res]
      responses := responses
      stream := stream } posted (count + 1) := by
  have hrange := h.receives
  rw [hk] at hrange
  have hlen := congrArg List.length hrange
  rw [List.length_cons,List.length_range'] at hlen
  have hsplit : posted - (J.start + count) = (posted - (J.start + (count + 1))) + 1 := by omega
  rw [hsplit,List.range'_succ] at hrange
  obtain ⟨rfl,hrest⟩ := List.cons.inj hrange
  have hu : unreaped { s with
      receives := rest
      receiveDone := s.receiveDone ++ [res]
      responses := responses
      stream := stream } = unreaped s := by
    unfold unreaped
    rw [hk]
    simp only [List.length_append,List.length_cons,List.length_nil]
    omega
  refine ⟨rfl,hrest,by omega,h.start_le,?_,?_,?_⟩
  · rw [hu]
    exact h.sending
  · rw [hu]
    exact h.waiting
  · rw [hu]
    exact h.done

theorem Batching.postReceive (h : Batching J s posted count) {i : ℕ} {res : ℤ}
    (hi : s.receiveDone[i]? = some res) :
    Batching J { s with
      receiveDone := s.receiveDone.eraseIdx i
      cq := s.cq ++ [.receive res] } posted count := by
  obtain ⟨hlt,-⟩ := List.getElem?_eq_some_iff.mp hi
  have hu : unreaped { s with
      receiveDone := s.receiveDone.eraseIdx i
      cq := s.cq ++ [.receive res] } = unreaped s := by
    unfold unreaped
    simp only [List.length_eraseIdx_of_lt hlt,List.countP_append,List.countP_singleton,
      Completion.isReceive,if_true]
    omega
  exact h.congr rfl rfl rfl (by rw [hu]) (fun hz => hu.trans hz)

/-- The end of the last batch after a step. -/
def postedAfter (J : Job) (s : State) (posted : ℕ) : Event → ℕ
  | .batch => batchEnd J s.i
  | _ => posted

theorem Batching.step (h : Batching J s posted count) {e : Event}
    (hstep : step pageCount J s e = .ok t) :
    Batching J t (postedAfter J s posted e) (count + (taken [e]).length) := by
  cases e with
  | batch =>
    obtain ⟨hp,-,rfl⟩ := step_batch hstep
    exact h.batch hp
  | reap =>
    obtain ⟨c,rest,hp,-,hcq,rfl⟩ := step_reap hstep
    exact h.reap hp hcq
  | next =>
    obtain ⟨hp,hj,rfl⟩ := step_next hstep
    exact h.next hp hj
  | send res =>
    obtain ⟨j,rest,-,-,rfl⟩ := step_send hstep
    exact h.congr rfl rfl rfl rfl id
  | postSend i =>
    obtain ⟨res,-,-,rfl⟩ := step_postSend hstep
    refine h.congr rfl rfl rfl ?_ ?_
    · simp [unreaped,Completion.isReceive]
    · simp [unreaped,Completion.isReceive]
  | receive r =>
    obtain ⟨k,rest,res,-,hk,-,-,rfl⟩ := step_receive hstep
    exact (h.receive hk _ _ _).2
  | postReceive i =>
    obtain ⟨res,-,hi,rfl⟩ := step_postReceive hstep
    exact h.postReceive hi

end Batches

end FastNet.GetPage.ClientIou
