import FastNet.GetPage.Client
import FastNet.GetPage.Threads

/-! # One thread of the io_uring client on its connection

The thread with its kernel, whatever serves it. Sends are whole and no operation
fails, while a receive takes any number of the bytes that wait, at least one. The
requests go out in order, each receive fills the slot of its number, and each step
uses up work.
-/
namespace FastNet.GetPage.IouThread
open Execution

/-- What the connection lets happen: a send is whole and a receive gets some bytes. -/
def carried : ClientIou.Event → Bool
  | .send res => decide (res = sizeofRequest)
  | .receive r => !r.content.isEmpty
  | _ => true

/-- The bytes that a step of the client puts on the connection. -/
def transmitted (c : ClientIou.State) : ClientIou.Event → List UInt8
  | .send _ =>
    match c.sends with
    | [] => []
    | j :: _ => (c.requests j).bytes
  | _ => []

variable (pageCount : ℕ) (J : ClientIou.Job)

/-- The bytes of the requests for a range of indices. -/
def asked (first n : ℕ) : List UInt8 :=
  (List.range' first n).flatMap (fun j => (Client.request pageCount j).bytes)

/-- How far the batches and the sends have come; `total` is what the other side has
sent and `pieces` what the receives have taken of it. -/
structure InStep (c : ClientIou.State) (total : List UInt8) (pieces : List (List UInt8))
    (posted sent : ℕ) : Prop where
  batching : ClientIou.Batching J c posted pieces.length
  posted_le : posted ≤ J.stop
  sends : c.sends = List.range' (J.start + sent) (posted - (J.start + sent))
  sent_le : J.start + sent ≤ posted
  requests : ∀ j, J.start ≤ j → j < posted → c.requests j = Client.request pageCount j
  stream : pieces.flatten ++ c.stream = total
  slots : ∀ k, J.start + k < J.stop → c.responses (J.start + k) =
    Bytes.overlay (pieces.getD k []) GetPageResponse.zero.bytes
  pieces_le : ∀ piece ∈ pieces, piece.length ≤ sizeofResponse
  sendDone : ∀ res ∈ c.sendDone, 0 ≤ res
  receiveDone : ∀ res ∈ c.receiveDone, 0 ≤ res
  cq : ∀ d ∈ c.cq, 0 ≤ d.res
  unfailed : c.phase ≠ .failed

/-- The indices of the range that are in no batch yet. -/
def remaining (c : ClientIou.State) : ℕ :=
  match c.phase with
  | .sending => J.stop - c.i
  | .waiting => J.stop - ClientIou.batchEnd J c.i
  | _ => 0

/-- The requests that are still to be sent. -/
def unsent (c : ClientIou.State) : ℕ := remaining J c + c.sends.length

/-- The steps that the thread has left, counted from above. -/
def work (c : ClientIou.State) : ℕ :=
  8 * remaining J c + (if c.phase = .waiting then 1 else 0) + 3 * c.sends.length +
    2 * c.sendDone.length + 3 * c.receives.length + 2 * c.receiveDone.length + c.cq.length

/-- The thread goes on and has less to do; what it puts on the connection are the next
requests. -/
def Next (c : ClientIou.State) (total : List UInt8) (pieces : List (List UInt8)) (sent : ℕ)
    (bs : List UInt8) (d : ClientIou.State) : Prop :=
  ∃ posted' sent', InStep pageCount J d total pieces posted' sent' ∧ sent ≤ sent' ∧
    bs = asked pageCount (J.start + sent) (sent' - sent) ∧
    unsent J d + (sent' - sent) = unsent J c ∧ work J d < work J c

variable {pageCount J} {c d : ClientIou.State} {total : List UInt8} {pieces : List (List UInt8)}
  {posted sent : ℕ}

section Bytes

variable (pageCount) in
theorem length_asked (first n : ℕ) : (asked pageCount first n).length = sizeofRequest * n := by
  induction n generalizing first with
  | zero => rfl
  | succ n ih =>
    rw [asked,List.range'_succ,List.flatMap_cons,List.length_append,GetPageRequest.length_bytes,
      ← asked,ih]
    ring

variable (pageCount) in
theorem asked_append (first n k : ℕ) :
    asked pageCount first (n + k) = asked pageCount first n ++ asked pageCount (first + n) k := by
  rw [asked,← List.range'_append_1,List.flatMap_append]
  rfl

variable (pageCount) in
theorem asked_cons (first n : ℕ) :
    asked pageCount first (n + 1) =
      (Client.request pageCount first).bytes ++ asked pageCount (first + 1) n := by
  simp [asked,List.range'_succ]

end Bytes

section Steps

theorem InStep.start : InStep pageCount J (ClientIou.start J []) [] [] J.start 0 := by
  refine ⟨ClientIou.Batching.start [],J.start_le,?_,le_rfl,?_,rfl,?_,?_,?_,?_,?_,?_⟩
  · simp [ClientIou.start,ClientIou.testBatch]
  · intro j hle hlt
    omega
  · intro k _
    rfl
  all_goals simp [ClientIou.start,ClientIou.testBatch]
  split <;> simp

theorem work_start (J : ClientIou.Job) :
    work J (ClientIou.start J []) ≤ 8 * (J.stop - J.start) ∧
      unsent J (ClientIou.start J []) ≤ J.stop - J.start := by
  simp only [work,unsent,remaining,ClientIou.start,ClientIou.testBatch]
  by_cases hlt : J.start < J.stop <;> simp [hlt]

/-- A step that leaves the vectors, the sends and the stream as they are. -/
theorem InStep.congr (h : InStep pageCount J c total pieces posted sent)
    (hb : ClientIou.Batching J d posted pieces.length) (hsends : d.sends = c.sends)
    (hrequests : d.requests = c.requests) (hresponses : d.responses = c.responses)
    (hstream : d.stream = c.stream) (hsendDone : ∀ res ∈ d.sendDone, 0 ≤ res)
    (hreceiveDone : ∀ res ∈ d.receiveDone, 0 ≤ res) (hcq : ∀ x ∈ d.cq, 0 ≤ x.res)
    (hp : d.phase ≠ .failed) : InStep pageCount J d total pieces posted sent where
  batching := hb
  posted_le := h.posted_le
  sends := hsends.trans h.sends
  sent_le := h.sent_le
  requests := hrequests ▸ h.requests
  stream := hstream ▸ h.stream
  slots := hresponses ▸ h.slots
  pieces_le := h.pieces_le
  sendDone := hsendDone
  receiveDone := hreceiveDone
  cq := hcq
  unfailed := hp

/-- A step that puts nothing on the connection. -/
theorem InStep.silent {pieces' : List (List UInt8)} {posted' : ℕ}
    (h : InStep pageCount J d total pieces' posted' sent) (hunsent : unsent J d = unsent J c)
    (hwork : work J d < work J c) : Next pageCount J c total pieces' sent [] d := by
  refine ⟨posted',sent,h,le_rfl,?_,?_,hwork⟩
  · rw [Nat.sub_self]
    rfl
  · rw [Nat.sub_self]
    exact hunsent

theorem foldl_sendDone (js : List ℕ) (c : ClientIou.State) :
    (js.foldl (ClientIou.sendRequest pageCount) c).sendDone = c.sendDone := by
  induction js generalizing c with
  | nil => rfl
  | cons j js ih =>
    rw [List.foldl_cons]
    exact ih (ClientIou.sendRequest pageCount c j)

theorem InStep.batch (h : InStep pageCount J c total pieces posted sent)
    (hstep : ClientIou.step pageCount J c .batch = .ok d) :
    Next pageCount J c total pieces sent [] d := by
  have hb : ClientIou.Batching J d (ClientIou.batchEnd J c.i) (pieces.length + 0) :=
    h.batching.step hstep
  obtain ⟨hp,-,rfl⟩ := ClientIou.step_batch hstep
  obtain ⟨rfl,hlt,-⟩ := h.batching.sending hp
  obtain ⟨hless,hsize⟩ := ClientIou.batchEnd_le hlt
  have hend := ClientIou.batchEnd_eq hlt
  have hsent := h.sent_le
  obtain ⟨hsends,hrequests⟩ := ClientIou.foldl_sendRequest pageCount
    (List.range' c.i (ClientIou.batchEnd J c.i - c.i)) c
  obtain ⟨hresponses,hreceives,hreceiveDone,hcq,hstream,hi⟩ :=
    ClientIou.sendRequests_frame pageCount c c.i (ClientIou.batchEnd J c.i)
  have hsendDone : (ClientIou.sendRequests pageCount c c.i
      (ClientIou.batchEnd J c.i)).sendDone = c.sendDone := foldl_sendDone _ c
  refine InStep.silent
    (?_ : InStep pageCount J _ total pieces (ClientIou.batchEnd J c.i) sent) ?_ ?_
  · constructor
    · exact hb
    · omega
    · change (ClientIou.sendRequests _ _ _ _).sends = _
      rw [ClientIou.sendRequests,hsends,h.sends]
      exact Tiling.range'_join hsent hless.le
    · omega
    · intro j hj hjlt
      change (ClientIou.sendRequests _ _ _ _).requests j = _
      rw [ClientIou.sendRequests,hrequests]
      dsimp only
      split
      · rfl
      · rename_i hnot
        refine h.requests j hj ?_
        rw [List.mem_range'_1] at hnot
        omega
    · change _ ++ (ClientIou.sendRequests _ _ _ _).stream = _
      rw [hstream]
      exact h.stream
    · change ∀ k, _ → (ClientIou.sendRequests _ _ _ _).responses _ = _
      rw [hresponses]
      exact h.slots
    · exact h.pieces_le
    · change ∀ res ∈ (ClientIou.sendRequests _ _ _ _).sendDone, _
      rw [hsendDone]
      exact h.sendDone
    · change ∀ res ∈ (ClientIou.sendRequests _ _ _ _).receiveDone, _
      rw [hreceiveDone]
      exact h.receiveDone
    · change ∀ x ∈ (ClientIou.sendRequests _ _ _ _).cq, _
      rw [hcq]
      exact h.cq
    · simp
  · simp only [unsent,remaining,ClientIou.postReceives,hp,hi]
    rw [ClientIou.sendRequests,hsends]
    simp only [List.length_append,List.length_range']
    omega
  · simp only [work,remaining,ClientIou.postReceives,hp,hi,hsendDone,hreceives,hreceiveDone,hcq]
    rw [ClientIou.sendRequests,hsends]
    simp only [List.length_append,List.length_range']
    simp
    omega

theorem InStep.reap (h : InStep pageCount J c total pieces posted sent)
    (hstep : ClientIou.step pageCount J c .reap = .ok d) :
    Next pageCount J c total pieces sent [] d := by
  have hb : ClientIou.Batching J d posted (pieces.length + 0) := h.batching.step hstep
  obtain ⟨x,rest,hp,-,hcq,rfl⟩ := ClientIou.step_reap hstep
  have hres : ¬ x.res < 0 := not_lt.mpr (h.cq x (by simp [hcq]))
  have hconsume : ∃ j, ClientIou.consume c x rest = { c with cq := rest, j := j } := by
    unfold ClientIou.consume
    rw [if_neg hres]
    exact ⟨_,rfl⟩
  obtain ⟨j,hj⟩ := hconsume
  rw [hj] at hb ⊢
  refine (h.congr hb rfl rfl rfl rfl h.sendDone h.receiveDone ?_ h.unfailed).silent ?_ ?_
  · intro y hy
    exact h.cq y (by rw [hcq]; exact List.mem_cons_of_mem _ hy)
  · rfl
  · simp only [work,remaining,hp,hcq,List.length_cons]
    omega

theorem InStep.next (h : InStep pageCount J c total pieces posted sent)
    (hstep : ClientIou.step pageCount J c .next = .ok d) :
    Next pageCount J c total pieces sent [] d := by
  have hb : ClientIou.Batching J d posted (pieces.length + 0) := h.batching.step hstep
  obtain ⟨hp,-,rfl⟩ := ClientIou.step_next hstep
  obtain ⟨-,hlt,-⟩ := h.batching.waiting hp
  have hend := ClientIou.batchEnd_eq hlt
  have hstop := J.stop_lt
  have hi : (c.i + ClientIou.batchSize) % sizeMod = c.i + ClientIou.batchSize :=
    Nat.mod_eq_of_lt (by omega)
  refine (h.congr hb rfl rfl rfl rfl h.sendDone h.receiveDone h.cq ?_).silent ?_ ?_
  · simp only [ClientIou.testBatch]
    split <;> simp
  · rw [hi]
    by_cases hmore : c.i + ClientIou.batchSize < J.stop
    · simp only [unsent,remaining,ClientIou.testBatch,if_pos hmore,hp]
      omega
    · simp only [unsent,remaining,ClientIou.testBatch,if_neg hmore,hp]
      omega
  · rw [hi]
    by_cases hmore : c.i + ClientIou.batchSize < J.stop
    · simp only [work,remaining,ClientIou.testBatch,if_pos hmore,hp,reduceCtorEq,if_true,if_false]
      omega
    · simp only [work,remaining,ClientIou.testBatch,if_neg hmore,hp,reduceCtorEq,if_true,if_false]
      omega

theorem InStep.postSend (h : InStep pageCount J c total pieces posted sent) {i : ℕ}
    (hstep : ClientIou.step pageCount J c (.postSend i) = .ok d) :
    Next pageCount J c total pieces sent [] d := by
  have hb : ClientIou.Batching J d posted (pieces.length + 0) := h.batching.step hstep
  obtain ⟨res,-,hi,rfl⟩ := ClientIou.step_postSend hstep
  obtain ⟨hlt,-⟩ := List.getElem?_eq_some_iff.mp hi
  refine (h.congr hb rfl rfl rfl rfl ?_ h.receiveDone ?_ h.unfailed).silent rfl ?_
  · exact fun r hr => h.sendDone r (List.mem_of_mem_eraseIdx hr)
  · intro y hy
    rcases List.mem_append.mp hy with hy | hy
    · exact h.cq y hy
    · rw [List.mem_singleton.mp hy]
      exact h.sendDone res (List.mem_of_getElem? hi)
  · simp only [work,remaining,List.length_eraseIdx_of_lt hlt,List.length_append,
      List.length_singleton]
    omega

theorem InStep.postReceive (h : InStep pageCount J c total pieces posted sent) {i : ℕ}
    (hstep : ClientIou.step pageCount J c (.postReceive i) = .ok d) :
    Next pageCount J c total pieces sent [] d := by
  have hb : ClientIou.Batching J d posted (pieces.length + 0) := h.batching.step hstep
  obtain ⟨res,-,hi,rfl⟩ := ClientIou.step_postReceive hstep
  obtain ⟨hlt,-⟩ := List.getElem?_eq_some_iff.mp hi
  refine (h.congr hb rfl rfl rfl rfl h.sendDone ?_ ?_ h.unfailed).silent rfl ?_
  · exact fun r hr => h.receiveDone r (List.mem_of_mem_eraseIdx hr)
  · intro y hy
    rcases List.mem_append.mp hy with hy | hy
    · exact h.cq y hy
    · rw [List.mem_singleton.mp hy]
      exact h.receiveDone res (List.mem_of_getElem? hi)
  · simp only [work,remaining,List.length_eraseIdx_of_lt hlt,List.length_append,
      List.length_singleton]
    omega

/-- A send puts the next request on the connection. -/
theorem InStep.send (h : InStep pageCount J c total pieces posted sent)
    (hstep : ClientIou.step pageCount J c (.send sizeofRequest) = .ok d) :
    Next pageCount J c total pieces sent (transmitted c (.send sizeofRequest)) d := by
  have hb : ClientIou.Batching J d posted (pieces.length + 0) := h.batching.step hstep
  obtain ⟨j,rest,-,hsends,rfl⟩ := ClientIou.step_send hstep
  have hrange := h.sends
  rw [hsends] at hrange
  have hlen := congrArg List.length hrange
  rw [List.length_cons,List.length_range'] at hlen
  have hsplit : posted - (J.start + sent) = posted - (J.start + (sent + 1)) + 1 := by omega
  rw [hsplit,List.range'_succ] at hrange
  obtain ⟨rfl,hrest⟩ := List.cons.inj hrange
  have hbytes : transmitted c (.send sizeofRequest) =
      (Client.request pageCount (J.start + sent)).bytes := by
    simp only [transmitted,hsends]
    rw [h.requests _ (Nat.le_add_right _ _) (by omega)]
  refine ⟨posted,sent + 1,?_,Nat.le_succ sent,?_,?_,?_⟩
  · exact { h with
      batching := hb
      sends := hrest
      sent_le := by omega
      sendDone := fun r hr => by
        rcases List.mem_append.mp hr with hr | hr
        · exact h.sendDone r hr
        · rw [List.mem_singleton.mp hr]
          exact Int.natCast_nonneg _ }
  · rw [hbytes,Nat.add_sub_cancel_left]
    simp [asked]
  · simp only [unsent,remaining,hsends,List.length_cons]
    omega
  · simp only [work,remaining,hsends,List.length_append,List.length_cons,List.length_nil]
    omega

/-- A receive leaves what it took at the front of its slot. -/
theorem InStep.receive (h : InStep pageCount J c total pieces posted sent) {bs : List UInt8}
    (hstep : ClientIou.step pageCount J c (.receive (.bytes bs)) = .ok d) :
    Next pageCount J c total (pieces ++ [bs]) sent [] d := by
  have hb : ClientIou.Batching J d posted (pieces ++ [bs]).length := by
    rw [List.length_append]
    exact h.batching.step hstep
  simp only [ClientIou.step] at hstep
  split at hstep
  · cases hstep
  · rename_i k rest hk
    split at hstep
    · rename_i hcond
      obtain ⟨-,hle,tail,htail⟩ := hcond
      cases hstep
      obtain ⟨rfl,-⟩ := h.batching.receive hk 0 c.responses c.stream
      have hdrop : c.stream.drop bs.length = tail := by rw [← htail,List.drop_left]
      refine InStep.silent (?_ : InStep pageCount J _ total (pieces ++ [bs]) posted sent) rfl ?_
      · refine { h with
          batching := hb
          stream := ?_
          slots := ?_
          pieces_le := ?_
          receiveDone := ?_ }
        · rw [hdrop,List.flatten_append,List.flatten_singleton,List.append_assoc,htail]
          exact h.stream
        · intro k hlt
          rcases lt_trichotomy k pieces.length with hk | rfl | hk
          · have hne : J.start + k ≠ J.start + pieces.length := by omega
            dsimp only
            rw [Function.update_of_ne hne,h.slots k hlt,List.getD_append _ _ _ _ hk]
          · dsimp only
            rw [Function.update_self,h.slots _ hlt,List.getD_append_right _ _ _ _ le_rfl,
              Nat.sub_self]
            simp [Bytes.overlay]
          · have hne : J.start + k ≠ J.start + pieces.length := by omega
            dsimp only
            rw [Function.update_of_ne hne,h.slots k hlt,List.getD_eq_default _ _ hk.le,
              List.getD_eq_default]
            simp only [List.length_append,List.length_singleton]
            omega
        · exact fun p hp => (List.mem_append.mp hp).elim (h.pieces_le p)
            (fun hp => (List.mem_singleton.mp hp).symm ▸ hle)
        · intro r hr
          rcases List.mem_append.mp hr with hr | hr
          · exact h.receiveDone r hr
          · rw [List.mem_singleton.mp hr]
            exact Int.natCast_nonneg _
      · simp only [work,remaining,hk,List.length_append,List.length_cons,List.length_nil]
        omega
    · cases hstep

/-- Each step that the connection carries keeps the thread in step. -/
theorem InStep.step (h : InStep pageCount J c total pieces posted sent) {e : ClientIou.Event}
    (hcarried : carried e = true) (hstep : ClientIou.step pageCount J c e = .ok d) :
    Next pageCount J c total (pieces ++ ClientIou.taken [e]) sent (transmitted c e) d := by
  cases e with
  | batch => simpa [ClientIou.taken,transmitted] using h.batch hstep
  | reap => simpa [ClientIou.taken,transmitted] using h.reap hstep
  | next => simpa [ClientIou.taken,transmitted] using h.next hstep
  | send res =>
    obtain rfl : res = sizeofRequest := by simpa [carried] using hcarried
    simpa [ClientIou.taken] using h.send hstep
  | postSend i => simpa [ClientIou.taken,transmitted] using h.postSend hstep
  | receive r =>
    cases r with
    | bytes bs => simpa [ClientIou.taken,transmitted,ReadResult.content] using h.receive hstep
    | failed => simp [carried,ReadResult.content] at hcarried
  | postReceive i => simpa [ClientIou.taken,transmitted] using h.postReceive hstep

/-- More bytes arrive. -/
theorem InStep.supply (h : InStep pageCount J c total pieces posted sent) (bs : List UInt8) :
    InStep pageCount J { c with stream := c.stream ++ bs } (total ++ bs) pieces posted sent :=
  { h with
    batching := h.batching.congr rfl rfl rfl rfl id
    stream := by rw [← List.append_assoc,h.stream] }

end Steps

section Frame

/-- A thread that has the same in its own range of the vectors is as far. -/
theorem InStep.vectors (h : InStep pageCount J c total pieces posted sent)
    {requests : ℕ → GetPageRequest} {responses : ℕ → List UInt8}
    (hsame : ∀ j, J.start ≤ j → j < J.stop →
      requests j = c.requests j ∧ responses j = c.responses j) :
    InStep pageCount J { c with requests := requests, responses := responses } total pieces posted
      sent := by
  have hle := h.posted_le
  refine { h with
    batching := h.batching.congr rfl rfl rfl rfl id
    requests := ?_
    slots := ?_ }
  · intro j hj hlt
    exact (hsame j hj (by omega)).1.trans (h.requests j hj hlt)
  · intro k hk
    exact (hsame _ (Nat.le_add_right _ _) hk).2.trans (h.slots k hk)

/-- A step changes nothing in the vectors outside the range of its thread. -/
theorem InStep.frame (h : InStep pageCount J c total pieces posted sent) {e : ClientIou.Event}
    (hstep : ClientIou.step pageCount J c e = .ok d) {j : ℕ}
    (hj : ¬ (J.start ≤ j ∧ j < J.stop)) :
    d.requests j = c.requests j ∧ d.responses j = c.responses j := by
  have heffect := ClientIou.effect_of_step hstep
  have hle := h.posted_le
  constructor
  · rw [heffect.requests]
    dsimp only
    rw [if_neg]
    intro hmem
    rw [heffect.prepared] at hmem
    cases e with
    | batch =>
      obtain ⟨hp,-,-⟩ := ClientIou.step_batch hstep
      obtain ⟨-,hlt,-⟩ := h.batching.sending hp
      have hend := ClientIou.batchEnd_eq hlt
      have hfirst := h.batching.start_le
      simp only [ClientIou.batchOf,List.flatMap_singleton,ClientIou.indices,
        List.mem_range'_1] at hmem
      omega
    | reap | next | send | postSend | receive | postReceive =>
      simp [ClientIou.batchOf] at hmem
  · refine heffect.responses j ?_
    intro hmem
    cases e with
    | receive r =>
      have hin : j ∈ c.receives := List.mem_of_mem_take hmem
      rw [h.batching.receives,List.mem_range'_1] at hin
      omega
    | batch | reap | next | send | postSend | postReceive =>
      simp [ClientIou.filledOf] at hmem

end Frame

section Progress

/-- A step of the thread fails only for want of a page to ask for. -/
theorem step_error {e : ClientIou.Event} {why : Stop} (hpc : 0 < pageCount)
    (h : ClientIou.step pageCount J c e = .error why) : why = .disabled := by
  cases e with
  | batch =>
    simp only [ClientIou.step] at h
    split at h
    · split at h
      · omega
      · cases h
    · exact (Except.error.inj h).symm
  | reap | next | send | postSend | receive | postReceive =>
    simp only [ClientIou.step] at h
    repeat' split at h
    all_goals first | cases h; rfl | cases h

/-- A step that the connection carries. -/
def Enabled (pageCount : ℕ) (J : ClientIou.Job) (c : ClientIou.State) : Prop :=
  ∃ e d, carried e = true ∧ ClientIou.step pageCount J c e = .ok d

theorem enabled_step {e : ClientIou.Event} (hc : carried e = true)
    (h : ∃ d, ClientIou.step pageCount J c e = .ok d) : Enabled pageCount J c := by
  obtain ⟨d,hd⟩ := h
  exact ⟨e,d,hc,hd⟩

theorem length_flatten_le {n : ℕ} {pieces : List (List UInt8)}
    (h : ∀ piece ∈ pieces, piece.length ≤ n) : pieces.flatten.length ≤ n * pieces.length := by
  induction pieces with
  | nil => exact Nat.zero_le _
  | cons piece pieces ih =>
    have hhead := h piece (by simp)
    have htail := ih fun p hp => h p (List.mem_cons_of_mem _ hp)
    rw [List.flatten_cons,List.length_append,List.length_cons,Nat.mul_succ]
    omega

/-- The kernel has executed all sends, and a receive that is posted finds no bytes. -/
theorem InStep.starved (h : InStep pageCount J c total pieces posted sent) (hsends : c.sends = [])
    (hreceives : c.receives ≠ []) (hstream : c.stream = []) :
    total.length < sizeofResponse * sent := by
  have hsendsLen := congrArg List.length h.sends
  have hreceivesLen := congrArg List.length h.batching.receives
  have htotal := congrArg List.length h.stream
  have hpieces := length_flatten_le h.pieces_le
  have hpos := List.length_pos_of_ne_nil hreceives
  have hsent := h.sent_le
  rw [hsends,List.length_nil,List.length_range'] at hsendsLen
  rw [List.length_range'] at hreceivesLen
  rw [hstream,List.append_nil] at htotal
  refine lt_of_le_of_lt (htotal.ge.trans hpieces) ?_
  exact Nat.mul_lt_mul_of_pos_left (by omega) (by decide)

/-- A thread that has not finished can go on, or it waits for a response: the other side
has sent less than one for each request that is out. -/
theorem InStep.enabled (h : InStep pageCount J c total pieces posted sent) (hpc : 0 < pageCount)
    (hp : c.phase ≠ .done) : Enabled pageCount J c ∨ total.length < sizeofResponse * sent := by
  have hne : pageCount ≠ 0 := hpc.ne'
  cases hphase : c.phase with
  | done => exact (hp hphase).elim
  | failed => exact (h.unfailed hphase).elim
  | sending =>
    exact Or.inl (enabled_step (e := .batch) rfl ⟨_,(if_pos hphase).trans (if_neg hne)⟩)
  | waiting =>
    have hactive : ClientIou.Active c := Or.inr hphase
    by_cases hj : c.j < ClientIou.batchEnd J c.i - c.i
    · obtain ⟨-,hcount⟩ := h.batching.j_le hphase
      cases hcq : c.cq with
      | cons x rest =>
        refine Or.inl (enabled_step (e := .reap) rfl ⟨ClientIou.consume c x rest,?_⟩)
        simp only [ClientIou.step,if_pos (And.intro hphase hj),hcq]
      | nil =>
        cases hdone : c.receiveDone with
        | cons res rest =>
          refine Or.inl (enabled_step (e := .postReceive 0) rfl ?_)
          simp [ClientIou.step,hdone,hactive]
        | nil =>
          have hreceives : c.receives ≠ [] := by
            intro hnil
            simp only [ClientIou.unreaped,hcq,hdone,hnil,List.length_nil,List.countP_nil] at hcount
            omega
          obtain ⟨k,tail,hk⟩ := List.exists_cons_of_ne_nil hreceives
          cases hsends : c.sends with
          | cons j rest =>
            refine Or.inl (enabled_step (e := .send sizeofRequest) rfl ?_)
            simp [ClientIou.step,hsends,hactive]
          | nil =>
            cases hstream : c.stream with
            | cons b bs =>
              have hfits : 1 ≤ sizeofResponse := by decide
              have hpre : [b] <+: c.stream := ⟨bs,by rw [hstream]; rfl⟩
              refine Or.inl (enabled_step (e := .receive (.bytes [b])) rfl ?_)
              simp [ClientIou.step,hk,hactive,hfits,hpre]
            | nil => exact Or.inr (h.starved hsends hreceives hstream)
    · exact Or.inl (enabled_step (e := .next) rfl ⟨_,if_pos ⟨hphase,hj⟩⟩)

/-- No more receives are outstanding than a batch has. -/
theorem InStep.window (h : InStep pageCount J c total pieces posted sent) :
    posted ≤ J.start + pieces.length + 64 := by
  have hle := h.batching.unreaped_le h.unfailed
  have hlen := congrArg List.length h.batching.receives
  rw [List.length_range'] at hlen
  unfold ClientIou.unreaped at hle
  omega

/-- A finished thread has executed a receive for each of its requests. -/
theorem InStep.done (h : InStep pageCount J c total pieces posted sent) (hp : c.phase = .done) :
    J.start + pieces.length = J.stop ∧ sent ≤ pieces.length := by
  obtain ⟨rfl,hzero⟩ := h.batching.done hp
  have hle := h.batching.count_le
  have hlen := congrArg List.length h.batching.receives
  rw [List.length_range'] at hlen
  unfold ClientIou.unreaped at hzero
  have hsent := h.sent_le
  omega

section Whole
variable (hall : ∀ piece ∈ pieces, piece.length = sizeofResponse)
include hall

/-- Whole receives have taken the first frames of what the other side has sent. -/
theorem InStep.pieces_whole {frames : List (List UInt8)}
    (h : InStep pageCount J c frames.flatten pieces posted sent)
    (hframes : ∀ frame ∈ frames, frame.length = sizeofResponse) : pieces <+: frames := by
  have hblocks := Bytes.blocks_prefix sizeofResponse pieces.flatten c.stream
  rwa [h.stream,Bytes.blocks_flatten (by decide) hall,
    Bytes.blocks_flatten (by decide) hframes] at hblocks

theorem InStep.slot_whole (h : InStep pageCount J c total pieces posted sent) {k : ℕ}
    {frame : List UInt8} (hk : J.start + k < J.stop) (hframe : pieces[k]? = some frame) :
    c.responses (J.start + k) = frame := by
  have hzero : GetPageResponse.zero.bytes.drop sizeofResponse = [] := by decide
  rw [h.slots k hk,List.getD_eq_getElem?_getD,hframe,Option.getD_some,Bytes.overlay,
    hall frame (List.mem_of_getElem? hframe),hzero,List.append_nil]

end Whole

end Progress

end FastNet.GetPage.IouThread
