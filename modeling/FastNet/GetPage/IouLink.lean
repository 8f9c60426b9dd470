import FastNet.GetPage.EndToEnd
import FastNet.GetPage.IouConnection

/-! # One thread of the io_uring client and its connection to the page server

A thread of `client_iou` against a handler of the blocking server. Requests are
delivered whole. The thread is never stuck, and each step uses up work.
-/
namespace FastNet.GetPage.IouLink
open Execution IouThread
open IouConnection (Queued pending takenBy)

/-- The requests on their way, and the handler. -/
abbrev Link : Type := IouConnection.Link Server.State

/-- An event of the thread or its kernel, or a request that the handler answers. -/
abbrev Event : Type := IouConnection.Event Unit

variable (pageCount serverPages : ℕ) (strategy : FillingStrategy) (J : ClientIou.Job)

/-- The handler reads a request and answers it. -/
def serve (l : Link) (_ : Unit) : Except Stop (Link × List UInt8) :=
  if sizeofRequest ≤ l.toServer.length ∧ l.server.closed = false then
    let server := Server.step (MemoryBlock.construct serverPages strategy) serverPages l.server
      (.bytes (l.toServer.take sizeofRequest))
    .ok (⟨l.toServer.drop sizeofRequest,server⟩,
      (server.written.drop l.server.written.length).flatten)
  else .error .disabled

/-- A step of a thread or its kernel, or one of its handler. -/
def step : ClientIou.State → Link → Event → Except Stop (ClientIou.State × Link) :=
  IouConnection.step pageCount (serve serverPages strategy) J

/-- The responses for a range of indices. -/
def answered (first n : ℕ) : List (List UInt8) :=
  (List.range' first n).map (EndToEnd.answerBytes pageCount serverPages strategy)

/-- The thread is in step, and the handler has answered the first `served` requests. -/
structure Synced (c : ClientIou.State) (l : Link) (pieces : List (List UInt8))
    (posted sent served : ℕ) : Prop where
  thread : InStep pageCount J c (answered pageCount serverPages strategy J.start served).flatten
    pieces posted sent
  queued : Queued pageCount J.start l sent served
  running : l.server.closed = false

/-- The steps that are left, counted from above. -/
def work (c : ClientIou.State) (l : Link) : ℕ := IouThread.work J c + pending J c l

variable {pageCount serverPages strategy J} {c d : ClientIou.State} {l l' : Link}
  {pieces : List (List UInt8)} {posted sent served : ℕ}

section Bytes

theorem length_of_answered {first n : ℕ} :
    ∀ frame ∈ answered pageCount serverPages strategy first n, frame.length = sizeofResponse := by
  intro frame hf
  obtain ⟨j,-,rfl⟩ := List.mem_map.mp hf
  exact EndToEnd.length_answerBytes j

theorem length_answered (first n : ℕ) :
    (answered pageCount serverPages strategy first n).flatten.length = sizeofResponse * n := by
  rw [Bytes.length_flatten_of_all length_of_answered,answered,List.length_map,List.length_range',
    Nat.mul_comm]

theorem answered_concat (first n : ℕ) :
    (answered pageCount serverPages strategy first (n + 1)).flatten =
      (answered pageCount serverPages strategy first n).flatten ++
        EndToEnd.answerBytes pageCount serverPages strategy (first + n) := by
  simp [answered,List.range'_concat]

end Bytes

section Steps

/-- The thread goes on, and there is less work to do. -/
def Next (pageCount serverPages : ℕ) (strategy : FillingStrategy) (J : ClientIou.Job)
    (c : ClientIou.State) (l : Link) (pieces : List (List UInt8)) (d : ClientIou.State)
    (l' : Link) : Prop :=
  (∃ posted sent served, Synced pageCount serverPages strategy J d l' pieces posted sent served) ∧
    work J d l' < work J c l

theorem Synced.start : Synced pageCount serverPages strategy J (ClientIou.start J [])
    ⟨[],⟨false,[]⟩⟩ [] J.start 0 0 :=
  ⟨InStep.start,⟨le_rfl,rfl⟩,rfl⟩

theorem work_start (J : ClientIou.Job) :
    work J (ClientIou.start J []) ⟨[],⟨false,[]⟩⟩ ≤ 9 * (J.stop - J.start) := by
  obtain ⟨hwork,hunsent⟩ := IouThread.work_start J
  simp only [work,pending,List.length_nil,Nat.zero_div]
  omega

theorem Synced.client (h : Synced pageCount serverPages strategy J c l pieces posted sent served)
    {e : ClientIou.Event} (hcarried : carried e = true)
    (hstep : ClientIou.step pageCount J c e = .ok d) :
    Next pageCount serverPages strategy J c l (pieces ++ ClientIou.taken [e]) d
      { l with toServer := l.toServer ++ transmitted c e } := by
  obtain ⟨posted',sent',hd,hqueued,hpending,hwork⟩ := h.queued.client h.thread hcarried hstep
  refine ⟨⟨posted',sent',served,hd,hqueued,h.running⟩,?_⟩
  simp only [work,hpending]
  omega

/-- The handler answers the oldest request. -/
theorem Synced.serve (h : Synced pageCount serverPages strategy J c l pieces posted sent served)
    (hpages : pageSize * serverPages < sizeMod) {bs : List UInt8}
    (hserve : serve serverPages strategy l () = .ok (l',bs)) :
    Next pageCount serverPages strategy J c l pieces { c with stream := c.stream ++ bs } l' := by
  simp only [IouLink.serve] at hserve
  split at hserve
  · rename_i hready
    have hbytes : (Client.request pageCount (J.start + served)).bytes.length = sizeofRequest :=
      GetPageRequest.length_bytes _
    have hdo : Server.step (MemoryBlock.construct serverPages strategy) serverPages l.server
        (.bytes (l.toServer.take sizeofRequest)) = _ := Server.step_running h.running _
    obtain ⟨htake,hqueued,hdiv⟩ := h.queued.take hready.1
      (Server.step (MemoryBlock.construct serverPages strategy) serverPages l.server
        (.bytes (l.toServer.take sizeofRequest)))
    have hrequest : Server.wholeRequest (.bytes (l.toServer.take sizeofRequest)) =
        some (Client.query pageCount (J.start + served)) := by
      rw [htake,Server.wholeRequest,if_pos hbytes,GetPageRequest.ofBytes_bytes,
        Client.request_toHostOrder]
    rw [hrequest] at hdo
    cases hserve
    refine ⟨⟨posted,sent,served + 1,?_,hqueued,?_⟩,?_⟩
    · have hsupply := h.thread.supply
        (EndToEnd.answerBytes pageCount serverPages strategy (J.start + served))
      rw [← answered_concat] at hsupply
      rw [hdo]
      simpa [Server.respond_construct strategy serverPages hpages,EndToEnd.answerBytes]
        using hsupply
    · rw [hdo]
      exact h.running
    · change IouThread.work J c + (unsent J c + (l.toServer.drop sizeofRequest).length /
        sizeofRequest) < IouThread.work J c + (unsent J c + _)
      omega
  · cases hserve

/-- Each step that is taken keeps both sides in step. -/
theorem Synced.step (h : Synced pageCount serverPages strategy J c l pieces posted sent served)
    (hpages : pageSize * serverPages < sizeMod) {e : Event}
    (hstep : step pageCount serverPages strategy J c l e = .ok (d,l')) :
    Next pageCount serverPages strategy J c l (pieces ++ takenBy e) d l' := by
  rcases IouConnection.step_cases hstep with ⟨a,rfl,hcarried,hu,rfl⟩ | ⟨a,bs,rfl,hserve,rfl⟩
  · exact h.client hcarried hu
  · rw [takenBy,List.append_nil]
    exact h.serve hpages hserve

end Steps

section Frame

/-- A thread that has the same in its own range of the vectors is as far. -/
theorem Synced.vectors (h : Synced pageCount serverPages strategy J c l pieces posted sent served)
    {requests : ℕ → GetPageRequest} {responses : ℕ → List UInt8}
    (hsame : ∀ j, J.start ≤ j → j < J.stop →
      requests j = c.requests j ∧ responses j = c.responses j) :
    Synced pageCount serverPages strategy J { c with requests := requests, responses := responses }
      l pieces posted sent served :=
  ⟨h.thread.vectors hsame,h.queued,h.running⟩

end Frame

section Progress

theorem serve_error (l : Link) (e : Unit) (why : Stop)
    (h : serve serverPages strategy l e = .error why) : why = .disabled := by
  simp only [serve] at h
  split at h <;> cases h
  rfl

/-- A thread that has not finished can go on, or its handler can. -/
theorem Synced.enabled (h : Synced pageCount serverPages strategy J c l pieces posted sent served)
    (hpc : 0 < pageCount) (hp : c.phase ≠ .done) :
    ∃ e d l', IouLink.step pageCount serverPages strategy J c l e = .ok (d,l') := by
  apply IouConnection.enabled h.thread hpc hp
  by_cases hwhole : sizeofRequest ≤ l.toServer.length
  · exact Or.inl ⟨(),_,if_pos ⟨hwhole,h.running⟩⟩
  · refine Or.inr ?_
    have hwaiting := h.queued.waiting
    rw [length_answered]
    unfold sizeofRequest at hwaiting hwhole
    unfold sizeofResponse
    omega

end Progress

section Slots

/-- The slots of a finished thread hold the responses just when each receive was whole. -/
theorem Synced.slots_iff {seed : ℕ} (h : Synced pageCount serverPages
      (pseudoRandomFillingStrategy seed) J c l pieces posted sent served)
    (hpages : pageSize * serverPages < sizeMod) (hp : c.phase = .done) :
    (∀ j, J.start ≤ j → j < J.stop → c.responses j =
        EndToEnd.answerBytes pageCount serverPages (pseudoRandomFillingStrategy seed) j) ↔
      ∀ piece ∈ pieces, piece.length = sizeofResponse := by
  obtain ⟨hcount,-⟩ := h.thread.done hp
  constructor
  · intro hright piece hpiece
    obtain ⟨k,hk,rfl⟩ := List.getElem_of_mem hpiece
    have hj := hright (J.start + k) (Nat.le_add_right _ _) (by omega)
    rw [h.thread.slots k (by omega),List.getD_eq_getElem _ _ hk,EndToEnd.answerBytes,
      ← Server.respond_construct _ _ hpages] at hj
    exact ClientIou.length_of_overlay hpages (h.thread.pieces_le _ hpiece) hj
  · intro hall j hstart hstop
    obtain ⟨k,rfl⟩ := Nat.exists_eq_add_of_le hstart
    have hpre := h.thread.pieces_whole hall length_of_answered
    have hk : k < pieces.length := by omega
    refine h.thread.slot_whole hall hstop ?_
    rw [List.getElem?_eq_getElem hk,hpre.getElem hk]
    simp [answered]

end Slots

end FastNet.GetPage.IouLink
