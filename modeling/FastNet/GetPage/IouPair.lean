import FastNet.GetPage.IouHandler

/-! # One thread of the io_uring client and a handler of the io_uring server

The server has every page that is asked for. A thread has up to a batch of requests
under way, so a slot may get the response to a later one of them.
-/
namespace FastNet.GetPage.IouPair
open Execution IouThread IouHandler
open IouConnection (Queued pending takenBy)

/-- An event of the thread or its kernel, or of the handler or its kernel. -/
abbrev Event : Type := IouConnection.Event IouHandler.Event

variable (pageCount serverPages : ℕ) (strategy : FillingStrategy) (malloc : ℕ → List UInt8)
  (J : ClientIou.Job)

/-- A step of the handler, with the bytes that it sends. -/
def serve (l : Link) (e : IouHandler.Event) : Except Stop (Link × List UInt8) :=
  (IouHandler.step serverPages strategy malloc l e).map (fun l' =>
    (l',l'.server.sent.drop l.server.sent.length))

/-- A step of a thread or its kernel, or one of its handler. -/
def linkStep : ClientIou.State → Link → Event → Except Stop (ClientIou.State × Link) :=
  IouConnection.step pageCount (serve serverPages strategy malloc) J

/-- The thread and its handler are in step; with whole receives a response is to a
request of the same window. -/
structure Synced (c : ClientIou.State) (l : Link) (pieces : List (List UInt8))
    (posted sent served : ℕ) (late : List ℕ) : Prop where
  thread : InStep pageCount J c l.server.sent pieces posted sent
  handling : Handling pageCount serverPages strategy J.start l sent served late
  window : (∀ piece ∈ pieces, piece.length = sizeofResponse) →
    ∀ k j, late[k]? = some j → j < J.start + k + 64

/-- The steps that are left, counted from above. -/
def work (c : ClientIou.State) (l : Link) : ℕ :=
  IouThread.work J c + 6 * unsent J c + IouHandler.work l

/-- The thread is as far as its connection. -/
def Kept (c : ClientIou.State) (l : Link) (pieces : List (List UInt8)) : Prop :=
  ∃ posted sent served late, Synced pageCount serverPages strategy J c l pieces posted sent served
    late

variable {pageCount serverPages strategy malloc J} {c d : ClientIou.State} {l l' : Link}
  {pieces : List (List UInt8)} {posted sent served : ℕ} {late : List ℕ}

section Steps

theorem Kept.start (response : GetPageResponse) (iov : ServerIou.IoVec × ServerIou.IoVec) :
    Kept pageCount serverPages strategy J (ClientIou.start J [])
      (IouHandler.start malloc response iov) [] := by
  refine ⟨J.start,0,0,[],InStep.start,.start response iov,?_⟩
  intro _ k j hk
  cases hk

theorem work_start (response : GetPageResponse) (iov : ServerIou.IoVec × ServerIou.IoVec)
    (J : ClientIou.Job) :
    work J (ClientIou.start J []) (IouHandler.start malloc response iov) ≤
      14 * (J.stop - J.start) := by
  obtain ⟨hwork,hunsent⟩ := IouThread.work_start J
  have hzero : IouHandler.work (IouHandler.start malloc response iov) = 0 := by
    simp [IouHandler.work,IouHandler.start,ServerIou.start]
  simp only [work,hzero]
  omega

theorem Synced.client
    (h : Synced pageCount serverPages strategy J c l pieces posted sent served late)
    {e : ClientIou.Event} (hcarried : carried e = true)
    (hstep : ClientIou.step pageCount J c e = .ok d) :
    Kept pageCount serverPages strategy J d { l with toServer := l.toServer ++ transmitted c e }
        (pieces ++ ClientIou.taken [e]) ∧
      work J d { l with toServer := l.toServer ++ transmitted c e } < work J c l := by
  have hs := h.handling
  obtain ⟨posted',sent',hd,hqueued,hpending,hwork⟩ :=
    hs.queued.client h.thread hcarried hstep
  refine ⟨⟨posted',sent',served,late,hd,?_,?_⟩,?_⟩
  · exact ⟨hs.brought,hqueued,hs.serving,hs.late_ge,hs.late_lt⟩
  · intro hall
    exact h.window fun piece hp => hall piece (List.mem_append_left _ hp)
  · simp only [pending] at hpending
    simp only [work,IouHandler.work]
    omega

variable (hpages : pageSize * serverPages < sizeMod) (hpc : 0 < pageCount)
  (hserver : pageCount ≤ serverPages)
include hpages hpc hserver

theorem Synced.handler
    (h : Synced pageCount serverPages strategy J c l pieces posted sent served late)
    {e : IouHandler.Event} (hstep : IouHandler.step serverPages strategy malloc l e = .ok l') :
    Kept pageCount serverPages strategy J
        { c with stream := c.stream ++ l'.server.sent.drop l.server.sent.length } l' pieces ∧
      work J { c with stream := c.stream ++ l'.server.sent.drop l.server.sent.length } l' <
        work J c l := by
  obtain ⟨served',new,hnext,hsent,hone,hwork⟩ := h.handling.step hpages hpc hserver hstep
  have hsupply := h.thread.supply
    (new.map (EndToEnd.answerBytes pageCount serverPages strategy)).flatten
  rw [← hsent] at hsupply
  rw [hsent,List.drop_left]
  refine ⟨⟨posted,sent,served',late ++ new,hsupply,hnext,?_⟩,?_⟩
  · intro hall k j hk
    by_cases hold : k < late.length
    · rw [List.getElem?_append_left hold] at hk
      exact h.window hall k j hk
    · have hlt := hnext.late_lt j (List.mem_of_getElem? hk)
      have hrequests := hnext.length_requests
      have hserved := hnext.queued.served_le
      have hposted := h.thread.sent_le
      have hwindow := h.thread.window
      have hbytes := congrArg List.length h.thread.stream
      rw [List.length_append,Bytes.length_flatten_of_all hall,h.handling.sent_eq,
        Bytes.length_flatten_of_all length_of_answers,List.length_map] at hbytes
      unfold sizeofResponse at hbytes
      omega
  · change IouThread.work J c + 6 * unsent J c + _ < IouThread.work J c + 6 * unsent J c + _
    omega

theorem Synced.step
    (h : Synced pageCount serverPages strategy J c l pieces posted sent served late) {e : Event}
    (hstep : linkStep pageCount serverPages strategy malloc J c l e = .ok (d,l')) :
    Kept pageCount serverPages strategy J d l' (pieces ++ takenBy e) ∧ work J d l' < work J c l := by
  rcases IouConnection.step_cases hstep with ⟨a,rfl,hcarried,hu,rfl⟩ | ⟨a,bs,rfl,hserve,rfl⟩
  · exact h.client hcarried hu
  · obtain ⟨u,hu,heq⟩ := map_ok.mp hserve
    cases heq
    rw [takenBy,List.append_nil]
    exact h.handler hpages hpc hserver hu

end Steps

section Thread

theorem serve_error (l : Link) (e : IouHandler.Event) (why : Stop)
    (h : serve serverPages strategy malloc l e = .error why) : why = .disabled := by
  simp only [serve] at h
  cases hd : IouHandler.step serverPages strategy malloc l e with
  | ok d => simp [hd,Except.map] at h
  | error w =>
    rw [hd] at h
    cases h
    exact IouHandler.step_error hd

/-- A thread that has not finished can go on, or its handler can. -/
theorem Synced.enabled
    (h : Synced pageCount serverPages strategy J c l pieces posted sent served late)
    (malloc : ℕ → List UInt8) (hpc : 0 < pageCount) (hp : c.phase ≠ .done) :
    ∃ e d l', linkStep pageCount serverPages strategy malloc J c l e = .ok (d,l') := by
  apply IouConnection.enabled h.thread hpc hp
  rcases h.handling.enabled malloc with ⟨e,l',hl⟩ | hall
  · exact Or.inl ⟨e,_,map_ok.mpr ⟨l',hl,rfl⟩⟩
  · exact Or.inr hall.ge

/-- With whole receives a slot of a finished thread holds the response to its own request
or to one of the next few. -/
theorem Synced.slot
    (h : Synced pageCount serverPages strategy J c l pieces posted sent served late)
    (hp : c.phase = .done) (hall : ∀ piece ∈ pieces, piece.length = sizeofResponse) {j : ℕ}
    (hstart : J.start ≤ j) (hstop : j < J.stop) :
    ∃ i, c.responses j = EndToEnd.answerBytes pageCount serverPages strategy i ∧ j ≤ i ∧
      i < j + 64 ∧ i < J.stop := by
  obtain ⟨k,rfl⟩ := Nat.exists_eq_add_of_le hstart
  obtain ⟨hcount,-⟩ := h.thread.done hp
  have hthread := h.thread
  rw [h.handling.sent_eq] at hthread
  have hpre := hthread.pieces_whole hall length_of_answers
  have hk : k < pieces.length := by omega
  have hlen := hpre.length_le
  rw [List.length_map] at hlen
  have hget : late[k]? = some late[k] := List.getElem?_eq_getElem (by omega)
  have hlt := h.handling.late_lt _ (List.getElem_mem (by omega : k < late.length))
  have hrequests := h.handling.length_requests
  have hserved := h.handling.queued.served_le
  have hsent := h.thread.sent_le
  have hposted := h.thread.posted_le
  refine ⟨late[k],?_,h.handling.late_ge k _ hget,h.window hall k _ hget,by omega⟩
  refine h.thread.slot_whole hall hstop ?_
  rw [List.getElem?_eq_getElem hk,hpre.getElem hk,List.getElem_map]

end Thread

end FastNet.GetPage.IouPair
