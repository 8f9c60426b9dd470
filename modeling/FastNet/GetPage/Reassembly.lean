import FastNet.GetPage.ClientIou
import Mathlib.Data.List.GetD

/-! # Reassembly in the io_uring page client

A receive lands at the front of the slot with its own number, however many bytes
it took. The slots hold the frames of the server's stream just when every receive
took a whole frame.
-/
namespace FastNet.GetPage.ClientIou
open Execution
variable {pageCount : ℕ} {J : Job} {stream : List UInt8} {pieces : List (List UInt8)}
  {es : List Event} {s t : State} {posted : ℕ}

/-- What the executed receives left in the slots, piece by piece. -/
structure Filling (J : Job) (stream : List UInt8) (pieces : List (List UInt8)) (s : State) :
    Prop where
  stream : pieces.flatten ++ s.stream = stream
  slots : ∀ k, s.responses (J.start + k) =
    Bytes.overlay (pieces.getD k []) GetPageResponse.zero.bytes
  pieces_le : ∀ piece ∈ pieces, piece.length ≤ sizeofResponse

theorem Filling.start (stream : List UInt8) : Filling J stream [] (start J stream) :=
  ⟨rfl,fun _ => rfl,by simp⟩

theorem Filling.congr (h : Filling J stream pieces s) (hresp : t.responses = s.responses)
    (hstream : t.stream = s.stream) : Filling J stream (pieces ++ []) t := by
  rw [List.append_nil]
  constructor
  · rw [hstream]
    exact h.stream
  · rw [hresp]
    exact h.slots
  · exact h.pieces_le

theorem Filling.receive (h : Filling J stream pieces s) {bs : List UInt8} {t : State}
    (hle : bs.length ≤ sizeofResponse) (hbs : bs <+: s.stream)
    (hstream : t.stream = s.stream.drop bs.length)
    (hresp : t.responses = Function.update s.responses (J.start + pieces.length)
      (Bytes.overlay bs (s.responses (J.start + pieces.length)))) :
    Filling J stream (pieces ++ [bs]) t := by
  constructor
  · obtain ⟨rest,hrest⟩ := hbs
    have hdrop : s.stream.drop bs.length = rest := by rw [← hrest,List.drop_left]
    rw [hstream,hdrop,List.flatten_append,List.flatten_singleton,List.append_assoc,hrest]
    exact h.stream
  · intro k
    rw [hresp]
    rcases lt_trichotomy k pieces.length with hk | rfl | hk
    · have hne : J.start + k ≠ J.start + pieces.length := by omega
      rw [Function.update_of_ne hne,h.slots k,List.getD_append _ _ _ _ hk]
    · rw [Function.update_self,h.slots,List.getD_append_right _ _ _ _ le_rfl,Nat.sub_self]
      simp [Bytes.overlay]
    · have hne : J.start + k ≠ J.start + pieces.length := by omega
      rw [Function.update_of_ne hne,h.slots k,List.getD_eq_default _ _ hk.le,
        List.getD_eq_default]
      simp only [List.length_append,List.length_singleton]
      omega
  · intro piece hp
    rcases List.mem_append.mp hp with hp | hp
    · exact h.pieces_le piece hp
    · rw [List.mem_singleton.mp hp]
      exact hle

theorem Filling.step (h : Filling J stream pieces s) (hb : Batching J s posted pieces.length)
    {e : Event} (hstep : step pageCount J s e = .ok t) :
    Filling J stream (pieces ++ taken [e]) t := by
  cases e with
  | batch =>
    obtain ⟨-,-,rfl⟩ := step_batch hstep
    obtain ⟨hresp,-,-,-,hstream,-⟩ := sendRequests_frame pageCount s s.i (batchEnd J s.i)
    exact h.congr hresp hstream
  | reap =>
    obtain ⟨c,rest,-,-,-,rfl⟩ := step_reap hstep
    apply h.congr
    · unfold consume
      dsimp only
      split <;> rfl
    · unfold consume
      dsimp only
      split <;> rfl
  | next =>
    obtain ⟨-,-,rfl⟩ := step_next hstep
    exact h.congr rfl rfl
  | send res =>
    obtain ⟨j,rest,-,-,rfl⟩ := step_send hstep
    exact h.congr rfl rfl
  | postSend i =>
    obtain ⟨res,-,-,rfl⟩ := step_postSend hstep
    exact h.congr rfl rfl
  | receive r =>
    obtain ⟨k,rest,res,-,hk,hle,hbs,rfl⟩ := step_receive hstep
    obtain ⟨rfl,-⟩ := hb.receive hk res s.responses s.stream
    exact h.receive hle hbs rfl rfl
  | postReceive i =>
    obtain ⟨res,-,-,rfl⟩ := step_postReceive hstep
    exact h.congr rfl rfl

theorem filling_of_run (h : execute (step pageCount J) (start J stream) es = .ok s) :
    (∃ posted, Batching J s posted (taken es).length) ∧ Filling J stream (taken es) s := by
  refine execute_induction (P := fun es s => (∃ posted, Batching J s posted (taken es).length) ∧
    Filling J stream (taken es) s) ⟨⟨_,Batching.start stream⟩,Filling.start stream⟩ ?_ h
  rintro es s e t _ ⟨⟨posted,hb⟩,hf⟩ hstep
  have htaken : taken (es ++ [e]) = taken es ++ taken [e] := List.filterMap_append
  rw [htaken,List.length_append]
  exact ⟨⟨_,hb.step hstep⟩,hf.step hb hstep⟩

/-- A finished thread has executed one receive for each of its requests. -/
theorem length_taken_of_done (h : execute (step pageCount J) (start J stream) es = .ok s)
    (hp : s.phase = .done) : (taken es).length = J.stop - J.start := by
  obtain ⟨⟨posted,hb⟩,-⟩ := filling_of_run h
  obtain ⟨hposted,hzero⟩ := hb.done hp
  have hle := hb.count_le
  have hlen := congrArg List.length hb.receives
  rw [List.length_range'] at hlen
  unfold unreaped at hzero
  omega

section Frames
variable {seed serverPages : ℕ} {qs : List GetPageRequest}

/-- The frames that the server sends for a list of requests. -/
def frames (seed serverPages : ℕ) (qs : List GetPageRequest) : List (List UInt8) :=
  qs.map (Server.respond (MemoryBlock.construct serverPages (pseudoRandomFillingStrategy seed))
    serverPages)

variable (seed) in
/-- The last byte of a frame is one of a page or of an error. -/
theorem getElem?_respond (h : pageSize * serverPages < sizeMod) (q : GetPageRequest) :
    ∃ b : UInt8, b ≠ 0 ∧ (Server.respond (MemoryBlock.construct serverPages
      (pseudoRandomFillingStrategy seed)) serverPages q)[sizeofResponse - 1]? = some b := by
  rw [Server.respond_construct _ _ h]
  have hheader (r : GetPageResponse) :
      r.bytes[sizeofResponse - 1]? = r.content.toList[pageSize - 1]? := by
    rw [GetPageResponse.bytes,List.getElem?_append_right (by simp [sizeofHeader,sizeofResponse]),
      GetPageResponseHeader.length_bytes]
    rfl
  rw [hheader,Server.answer]
  by_cases hq : serverPages ≤ q.pageNumber.toNat
  · rw [if_pos hq]
    exact ⟨0xFA,by decide,by simp [Server.errorResponse,pageSize]⟩
  · rw [if_neg hq]
    exact ⟨0xAA,by decide,by simp [pseudoRandomFillingStrategy,pageSize]⟩

/-- A piece that leaves a whole frame in an empty slot is a whole frame. -/
theorem length_of_overlay (h : pageSize * serverPages < sizeMod) {piece : List UInt8}
    (hle : piece.length ≤ sizeofResponse) {q : GetPageRequest}
    (ho : Bytes.overlay piece GetPageResponse.zero.bytes = Server.respond (MemoryBlock.construct
      serverPages (pseudoRandomFillingStrategy seed)) serverPages q) :
    piece.length = sizeofResponse := by
  by_contra hne
  obtain ⟨b,hb,hlast⟩ := getElem?_respond seed h q
  rw [← ho,Bytes.overlay,List.getElem?_append_right (by omega),List.getElem?_drop] at hlast
  have hindex : piece.length + (sizeofResponse - 1 - piece.length) = sizeofResponse - 1 := by
    omega
  rw [hindex] at hlast
  have hzero : GetPageResponse.zero.bytes[sizeofResponse - 1]? = some 0 := by decide
  rw [hzero] at hlast
  exact hb (Option.some.inj hlast).symm

/-- After all batches the slots of the range hold the frames of the stream just when
every receive took a whole frame. -/
theorem reassembled_iff_whole (pageCount : ℕ) (J : Job) (seed serverPages : ℕ)
    (hpages : pageSize * serverPages < sizeMod) (qs : List GetPageRequest)
    (hqs : qs.length = J.stop - J.start)
    (h : execute (step pageCount J) (start J (frames seed serverPages qs).flatten) es = .ok s)
    (hp : s.phase = .done) :
    (∀ j, J.start ≤ j → j < J.stop →
        some (s.responses j) = (frames seed serverPages qs)[j - J.start]?) ↔
      ∀ piece ∈ taken es, piece.length = sizeofResponse := by
  have hlen := length_taken_of_done h hp
  obtain ⟨-,hf⟩ := filling_of_run h
  have hframes : (frames seed serverPages qs).length = J.stop - J.start := by
    rw [frames,List.length_map,hqs]
  have hsize : ∀ f ∈ frames seed serverPages qs, f.length = sizeofResponse := by
    intro f hf
    obtain ⟨q,-,rfl⟩ := List.mem_map.mp hf
    exact Server.length_respond _ _ hpages q
  have hslot (k : ℕ) (hk : k < (taken es).length) : s.responses (J.start + k) =
      Bytes.overlay (taken es)[k] GetPageResponse.zero.bytes := by
    rw [hf.slots k,List.getD_eq_getElem _ _ hk]
  constructor
  · intro hall piece hpiece
    obtain ⟨k,hk,rfl⟩ := List.getElem_of_mem hpiece
    have hj := hall (J.start + k) (Nat.le_add_right _ _) (by omega)
    rw [hslot k hk,Nat.add_sub_cancel_left,frames,List.getElem?_map,
      List.getElem?_eq_getElem (by omega),Option.map_some,Option.some.injEq] at hj
    exact length_of_overlay hpages (hf.pieces_le _ hpiece) hj
  · intro hall j hstart hstop
    have hk : j - J.start < (taken es).length := by omega
    have hflat : (taken es).flatten = (frames seed serverPages qs).flatten := by
      have hprefix : (taken es).flatten <+: (frames seed serverPages qs).flatten := ⟨_,hf.stream⟩
      apply hprefix.eq_of_length
      rw [Bytes.length_flatten_of_all hall,Bytes.length_flatten_of_all hsize,hlen,hframes]
    have hpieces : taken es = frames seed serverPages qs := by
      rw [← Bytes.blocks_flatten (by decide) hall,hflat,Bytes.blocks_flatten (by decide) hsize]
    have hdrop : GetPageResponse.zero.bytes.drop sizeofResponse = [] := by decide
    have hget := hslot (j - J.start) hk
    rw [Nat.add_sub_cancel' hstart,Bytes.overlay,hall _ (List.getElem_mem hk),hdrop,
      List.append_nil] at hget
    rw [hget,← hpieces,List.getElem?_eq_getElem hk]

/-- A thread with the first requests. -/
def firstJob (n : ℕ) (h : n + batchSize < sizeMod) : Job := ⟨0,n,Nat.zero_le n,h⟩

/-- A thread against a server with one page. -/
def smallRun (n : ℕ) (h : n + batchSize < sizeMod) (es : List Event) : Except Stop State :=
  execute (step 1 (firstJob n h)) (start (firstJob n h)
    (frames 42 1 ((List.range n).map (fun i => ⟨UInt32.ofNat i,0⟩))).flatten) es

/-- Each of the two receives takes a frame. -/
def wholeFrames : List Event :=
  [.batch,.receive (.bytes (frames 42 1 [⟨0,0⟩]).flatten),
    .receive (.bytes (frames 42 1 [⟨1,0⟩]).flatten),.postReceive 0,.postReceive 0,.reap,.reap,.next]

theorem reassembled_iff_whole_frame : ∃ s, smallRun 2 (by decide) wholeFrames = .ok s ∧
    some (s.responses 0) = (frames 42 1 [⟨0,0⟩,⟨1,0⟩])[0]? ∧
    some (s.responses 1) = (frames 42 1 [⟨0,0⟩,⟨1,0⟩])[1]? := by
  have hrun : yields (smallRun 2 (by decide) wholeFrames) (fun s => s.phase = .done) = true := by
    decide +kernel
  obtain ⟨s,hs,hp⟩ := exists_of_yields hrun
  have hwhole := (reassembled_iff_whole 1 (firstJob 2 (by decide)) 42 1 (by decide)
    [⟨0,0⟩,⟨1,0⟩] rfl hs (of_decide_eq_true hp)).mpr (by decide +kernel)
  exact ⟨s,hs,hwhole 0 le_rfl Nat.two_pos,hwhole 1 Nat.one_pos.le (Nat.lt_succ_self 1)⟩

/-- The frame of the first of two requests comes as its header and its page. -/
def splitFrame : List Event :=
  [.batch,.receive (.bytes ((frames 42 1 [⟨0,0⟩]).flatten.take sizeofHeader)),
    .receive (.bytes ((frames 42 1 [⟨0,0⟩]).flatten.drop sizeofHeader)),
    .postReceive 0,.postReceive 0,.reap,.reap,.next]

/-- The thread finishes, and neither slot holds its frame. -/
theorem split_frame_misplaced :
    (∀ piece ∈ taken splitFrame, 1 ≤ piece.length ∧ piece.length ≤ sizeofResponse) ∧
      ∃ s, smallRun 2 (by decide) splitFrame = .ok s ∧ s.phase = .done ∧
        some (s.responses 0) ≠ (frames 42 1 [⟨0,0⟩,⟨1,0⟩])[0]? ∧
        some (s.responses 1) ≠ (frames 42 1 [⟨0,0⟩,⟨1,0⟩])[1]? := by
  have hrun : yields (smallRun 2 (by decide) splitFrame) (fun s => s.phase = .done &&
      decide (some (s.responses 0) ≠ (frames 42 1 [⟨0,0⟩,⟨1,0⟩])[0]?) &&
      decide (some (s.responses 1) ≠ (frames 42 1 [⟨0,0⟩,⟨1,0⟩])[1]?)) = true := by
    decide +kernel
  obtain ⟨s,hs,htest⟩ := exists_of_yields hrun
  simp only [Bool.and_eq_true,decide_eq_true_eq] at htest
  exact ⟨by decide +kernel,s,hs,htest.1.1,htest.1.2,htest.2⟩

end Frames

end FastNet.GetPage.ClientIou
