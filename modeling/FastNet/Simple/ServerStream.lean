import FastNet.Simple.ServerView
import FastNet.Foundation.RingStream

/-! # What the event loop reads and writes

In stream order, every handled read yields one response with the number found in
its buffer, and every executed send puts a prefix of its page on the connection.
The loop never looks at the length of either, so the requests are decoded, and the
pages are framed, just when every transfer was whole.
-/
namespace FastNet.Simple.Server
open Execution
variable {K : Consts} {clientNum : ℕ}

section Requests

/-- Reads complete in order, each with a failure or with at least one byte. -/
def ReadsInOrder : Event → Prop
  | .serve => True
  | .kernel e => e.RxInOrder ∧ ∀ i bytes, e = .execRx i bytes → bytes ≠ []

/-- What the reads took from the connection, one entry for each executed read. -/
def deliveries (es : List Event) : List (List UInt8) :=
  es.flatMap (fun e => match e with
    | .serve => []
    | .kernel e => e.received)

/-- A response carries what the buffer of its read held. -/
def Answers (d : List UInt8) (x : ℤ) : Prop :=
  ∃ a, RingView.Arrived sizeofInt32 d a ∧ x = Bytes.int32OfBytes a.2

/-- The deliveries are those answered and those still in the ring, in order. -/
def Reading (es : List Event) (v : View) : Prop :=
  ∃ done waiting, deliveries es = done ++ waiting ∧ done.length = v.handled ∧
    List.Forall₂ Answers done v.responses ∧
    List.Forall₂ (RingView.Arrived sizeofInt32) waiting v.ring.arrivals

theorem Reading.step {es : List Event} {v w : View} {e : Event} (he : ReadsInOrder e)
    (hv : Reading es v) (h : Step K v e w) : Reading (es ++ [e]) w := by
  obtain ⟨done,waiting,hsplit,hlen,hdone,hwait⟩ := hv
  have hsame : deliveries (es ++ [Event.serve]) = deliveries es := by simp [deliveries]
  cases h with
  | read res data rest hp hcq hres =>
    rw [RingView.arrivals_reap_rx hcq] at hwait
    obtain ⟨d,ds,ha,hrest,rfl⟩ := List.forall₂_cons_right_iff.mp hwait
    refine ⟨done ++ [d],ds,?_,by simp [hlen],?_,hrest⟩
    · rw [hsame,hsplit,List.append_assoc,List.singleton_append]
    · exact List.rel_append hdone (.cons ⟨_,ha,rfl⟩ .nil)
  | closed data rest hp hcq => exact ⟨done,waiting,hsame.trans hsplit,hlen,hdone,hwait⟩
  | written res rest hp hcq =>
    rw [RingView.arrivals_reap_tx hcq] at hwait
    exact ⟨done,waiting,hsame.trans hsplit,hlen,hdone,hwait⟩
  | kernel e w hp hmove =>
    obtain ⟨new,hnew,hall⟩ := hmove.arrivals he.1
    refine ⟨done,waiting ++ e.received,?_,hlen,hdone,?_⟩
    · simp only [deliveries] at hsplit
      simp [deliveries,hsplit]
    · change List.Forall₂ _ _ w.arrivals
      rw [hnew]
      exact List.rel_append hwait hall

theorem Reading.start : Reading [] (View.start K) := ⟨[],[],rfl,rfl,.nil,.nil⟩

/-- What the handled reads took from the connection. -/
def handledReads (es : List Event) (s : State) : List (List UInt8) :=
  (deliveries es).take s.handled

theorem handled_answers {es : List Event} {s : State} (h : Run K clientNum es s)
    (ho : ∀ e ∈ es, ReadsInOrder e) : List.Forall₂ Answers (handledReads es s) s.responses := by
  obtain ⟨done,waiting,hsplit,hlen,hdone,-⟩ :=
    h.path.2.history Reading.start (fun _ _ _ _ he hv h => hv.step he h) ho
  have hlen : done.length = s.handled := hlen
  rw [handledReads,hsplit,← hlen,List.take_left]
  exact hdone

theorem Answers.full {d : List UInt8} {x : ℤ} (h : Answers d x) (hd : d.length = sizeofInt32) :
    x = Bytes.int32OfBytes d := by
  obtain ⟨a,ha,hx⟩ := h
  exact hx.trans (congrArg Bytes.int32OfBytes (ha.full hd (by decide)).2)

theorem responses_of_full {ds : List (List UInt8)} {xs : List ℤ} (h : List.Forall₂ Answers ds xs)
    (hfull : ∀ d ∈ ds, d.length = sizeofInt32) : xs = ds.map Bytes.int32OfBytes := by
  induction h with
  | nil => rfl
  | cons ha _ ih =>
    rw [List.map_cons,ha.full (hfull _ List.mem_cons_self),
      ih (fun d hd => hfull d (List.mem_cons_of_mem _ hd))]

/-- The responses are those of the received integers, and there are no more of them
than complete reads. -/
def Decoded (es : List Event) (s : State) : Prop :=
  s.responses = Bytes.int32s (handledReads es s).flatten ∧
    s.responses.length ≤ (handledReads es s).countP (fun d => d.length = sizeofInt32)

/-- The requests are decoded just when every handled read was complete. -/
theorem decoded_iff_complete {es : List Event} {s : State} (h : Run K clientNum es s)
    (ho : ∀ e ∈ es, ReadsInOrder e) :
    Decoded es s ↔ ∀ d ∈ handledReads es s, d.length = sizeofInt32 := by
  have hall := handled_answers h ho
  have hlen := hall.length_eq
  constructor
  · rintro ⟨-,hle⟩
    rw [← hlen] at hle
    have heq := le_antisymm List.countP_le_length hle
    intro d hd
    simpa using List.countP_eq_length.mp heq d hd
  · intro hfull
    refine ⟨?_,?_⟩
    · rw [Bytes.int32s_flatten hfull]
      exact responses_of_full hall hfull
    · rw [← hlen]
      exact (List.countP_eq_length.mpr (fun d hd => by simpa using hfull d hd)).ge

/-- The loop with a ring of four and pages of one integer, at its head. -/
def smallRun (es : List Event) : Except Stop State :=
  start Consts.small 0 (fun _ => ⟨(0,0),.readEvent,0⟩) (fun _ => []) Process.countingSupply >>=
    fun s0 => execute (step Consts.small 0) s0 es

theorem run_of_smallRun {es : List Event} {s : State} (h : smallRun es = .ok s) :
    Run Consts.small 0 es s := by
  obtain ⟨s0,h0,hs⟩ := bind_ok.mp h
  exact ⟨_,_,_,s0,h0,hs⟩

/-- One whole request is received and answered. -/
def wholeRequest : List Event :=
  [.kernel (.execRx 0 [7,0,0,0]),.kernel (.postRx 0),.serve]

theorem decoded_iff_complete_whole : ∃ s, smallRun wholeRequest = .ok s ∧
    s.responses = [7] ∧ Decoded wholeRequest s := by
  have hrun : yields (smallRun wholeRequest)
      (fun s => s.responses = [7] && s.handled = 1) = true := by decide +kernel
  obtain ⟨s,hs,htest⟩ := exists_of_yields hrun
  simp only [Bool.and_eq_true,decide_eq_true_eq] at htest
  have ho : ∀ e ∈ wholeRequest, ReadsInOrder e := by
    simp [wholeRequest,ReadsInOrder,KernelEvent.RxInOrder]
  refine ⟨s,hs,htest.1,(decoded_iff_complete (run_of_smallRun hs) ho).mpr ?_⟩
  rw [handledReads,htest.2]
  decide

/-- A request that arrives in two halves, and a read that fails. -/
def splitRequest : List Event :=
  [.kernel (.execRx 0 [1,0]),.kernel (.postRx 0),.serve,.kernel (.execRx 0 [0,0]),
    .kernel (.postRx 0),.serve,.kernel (.failRx 0 103),.kernel (.postRx 0),.serve]

/-- One request was received and three pages are sent. -/
theorem split_request_answered_thrice : (∀ e ∈ splitRequest, ReadsInOrder e) ∧
    (deliveries splitRequest).flatten = [1,0,0,0] ∧ Bytes.int32s [1,0,0,0] = [1] ∧
    ∃ s, Run Consts.small 0 splitRequest s ∧ s.handled = (deliveries splitRequest).length ∧
      s.responses = [1,0,0] ∧ ¬ Decoded splitRequest s := by
  have hrun : yields (smallRun splitRequest)
      (fun s => s.responses = [1,0,0] && s.handled = 3) = true := by decide +kernel
  obtain ⟨s,hs,htest⟩ := exists_of_yields hrun
  simp only [Bool.and_eq_true,decide_eq_true_eq] at htest
  refine ⟨by simp [splitRequest,ReadsInOrder,KernelEvent.RxInOrder],by decide,by decide +kernel,
    s,run_of_smallRun hs,htest.2,htest.1,?_⟩
  rintro ⟨-,hle⟩
  rw [handledReads,htest.1,htest.2] at hle
  revert hle
  decide

end Requests

section Pages

/-- Sends execute in order, each with at least one byte. -/
def WritesInOrder : Event → Prop
  | .serve => True
  | .kernel e => e.TxInOrder ∧ (∀ i err, e ≠ .failTx i err) ∧
    ∀ i bytes, e = .execTx i bytes → bytes ≠ []

/-- What the sends put on the connection, one entry for each executed send. -/
def writes (es : List Event) : List (List UInt8) :=
  es.flatMap (fun e => match e with
    | .serve => []
    | .kernel e => e.transmitted)

variable (K) in
/-- The pages of the responses are those executed, of which a prefix was sent, and
those still in the ring. -/
def Writing (es : List Event) (v : View) : Prop :=
  ∃ done, v.responses.map K.page = done ++ v.ring.tx ∧
    List.Forall₂ (· <+: ·) (writes es) done

theorem Writing.step {es : List Event} {v w : View} {e : Event} (he : WritesInOrder e)
    (hv : Writing K es v) (h : Step K v e w) : Writing K (es ++ [e]) w := by
  obtain ⟨done,hpages,hsent⟩ := hv
  have hsame : writes (es ++ [Event.serve]) = writes es := by simp [writes]
  cases h with
  | read res data rest hp hcq hres =>
    refine ⟨done,?_,by rwa [hsame]⟩
    simp [answered,hpages]
  | closed data rest hp hcq => exact ⟨done,hpages,by rwa [hsame]⟩
  | written res rest hp hcq => exact ⟨done,hpages,by rwa [hsame]⟩
  | kernel e w hp hmove =>
    obtain ⟨new,hnew,hall⟩ := hmove.transmitted he.1
    refine ⟨done ++ new,?_,?_⟩
    · change v.responses.map K.page = _
      rw [hpages,hnew,List.append_assoc]
    · have happ : writes (es ++ [Event.kernel e]) = writes es ++ e.transmitted := by simp [writes]
      rw [happ]
      exact List.rel_append hsent hall

theorem Writing.start : Writing K [] (View.start K) := ⟨[],rfl,.nil⟩

/-- All writes are executed, posted and taken off the completion queue. -/
def WritesReaped (s : State) : Prop :=
  s.proc.ring.txAll = [] ∧ s.proc.ring.txDone = [] ∧
    ∀ e ∈ s.proc.ring.cq, (s.proc.mem.header e.userData).eventType ≠ .writeEvent

instance (s : State) : Decidable (WritesReaped s) := by unfold WritesReaped; infer_instance

theorem sent_pages {es : List Event} {s : State} (h : Run K clientNum es s)
    (ho : ∀ e ∈ es, WritesInOrder e) (hreaped : WritesReaped s) :
    List.Forall₂ (· <+: ·) (writes es) (s.responses.map K.page) := by
  obtain ⟨done,hpages,hsent⟩ :=
    h.path.2.history Writing.start (fun _ _ _ _ he hv h => hv.step he h) ho
  have htx : (view s).ring.tx = [] := by
    simp [view,Process.view,Ring.view,hreaped.1]
  rw [htx,List.append_nil] at hpages
  have hpages : s.responses.map K.page = done := hpages
  rwa [hpages]

/-- Prefixes of the same length are equal. -/
theorem eq_of_prefixes {α : Type*} {cs ps : List (List α)} {k : ℕ}
    (h : List.Forall₂ (· <+: ·) cs ps) (hps : ∀ p ∈ ps, p.length = k)
    (hcs : ∀ c ∈ cs, c.length = k) : cs = ps := by
  induction h with
  | nil => rfl
  | cons hp _ ih =>
    have hlen := (hcs _ List.mem_cons_self).trans (hps _ List.mem_cons_self).symm
    rw [hp.eq_of_length hlen,ih (fun p h => hps p (List.mem_cons_of_mem _ h))
      (fun c h => hcs c (List.mem_cons_of_mem _ h))]

/-- The connection carries the pages of the responses one after the other, so its
blocks of the size of a page are the responses. -/
def Framed (K : Consts) (es : List Event) (s : State) : Prop :=
  (writes es).flatten = (s.responses.map K.page).flatten ∧
    Bytes.blocks K.pageLen (writes es).flatten = s.responses.map K.page

/-- Once all writes are reaped, the pages are framed just when every send was
whole. -/
theorem framed_iff_whole {es : List Event} {s : State} (h : Run K clientNum es s)
    (ho : ∀ e ∈ es, WritesInOrder e) (hreaped : WritesReaped s) :
    Framed K es s ↔ ∀ c ∈ writes es, c.length = K.pageLen := by
  have hsent := sent_pages h ho hreaped
  have hpages : ∀ p ∈ s.responses.map K.page, p.length = K.pageLen := by
    intro p hp
    obtain ⟨x,-,rfl⟩ := List.mem_map.mp hp
    exact K.length_page x
  constructor
  · rintro ⟨hflat,-⟩
    have hle : ∀ c ∈ writes es, c.length ≤ K.pageLen := by
      intro c hc
      obtain ⟨i,hi,rfl⟩ := List.getElem_of_mem hc
      have hi' : i < (s.responses.map K.page).length := hsent.length_eq ▸ hi
      exact (hsent.get hi hi').length_le.trans (hpages _ (List.getElem_mem hi')).le
    apply Bytes.all_full_of_length hle
    rw [hflat,Bytes.length_flatten_of_all hpages,hsent.length_eq]
  · intro hwhole
    have heq := eq_of_prefixes hsent hpages hwhole
    refine ⟨by rw [heq],?_⟩
    rw [heq]
    exact Bytes.blocks_flatten K.pageLen_pos hpages

/-- One request is answered and its page is sent in one piece. -/
def wholePage : List Event :=
  wholeRequest ++ [.kernel (.execTx 0 [7,0,0,0]),.kernel (.postTx 0),.serve]

theorem framed_iff_whole_page : ∃ s, smallRun wholePage = .ok s ∧ WritesReaped s ∧
    Framed Consts.small wholePage s := by
  have hrun : yields (smallRun wholePage) (fun s => WritesReaped s) = true := by decide +kernel
  obtain ⟨s,hs,htest⟩ := exists_of_yields hrun
  simp only [decide_eq_true_eq] at htest
  have ho : ∀ e ∈ wholePage, WritesInOrder e := by
    simp [wholePage,wholeRequest,WritesInOrder,KernelEvent.TxInOrder]
  exact ⟨s,hs,htest,(framed_iff_whole (run_of_smallRun hs) ho htest).mpr (by decide)⟩

/-- Only half of the page is sent. -/
def shortPage : List Event :=
  wholeRequest ++ [.kernel (.execTx 0 [7,0]),.kernel (.postTx 0),.serve]

/-- The write is reaped, and the other half of the page is never sent. -/
theorem short_page_unframed : (∀ e ∈ shortPage, WritesInOrder e) ∧
    (writes shortPage).flatten = [7,0] ∧ ∃ s, Run Consts.small 0 shortPage s ∧
      WritesReaped s ∧ (s.responses.map Consts.small.page).flatten = [7,0,0,0] ∧
      ¬ Framed Consts.small shortPage s := by
  have hrun : yields (smallRun shortPage)
      (fun s => WritesReaped s && s.responses = [7]) = true := by decide +kernel
  obtain ⟨s,hs,htest⟩ := exists_of_yields hrun
  simp only [Bool.and_eq_true,decide_eq_true_eq] at htest
  have hpage : (s.responses.map Consts.small.page).flatten = [7,0,0,0] := by
    rw [htest.2]
    decide +kernel
  refine ⟨by simp [shortPage,wholeRequest,WritesInOrder,KernelEvent.TxInOrder],by decide,
    s,run_of_smallRun hs,htest.1,hpage,?_⟩
  rintro ⟨hflat,-⟩
  rw [hpage] at hflat
  revert hflat
  decide

end Pages

end FastNet.Simple.Server
