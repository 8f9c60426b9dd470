import FastNet.Simple.Server

/-! # The event loop without memory

The server's steps over the view of its ring. A completed read adds the page of
the number it carries to the writes and posts the read again; the bytes a reused
buffer held before do not show. The step function of the loop refines this
relation as long as every operation has a buffer of its own.
-/
namespace FastNet.Simple.Server
open Execution

structure View where
  ring : RingView
  phase : Phase
  handled : ℕ
  responses : List ℤ

/-- The direction of an operation, by the header of its buffer. -/
def serverKind (h : RequestData) : Option Opcode :=
  match h.eventType with
  | .writeEvent => some .send
  | .readEvent => some .recv
  | _ => none

def view (s : State) : View where
  ring := s.proc.view serverKind sizeofInt32
  phase := s.phase
  handled := s.handled
  responses := s.responses

variable (K : Consts) (clientNum : ℕ)

/-- Between two events nothing is queued and not submitted. -/
structure Inv (s : State) : Prop where
  proc : Process.Inv K serverKind sizeofInt32 [] s.proc
  sq : s.proc.ring.sq = []

/-- The ring once the read at the head of the queue is answered. -/
def answered (v : RingView) (rest : List Completion) (x : ℤ) : RingView :=
  { v.setCq rest with tx := v.tx ++ [K.page x], rx := v.rx + 1 }

theorem answered_count {v : RingView} {res : ℤ} {data : List UInt8} {rest : List Completion}
    (h : v.cq = .rx res data :: rest) (x : ℤ) :
    (answered K v rest x).sends = v.sends + 1 ∧ (answered K v rest x).recvs = v.recvs := by
  have hreap := RingView.reap_rx h
  simp only [RingView.sends,RingView.recvs,RingView.setCq,answered,List.length_append,
    List.length_singleton] at hreap ⊢
  omega

/-- The loop's transitions on views. -/
inductive Step : View → Event → View → Prop
  | read (v : View) (res : ℤ) (data : List UInt8) (rest : List Completion)
      (h : v.phase = .running) (hcq : v.ring.cq = .rx res data :: rest) (hres : res ≠ 0) :
      Step v .serve { v with
        ring := answered K v.ring rest (Bytes.int32OfBytes data)
        handled := v.handled + 1
        responses := v.responses ++ [Bytes.int32OfBytes data] }
  | closed (v : View) (data : List UInt8) (rest : List Completion) (h : v.phase = .running)
      (hcq : v.ring.cq = .rx 0 data :: rest) : Step v .serve { v with phase := .closed }
  | written (v : View) (res : ℤ) (rest : List Completion) (h : v.phase = .running)
      (hcq : v.ring.cq = .tx res :: rest) : Step v .serve { v with ring := v.ring.setCq rest }
  | kernel (v : View) (e : KernelEvent) (w : RingView) (h : v.phase = .running)
      (hmove : RingView.Move sizeofInt32 v.ring e w) : Step v (.kernel e) { v with ring := w }

variable {K clientNum} {s t : State}

/-- A completion in the queue has a buffer, which is not the null pointer. -/
theorem userData_ne_null (hi : Inv K s) {e : Cqe} {rest : List Cqe}
    (hcq : s.proc.ring.cq = e :: rest) : e.userData ≠ nullptr := by
  have hown := (hi.proc.seen hcq).1.owned.held_live List.mem_cons_self
  rintro hnull
  rw [hnull] at hown
  exact (List.nodup_cons.mp s.proc.mem.live_nodup).1 hown

theorem respond_view (hi : Inv K s) (hp : s.phase = .running) {e : Cqe} {rest : List Cqe}
    (hcq : s.proc.ring.cq = e :: rest)
    (htype : (s.proc.mem.header e.userData).eventType = .readEvent) (hres : e.res ≠ 0)
    (h : respond K clientNum s e rest = .ok t) :
    Inv K t ∧ Step K (view s) .serve (view t) := by
  obtain ⟨hheld,-,hvcq,hvseen⟩ := hi.proc.seen hcq
  have hk : ¬ serverKind (s.proc.mem.header e.userData) = some .send := by
    simp [serverKind,htype]
  rw [Ring.completion,if_neg hk] at hvcq
  rw [htype] at hheld
  obtain ⟨P,hP,h⟩ := bind_ok.mp h
  obtain ⟨P',hP',h⟩ := bind_ok.mp h
  cases h
  obtain ⟨hinv,-,-,-,-,old,hview⟩ := hheld.enqueue_send (by rfl) (by rfl) hP
  obtain ⟨hinv',-,-,-,-,hview'⟩ := Process.Inv.requeue_recv hinv (by rfl) (by rfl) hP'
  obtain ⟨hsub,hvsub⟩ := hinv'.submit
  refine ⟨⟨hsub,rfl⟩,?_⟩
  have hstep := Step.read (K := K) (view s) e.res _ _ hp hvcq hres
  rw [take_fillPage] at hview
  have hring : (P'.submit).view serverKind sizeofInt32 =
      answered K (s.proc.view serverKind sizeofInt32)
        ((s.proc.seen rest).view serverKind sizeofInt32).cq
        (Bytes.int32OfBytes ((s.proc.mem.bytes e.userData).take sizeofInt32)) := by
    rw [hvsub,hview',hview]
    rfl
  simp only [view,hring]
  exact hstep

theorem step_serve (h : step K clientNum s .serve = .ok t) :
    s.phase = .running ∧
      ∃ e rest, s.proc.ring.cq = e :: rest ∧ serve K clientNum s e rest = .ok t := by
  simp only [step] at h
  split at h
  · rename_i hp
    split at h
    · cases h
    · rename_i e rest hcq
      exact ⟨hp,e,rest,hcq,h⟩
  · cases h

theorem step_kernel {e : KernelEvent} (h : step K clientNum s (.kernel e) = .ok t) :
    s.phase = .running ∧ ∃ P, s.proc.kernel e = .ok P ∧ t = { s with proc := P } := by
  simp only [step] at h
  split at h
  · rename_i hp
    obtain ⟨P,hP,h⟩ := bind_ok.mp h
    cases h
    exact ⟨hp,P,hP,rfl⟩
  · cases h

/-- A read of nothing ends the loop, any other one is answered; a page that is written
gives its buffer back. -/
theorem serve_cases (hi : Inv K s) {e : Cqe} {rest : List Cqe} (hcq : s.proc.ring.cq = e :: rest)
    (h : serve K clientNum s e rest = .ok t) :
    (s.proc.mem.header e.userData).eventType = .readEvent ∧
        (e.res = 0 ∧ t = { s with phase := .closed } ∨
          e.res ≠ 0 ∧ respond K clientNum s e rest = .ok t) ∨
      (s.proc.mem.header e.userData).eventType = .writeEvent ∧
        ∃ P, (s.proc.seen rest).release e.userData K.pageBuffer = .ok P ∧
          t = { s with proc := P } := by
  have hsome := hi.proc.typed.cq e (by rw [hcq]; exact List.mem_cons_self)
  unfold serve at h
  dsimp only at h
  rw [if_neg (userData_ne_null hi hcq)] at h
  cases htype : (s.proc.mem.header e.userData).eventType with
  | sendEvent => simp [serverKind,htype] at hsome
  | recvEvent => simp [serverKind,htype] at hsome
  | readEvent =>
    simp only [htype] at h
    split at h
    · rename_i hzero
      cases h
      exact Or.inl ⟨rfl,Or.inl ⟨hzero,rfl⟩⟩
    · rename_i hres
      exact Or.inl ⟨rfl,Or.inr ⟨hres,h⟩⟩
  | writeEvent =>
    simp only [htype] at h
    obtain ⟨P,hP,h⟩ := bind_ok.mp h
    cases h
    exact Or.inr ⟨rfl,P,hP,rfl⟩

theorem serve_view (hi : Inv K s) (hp : s.phase = .running) {e : Cqe} {rest : List Cqe}
    (hcq : s.proc.ring.cq = e :: rest) (h : serve K clientNum s e rest = .ok t) :
    Inv K t ∧ Step K (view s) .serve (view t) := by
  obtain ⟨hheld,-,hvcq,hvseen⟩ := hi.proc.seen hcq
  rcases serve_cases hi hcq h with ⟨htype,⟨hzero,rfl⟩ | ⟨hres,h⟩⟩ | ⟨htype,P,hP,rfl⟩
  · have hk : ¬ serverKind (s.proc.mem.header e.userData) = some .send := by
      simp [serverKind,htype]
    rw [Ring.completion,if_neg hk,hzero] at hvcq
    exact ⟨⟨hi.proc,hi.sq⟩,Step.closed (view s) _ _ hp hvcq⟩
  · exact respond_view hi hp hcq htype hres h
  · rw [htype] at hheld
    obtain ⟨hinv,hring,hview⟩ := hheld.release hP
    refine ⟨⟨hinv,by rw [hring]; exact hi.sq⟩,?_⟩
    have hk : serverKind (s.proc.mem.header e.userData) = some .send := by
      simp [serverKind,htype]
    rw [Ring.completion,if_pos hk] at hvcq
    have hstep := Step.written (K := K) (view s) e.res _ hp hvcq
    simp only [view,hview.trans hvseen]
    exact hstep

theorem step_view {e : Event} (hi : Inv K s) (h : step K clientNum s e = .ok t) :
    Inv K t ∧ Step K (view s) e (view t) := by
  cases e with
  | serve =>
    obtain ⟨hp,e,rest,hcq,h⟩ := step_serve h
    exact serve_view hi hp hcq h
  | kernel e =>
    obtain ⟨hp,P,hP,rfl⟩ := step_kernel h
    obtain ⟨hinv,hsq,_,hmove⟩ := hi.proc.kernel hP
    exact ⟨⟨hinv,by rw [hsq]; exact hi.sq⟩,Step.kernel (view s) e _ hp hmove⟩

variable (K clientNum) in
theorem refines : Refines (step K clientNum) (Step K) view (Inv K) where
  kept _ _ _ hi h := (step_view hi h).1
  matched _ _ _ hi h := (step_view hi h).2

theorem postReads_view {count : ℕ} (hi : Process.Inv K serverKind sizeofInt32 [] s.proc)
    (h : postReads K clientNum count s = .ok t) :
    Process.Inv K serverKind sizeofInt32 [] t.proc ∧ t.phase = s.phase ∧
      t.handled = s.handled ∧ t.responses = s.responses ∧ t.proc.view serverKind sizeofInt32 =
        { s.proc.view serverKind sizeofInt32 with
          rx := (s.proc.view serverKind sizeofInt32).rx + count } := by
  induction count generalizing s with
  | zero =>
    obtain rfl : s = t := Except.ok.inj h
    exact ⟨hi,rfl,rfl,rfl,rfl⟩
  | succ count ih =>
    obtain ⟨P,hP,h⟩ := bind_ok.mp h
    obtain ⟨hinv,-,-,-,-,hview⟩ := hi.enqueue_recv (by rfl) (by rfl) hP
    obtain ⟨hinv',hphase,hhandled,hresp,hview'⟩ := ih hinv h
    refine ⟨hinv',hphase,hhandled,hresp,?_⟩
    rw [hview',hview]
    simp only [Nat.add_assoc,Nat.add_comm 1 count]

variable (K) in
/-- The view at the head of the loop: a quarter of the ring is posted as reads. -/
def View.start : View where
  ring := ⟨[],[],K.ringSize / 4,[],[]⟩
  phase := .running
  handled := 0
  responses := []

theorem start_view {header : Addr → RequestData} {bytes : Addr → List UInt8}
    {supply : ℕ → Block RequestData} (h : start K clientNum header bytes supply = .ok s) :
    Inv K s ∧ view s = View.start K := by
  obtain ⟨⟨pool,mem⟩,hc,h⟩ := bind_ok.mp h
  obtain ⟨u,hu,h⟩ := bind_ok.mp h
  have hown := BufferPool.owned_construct hc
  have hproc : Process.Inv K serverKind sizeofInt32 []
      ⟨mem,pool,.queueInit K.ringSize⟩ := ⟨Ring.typed_queueInit _,hown⟩
  obtain ⟨hinv,hphase,hhandled,hresp,hview⟩ := postReads_view hproc hu
  obtain ⟨hsub,hvsub⟩ := hinv.submit
  cases h
  refine ⟨⟨hsub,rfl⟩,?_⟩
  have hinit : (⟨mem,pool,.queueInit K.ringSize⟩ : Process).view serverKind sizeofInt32 =
      ⟨[],[],0,[],[]⟩ := Ring.view_queueInit _
  simp only [view,View.start,hvsub,hview,hinit,hphase,hhandled,hresp,Nat.zero_add]

/-- Each answered read is posted again, so their number never changes. -/
theorem recvs_of_step {v w : View} {e : Event} (h : Step K v e w) : w.ring.recvs = v.ring.recvs := by
  cases h with
  | read res data rest hp hcq hres => exact (answered_count K hcq _).2
  | closed data rest hp hcq => rfl
  | written res rest hp hcq => exact (RingView.reap_tx hcq).1.symm
  | kernel e w hp hmove => exact hmove.count.2

theorem Run.path {es : List Event} (h : Run K clientNum es s) :
    Inv K s ∧ Path (Step K) (View.start K) es (view s) := by
  obtain ⟨header,bytes,supply,s0,h0,hrun⟩ := h
  obtain ⟨hi,hv⟩ := start_view h0
  exact ⟨(refines K clientNum).invariant hrun hi,hv ▸ (refines K clientNum).path hrun hi⟩

end FastNet.Simple.Server
