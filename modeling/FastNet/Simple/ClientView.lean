import FastNet.Simple.Client

/-! # The client thread without memory

The client's steps over the view of its ring. One iteration moves the two indices
to the edges of their windows and appends the new operations; reaping consumes
the head of the completion queue. The step function of the thread refines this
relation as long as every operation has a buffer of its own.
-/
namespace FastNet.Simple.Client
open Execution

structure View where
  ring : RingView
  phase : Phase
  sendIndex : ℕ
  recvIndex : ℕ
  iterationsReceived : ℕ
  totalReceived : ℕ
  recvs : List (List UInt8)
  stored : Option ℕ

/-- The direction of an operation, by the header of its buffer. -/
def clientKind (h : RequestData) : Option Opcode :=
  match h.eventType with
  | .sendEvent => some .send
  | .recvEvent => some .recv
  | _ => none

variable (K : Consts) (J : Job)

def view (s : State) : View where
  ring := s.proc.view clientKind K.pageLen
  phase := s.phase
  sendIndex := s.sendIndex
  recvIndex := s.recvIndex
  iterationsReceived := s.iterationsReceived
  totalReceived := s.totalReceived
  recvs := s.recvs
  stored := s.stored

/-- Between two events nothing is queued and not submitted. -/
structure Inv (s : State) : Prop where
  proc : Process.Inv K clientKind K.pageLen [] s.proc
  sq : s.proc.ring.sq = []

/-- The send index after an iteration. -/
def View.sendEdge (v : View) : ℕ :=
  max v.sendIndex (min J.numRequests (v.recvIndex + K.ringSize / 4))

/-- The receive index after an iteration. -/
def View.recvEdge (v : View) : ℕ :=
  max v.recvIndex (min (v.sendEdge K J) (v.iterationsReceived + K.ringSize / 2))

/-- The sends up to the given index, with the requests they carry. -/
def View.sent (v : View) (index : ℕ) : View :=
  { v with
    sendIndex := index
    ring := { v.ring with
      tx := v.ring.tx ++ (List.range' v.sendIndex (index - v.sendIndex)).map (request J) } }

/-- The receives up to the given index. -/
def View.posted (v : View) (index : ℕ) : View :=
  { v with
    recvIndex := index
    ring := { v.ring with rx := v.ring.rx + (index - v.recvIndex) } }

/-- The thread's transitions on views. -/
inductive Step : View → Event → View → Prop
  | iterate (v : View) (h : v.phase = .top) :
      Step v .iterate
        { (v.sent J (v.sendEdge K J)).posted (v.recvEdge K J) with phase := .reaping }
  | reapSend (v : View) (res : ℤ) (rest : List Completion) (h : v.phase = .reaping)
      (hcq : v.ring.cq = .tx res :: rest) (hres : 0 ≤ res) :
      Step v .reap { v with ring := v.ring.setCq rest }
  | reapRecv (v : View) (res : ℤ) (data : List UInt8) (rest : List Completion)
      (h : v.phase = .reaping) (hcq : v.ring.cq = .rx res data :: rest) (hres : 0 ≤ res) :
      Step v .reap { v with
        ring := v.ring.setCq rest
        totalReceived := (v.totalReceived + res.toNat) % sizeMod
        iterationsReceived := v.iterationsReceived + 1
        recvs := v.recvs ++ [data] }
  | reapFailed (v : View) (h : v.phase = .reaping)
      (hcq : ∃ res rest, res < 0 ∧
        (v.ring.cq = .tx res :: rest ∨ ∃ data, v.ring.cq = .rx res data :: rest)) :
      Step v .reap { v with phase := .failed }
  | finishLeave (v : View) (h : v.phase = .reaping) (hcq : v.ring.cq = [])
      (hexit : breakCondition K J v.totalReceived v.sendIndex ∨
        ¬ loopCondition J v.sendIndex v.recvIndex) :
      Step v .finish { v with phase := .returned, stored := some v.totalReceived }
  | finishAgain (v : View) (h : v.phase = .reaping) (hcq : v.ring.cq = [])
      (hbreak : ¬ breakCondition K J v.totalReceived v.sendIndex)
      (hloop : loopCondition J v.sendIndex v.recvIndex) :
      Step v .finish { v with phase := .top }
  | kernel (v : View) (e : KernelEvent) (w : RingView) (h : v.phase = .top ∨ v.phase = .reaping)
      (hmove : RingView.Move K.pageLen v.ring e w) : Step v (.kernel e) { v with ring := w }

variable {K J}

section Loops
variable {s t : State}

theorem queueSend_view (hi : Process.Inv K clientKind K.pageLen [] s.proc)
    (h : queueSend J s = .ok t) :
    Process.Inv K clientKind K.pageLen [] t.proc ∧
      t.proc.ring.sq.length = s.proc.ring.sq.length + 1 ∧
      view K t = (view K s).sent J (s.sendIndex + 1) := by
  obtain ⟨P,hP,-,rfl⟩ := bind_ite_ok.mp h
  obtain ⟨hinv,_,hsq,_,_,old,hview⟩ := hi.enqueue_send (by rfl) (by rfl) hP
  refine ⟨hinv,hsq,?_⟩
  have hpay : (Bytes.overlay (request J s.sendIndex) old).take sizeofInt32 =
      request J s.sendIndex := by
    have htake := Bytes.take_overlay (request J s.sendIndex) old
    rwa [request,Bytes.length_int32Bytes] at htake
  rw [hpay] at hview
  simp only [view,View.sent,hview,Nat.add_sub_cancel_left,List.range'_one,List.map_cons,
    List.map_nil]

theorem queueRecv_view (hi : Process.Inv K clientKind K.pageLen [] s.proc)
    (h : queueRecv K J s = .ok t) :
    Process.Inv K clientKind K.pageLen [] t.proc ∧
      t.proc.ring.sq.length = s.proc.ring.sq.length + 1 ∧
      view K t = (view K s).posted (s.recvIndex + 1) := by
  obtain ⟨P,hP,-,rfl⟩ := bind_ite_ok.mp h
  obtain ⟨hinv,_,hsq,_,_,hview⟩ := hi.enqueue_recv (by rfl) (by rfl) hP
  refine ⟨hinv,hsq,?_⟩
  simp only [view,View.posted,hview,Nat.add_sub_cancel_left]

theorem View.sent_self (v : View) : v.sent J v.sendIndex = v := by
  simp [View.sent]

theorem View.posted_self (v : View) : v.posted v.recvIndex = v := by
  simp [View.posted]

theorem View.sent_sent (v : View) {i j : ℕ} (hi : v.sendIndex ≤ i) (hj : i ≤ j) :
    (v.sent J i).sent J j = v.sent J j := by
  have hr := @List.range'_append_1 v.sendIndex (i - v.sendIndex) (j - i)
  have h1 : v.sendIndex + (i - v.sendIndex) = i := by omega
  have h2 : i - v.sendIndex + (j - i) = j - v.sendIndex := by omega
  rw [h1,h2] at hr
  simp only [View.sent,List.append_assoc,← List.map_append,hr]

theorem View.posted_posted (v : View) {i j : ℕ} (hi : v.recvIndex ≤ i) (hj : i ≤ j) :
    (v.posted i).posted j = v.posted j := by
  have h : v.ring.rx + (i - v.recvIndex) + (j - i) = v.ring.rx + (j - v.recvIndex) := by omega
  simp only [View.posted,h]

theorem sendLoop_eq (left : ℕ) (s : State) : sendLoop K J left s =
    loop (fun s => sendGuard K J s.sendIndex s.recvIndex) (queueSend J) left s := by
  induction left generalizing s with
  | zero => rfl
  | succ left ih =>
    simp only [sendLoop,loop]
    congr 2
    funext u
    exact ih u

theorem recvLoop_eq (left : ℕ) (s : State) : recvLoop K J left s =
    loop (fun s => recvGuard K s.sendIndex s.recvIndex s.iterationsReceived) (queueRecv K J) left
      s := by
  induction left generalizing s with
  | zero => rfl
  | succ left ih =>
    simp only [recvLoop,loop]
    congr 2
    funext u
    exact ih u

theorem sendLoop_view {left : ℕ} (hleft : left = J.numRequests - s.sendIndex)
    (hi : Process.Inv K clientKind K.pageLen [] s.proc) (h : sendLoop K J left s = .ok t) :
    Process.Inv K clientKind K.pageLen [] t.proc ∧
      t.proc.ring.sq.length = s.proc.ring.sq.length + (t.sendIndex - s.sendIndex) ∧
      view K t = (view K s).sent J ((view K s).sendEdge K J) := by
  rw [sendLoop_eq] at h
  obtain ⟨⟨hti,htsq,hle,hedge,htv⟩,hg⟩ := loop_exit (P := fun u =>
    Process.Inv K clientKind K.pageLen [] u.proc ∧
      u.proc.ring.sq.length = s.proc.ring.sq.length + (u.sendIndex - s.sendIndex) ∧
      s.sendIndex ≤ u.sendIndex ∧ u.sendIndex ≤ (view K s).sendEdge K J ∧
      view K u = (view K s).sent J u.sendIndex) (fun u => J.numRequests - u.sendIndex)
    (fun u _ hg => Nat.sub_pos_of_lt hg.1) (by
      rintro u v ⟨hui,husq,hle,hedge,huv⟩ ⟨hg1,hg2⟩ hv
      obtain ⟨hvi,hvsq,hvv⟩ := queueSend_view hui hv
      have hvs : v.sendIndex = u.sendIndex + 1 := congrArg View.sendIndex hvv
      have hur : u.recvIndex = s.recvIndex := congrArg View.recvIndex huv
      refine ⟨⟨hvi,by omega,by omega,?_,?_⟩,by omega⟩
      · simp only [View.sendEdge,view]
        omega
      · rw [hvv,huv,hvs]
        exact View.sent_sent _ hle (Nat.le_succ _))
    ⟨hi,by omega,le_rfl,Nat.le_max_left _ _,(View.sent_self _).symm⟩ hleft.ge h
  have htr : t.recvIndex = s.recvIndex := congrArg View.recvIndex htv
  have hts : t.sendIndex = (view K s).sendEdge K J := by
    unfold sendGuard at hg
    simp only [View.sendEdge,view] at hedge ⊢
    omega
  exact ⟨hti,htsq,hts ▸ htv⟩

theorem recvLoop_view {left : ℕ} (hleft : left = s.sendIndex - s.recvIndex)
    (hi : Process.Inv K clientKind K.pageLen [] s.proc) (h : recvLoop K J left s = .ok t) :
    Process.Inv K clientKind K.pageLen [] t.proc ∧
      t.proc.ring.sq.length = s.proc.ring.sq.length + (t.recvIndex - s.recvIndex) ∧
      view K t = (view K s).posted
        (max s.recvIndex (min s.sendIndex (s.iterationsReceived + K.ringSize / 2))) := by
  rw [recvLoop_eq] at h
  obtain ⟨⟨hti,htsq,hle,hedge,htv⟩,hg⟩ := loop_exit (P := fun u =>
    Process.Inv K clientKind K.pageLen [] u.proc ∧
      u.proc.ring.sq.length = s.proc.ring.sq.length + (u.recvIndex - s.recvIndex) ∧
      s.recvIndex ≤ u.recvIndex ∧
      u.recvIndex ≤ max s.recvIndex (min s.sendIndex (s.iterationsReceived + K.ringSize / 2)) ∧
      view K u = (view K s).posted u.recvIndex) (fun u => u.sendIndex - u.recvIndex)
    (fun u _ hg => Nat.sub_pos_of_lt hg.1) (by
      rintro u v ⟨hui,husq,hle,hedge,huv⟩ ⟨hg1,hg2⟩ hv
      obtain ⟨hvi,hvsq,hvv⟩ := queueRecv_view hui hv
      have hvr : v.recvIndex = u.recvIndex + 1 := congrArg View.recvIndex hvv
      have hvs : v.sendIndex = u.sendIndex := congrArg View.sendIndex hvv
      have hus : u.sendIndex = s.sendIndex := congrArg View.sendIndex huv
      have huc : u.iterationsReceived = s.iterationsReceived :=
        congrArg View.iterationsReceived huv
      refine ⟨⟨hvi,by omega,by omega,by omega,?_⟩,by omega⟩
      rw [hvv,huv,hvr]
      exact View.posted_posted _ hle (Nat.le_succ _))
    ⟨hi,by omega,le_rfl,Nat.le_max_left _ _,(View.posted_self _).symm⟩ hleft.ge h
  have hts : t.sendIndex = s.sendIndex := congrArg View.sendIndex htv
  have htc : t.iterationsReceived = s.iterationsReceived := congrArg View.iterationsReceived htv
  have htr : t.recvIndex =
      max s.recvIndex (min s.sendIndex (s.iterationsReceived + K.ringSize / 2)) := by
    unfold recvGuard at hg
    omega
  exact ⟨hti,htsq,htr ▸ htv⟩

end Loops

section Steps
variable {s t : State}

/-- An iteration submits all it queued, so the submission queue is empty again. -/
theorem iterate_view (hi : Inv K s) (hp : s.phase = .top) (h : iterate K J s = .ok t) :
    Inv K t ∧ Step K J (view K s) .iterate (view K t) := by
  obtain ⟨s1,h1,h⟩ := bind_ok.mp h
  obtain ⟨s2,h2,h⟩ := bind_ok.mp h
  obtain ⟨hi1,hsq1,hv1⟩ := sendLoop_view rfl hi.proc h1
  obtain ⟨hi2,hsq2,hv2⟩ := recvLoop_view rfl hi1 h2
  have hsend1 : s1.sendIndex = (view K s).sendEdge K J := congrArg View.sendIndex hv1
  have hrecv1 : s1.recvIndex = s.recvIndex := congrArg View.recvIndex hv1
  have hiter1 : s1.iterationsReceived = s.iterationsReceived :=
    congrArg View.iterationsReceived hv1
  have hsend2 : s2.sendIndex = s1.sendIndex := congrArg View.sendIndex hv2
  rw [hv1,hsend1,hrecv1,hiter1] at hv2
  have hstep := Step.iterate (K := K) (J := J) (view K s) hp
  have hedge : (view K s).recvEdge K J =
      max s.recvIndex (min ((view K s).sendEdge K J) (s.iterationsReceived + K.ringSize / 2)) := rfl
  rw [hedge,← hv2] at hstep
  have h0 : s.proc.ring.sq.length = 0 := by rw [hi.sq]; rfl
  split at h
  · cases h
    refine ⟨⟨hi2.submit.1,rfl⟩,?_⟩
    have heq : view K { s2 with proc := s2.proc.submit, phase := .reaping } =
        { view K s2 with phase := .reaping } := by
      simp only [view,hi2.submit.2]
    rw [heq]
    exact hstep
  · rename_i hd
    cases h
    refine ⟨⟨hi2,List.length_eq_zero_iff.mp ?_⟩,hstep⟩
    change s2.proc.ring.sq.length = 0
    omega

theorem step_iterate (h : step K J s .iterate = .ok t) :
    s.phase = .top ∧ iterate K J s = .ok t := by
  simp only [step] at h
  split at h
  · rename_i hp
    exact ⟨hp,h⟩
  · cases h

theorem step_reap (h : step K J s .reap = .ok t) :
    s.phase = .reaping ∧ ∃ e rest, s.proc.ring.cq = e :: rest ∧ reap K s e rest = .ok t := by
  simp only [step] at h
  split at h
  · rename_i hp
    split at h
    · cases h
    · rename_i e rest hcq
      exact ⟨hp,e,rest,hcq,h⟩
  · cases h

theorem step_finish (h : step K J s .finish = .ok t) :
    s.phase = .reaping ∧ s.proc.ring.cq = [] ∧ t = finish K J s := by
  simp only [step] at h
  split at h
  · rename_i hp
    cases h
    exact ⟨hp.1,hp.2,rfl⟩
  · cases h

theorem step_kernel {e : KernelEvent} (h : step K J s (.kernel e) = .ok t) :
    (s.phase = .top ∨ s.phase = .reaping) ∧
      ∃ P, s.proc.kernel e = .ok P ∧ t = { s with proc := P } := by
  simp only [step] at h
  split at h
  · rename_i hp
    obtain ⟨P,hP,h⟩ := bind_ok.mp h
    cases h
    exact ⟨hp,P,hP,rfl⟩
  · cases h

/-- An error ends the loop; otherwise the buffer goes back to the pool, and a page is
counted and kept. -/
theorem reap_cases (hi : Process.Inv K clientKind K.pageLen [] s.proc) {e : Cqe} {rest : List Cqe}
    (hcq : s.proc.ring.cq = e :: rest) (h : reap K s e rest = .ok t) :
    e.res < 0 ∧ t = { s with phase := .failed } ∨
      0 ≤ e.res ∧ ∃ P,
        ((s.proc.seen rest).setHeader e.userData
          ((s.proc.mem.header e.userData).setOffset e.res)).release e.userData
            (K.bufferFor (s.proc.mem.header e.userData).eventType) = .ok P ∧
        ((s.proc.mem.header e.userData).eventType = .sendEvent ∧ t = { s with proc := P } ∨
          (s.proc.mem.header e.userData).eventType = .recvEvent ∧ t = { s with
            proc := P
            totalReceived := (s.totalReceived + e.res.toNat) % sizeMod
            iterationsReceived := s.iterationsReceived + 1
            recvs := s.recvs ++ [(s.proc.mem.bytes e.userData).take K.pageLen] }) := by
  have hsome := hi.typed.cq e (by rw [hcq]; exact List.mem_cons_self)
  unfold reap at h
  dsimp only at h
  split at h
  · rename_i hneg
    cases h
    exact Or.inl ⟨hneg,rfl⟩
  · rename_i hpos
    refine Or.inr ⟨by omega,?_⟩
    cases htype : (s.proc.mem.header e.userData).eventType with
    | readEvent => simp [clientKind,htype] at hsome
    | writeEvent => simp [clientKind,htype] at hsome
    | sendEvent =>
      rw [htype] at h
      obtain ⟨P,hP,h⟩ := bind_ok.mp h
      cases h
      exact ⟨P,hP,Or.inl ⟨rfl,rfl⟩⟩
    | recvEvent =>
      rw [htype] at h
      dsimp only at h
      split at h
      · obtain ⟨P,hP,h⟩ := bind_ok.mp h
        cases h
        exact ⟨P,hP,Or.inr ⟨rfl,rfl⟩⟩
      · cases h

theorem reap_view (hi : Inv K s) (hp : s.phase = .reaping) {e : Cqe} {rest : List Cqe}
    (hcq : s.proc.ring.cq = e :: rest) (h : reap K s e rest = .ok t) :
    Inv K t ∧ Step K J (view K s) .reap (view K t) := by
  obtain ⟨hheld,hnew,hvcq,hvseen⟩ := hi.proc.seen hcq
  rcases reap_cases hi.proc hcq h with ⟨hneg,rfl⟩ | ⟨hpos,P,hP,hcase⟩
  · refine ⟨⟨hi.proc,hi.sq⟩,Step.reapFailed (view K s) hp
      ⟨e.res,((s.proc.seen rest).view clientKind K.pageLen).cq,hneg,?_⟩⟩
    unfold Ring.completion at hvcq
    split at hvcq
    · exact Or.inl hvcq
    · exact Or.inr ⟨_,hvcq⟩
  · obtain ⟨hset,hvset⟩ := hheld.setHeader hnew ((s.proc.mem.header e.userData).setOffset e.res)
    obtain ⟨hinv,hring,hview⟩ := hset.release hP
    have hsq : P.ring.sq = [] := by
      rw [hring]
      exact hi.sq
    rcases hcase with ⟨htype,rfl⟩ | ⟨htype,rfl⟩
    · have hk : clientKind (s.proc.mem.header e.userData) = some .send := by
        simp [clientKind,htype]
      rw [Ring.completion,if_pos hk] at hvcq
      have hstep := Step.reapSend (K := K) (J := J) (view K s) e.res _ hp hvcq hpos
      refine ⟨⟨hinv,hsq⟩,?_⟩
      simp only [view,hview.trans (hvset.trans hvseen)]
      exact hstep
    · have hk : ¬ clientKind (s.proc.mem.header e.userData) = some .send := by
        simp [clientKind,htype]
      rw [Ring.completion,if_neg hk] at hvcq
      have hstep := Step.reapRecv (K := K) (J := J) (view K s) e.res _ _ hp hvcq hpos
      refine ⟨⟨hinv,hsq⟩,?_⟩
      simp only [view,hview.trans (hvset.trans hvseen)]
      exact hstep

theorem finish_view (hp : s.phase = .reaping) (hcq : s.proc.ring.cq = []) :
    Step K J (view K s) .finish (view K (finish K J s)) := by
  have hv : (view K s).ring.cq = [] := by simp [view,Process.view,Ring.view,hcq]
  unfold finish testLoop
  split
  · rename_i hb
    exact Step.finishLeave _ hp hv (Or.inl hb)
  · rename_i hb
    split
    · rename_i hl
      exact Step.finishAgain _ hp hv hb hl
    · rename_i hl
      exact Step.finishLeave _ hp hv (Or.inr hl)

theorem finish_proc (s : State) : (finish K J s).proc = s.proc := by
  unfold finish testLoop leave
  split
  · rfl
  · split <;> rfl

theorem step_view {e : Event} (hi : Inv K s) (h : step K J s e = .ok t) :
    Inv K t ∧ Step K J (view K s) e (view K t) := by
  cases e with
  | iterate =>
    obtain ⟨hp,h⟩ := step_iterate h
    exact iterate_view hi hp h
  | reap =>
    obtain ⟨hp,e,rest,hcq,h⟩ := step_reap h
    exact reap_view hi hp hcq h
  | finish =>
    obtain ⟨hp,hcq,rfl⟩ := step_finish h
    refine ⟨⟨?_,?_⟩,finish_view hp hcq⟩
    · rw [finish_proc]
      exact hi.proc
    · rw [finish_proc]
      exact hi.sq
  | kernel e =>
    obtain ⟨hp,P,hP,rfl⟩ := step_kernel h
    obtain ⟨hinv,hsq,_,hmove⟩ := hi.proc.kernel hP
    exact ⟨⟨hinv,by rw [hsq]; exact hi.sq⟩,Step.kernel (view K s) e _ hp hmove⟩

end Steps

variable (K J) in
theorem refines : Refines (step K J) (Step K J) (view K) (Inv K) where
  kept _ _ _ hi h := (step_view hi h).1
  matched _ _ _ hi h := (step_view hi h).2

variable (J) in
/-- The view in which the loop is first tested. -/
def View.start : View where
  ring := ⟨[],[],0,[],[]⟩
  phase := if loopCondition J 0 0 then .top else .returned
  sendIndex := 0
  recvIndex := 0
  iterationsReceived := 0
  totalReceived := 0
  recvs := []
  stored := if loopCondition J 0 0 then none else some 0

theorem start_view {header : Addr → RequestData} {bytes : Addr → List UInt8}
    {supply : ℕ → Block RequestData} {s : State} (h : start K J header bytes supply = .ok s) :
    Inv K s ∧ view K s = View.start J ∧ s.proc.ring = .queueInit K.ringSize := by
  obtain ⟨⟨pool,mem⟩,hc,h⟩ := bind_ok.mp h
  have hown := BufferPool.owned_construct hc
  have hproc : Process.Inv K clientKind K.pageLen []
      ⟨mem,pool,.queueInit K.ringSize⟩ := ⟨Ring.typed_queueInit _,hown⟩
  cases h
  unfold testLoop View.start
  split
  · exact ⟨⟨hproc,rfl⟩,by simp [view,Process.view,Ring.view_queueInit],rfl⟩
  · exact ⟨⟨hproc,rfl⟩,by simp [view,leave,Process.view,Ring.view_queueInit],rfl⟩

/-- How the three counters of the thread and its outstanding receives add up. -/
structure Counts (K : Consts) (J : Job) (v : View) : Prop where
  recvs : v.recvIndex = v.iterationsReceived + v.ring.recvs
  recv_le : v.recvIndex ≤ v.sendIndex
  send_le : v.sendIndex ≤ J.numRequests
  send_window : v.sendIndex ≤ v.recvIndex + K.ringSize / 4
  recv_window : v.recvIndex ≤ v.iterationsReceived + K.ringSize / 2
  reaped : v.recvs.length = v.iterationsReceived

theorem View.le_sendEdge (v : View) : v.sendIndex ≤ v.sendEdge K J := Nat.le_max_left _ _

theorem View.le_recvEdge (v : View) : v.recvIndex ≤ v.recvEdge K J := Nat.le_max_left _ _

theorem View.posted_recvs (v : View) {i : ℕ} (h : v.recvIndex ≤ i) :
    (v.posted i).ring.recvs + v.recvIndex = v.ring.recvs + i := by
  simp only [View.posted,RingView.recvs]
  omega

theorem Counts.step {v w : View} {e : Event} (hv : Counts K J v) (h : Step K J v e w) :
    Counts K J w := by
  have hrecvs := hv.recvs
  have hrecv := hv.recv_le
  have hsend := hv.send_le
  have hsendw := hv.send_window
  have hrecvw := hv.recv_window
  have hreaped := hv.reaped
  cases h with
  | iterate h =>
    have hs := v.le_sendEdge (K := K) (J := J)
    have hr := v.le_recvEdge (K := K) (J := J)
    have hcount := (v.sent J (v.sendEdge K J)).posted_recvs hr
    have hsame : (v.sent J (v.sendEdge K J)).ring.recvs = v.ring.recvs := rfl
    have hindex : (v.sent J (v.sendEdge K J)).recvIndex = v.recvIndex := rfl
    refine ⟨?_,?_,?_,?_,?_,hreaped⟩
    · change v.recvEdge K J = v.iterationsReceived +
        ((v.sent J (v.sendEdge K J)).posted (v.recvEdge K J)).ring.recvs
      omega
    · change v.recvEdge K J ≤ v.sendEdge K J
      unfold View.recvEdge
      omega
    · change v.sendEdge K J ≤ J.numRequests
      unfold View.sendEdge
      omega
    · change v.sendEdge K J ≤ v.recvEdge K J + K.ringSize / 4
      have hsend_def : v.sendEdge K J =
          max v.sendIndex (min J.numRequests (v.recvIndex + K.ringSize / 4)) := rfl
      omega
    · change v.recvEdge K J ≤ v.iterationsReceived + K.ringSize / 2
      unfold View.recvEdge
      omega
  | reapSend res rest h hcq hres =>
    exact ⟨hrecvs.trans (congrArg _ (RingView.reap_tx hcq).1),hrecv,hsend,hsendw,hrecvw,hreaped⟩
  | reapRecv res data rest h hcq hres =>
    refine ⟨?_,hrecv,hsend,hsendw,hrecvw.trans (by simp),by simp [hreaped]⟩
    have hreap := (RingView.reap_rx hcq).1
    change v.recvIndex = v.iterationsReceived + 1 + (v.ring.setCq rest).recvs
    omega
  | reapFailed h hcq => exact ⟨hrecvs,hrecv,hsend,hsendw,hrecvw,hreaped⟩
  | finishLeave h hcq hexit => exact ⟨hrecvs,hrecv,hsend,hsendw,hrecvw,hreaped⟩
  | finishAgain h hcq hbreak hloop => exact ⟨hrecvs,hrecv,hsend,hsendw,hrecvw,hreaped⟩
  | kernel e w h hmove =>
    refine ⟨?_,hrecv,hsend,hsendw,hrecvw,hreaped⟩
    rw [hmove.count.2]
    exact hrecvs

variable (K J) in
theorem Counts.start : Counts K J (View.start J) :=
  ⟨rfl,Nat.zero_le _,Nat.zero_le _,Nat.zero_le _,Nat.zero_le _,rfl⟩

theorem Run.path {es : List Event} {s : State} (h : Run K J es s) :
    Inv K s ∧ Path (Step K J) (View.start J) es (view K s) := by
  obtain ⟨header,bytes,supply,s0,h0,hrun⟩ := h
  obtain ⟨hi,hv,_⟩ := start_view h0
  exact ⟨(refines K J).invariant hrun hi,hv ▸ (refines K J).path hrun hi⟩

end FastNet.Simple.Client
