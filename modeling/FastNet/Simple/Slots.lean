import FastNet.Foundation.Precedence
import FastNet.Simple.ClientReturn

/-! # The windows of the client thread and its ring

The two inner loops queue at most a quarter and a half of the ring before the
submission, so a submission entry is always free and no other fault of the thread
is possible. When a send completes before the receive of its response does, the
unreaped sends are bounded by the two windows too, and the completion queue has
room for everything unreaped.
-/
namespace FastNet.Simple.Client
open Execution
variable {K : Consts} {J : Job} {s s1 t u : State} {es : List Event}

/-- The counters of the thread keep their order and their windows. -/
structure Bounds (K : Consts) (J : Job) (s : State) : Prop where
  received_le : s.iterationsReceived ≤ s.recvIndex
  recv_le : s.recvIndex ≤ s.sendIndex
  send_le : s.sendIndex ≤ J.numRequests
  send_window : s.sendIndex - s.recvIndex ≤ K.ringSize / 4
  recv_window : s.recvIndex - s.iterationsReceived ≤ K.ringSize / 2

theorem Counts.bounds (h : Counts K J (view K s)) : Bounds K J s where
  received_le := by
    have hr := h.recvs
    simp only [view] at hr
    omega
  recv_le := h.recv_le
  send_le := h.send_le
  send_window := Nat.sub_le_iff_le_add'.mpr h.send_window
  recv_window := Nat.sub_le_iff_le_add'.mpr h.recv_window

section Loops

theorem queueSend_ok (h : queueSend J s = .ok t) :
    t.sendIndex = s.sendIndex + 1 ∧ t.recvIndex = s.recvIndex ∧
      t.iterationsReceived = s.iterationsReceived ∧
      (∃ q, t.proc.ring = { s.proc.ring with sq := s.proc.ring.sq ++ [q] }) ∧
      ∀ n, s.proc.mem.Supplies (n + 1) → t.proc.mem.Supplies n := by
  obtain ⟨P,hP,-,rfl⟩ := bind_ite_ok.mp h
  obtain ⟨req,hring⟩ := Process.enqueue_ring hP
  exact ⟨rfl,rfl,rfl,⟨_,hring⟩,fun n => Process.enqueue_supplies hP⟩

theorem queueRecv_ok (h : queueRecv K J s = .ok t) :
    t.sendIndex = s.sendIndex ∧ t.recvIndex = s.recvIndex + 1 ∧
      t.iterationsReceived = s.iterationsReceived ∧
      (∃ q, t.proc.ring = { s.proc.ring with sq := s.proc.ring.sq ++ [q] }) ∧
      ∀ n, s.proc.mem.Supplies (n + 1) → t.proc.mem.Supplies n := by
  obtain ⟨P,hP,-,rfl⟩ := bind_ite_ok.mp h
  obtain ⟨req,hring⟩ := Process.enqueue_ring hP
  exact ⟨rfl,rfl,rfl,⟨_,hring⟩,fun n => Process.enqueue_supplies hP⟩

theorem queueSend_error {why : Stop} (h : queueSend J s = .error why) :
    why = .mallocLive ∧ ¬ s.proc.mem.Supplies 1 ∨
      why = .nullSqe ∧ ¬ s.proc.ring.sq.length < s.proc.ring.sqEntries ∨
      why = .intOverflow ∧ ¬ s.sendIndex < intMax := by
  rcases bind_ite_error h with h | ⟨hint,rfl⟩
  · exact (Process.enqueue_error h).imp_right Or.inl
  · exact Or.inr (Or.inr ⟨rfl,hint⟩)

theorem queueRecv_error {why : Stop} (h : queueRecv K J s = .error why) :
    why = .mallocLive ∧ ¬ s.proc.mem.Supplies 1 ∨
      why = .nullSqe ∧ ¬ s.proc.ring.sq.length < s.proc.ring.sqEntries ∨
      why = .intOverflow ∧ ¬ s.recvIndex < intMax := by
  rcases bind_ite_error h with h | ⟨hint,rfl⟩
  · exact (Process.enqueue_error h).imp_right Or.inl
  · exact Or.inr (Or.inr ⟨rfl,hint⟩)

/-- Inside an iteration: the bounds, the size of the ring, what is submitted, at most
`queued` entries, and `supply` calls of `malloc` that keep its contract, less one for
each entry. -/
structure Room (K : Consts) (J : Job) (unreaped supply queued : ℕ) (s : State) : Prop where
  bounds : Bounds K J s
  entries : s.proc.ring.sqEntries = Ring.roundUp K.ringSize
  unreaped : s.proc.ring.unreaped = unreaped
  queued : s.proc.ring.sq.length ≤ queued
  supplied : s.proc.mem.Supplies (supply - s.proc.ring.sq.length)

/-- One more entry is queued. -/
theorem Room.queue {n supply m k : ℕ} {q : Sqe} (h : Room K J n supply m s) (hb : Bounds K J t)
    (hring : t.proc.ring = { s.proc.ring with sq := s.proc.ring.sq ++ [q] })
    (hmem : ∀ n, s.proc.mem.Supplies (n + 1) → t.proc.mem.Supplies n) (hk : m + 1 ≤ k) :
    Room K J n supply k t := by
  have hqueued := h.queued
  have hlen : t.proc.ring.sq.length = s.proc.ring.sq.length + 1 := by rw [hring]; simp
  refine ⟨hb,?_,?_,by omega,?_⟩
  · rw [hring]
    exact h.entries
  · rw [hring]
    exact h.unreaped
  · rw [hlen]
    by_cases hlt : s.proc.ring.sq.length < supply
    · apply hmem
      have hone : supply - (s.proc.ring.sq.length + 1) + 1 = supply - s.proc.ring.sq.length := by
        omega
      exact hone ▸ h.supplied
    · have hzero : supply - (s.proc.ring.sq.length + 1) = 0 := by omega
      exact hzero ▸ t.proc.mem.supplies_zero

/-- A broken contract of `malloc` shows that fewer calls were promised. -/
theorem Room.short {n supply m : ℕ} (h : Room K J n supply m s)
    (hmem : ¬ s.proc.mem.Supplies 1) (hm : m < K.ringSize) : supply < K.ringSize := by
  by_contra hge
  have hqueued := h.queued
  exact hmem (h.supplied.mono (by omega))

/-- In the send loop the entries queued are sends without a receive. -/
theorem sendLoop_room (hn : J.numRequests ≤ intMax) {n supply left : ℕ}
    (hs : Room K J n supply (s.sendIndex - s.recvIndex) s) :
    (∀ t, sendLoop K J left s = .ok t → Room K J n supply (t.sendIndex - t.recvIndex) t) ∧
      ∀ why, sendLoop K J left s = .error why → why = .mallocLive ∧ supply < K.ringSize := by
  simp only [sendLoop_eq]
  apply loop_rule (P := fun s => Room K J n supply (s.sendIndex - s.recvIndex) s) _ _ hs
  · rintro s t hroom ⟨hg1,hg2⟩ h
    obtain ⟨hb1,hb2,hb3,hb4,hb5⟩ := hroom.bounds
    obtain ⟨hsend,hrecv,hiter,⟨q,hring⟩,hmem⟩ := queueSend_ok h
    have hbounds : Bounds K J t := ⟨by omega,by omega,by omega,by omega,by omega⟩
    exact hroom.queue hbounds hring hmem (by omega)
  · rintro s why hroom ⟨hg1,hg2⟩ h
    have hle := Ring.le_roundUp K.ringSize
    obtain ⟨hb1,hb2,hb3,hb4,hb5⟩ := hroom.bounds
    have hentries := hroom.entries
    have hqueued := hroom.queued
    rcases queueSend_error h with ⟨hwhy,hmem⟩ | ⟨-,hfull⟩ | ⟨-,hint⟩
    · exact ⟨hwhy,hroom.short hmem (by omega)⟩
    · omega
    · omega

/-- In the receive loop they are at most the send window and the receives. -/
theorem recvLoop_room (hn : J.numRequests ≤ intMax) {n supply left : ℕ}
    (hs : Room K J n supply (K.ringSize / 4 + (s.recvIndex - s.iterationsReceived)) s) :
    (∀ t, recvLoop K J left s = .ok t →
      Room K J n supply (K.ringSize / 4 + (t.recvIndex - t.iterationsReceived)) t) ∧
      ∀ why, recvLoop K J left s = .error why → why = .mallocLive ∧ supply < K.ringSize := by
  simp only [recvLoop_eq]
  apply loop_rule (P := fun s =>
    Room K J n supply (K.ringSize / 4 + (s.recvIndex - s.iterationsReceived)) s) _ _ hs
  · rintro s t hroom ⟨hg1,hg2⟩ h
    obtain ⟨hb1,hb2,hb3,hb4,hb5⟩ := hroom.bounds
    obtain ⟨hsend,hrecv,hiter,⟨q,hring⟩,hmem⟩ := queueRecv_ok h
    have hbounds : Bounds K J t := ⟨by omega,by omega,by omega,by omega,by omega⟩
    exact hroom.queue hbounds hring hmem (by omega)
  · rintro s why hroom ⟨hg1,hg2⟩ h
    have hle := Ring.le_roundUp K.ringSize
    obtain ⟨hb1,hb2,hb3,hb4,hb5⟩ := hroom.bounds
    have hentries := hroom.entries
    have hqueued := hroom.queued
    rcases queueRecv_error h with ⟨hwhy,hmem⟩ | ⟨-,hfull⟩ | ⟨-,hint⟩
    · exact ⟨hwhy,hroom.short hmem (by omega)⟩
    · omega
    · omega

/-- Between the loops nothing changes but the reading of the bound. -/
theorem Room.sent {n supply : ℕ} (h : Room K J n supply (s.sendIndex - s.recvIndex) s) :
    Room K J n supply (K.ringSize / 4 + (s.recvIndex - s.iterationsReceived)) s where
  bounds := h.bounds
  entries := h.entries
  unreaped := h.unreaped
  queued := by have hw := h.bounds.send_window; have hq := h.queued; omega
  supplied := h.supplied

end Loops

/-- What holds between events besides the counts: nothing queued, and the number of
entries the ring was created with. -/
structure Ready (K : Consts) (J : Job) (s : State) : Prop where
  inv : Inv K s
  counts : Counts K J (view K s)
  entries : s.proc.ring.sqEntries = Ring.roundUp K.ringSize

theorem Ready.room (h : Ready K J s) {supply : ℕ} (hmem : s.proc.mem.Supplies supply) :
    Room K J s.proc.ring.unreaped supply (s.sendIndex - s.recvIndex) s where
  bounds := h.counts.bounds
  entries := h.entries
  unreaped := rfl
  queued := by rw [h.inv.sq]; exact Nat.zero_le _
  supplied := hmem.mono (Nat.sub_le _ _)

/-- An iteration fails only when the allocator breaks its contract. -/
theorem Ready.iterate_error (hs : Ready K J s) (hn : J.numRequests ≤ intMax) {supply : ℕ}
    (hmem : s.proc.mem.Supplies supply) {why : Stop} (h : iterate K J s = .error why) :
    why = .mallocLive ∧ supply < K.ringSize := by
  rcases bind_error.mp h with h | ⟨s1,h1,h⟩
  · exact (sendLoop_room hn (hs.room hmem)).2 why h
  · have hroom := ((sendLoop_room hn (hs.room hmem)).1 s1 h1).sent
    rcases bind_error.mp h with h | ⟨s2,-,h⟩
    · exact (recvLoop_room hn hroom).2 why h
    · split at h <;> cases h

/-- A state in the middle of an iteration, after some passes through the first loop
or, that one done, through the second. -/
inductive Inside (K : Consts) (J : Job) (s : State) : State → Prop
  | sending (left : ℕ) (u : State) (h : s.phase = .top) (hu : sendLoop K J left s = .ok u) :
      Inside K J s u
  | receiving (left : ℕ) (s1 u : State) (h : s.phase = .top)
      (h1 : sendLoop K J (J.numRequests - s.sendIndex) s = .ok s1)
      (hu : recvLoop K J left s1 = .ok u) : Inside K J s u

theorem Ready.inside (hs : Ready K J s) (hn : J.numRequests ≤ intMax) (h : Inside K J s u) :
    Bounds K J u ∧ u.proc.ring.unreaped = s.proc.ring.unreaped := by
  cases h with
  | sending left u hp hu =>
    have hroom := (sendLoop_room hn (hs.room (Heap.supplies_zero _))).1 u hu
    exact ⟨hroom.bounds,hroom.unreaped⟩
  | receiving left s1 u hp h1 hu =>
    have hroom := (recvLoop_room hn ((sendLoop_room hn (hs.room (Heap.supplies_zero _))).1 s1 h1).sent).1 u hu
    exact ⟨hroom.bounds,hroom.unreaped⟩

/-- Handling a completion fails only on the overflow of a counter. -/
theorem reap_error (hi : Inv K s) {e : Cqe} {rest : List Cqe} {why : Stop}
    (hcq : s.proc.ring.cq = e :: rest) (h : reap K s e rest = .error why) :
    why = .intOverflow ∧ (s.proc.mem.header e.userData).eventType = .recvEvent ∧
      ¬ s.iterationsReceived < intMax := by
  obtain ⟨hheld,hnew,-,-⟩ := hi.proc.seen hcq
  obtain ⟨hset,-⟩ := hheld.setHeader hnew ((s.proc.mem.header e.userData).setOffset e.res)
  unfold reap at h
  dsimp only at h
  split at h
  · cases h
  · cases htype : (s.proc.mem.header e.userData).eventType with
    | readEvent =>
      rw [htype] at h
      cases h
    | writeEvent =>
      rw [htype] at h
      cases h
    | sendEvent =>
      rw [htype] at h hset
      rcases bind_error.mp h with h | ⟨P,-,h⟩
      · exact (hset.release_error h).elim
      · cases h
    | recvEvent =>
      rw [htype] at h hset
      dsimp only at h
      split at h
      · rcases bind_error.mp h with h | ⟨P,-,h⟩
        · exact (hset.release_error h).elim
        · cases h
      · rename_i hint
        cases h
        exact ⟨rfl,rfl,hint⟩

/-- A receive is reaped only while one is outstanding. -/
theorem Ready.received_lt (hs : Ready K J s) {e : Cqe} {rest : List Cqe}
    (hcq : s.proc.ring.cq = e :: rest)
    (htype : (s.proc.mem.header e.userData).eventType = .recvEvent) :
    s.iterationsReceived < J.numRequests := by
  obtain ⟨-,-,hvcq,-⟩ := hs.inv.proc.seen hcq
  have hk : ¬ clientKind (s.proc.mem.header e.userData) = some .send := by simp [clientKind,htype]
  rw [Ring.completion,if_neg hk] at hvcq
  have hreap := (RingView.reap_rx hvcq).1
  have hrecvs := hs.counts.recvs
  have hrecv := hs.counts.recv_le
  have hsend := hs.counts.send_le
  simp only [view] at hrecvs hrecv hsend
  omega

/-- So no pass over the completion queue fails. -/
theorem Ready.reap_ne_error (hs : Ready K J s) (hn : J.numRequests ≤ intMax) {e : Cqe}
    {rest : List Cqe} {why : Stop} (hcq : s.proc.ring.cq = e :: rest) :
    reap K s e rest ≠ .error why := by
  intro h
  obtain ⟨-,htype,hint⟩ := reap_error hs.inv hcq h
  exact hint (lt_of_lt_of_le (hs.received_lt hcq htype) hn)

/-- In a state between events a step fails only when the event is not on offer or
when the allocator breaks its contract. -/
theorem Ready.step_error (hs : Ready K J s) (hn : J.numRequests ≤ intMax) {e : Event}
    {why : Stop} (h : step K J s e = .error why) : why = .disabled ∨ why = .mallocLive := by
  cases e with
  | iterate =>
    simp only [step] at h
    split at h
    · exact Or.inr (hs.iterate_error hn (Heap.supplies_zero _) h).1
    · cases h
      exact Or.inl rfl
  | reap =>
    simp only [step] at h
    split at h
    · split at h
      · cases h
        exact Or.inl rfl
      · rename_i e rest hcq
        exact (hs.reap_ne_error hn hcq h).elim
    · cases h
      exact Or.inl rfl
  | finish =>
    simp only [step] at h
    split at h
    · cases h
    · cases h
      exact Or.inl rfl
  | kernel e =>
    simp only [step] at h
    split at h
    · rcases bind_error.mp h with h | ⟨P,-,h⟩
      · exact Or.inl (Process.kernel_error h)
      · cases h
    · cases h
      exact Or.inl rfl

theorem Ready.step (hs : Ready K J s) (hn : J.numRequests ≤ intMax) {e : Event}
    (h : step K J s e = .ok t) : Ready K J t := by
  obtain ⟨hit,hstep⟩ := step_view hs.inv h
  refine ⟨hit,hs.counts.step hstep,?_⟩
  cases e with
  | iterate =>
    obtain ⟨-,h⟩ := step_iterate h
    obtain ⟨s1,h1,h⟩ := bind_ok.mp h
    obtain ⟨s2,h2,h⟩ := bind_ok.mp h
    have hroom := (recvLoop_room hn ((sendLoop_room hn (hs.room (Heap.supplies_zero _))).1 s1 h1).sent).1 s2 h2
    split at h <;> cases h <;> exact hroom.entries
  | reap =>
    obtain ⟨-,e,rest,hcq,h⟩ := step_reap h
    rcases reap_cases hs.inv.proc hcq h with ⟨-,rfl⟩ | ⟨-,P,hP,⟨-,rfl⟩ | ⟨-,rfl⟩⟩
    · exact hs.entries
    · rw [Process.release_ring hP]
      exact hs.entries
    · rw [Process.release_ring hP]
      exact hs.entries
  | finish =>
    obtain ⟨-,-,rfl⟩ := step_finish h
    rw [finish_proc]
    exact hs.entries
  | kernel e =>
    obtain ⟨-,P,hP,rfl⟩ := step_kernel h
    rw [(hs.inv.proc.kernel hP).2.2.1]
    exact hs.entries

theorem Run.ready (h : Run K J es s) (hn : J.numRequests ≤ intMax) : Ready K J s := by
  obtain ⟨header,bytes,supply,s0,h0,hrun⟩ := h
  obtain ⟨hi,hv,hring⟩ := start_view h0
  refine execute_invariant (fun s e t hs h => hs.step hn h) hrun ⟨hi,hv ▸ Counts.start K J,?_⟩
  rw [hring]
  rfl

section Posted

/-- The direction of a posted completion. -/
def postedBy : Event → Option Opcode
  | .kernel (.postTx _) => some .send
  | .kernel (.postRx _) => some .recv
  | _ => none

/-- The directions of the completions a run posts, in the order of posting. -/
def posted (es : List Event) : List Opcode := es.filterMap postedBy

theorem posted_concat (es : List Event) (e : Event) :
    posted (es ++ [e]) = posted es ++ (postedBy e).toList := by
  rw [posted,List.filterMap_append]
  cases h : postedBy e <;> simp [posted,h]

def direction : Completion → Opcode
  | .tx _ => .send
  | .rx _ _ => .recv

/-- The completion queue is what was posted less what was reaped from its front. -/
def Reaped (es : List Event) (v : View) : Prop :=
  ∃ reaped, posted es = reaped ++ v.ring.cq.map direction ∧
    v.iterationsReceived = reaped.count .recv ∧
    v.sendIndex = reaped.count .send + v.ring.sends

/-- A kernel event posts at the end of the completion queue. -/
theorem cq_move {rxLen : ℕ} {v w : RingView} {e : KernelEvent} (h : RingView.Move rxLen v e w) :
    w.cq.map direction = v.cq.map direction ++ (postedBy (.kernel e)).toList := by
  cases h <;> simp [postedBy,direction]

theorem Reaped.step {v w : View} {e : Event} (hv : Reaped es v) (h : Step K J v e w) :
    Reaped (es ++ [e]) w := by
  obtain ⟨reaped,hposted,hrecv,hsend⟩ := hv
  unfold Reaped
  rw [posted_concat,hposted]
  cases h with
  | iterate hp =>
    refine ⟨reaped,by simp [postedBy,View.posted,View.sent],hrecv,?_⟩
    have hle := v.le_sendEdge (K := K) (J := J)
    simp only [RingView.sends,View.posted,View.sent,List.length_append,List.length_map,
      List.length_range'] at hsend ⊢
    omega
  | reapSend res rest hp hcq hres =>
    refine ⟨reaped ++ [.send],by simp [hcq,postedBy,direction,RingView.setCq],by simpa using hrecv,?_⟩
    have hreap := (RingView.reap_tx hcq).2
    simp only [List.count_append,List.count_singleton_self]
    omega
  | reapRecv res data rest hp hcq hres =>
    refine ⟨reaped ++ [.recv],by simp [hcq,postedBy,direction,RingView.setCq],by simpa using hrecv,?_⟩
    have hreap := (RingView.reap_rx hcq).2
    simpa [← hreap] using hsend
  | reapFailed hp hcq => exact ⟨reaped,by simp [postedBy],hrecv,hsend⟩
  | finishLeave hp hcq hexit => exact ⟨reaped,by simp [postedBy],hrecv,hsend⟩
  | finishAgain hp hcq hbreak hloop => exact ⟨reaped,by simp [postedBy],hrecv,hsend⟩
  | kernel e w hp hmove =>
    refine ⟨reaped,by rw [List.append_assoc,← cq_move hmove],hrecv,?_⟩
    rw [hsend,hmove.count.1]

theorem Run.reaped (h : Run K J es s) : Reaped es (view K s) := by
  refine h.path.2.history (P := Reaped) (Q := fun _ => True) ?_ ?_ (fun _ _ => trivial)
  · exact ⟨[],rfl,rfl,rfl⟩
  · exact fun _ _ _ _ _ hv hstep => hv.step hstep

theorem unreaped_eq (hi : Inv K s) :
    s.proc.ring.unreaped = (view K s).ring.sends + (view K s).ring.recvs := by
  have hcq := (view K s).ring.cq.length_eq_countP_add_countP (·.isRx)
  simp only [view,Process.view,Ring.view,Ring.txAll,Ring.rxAll,hi.sq,RingView.sends,RingView.recvs,
    Ring.unreaped,List.length_map,List.filter_nil,List.append_nil] at hcq ⊢
  simp only [Bool.not_eq_true,Bool.decide_eq_false] at hcq
  omega

/-- If every receive completion is posted after a send completion of its own, what
is unreaped lies in the windows. -/
theorem Run.unreaped_le (h : Run K J es s) (hfirst : Precedes .send .recv (posted es)) :
    s.proc.ring.unreaped ≤ Ring.cqEntries K.ringSize := by
  obtain ⟨hi,hpath⟩ := h.path
  have hcounts := hpath.invariant (fun _ _ _ hv h => hv.step h) (Counts.start K J)
  obtain ⟨reaped,hposted,hrecv,hsend⟩ := h.reaped
  have hle := (hfirst.of_prefix ⟨_,hposted.symm⟩).count_le
  have hbounds := hcounts.bounds
  obtain ⟨hb1,hb2,hb3,hb4,hb5⟩ := hbounds
  have hrecvs := hcounts.recvs
  have hround := Ring.le_roundUp K.ringSize
  rw [unreaped_eq hi,Ring.cqEntries]
  simp only [view] at hrecv hsend hrecvs ⊢
  omega

end Posted

/-- In every run in which the completion of each send is posted before that of the
receive of its response, all states keep the order and the windows of the counters,
also in the middle of an iteration; every operation finds a submission entry, and
the completion queue has room for all that is unreaped. -/
theorem windows_respect_ring (K : Consts) (J : Job) (hn : J.numRequests ≤ intMax)
    {es : List Event} {s : State} (h : Run K J es s)
    (hfirst : Precedes .send .recv (posted es)) :
    Bounds K J s ∧ s.proc.ring.unreaped ≤ Ring.cqEntries K.ringSize ∧
      (∀ u, Inside K J s u → Bounds K J u ∧ u.proc.ring.unreaped ≤ Ring.cqEntries K.ringSize) ∧
      s.proc.ring.sqEntries = Ring.roundUp K.ringSize ∧
      ∀ e why, step K J s e = .error why → why = .disabled ∨ why = .mallocLive := by
  have hs := h.ready hn
  have hle := h.unreaped_le hfirst
  refine ⟨hs.counts.bounds,hle,?_,hs.entries,fun e why hstep => hs.step_error hn hstep⟩
  intro u hu
  obtain ⟨hb,hunreaped⟩ := hs.inside hn hu
  exact ⟨hb,hunreaped ▸ hle⟩

/-- The operations of a second request, both posted and the first one reaped. -/
theorem windows_respect_ring_prompt : ∃ s,
    Run Consts.small (threadJob 4 2 0) ((promptEvents 0).take 14) s ∧
      s.proc.ring.unreaped = 1 ∧ s.sendIndex = 2 ∧ Bounds Consts.small (threadJob 4 2 0) s ∧
      s.proc.ring.unreaped ≤ Ring.cqEntries Consts.small.ringSize := by
  have hrun : ((smallStart (threadJob 4 2 0) >>= fun s0 =>
      execute (step Consts.small (threadJob 4 2 0)) s0 ((promptEvents 0).take 14)) |>
        (yields · (fun s => s.proc.ring.unreaped = 1 && s.sendIndex = 2))) = true := by
    decide +kernel
  obtain ⟨s,hs,htest⟩ := exists_of_yields hrun
  obtain ⟨s0,h0,hs⟩ := bind_ok.mp hs
  simp only [Bool.and_eq_true,decide_eq_true_eq] at htest
  have hr : Run Consts.small (threadJob 4 2 0) ((promptEvents 0).take 14) s := ⟨_,_,_,s0,h0,hs⟩
  have hposted : posted ((promptEvents 0).take 14) = [.send,.recv,.send,.recv] := rfl
  have hfirst : Precedes .send .recv (posted ((promptEvents 0).take 14)) := by
    rw [hposted]
    refine ⟨fun i => i - 1,?_,?_⟩
    · rintro (_ | _ | _ | _ | i) hi <;> simp at hi ⊢
    · rintro (_ | _ | _ | _ | i) (_ | _ | _ | _ | j) hi hj <;> simp at hi hj ⊢
  obtain ⟨hb,hle,-⟩ :=
    windows_respect_ring Consts.small (threadJob 4 2 0) (by decide) hr hfirst
  exact ⟨s,hr,htest.1,htest.2,hb,hle⟩

end FastNet.Simple.Client
