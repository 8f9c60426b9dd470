import FastNet.Simple.Progress
import FastNet.Simple.Slots
import FastNet.Simple.Work

/-! # Where a connection comes to rest

Neither program ever stops on a fault of its own, and as long as one of them has not
left its loop some step is on offer that takes work away. The handler meets the end of
the stream only behind the last request that was sent, so what it has not answered
when it leaves its loop was never sent.
-/
namespace FastNet.Simple.Server
open Execution
variable {K : Consts} {clientNum : ℕ} {s t : State}

/-- Between two events the ring has the entries it was created with, all of them free. -/
structure Ready (K : Consts) (s : State) : Prop where
  inv : Inv K s
  entries : s.proc.ring.sqEntries = Ring.roundUp K.ringSize

theorem postReads_entries {count : ℕ} (h : postReads K clientNum count s = .ok t) :
    t.proc.ring.sqEntries = s.proc.ring.sqEntries := by
  induction count generalizing s with
  | zero =>
    cases h
    rfl
  | succ count ih =>
    obtain ⟨P,hP,h⟩ := bind_ok.mp h
    obtain ⟨req,hring⟩ := Process.enqueue_ring hP
    have hentries : P.ring.sqEntries = s.proc.ring.sqEntries := by rw [hring]
    exact (ih h).trans hentries

theorem start_ready {header : Addr → RequestData} {bytes : Addr → List UInt8}
    {supply : ℕ → Block RequestData} (h : start K clientNum header bytes supply = .ok s) :
    Ready K s := by
  refine ⟨(start_view h).1,?_⟩
  obtain ⟨⟨pool,mem⟩,-,h⟩ := bind_ok.mp h
  obtain ⟨u,hu,h⟩ := bind_ok.mp h
  cases h
  exact postReads_entries hu

theorem respond_entries {e : Cqe} {rest : List Cqe} (h : respond K clientNum s e rest = .ok t) :
    t.proc.ring.sqEntries = s.proc.ring.sqEntries := by
  obtain ⟨P,hP,h⟩ := bind_ok.mp h
  obtain ⟨P',hP',h⟩ := bind_ok.mp h
  cases h
  obtain ⟨req,hring⟩ := Process.enqueue_ring hP
  obtain ⟨ring,hqueue,h⟩ := bind_ok.mp hP'
  cases h
  obtain ⟨rfl,-⟩ := Ring.queue_ok hqueue
  change P.ring.sqEntries = s.proc.ring.sqEntries
  rw [hring]
  rfl

theorem Ready.step (hs : Ready K s) {e : Event} (h : step K clientNum s e = .ok t) : Ready K t := by
  refine ⟨(step_view hs.inv h).1,?_⟩
  rw [← hs.entries]
  cases e with
  | serve =>
    obtain ⟨-,e,rest,hcq,h⟩ := step_serve h
    rcases serve_cases hs.inv hcq h with ⟨-,⟨-,rfl⟩ | ⟨-,h⟩⟩ | ⟨-,P,hP,rfl⟩
    · rfl
    · exact respond_entries h
    · have hring := Process.release_ring hP
      change P.ring.sqEntries = s.proc.ring.sqEntries
      rw [hring]
      rfl
  | kernel e =>
    obtain ⟨-,P,hP,rfl⟩ := step_kernel h
    exact (hs.inv.proc.kernel hP).2.2.1

/-- An answer needs two entries, for the page and for the next read. -/
theorem respond_error (hs : Ready K s) (hring : 2 ≤ K.ringSize) {e : Cqe} {rest : List Cqe}
    {why : Stop} (h : respond K clientNum s e rest = .error why) :
    why = .mallocLive ∧ ¬ s.proc.mem.Supplies 1 := by
  have hle := Ring.le_roundUp K.ringSize
  have hsq : (s.proc.seen rest).ring.sq.length = 0 := congrArg List.length hs.inv.sq
  have hentries : (s.proc.seen rest).ring.sqEntries = Ring.roundUp K.ringSize := hs.entries
  rcases bind_error.mp h with h | ⟨P,hP,h⟩
  · rcases Process.enqueue_error h with hwhy | ⟨-,hfull⟩
    · exact hwhy
    · omega
  · rcases bind_error.mp h with h | ⟨P',-,h⟩
    · obtain ⟨-,hfull⟩ := Process.requeue_error h
      obtain ⟨req,hP⟩ := Process.enqueue_ring hP
      rw [hP,List.length_append,List.length_singleton] at hfull
      dsimp only at hfull
      omega
    · cases h

theorem serve_error (hs : Ready K s) (hring : 2 ≤ K.ringSize) {e : Cqe} {rest : List Cqe}
    {why : Stop} (hcq : s.proc.ring.cq = e :: rest) (h : serve K clientNum s e rest = .error why) :
    why = .mallocLive ∧ ¬ s.proc.mem.Supplies 1 := by
  obtain ⟨hheld,-,-,-⟩ := hs.inv.proc.seen hcq
  unfold serve at h
  dsimp only at h
  rw [if_neg (userData_ne_null hs.inv hcq)] at h
  split at h
  · split at h
    · cases h
    · exact respond_error hs hring h
  · rename_i htype
    rw [htype] at hheld
    rcases bind_error.mp h with h | ⟨P,-,h⟩
    · exact (hheld.release_error h).elim
    · cases h
  · cases h

theorem Ready.step_error (hs : Ready K s) (hring : 2 ≤ K.ringSize) {e : Event} {why : Stop}
    (h : Server.step K clientNum s e = .error why) : why = .disabled ∨ why = .mallocLive := by
  cases e with
  | serve =>
    simp only [Server.step] at h
    split at h
    · split at h
      · cases h
        exact Or.inl rfl
      · rename_i e rest hcq
        exact Or.inr (serve_error hs hring hcq h).1
    · cases h
      exact Or.inl rfl
  | kernel e =>
    simp only [Server.step] at h
    split at h
    · rcases bind_error.mp h with h | ⟨P,-,h⟩
      · exact Or.inl (Process.kernel_error h)
      · cases h
    · cases h
      exact Or.inl rfl

/-- A handler in its loop takes any completion there is. -/
theorem serve_offered (hs : Ready K s) (hring : 2 ≤ K.ringSize) (hp : s.phase = .running)
    (hcq : s.proc.ring.cq ≠ []) : step K clientNum s .serve ≠ .error .disabled := by
  intro h
  obtain ⟨e,rest,hcq⟩ := List.exists_cons_of_ne_nil hcq
  simp only [step,if_pos hp,hcq] at h
  cases (serve_error hs hring hcq h).1

end FastNet.Simple.Server

namespace FastNet.Simple.Client
open Execution
variable {K : Consts} {J : Job} {s : State}

theorem iterate_offered (hs : Ready K J s) (hn : J.numRequests ≤ intMax) (hp : s.phase = .top) :
    step K J s .iterate ≠ .error .disabled := by
  intro h
  simp only [step,if_pos hp] at h
  cases (hs.iterate_error hn (Heap.supplies_zero _) h).1

theorem reap_offered (hs : Ready K J s) (hp : s.phase = .reaping)
    (hcq : s.proc.ring.cq ≠ []) : step K J s .reap ≠ .error .disabled := by
  intro h
  obtain ⟨e,rest,hcq⟩ := List.exists_cons_of_ne_nil hcq
  simp only [step,if_pos hp,hcq] at h
  obtain ⟨hwhy,-,-⟩ := reap_error hs.inv hcq h
  cases hwhy

theorem finish_offered (hp : s.phase = .reaping) (hcq : s.proc.ring.cq = []) :
    step K J s .finish ≠ .error .disabled := by
  intro h
  simp only [step,if_pos (And.intro hp hcq)] at h
  cases h

end FastNet.Simple.Client

namespace FastNet.Simple.Connection
open Execution Client
variable {K : Consts} {J : Job} {L : Link} {clientNum : ℕ} {s t : State} {v w : View}
  {forth back : List (List UInt8)}

section Places

/-- Where the two programs can be: the client goes round its loop only while the
condition of the loop holds, it leaves the loop with every send queued, and the handler
leaves its loop only in order. -/
structure Placed (J : Job) (v : View) : Prop where
  top : v.client.phase = .top → loopCondition J v.client.sendIndex v.client.recvIndex
  returned : v.client.phase = .returned → J.numRequests ≤ v.client.sendIndex
  server : v.server.phase ≠ .failed

theorem Placed.step {e : Event} (hv : Placed J v) (h : Step K J L v e w) : Placed J w := by
  obtain ⟨htop,hret,hserver⟩ := hv
  cases h with
  | client e c requests pages hlink hstep =>
    cases hstep with
    | iterate hp => exact ⟨by simp,by simp,hserver⟩
    | reapSend res rest hp hcq hres => exact ⟨htop,hret,hserver⟩
    | reapRecv res data rest hp hcq hres => exact ⟨htop,hret,hserver⟩
    | reapFailed hp hcq => exact ⟨by simp,by simp,hserver⟩
    | finishLeave hp hcq hexit =>
      refine ⟨by simp,fun _ => ?_,hserver⟩
      unfold breakCondition loopCondition at hexit
      dsimp only
      omega
    | finishAgain hp hcq hbreak hloop => exact ⟨fun _ => hloop,by simp,hserver⟩
    | kernel e c hp hmove => exact ⟨htop,hret,hserver⟩
  | server e d requests pages hlink hstep =>
    cases hstep with
    | read res data rest hp hcq hres => exact ⟨htop,hret,hserver⟩
    | closed data rest hp hcq => exact ⟨htop,hret,by simp⟩
    | written res rest hp hcq => exact ⟨htop,hret,hserver⟩
    | kernel e d hp hmove => exact ⟨htop,hret,hserver⟩

theorem Placed.start : Placed J (View.start K J) := by
  unfold View.start Client.View.start
  refine ⟨?_,?_,by simp [Server.View.start]⟩
  · dsimp only
    split
    · exact fun _ => ‹_›
    · simp
  · dsimp only
    split
    · simp
    · rename_i hl
      unfold loopCondition at hl
      omega

theorem placed_of_path {es : List Event} (h : Path (Step K J L) (View.start K J) es v) :
    Placed J v :=
  h.invariant (fun _ _ _ hv hstep => hv.step hstep) Placed.start

end Places

section Stream

/-- Reads that met the end of the stream lie behind all others, and there is one only
once the client has returned and all of its bytes are read. -/
structure EndOfStream (v : View) : Prop where
  behind : ∃ front ends, v.server.ring.arrivals = front ++ ends ∧ (∀ a ∈ front, a.1 ≠ 0) ∧
    (∀ a ∈ ends, a.1 = 0) ∧ (v.server.phase = .closed → front = [] ∧ ends ≠ []) ∧
    (ends ≠ [] → v.client.phase = .returned ∧ v.requests = [])

/-- A client that takes a step has not returned. -/
theorem unreturned_of_step {c d : Client.View} {e : Client.Event} (h : Client.Step K J c e d) :
    c.phase ≠ .returned := by
  cases h with
  | iterate hp => simp [hp]
  | reapSend res rest hp hcq hres => simp [hp]
  | reapRecv res data rest hp hcq hres => simp [hp]
  | reapFailed hp hcq => simp [hp]
  | finishLeave hp hcq hexit => simp [hp]
  | finishAgain hp hcq hbreak hloop => simp [hp]
  | kernel e c hp hmove => rcases hp with hp | hp <;> simp [hp]

theorem EndOfStream.client (hv : EndOfStream v) {e : Client.Event} {c : Client.View}
    (h : Client.Step K J v.client e c) (requests pages : List UInt8) :
    EndOfStream { v with client := c, requests := requests, pages := pages } := by
  obtain ⟨front,ends,harr,hfront,hends,hclosed,hret⟩ := hv
  have hnil : ends = [] := by
    by_contra hne
    exact unreturned_of_step h (hret hne).1
  exact ⟨front,ends,harr,hfront,hends,hclosed,fun hne => (hne hnil).elim⟩

theorem EndOfStream.serverKernel (hv : EndOfStream v) (hp : v.server.phase = .running)
    {e : KernelEvent} {d : RingView} {requests pages : List UInt8}
    (hlink : ServerLinked K L v.requests v.pages (v.client.phase = .returned) e requests pages)
    (hmove : RingView.Move sizeofInt32 v.server.ring e d) :
    EndOfStream { v with
      server := { v.server with ring := d }
      requests := requests
      pages := pages } := by
  obtain ⟨front,ends,harr,hfront,hends,-,hret⟩ := hv
  have hopen : v.server.phase = .closed → ∀ P : Prop, P := by simp [hp]
  cases hlink with
  | write bytes hlen hroom =>
    refine ⟨front,ends,?_,hfront,hends,fun h => hopen h _,hret⟩
    exact (hmove.arrivals_eq trivial rfl).trans harr
  | postWrite =>
    refine ⟨front,ends,?_,hfront,hends,fun h => hopen h _,hret⟩
    exact (hmove.arrivals_eq trivial rfl).trans harr
  | postRead =>
    refine ⟨front,ends,?_,hfront,hends,fun h => hopen h _,hret⟩
    exact (hmove.arrivals_eq rfl rfl).trans harr
  | read bytes hlen hpre =>
    obtain ⟨data,hdata,-⟩ := exec_receive hmove
    have hnil : ends = [] := by
      by_contra hne
      have hempty := hpre.length_le
      rw [(hret hne).2,hlen] at hempty
      simp [sizeofInt32] at hempty
    refine ⟨front ++ [((bytes.length : ℤ),data)],[],?_,?_,by simp,fun h => hopen h _,by simp⟩
    · rw [hdata,harr,hnil]
      simp
    · refine List.forall_mem_append.mpr ⟨hfront,List.forall_mem_singleton.mpr ?_⟩
      simp [hlen,sizeofInt32]
  | eof hclosed hnil =>
    obtain ⟨data,hdata,-⟩ := exec_receive hmove
    refine ⟨front,ends ++ [(((([] : List UInt8).length : ℕ) : ℤ),data)],?_,hfront,?_,
      fun h => hopen h _,fun _ => ⟨of_decide_eq_true hclosed,hnil⟩⟩
    · rw [hdata,harr,List.append_assoc]
    · exact List.forall_mem_append.mpr ⟨hends,List.forall_mem_singleton.mpr rfl⟩

theorem EndOfStream.step {e : Event} (hv : EndOfStream v) (h : Step K J L v e w) :
    EndOfStream w := by
  cases h with
  | client e c requests pages hlink hstep => exact hv.client hstep requests pages
  | server e d requests pages hlink hstep =>
    cases hstep with
    | kernel e d hp hmove => exact hv.serverKernel hp (serverLink_kernel hlink) hmove
    | read res data rest hp hcq hres =>
      cases hlink
      obtain ⟨front,ends,harr,hfront,hends,-,hret⟩ := hv
      rw [RingView.arrivals_reap_rx hcq] at harr
      cases front with
      | nil =>
        rw [List.nil_append] at harr
        exact (hres (hends (res,data) (harr ▸ List.mem_cons_self))).elim
      | cons a front =>
        obtain ⟨-,harr⟩ := List.cons.inj harr
        exact ⟨front,ends,harr,fun a ha => hfront a (List.mem_cons_of_mem _ ha),hends,
          by simp [hp],hret⟩
    | closed data rest hp hcq =>
      cases hlink
      obtain ⟨front,ends,harr,hfront,hends,-,hret⟩ := hv
      have hnil : front = [] := by
        cases front with
        | nil => rfl
        | cons a front =>
          rw [RingView.arrivals_reap_rx hcq] at harr
          obtain ⟨rfl,-⟩ := List.cons.inj harr
          exact (hfront (0,data) List.mem_cons_self rfl).elim
      refine ⟨front,ends,harr,hfront,hends,fun _ => ⟨hnil,?_⟩,hret⟩
      rintro rfl
      rw [hnil,RingView.arrivals_reap_rx hcq] at harr
      simp at harr
    | written res rest hp hcq =>
      cases hlink
      obtain ⟨front,ends,harr,hfront,hends,-,hret⟩ := hv
      rw [RingView.arrivals_reap_tx hcq] at harr
      exact ⟨front,ends,harr,hfront,hends,by simp [hp],hret⟩

theorem endOfStream_of_path {es : List Event} (h : Path (Step K J L) (View.start K J) es v) :
    EndOfStream v :=
  h.invariant (fun _ _ _ hv hstep => hv.step hstep)
    ⟨[],[],by simp [View.start,Server.View.start,RingView.arrivals],by simp,by simp,
      by simp [View.start,Server.View.start],by simp⟩

/-- A handler past its loop has answered every request that was sent. -/
theorem Relay.closed (hr : Relay K J v forth back) (he : EndOfStream v)
    (hp : v.server.phase = .closed) :
    v.client.phase = .returned ∧ forth = [] ∧
      v.server.responses.length + v.client.ring.tx.length = v.client.sendIndex := by
  obtain ⟨front,ends,harr,hfront,hends,hclosed,hret⟩ := he
  obtain ⟨rfl,hne⟩ := hclosed hp
  obtain ⟨hreturned,hrequests⟩ := hret hne
  have hforth : forth = [] := by
    cases hf : forth with
    | nil => rfl
    | cons c rest =>
      have hlen := hr.mem_forth c (by simp [hf])
      have hreq := hr.requests
      rw [hrequests,hf,List.flatten_cons] at hreq
      rw [(List.append_eq_nil_iff.mp hreq.symm).1] at hlen
      simp [sizeofInt32] at hlen
  have hreads : v.reads = [] := by
    rw [View.reads,harr,List.nil_append]
    simpa using hends
  have hasked := congrArg List.length hr.asked
  have hle := hr.responses_le
  rw [hreads,hforth] at hasked
  simp only [List.nil_append,List.length_map,List.length_range'] at hasked
  exact ⟨hreturned,hforth,by omega⟩

end Stream

section Offers

/-- What holds in every state of a run of the connection. -/
structure Good (K : Consts) (J : Job) (L : Link) (s : State) : Prop where
  client : Client.Ready K J s.client
  server : Server.Ready K s.server
  path : ∃ es, Path (Step K J L) (View.start K J) es (view K s)

theorem Good.inv (hg : Good K J L s) : Inv K s := ⟨hg.client.inv,hg.server.inv⟩

theorem Good.step (hg : Good K J L s) (hn : J.numRequests ≤ intMax) {e : Event}
    (h : step K J clientNum L s e = .ok t) : Good K J L t := by
  obtain ⟨es,hpath⟩ := hg.path
  refine ⟨?_,?_,_,hpath.snoc (step_view hg.inv h).2⟩
  · cases e with
    | client e =>
      simp only [Connection.step] at h
      split at h
      · cases h
      · obtain ⟨c,hc,h⟩ := bind_ok.mp h
        cases h
        exact hg.client.step hn hc
    | server e =>
      simp only [Connection.step] at h
      split at h
      · cases h
      · obtain ⟨d,hd,h⟩ := bind_ok.mp h
        cases h
        exact hg.client
  · cases e with
    | client e =>
      simp only [Connection.step] at h
      split at h
      · cases h
      · obtain ⟨c,hc,h⟩ := bind_ok.mp h
        cases h
        exact hg.server
    | server e =>
      simp only [Connection.step] at h
      split at h
      · cases h
      · obtain ⟨d,hd,h⟩ := bind_ok.mp h
        cases h
        exact hg.server.step hd

theorem Good.step_error (hg : Good K J L s) (hn : J.numRequests ≤ intMax) (hring : 2 ≤ K.ringSize)
    {e : Event} {why : Stop} (h : Connection.step K J clientNum L s e = .error why) :
    why = .disabled ∨ why = .mallocLive := by
  cases e with
  | client e =>
    simp only [Connection.step] at h
    split at h
    · cases h
      exact Or.inl rfl
    · rcases bind_error.mp h with h | ⟨c,-,h⟩
      · exact hg.client.step_error hn h
      · cases h
  | server e =>
    simp only [Connection.step] at h
    split at h
    · cases h
      exact Or.inl rfl
    · rcases bind_error.mp h with h | ⟨d,-,h⟩
      · exact hg.server.step_error hring h
      · cases h

theorem Run.snoc {es : List Event} {e : Event} (h : Run K J clientNum L es s)
    (hstep : Connection.step K J clientNum L s e = .ok t) : Run K J clientNum L (es ++ [e]) t := by
  obtain ⟨s0,hs,hrun⟩ := h
  exact ⟨s0,hs,execute_concat_ok.mpr ⟨s,hrun,hstep⟩⟩

theorem Run.good {es : List Event} (h : Run K J clientNum L es s) (hn : J.numRequests ≤ intMax) :
    Good K J L s := by
  obtain ⟨s0,⟨⟨header,bytes,supply,hc⟩,⟨_,_,_,hd⟩,hrequests,hpages⟩,hrun⟩ := h
  refine execute_invariant (fun s e t hs h => hs.step hn h) hrun ?_
  have hs : Run K J clientNum L [] s0 := ⟨s0,⟨⟨_,_,_,hc⟩,⟨_,_,_,hd⟩,hrequests,hpages⟩,rfl⟩
  have hclient : Client.Run K J [] s0.client := ⟨header,bytes,supply,_,hc,rfl⟩
  exact ⟨hclient.ready hn,Server.start_ready hd,_,hs.path.2⟩

theorem client_offered {e : Client.Event} (he : ∀ k, e ≠ .kernel k)
    (h : Client.step K J s.client e ≠ .error .disabled) :
    Connection.step K J clientNum L s (.client e) ≠ .error .disabled := by
  intro hstep
  cases e with
  | kernel k => exact he k rfl
  | iterate | reap | finish =>
    rcases bind_error.mp hstep with hstep | ⟨c,-,hstep⟩
    · exact h hstep
    · cases hstep

theorem serve_offered (h : Server.step K clientNum s.server .serve ≠ .error .disabled) :
    Connection.step K J clientNum L s (.server .serve) ≠ .error .disabled := by
  intro hstep
  rcases bind_error.mp hstep with hstep | ⟨d,-,hstep⟩
  · exact h hstep
  · cases hstep

/-- Where the kernel is stuck and nothing waits, the client may queue an operation. -/
theorem Blocked.window (h : Blocked K L s) (hi : Inv K s) (hr : Relay K J (view K s) forth back)
    (hc : Counts K J (view K s).client)
    (hreads : (view K s).server.ring.recvs = K.ringSize / 4) (hring : 4 ≤ K.ringSize)
    (hroom : sizeofInt32 ≤ L.requestRoom) (hroom' : K.pageLen ≤ L.pageRoom)
    (hloop : loopCondition J (view K s).client.sendIndex (view K s).client.recvIndex) :
    Open K J (view K s).client := by
  obtain ⟨⟨-,hcrx⟩,-,hdrx⟩ := h.posted
  have hccq := h.clientCq
  have hdcq := h.serverCq
  have hrx : 0 < (view K s).server.ring.rx := by
    simp only [RingView.recvs,hdrx,hdcq,List.length_nil,List.countP_nil] at hreads
    omega
  obtain ⟨hforth,htx⟩ := h.requests hi hr hroom hrx
  obtain ⟨hcount,hrecvLe,-,-,-,hreaped⟩ := hc
  have hanswers := congrArg List.length hr.answers
  have hasked := congrArg List.length hr.asked
  have hle := hr.responses_le
  simp only [View.reads,RingView.arrivals,hcrx,hccq,hdrx,hdcq,hforth,htx,List.filterMap_nil,
    List.append_nil,List.filter_nil,List.map_nil,List.length_nil,List.length_append,
    List.length_map,List.length_range'] at hanswers hasked
  simp only [RingView.recvs,hcrx,hccq,List.length_nil,List.countP_nil] at hcount
  unfold Open sendGuard recvGuard
  unfold loopCondition at hloop
  by_cases hback : back = []
  · -- every request is answered and every answer reaped
    have hd := h.pages hi hr hroom' hback
    simp only [hback,hd,List.length_nil] at hanswers
    omega
  · -- a page waits for a receive, so none is posted
    have hnone := h.receives hi hr hback
    have hpos : 0 < back.length := List.length_pos_iff.mpr hback
    omega

/-- The handler is in its loop as long as the client is. -/
theorem Good.running (hg : Good K J L s) (hp : s.client.phase = .top ∨ s.client.phase = .reaping) :
    s.server.phase = .running := by
  obtain ⟨es,hpath⟩ := hg.path
  have hret : ¬ s.client.phase = .returned := by rcases hp with hp | hp <;> simp [hp]
  exact ((serving_of_path hpath).1.resolve_left hret).1

variable (clientNum) in
/-- With no move on offer and nothing to reap on either side, the kernel is stuck. -/
theorem Good.blocked (hg : Good K J L s) (hp : s.client.phase = .top ∨ s.client.phase = .reaping)
    (hc : ∀ e t, Connection.step K J clientNum L s (.client (.kernel e)) ≠ .ok t)
    (hd : ∀ e t, Connection.step K J clientNum L s (.server (.kernel e)) ≠ .ok t)
    (hccq : s.client.proc.ring.cq = []) (hdcq : s.server.proc.ring.cq = []) : Blocked K L s := by
  constructor
  · intro e hlink hk
    obtain ⟨t,ht⟩ : ∃ t, Connection.step K J clientNum L s (.client (.kernel e)) = .ok t :=
      client_kernel_enabled hp hlink hk
    exact hc e t ht
  · intro e hlink hk
    obtain ⟨t,ht⟩ : ∃ t, Connection.step K J clientNum L s (.server (.kernel e)) = .ok t :=
      server_kernel_enabled (hg.running hp) hlink hk
    exact hd e t ht
  · simp [view,Client.view,Process.view,Ring.view,hccq]
  · simp [view,Server.view,Process.view,Ring.view,hdcq]

variable (clientNum) in
/-- A handler whose client has returned reads what is left and then the end. -/
theorem Good.closing (hg : Good K J L s) (hring : 4 ≤ K.ringSize) (hret : s.client.phase = .returned)
    (hrun : s.server.phase = .running) :
    ∃ e, Connection.step K J clientNum L s (.server e) ≠ .error .disabled := by
  obtain ⟨es,hpath⟩ := hg.path
  obtain ⟨forth,back,hr⟩ := relay_of_path hpath
  have hreads := (serving_of_path hpath).2
  have henabled : ∀ e : KernelEvent,
      (serverLink K L s.requests s.pages (s.client.phase = .returned) (.kernel e)).isSome →
      (∃ x, s.server.proc.ring.kernel s.server.proc.mem e = .ok x) →
      ∃ e, Connection.step K J clientNum L s (.server e) ≠ .error .disabled := by
    intro e hlink hk
    obtain ⟨t,ht⟩ : ∃ t, Connection.step K J clientNum L s (.server (.kernel e)) = .ok t :=
      server_kernel_enabled hrun hlink hk
    exact ⟨_,by rw [ht]; simp⟩
  by_cases hcq : s.server.proc.ring.cq = []
  · by_cases hdone : (view K s).server.ring.rxDone = []
    · have hvcq : (view K s).server.ring.cq = [] := by
        simp [view,Server.view,Process.view,Ring.view,hcq]
      have hrx : 0 < (view K s).server.ring.rx := by
        simp only [RingView.recvs,hdone,hvcq,List.length_nil,List.countP_nil] at hreads
        omega
      have hreq : s.requests = forth.flatten := hr.requests
      cases hforth : forth with
      | nil =>
        refine henabled (.execRx 0 []) ?_ (Ring.kernel_execRx hg.server.inv.proc.typed
          hg.server.inv.sq hrx (Nat.zero_le _))
        simp [serverLink,hret,hreq,hforth]
      | cons bytes rest =>
        have hlen := hr.mem_forth bytes (by simp [hforth])
        refine henabled (.execRx 0 bytes) ?_ (Ring.kernel_execRx hg.server.inv.proc.typed
          hg.server.inv.sq hrx hlen.le)
        simp [serverLink,hlen,hreq,hforth]
    · exact henabled (.postRx 0) (by simp [serverLink]) (Ring.kernel_postRx hdone)
  · exact ⟨.serve,serve_offered (Server.serve_offered hg.server (by omega) hrun hcq)⟩

variable (clientNum) in
/-- As long as the two have not both left their loops, a step that takes work away is
on offer. -/
theorem Good.offers (hg : Good K J L s) (hn : J.numRequests ≤ intMax) (hring : 4 ≤ K.ringSize)
    (hroom : sizeofInt32 ≤ L.requestRoom) (hroom' : K.pageLen ≤ L.pageRoom)
    (hnot : ¬ (s.client.phase = .returned ∧ s.server.phase = .closed)) :
    ∃ e, ¬ Idle K J (view K s).client e ∧
      Connection.step K J clientNum L s e ≠ .error .disabled := by
  obtain ⟨es,hpath⟩ := hg.path
  obtain ⟨forth,back,hr⟩ := relay_of_path hpath
  obtain ⟨hserving,hreads⟩ := serving_of_path hpath
  have hplaced := placed_of_path hpath
  have hc := counts_of_path hpath
  by_contra hnone
  have hidle : ∀ e, Connection.step K J clientNum L s e ≠ .error .disabled →
      Idle K J (view K s).client e := by
    intro e he
    by_contra hne
    exact hnone ⟨e,hne,he⟩
  -- the kernel has nothing to do while the client is in its loop
  have hblocked : (s.client.phase = .top ∨ s.client.phase = .reaping) →
      s.client.proc.ring.cq = [] → Blocked K L s := by
    intro hp hccq
    refine hg.blocked clientNum hp ?_ ?_ hccq ?_
    · intro e t ht
      exact hidle (.client (.kernel e)) (by rw [ht]; simp)
    · intro e t ht
      exact hidle (.server (.kernel e)) (by rw [ht]; simp)
    · by_contra hdcq
      exact hidle (.server .serve)
        (serve_offered (Server.serve_offered hg.server (by omega) (hg.running hp) hdcq))
  have hwindow : (s.client.phase = .top ∨ s.client.phase = .reaping) →
      s.client.proc.ring.cq = [] →
      loopCondition J (view K s).client.sendIndex (view K s).client.recvIndex →
      Open K J (view K s).client :=
    fun hp hccq hloop => (hblocked hp hccq).window hg.inv hr hc hreads hring hroom hroom' hloop
  cases hphase : s.client.phase with
  | top =>
    obtain ⟨hccq,hclosed⟩ := hidle (.client .iterate) (client_offered (by simp)
      (Client.iterate_offered hg.client hn hphase))
    have hcq : s.client.proc.ring.cq = [] := by
      simpa [view,Client.view,Process.view,Ring.view] using hccq
    exact hclosed (hwindow (Or.inl hphase) hcq (hplaced.top hphase))
  | reaping =>
    by_cases hcq : s.client.proc.ring.cq = []
    · obtain ⟨-,hloop,hclosed⟩ := hidle (.client .finish) (client_offered (by simp)
        (Client.finish_offered hphase hcq))
      exact hclosed (hwindow (Or.inr hphase) hcq hloop)
    · exact hidle (.client .reap) (client_offered (by simp)
        (Client.reap_offered hg.client hphase hcq))
  | returned =>
    cases hserver : s.server.phase with
    | running =>
      obtain ⟨e,he⟩ := hg.closing clientNum hring hphase hserver
      exact hidle (.server e) he
    | closed => exact hnot ⟨hphase,hserver⟩
    | failed => exact hplaced.server hserver
  | failed => exact (paged_of_path hpath).2 hphase

end Offers

end FastNet.Simple.Connection
