import FastNet.Simple.ClientReturn
import FastNet.Simple.Relay

/-! # Where the kernel is stuck

Until the client returns, the handler meets no end of the stream and no operation of
the client fails. If the kernel can move nothing on either side and nothing waits to
be reaped, no message waits in a ring that could move it and no message on the way
finds a receive.
-/
namespace FastNet.Simple.Connection
open Execution Client
variable {K : Consts} {J : Job} {L : Link} {clientNum : ℕ} {v w : View}

/-- Until the client has returned, no read of the server meets the end of the
stream. -/
def Serving (v : View) : Prop :=
  v.client.phase = .returned ∨
    v.server.phase = .running ∧ ∀ a ∈ v.server.ring.arrivals, a.1 ≠ 0

theorem Serving.client (h : Serving v) {e : Client.Event} {c : Client.View}
    (hstep : Client.Step K J v.client e c) (requests pages : List UInt8) :
    Serving { v with client := c, requests := requests, pages := pages } := by
  rcases h with hret | hrun
  · cases hstep with
    | iterate hp => simp [hret] at hp
    | reapSend res rest hp hcq hres => simp [hret] at hp
    | reapRecv res data rest hp hcq hres => simp [hret] at hp
    | reapFailed hp hcq => simp [hret] at hp
    | finishLeave hp hcq hexit => exact Or.inl rfl
    | finishAgain hp hcq hbreak hloop => simp [hret] at hp
    | kernel e c hp hmove => exact Or.inl hret
  · exact Or.inr hrun

theorem Serving.serverKernel (h : Serving v) {e : KernelEvent} {d : RingView}
    {requests pages : List UInt8}
    (hlink : serverLink K L v.requests v.pages (v.client.phase = .returned) (.kernel e) =
      some (requests,pages)) (hmove : RingView.Move sizeofInt32 v.server.ring e d) :
    Serving { v with
      server := { v.server with ring := d }
      requests := requests
      pages := pages } := by
  by_cases hret : v.client.phase = .returned
  · exact Or.inl hret
  obtain ⟨hrun,hall⟩ := h.resolve_left hret
  refine Or.inr ⟨hrun,?_⟩
  change ∀ a ∈ d.arrivals, a.1 ≠ 0
  cases serverLink_kernel hlink with
  | write bytes hlen hroom =>
    rw [hmove.arrivals_eq trivial rfl]
    exact hall
  | read bytes hlen hp =>
    obtain ⟨data,harr,-⟩ := exec_receive hmove
    rw [harr]
    refine List.forall_mem_append.mpr ⟨hall,List.forall_mem_singleton.mpr ?_⟩
    simp [hlen,sizeofInt32]
  | eof hclosed hnil => exact (hret (of_decide_eq_true hclosed)).elim
  | postWrite =>
    rw [hmove.arrivals_eq trivial rfl]
    exact hall
  | postRead =>
    rw [hmove.arrivals_eq rfl rfl]
    exact hall

theorem Serving.step {e : Event} (h : Serving v) (hstep : Step K J L v e w) : Serving w := by
  cases hstep with
  | client e c requests pages hlink hstep => exact h.client hstep requests pages
  | server e d requests pages hlink hstep =>
    by_cases hret : v.client.phase = .returned
    · exact Or.inl hret
    obtain ⟨hrun,hall⟩ := h.resolve_left hret
    cases hstep with
    | read res data rest hp hcq hres =>
      cases hlink
      rw [RingView.arrivals_reap_rx hcq] at hall
      exact Or.inr ⟨hrun,fun a ha => hall a (List.mem_cons_of_mem _ ha)⟩
    | closed data rest hp hcq =>
      rw [RingView.arrivals_reap_rx hcq] at hall
      exact (hall (0,data) List.mem_cons_self rfl).elim
    | written res rest hp hcq =>
      cases hlink
      rw [RingView.arrivals_reap_tx hcq] at hall
      exact Or.inr ⟨hrun,hall⟩
    | kernel e d hp hmove => exact h.serverKernel hlink hmove

theorem serving_of_path {es : List Event} (h : Path (Step K J L) (View.start K J) es v) :
    Serving v ∧ v.server.ring.recvs = K.ringSize / 4 := by
  refine h.invariant (P := fun v => Serving v ∧ v.server.ring.recvs = K.ringSize / 4) ?_
    ⟨Or.inr ⟨rfl,by simp [View.start,Server.View.start,RingView.arrivals]⟩,rfl⟩
  rintro v e w ⟨hs,hr⟩ hstep
  refine ⟨hs.step hstep,?_⟩
  cases hstep with
  | client e c requests pages hlink hstep => exact hr
  | server e d requests pages hlink hstep => exact (Server.recvs_of_step hstep).trans hr

/-- The connection transfers whole pages and fails no operation of the client. -/
theorem whole_of_clientLink {e : Client.Event} {requests pages : List UInt8} {unposted : ℕ}
    {queues : List UInt8 × List UInt8}
    (h : clientLink K L requests pages unposted e = some queues) : Whole K e := by
  cases e with
  | iterate => trivial
  | reap => trivial
  | finish => trivial
  | kernel e =>
    obtain ⟨requests',pages'⟩ := queues
    cases clientLink_kernel h with
    | send bytes hlen hroom => trivial
    | receive bytes hlen hp => exact hlen
    | postSend => trivial
    | postReceive => trivial

/-- A client that transfers whole pages reaps no error. -/
theorem paged_reaps {c : Client.View} (h : Paged K c) :
    ¬ ∃ res rest, res < 0 ∧ (c.ring.cq = .tx res :: rest ∨ ∃ data, c.ring.cq = .rx res data :: rest) := by
  rintro ⟨res,rest,hneg,hcq | ⟨data,hcq⟩⟩
  · have hpos := h.results.cqTx res (hcq ▸ List.mem_cons_self)
    omega
  · have hpos := h.results.cqRx res data (hcq ▸ List.mem_cons_self)
    omega

theorem paged_of_step {e : Event} (hv : Paged K v.client ∧ v.client.phase ≠ .failed)
    (hstep : Step K J L v e w) : Paged K w.client ∧ w.client.phase ≠ .failed := by
  cases hstep with
  | server e d requests pages hlink hstep => exact hv
  | client e c requests pages hlink hstep =>
    refine ⟨hv.1.step (whole_of_clientLink hlink) hstep,?_⟩
    cases hstep with
    | iterate hp => simp
    | reapSend res rest hp hcq hres => exact hv.2
    | reapRecv res data rest hp hcq hres => exact hv.2
    | reapFailed hp hcq => exact (paged_reaps hv.1 hcq).elim
    | finishLeave hp hcq hexit => simp
    | finishAgain hp hcq hbreak hloop => simp
    | kernel e c hp hmove => exact hv.2

theorem paged_of_path {es : List Event} (h : Path (Step K J L) (View.start K J) es v) :
    Paged K v.client ∧ v.client.phase ≠ .failed := by
  refine h.invariant (P := fun v => Paged K v.client ∧ v.client.phase ≠ .failed)
    (fun v e w hv hstep => paged_of_step hv hstep) ⟨Paged.start,?_⟩
  change (Client.View.start J).phase ≠ .failed
  unfold Client.View.start
  dsimp only
  split <;> simp

section Enabled
variable {s : State} {e : KernelEvent}

theorem client_kernel_enabled (hp : s.client.phase = .top ∨ s.client.phase = .reaping)
    (hlink : (clientLink K L s.requests s.pages s.server.proc.ring.txDone.length
      (.kernel e)).isSome)
    (hk : ∃ x, s.client.proc.ring.kernel s.client.proc.mem e = .ok x) :
    ∃ t, step K J clientNum L s (.client (.kernel e)) = .ok t := by
  obtain ⟨⟨mem,ring⟩,hk⟩ := hk
  obtain ⟨⟨requests,pages⟩,hlink⟩ := Option.isSome_iff_exists.mp hlink
  simp only [step,hlink,Client.step,if_pos hp,Process.kernel,hk]
  exact ⟨_,rfl⟩

theorem server_kernel_enabled (hp : s.server.phase = .running)
    (hlink : (serverLink K L s.requests s.pages (s.client.phase = .returned) (.kernel e)).isSome)
    (hk : ∃ x, s.server.proc.ring.kernel s.server.proc.mem e = .ok x) :
    ∃ t, step K J clientNum L s (.server (.kernel e)) = .ok t := by
  obtain ⟨⟨mem,ring⟩,hk⟩ := hk
  obtain ⟨⟨requests,pages⟩,hlink⟩ := Option.isSome_iff_exists.mp hlink
  simp only [step,hlink,Server.step,if_pos hp,Process.kernel,hk]
  exact ⟨_,rfl⟩

end Enabled

section Stuck
variable {s : State} {forth back : List (List UInt8)}

/-- The kernel can move nothing on either side, and nothing waits to be reaped. -/
structure Blocked (K : Consts) (L : Link) (s : State) : Prop where
  client : ∀ {e : KernelEvent},
    (clientLink K L s.requests s.pages s.server.proc.ring.txDone.length (.kernel e)).isSome →
    ¬ ∃ x, s.client.proc.ring.kernel s.client.proc.mem e = .ok x
  server : ∀ {e : KernelEvent},
    (serverLink K L s.requests s.pages (s.client.phase = .returned) (.kernel e)).isSome →
    ¬ ∃ x, s.server.proc.ring.kernel s.server.proc.mem e = .ok x
  clientCq : (view K s).client.ring.cq = []
  serverCq : (view K s).server.ring.cq = []

/-- What has been executed is posted. -/
theorem Blocked.posted (h : Blocked K L s) :
    ((view K s).client.ring.txDone = [] ∧ (view K s).client.ring.rxDone = []) ∧
      (view K s).server.ring.txDone = [] ∧ (view K s).server.ring.rxDone = [] := by
  refine ⟨⟨?_,?_⟩,?_,?_⟩
  · by_contra hne
    exact h.client (by simp [clientLink]) (Ring.kernel_postTx hne)
  · by_contra hne
    exact h.client (by simp [clientLink]) (Ring.kernel_postRx hne)
  · by_contra hne
    exact h.server (by simp [serverLink]) (Ring.kernel_postTx hne)
  · by_contra hne
    exact h.server (by simp [serverLink]) (Ring.kernel_postRx hne)

/-- A server with a read posted has taken every request, and each was sent. -/
theorem Blocked.requests (h : Blocked K L s) (hi : Inv K s) (hr : Relay K J (view K s) forth back)
    (hroom : sizeofInt32 ≤ L.requestRoom) (hrx : 0 < (view K s).server.ring.rx) :
    forth = [] ∧ (view K s).client.ring.tx = [] := by
  have hreq : s.requests = forth.flatten := hr.requests
  have hforth : forth = [] := by
    cases hf : forth with
    | nil => rfl
    | cons bytes rest =>
      have hlen := hr.mem_forth bytes (by simp [hf])
      have hpre : bytes <+: s.requests := by
        rw [hreq,hf]
        exact List.prefix_append _ _
      refine (h.server (e := .execRx 0 bytes) ?_ (Ring.kernel_execRx hi.server.proc.typed
        hi.server.sq hrx hlen.le)).elim
      simp [serverLink,hlen,hpre]
  have hrequests : s.requests = [] := by simpa [hforth] using hreq
  refine ⟨hforth,?_⟩
  cases ht : (view K s).client.ring.tx with
  | nil => rfl
  | cons bytes rest =>
    have hlen := hr.mem_asked (List.mem_append_right _ (ht ▸ List.mem_cons_self))
    refine (h.client (e := .execTx 0 bytes) ?_ (Ring.kernel_execTx hi.client.sq ht)).elim
    simp [clientLink,hlen,hrequests,hroom]

/-- With no page on the way, the server has none to send. -/
theorem Blocked.pages (h : Blocked K L s) (hi : Inv K s) (hr : Relay K J (view K s) forth back)
    (hroom : K.pageLen ≤ L.pageRoom) (hback : back = []) : (view K s).server.ring.tx = [] := by
  have hpages : s.pages = [] := by
    have hpg : s.pages = back.flatten := hr.pages
    simpa [hback] using hpg
  cases ht : (view K s).server.ring.tx with
  | nil => rfl
  | cons bytes rest =>
    have hlen := hr.mem_answers (List.mem_append_right _ (ht ▸ List.mem_cons_self))
    refine (h.server (e := .execTx 0 bytes) ?_ (Ring.kernel_execTx hi.server.sq ht)).elim
    simp [serverLink,hlen,hpages,hroom]

/-- With a page on the way, the client has no receive to take it. -/
theorem Blocked.receives (h : Blocked K L s) (hi : Inv K s)
    (hr : Relay K J (view K s) forth back) (hback : back ≠ []) :
    (view K s).client.ring.rx = 0 := by
  by_contra hrx
  obtain ⟨bytes,rest,hb⟩ := List.exists_cons_of_ne_nil hback
  have hlen := hr.mem_back bytes (by simp [hb])
  have hpg : s.pages = back.flatten := hr.pages
  have hun : s.server.proc.ring.txDone.length = 0 := by
    have hlen := congrArg List.length h.posted.2.1
    simpa [view,Server.view,Process.view,Ring.view] using hlen
  have hread : readable K L s.pages s.server.proc.ring.txDone.length = s.pages := by
    simp [readable,hun]
  have hpre : bytes <+: s.pages := by
    rw [hpg,hb]
    exact List.prefix_append _ _
  refine h.client (e := .execRx 0 bytes) ?_ (Ring.kernel_execRx hi.client.proc.typed
    hi.client.sq (Nat.pos_of_ne_zero hrx) hlen.le)
  simp [clientLink,hlen,hread,hpre]

end Stuck

end FastNet.Simple.Connection
