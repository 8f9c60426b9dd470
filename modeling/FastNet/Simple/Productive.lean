import FastNet.Simple.Ending

/-! # The two windows and the two queues never block each other

While the condition of the client's loop holds, some step gets further: the kernel moves
an operation of either side, a completion is reaped, or the client queues an operation.
Where the kernel is stuck and nothing waits, counting what is left leaves the client
ahead of its answers by less than its windows, so its next iteration raises an index.
-/
namespace FastNet.Simple.Client
open Execution
variable {K : Consts} {J : Job} {s t : State}

theorem length_cq (s : State) : (view K s).ring.cq.length = s.proc.ring.cq.length := by
  simp [view,Process.view,Ring.view]

theorem Ready.iterate (hs : Ready K J s) (hn : J.numRequests ≤ intMax)
    (hmem : s.proc.mem.Supplies K.ringSize) (hp : s.phase = .top) :
    ∃ t, Client.step K J s .iterate = .ok t := by
  simp only [Client.step,if_pos hp]
  cases h : Client.iterate K J s with
  | ok t => exact ⟨t,rfl⟩
  | error why =>
    have hlt := (hs.iterate_error hn hmem h).2
    omega

/-- An iteration moves the indices to the edges of their windows, hands as many operations
to the ring, and reaps nothing. -/
theorem iterate_edges (hi : Inv K s) (h : Client.step K J s .iterate = .ok t) :
    t.phase = .reaping ∧ t.sendIndex = (view K s).sendEdge K J ∧
      t.recvIndex = (view K s).recvEdge K J ∧
      t.proc.ring.unreaped + s.sendIndex + s.recvIndex =
        s.proc.ring.unreaped + t.sendIndex + t.recvIndex ∧
      t.proc.ring.cq.length = s.proc.ring.cq.length := by
  obtain ⟨hit,hstep⟩ := step_view hi h
  have hs := (view K s).le_sendEdge (K := K) (J := J)
  have hr := (view K s).le_recvEdge (K := K) (J := J)
  rw [unreaped_eq hi,unreaped_eq hit,← length_cq (K := K),← length_cq (K := K)]
  change (view K t).phase = _ ∧ (view K t).sendIndex = _ ∧ (view K t).recvIndex = _ ∧
    _ + (view K s).sendIndex + (view K s).recvIndex =
      _ + (view K t).sendIndex + (view K t).recvIndex ∧ _
  generalize view K t = w at hstep ⊢
  cases hstep with
  | iterate hp =>
    refine ⟨rfl,rfl,rfl,?_,rfl⟩
    simp only [RingView.sends,RingView.recvs,View.posted,View.sent,List.length_append,
      List.length_map,List.length_range']
    omega

theorem Ready.reap (hs : Ready K J s) (hn : J.numRequests ≤ intMax) (hp : s.phase = .reaping)
    (hcq : s.proc.ring.cq ≠ []) : ∃ t, Client.step K J s .reap = .ok t := by
  obtain ⟨e,rest,hcq⟩ := List.exists_cons_of_ne_nil hcq
  simp only [Client.step,if_pos hp,hcq]
  cases h : Client.reap K s e rest with
  | ok t => exact ⟨t,rfl⟩
  | error why => exact (hs.reap_ne_error hn hcq h).elim

/-- The exit in the middle of the loop is not due before the condition of the loop fails:
what is received is less than the total while a receive is left to queue. -/
theorem not_break {v : View} (hv : Paged K v) (hc : Counts K J v)
    (hfits : J.numRequests * K.pageLen < sizeMod)
    (hloop : loopCondition J v.sendIndex v.recvIndex) :
    ¬ breakCondition K J v.totalReceived v.sendIndex := by
  rintro ⟨htotal,hsent⟩
  have hrecv : v.recvIndex < J.numRequests := hloop.resolve_left (by omega)
  have hiter : v.iterationsReceived < J.numRequests := by
    have hrecvs := hc.recvs
    omega
  have hlt := Nat.mul_lt_mul_of_pos_right hiter K.pageLen_pos
  rw [totalExpectedReceived,hv.total,Nat.mod_eq_of_lt hfits,
    Nat.mod_eq_of_lt (hlt.trans hfits)] at htotal
  omega

end FastNet.Simple.Client

namespace FastNet.Simple.Server
open Execution
variable {K : Consts} {clientNum : ℕ} {s t : State}

theorem length_cq (s : State) : (view s).ring.cq.length = s.proc.ring.cq.length := by
  simp [view,Process.view,Ring.view]

theorem Ready.serve (hs : Ready K s) (hring : 2 ≤ K.ringSize) (hmem : s.proc.mem.Supplies 1)
    (hp : s.phase = .running) (hcq : s.proc.ring.cq ≠ []) :
    ∃ t, Server.step K clientNum s .serve = .ok t := by
  obtain ⟨e,rest,hcq⟩ := List.exists_cons_of_ne_nil hcq
  simp only [Server.step,if_pos hp,hcq]
  cases h : Server.serve K clientNum s e rest with
  | ok t => exact ⟨t,rfl⟩
  | error why => exact ((serve_error hs hring hcq h).2 hmem).elim

end FastNet.Simple.Server

namespace FastNet.Simple.Connection
open Execution Client
variable (K : Consts) (J : Job) (clientNum : ℕ) (L : Link)

/-- The client can queue a send or a receive: the iteration it is at the head of, or that
after the pass it is at the end of, raises an index and leaves more operations in the
ring. -/
def Queues (s : State) : Prop :=
  ∃ es t, (es = [.client .iterate] ∨ es = [.client .finish,.client .iterate]) ∧
    execute (step K J clientNum L) s es = .ok t ∧
    (s.client.sendIndex < t.client.sendIndex ∨ s.client.recvIndex < t.client.recvIndex) ∧
    s.client.proc.ring.unreaped < t.client.proc.ring.unreaped

variable {K J clientNum L} {s t : State}

/-- The client's own steps go through on any connection. -/
theorem step_client {e : Client.Event} (he : ∀ k, e ≠ .kernel k) {c : Client.State}
    (h : Client.step K J s.client e = .ok c) :
    step K J clientNum L s (.client e) = .ok { s with client := c } := by
  cases e with
  | kernel k => exact (he k rfl).elim
  | iterate | reap | finish => simp only [step,clientLink,h]; rfl

section Good
variable (hg : Good K J L s) (hn : J.numRequests ≤ intMax)
  (hmem : s.client.proc.mem.Supplies K.ringSize)
include hg hn hmem

/-- Where a window is open, the next iteration queues an operation. -/
theorem Good.queues (hfits : J.numRequests * K.pageLen < sizeMod)
    (hp : s.client.phase = .top ∨ s.client.phase = .reaping) (hcq : s.client.proc.ring.cq = [])
    (hloop : loopCondition J s.client.sendIndex s.client.recvIndex)
    (ho : Open K J (view K s).client) : Queues K J clientNum L s := by
  obtain ⟨es,hpath⟩ := hg.path
  have hedges := edges_of_open ho (counts_of_path hpath)
  have hqueues : ∀ u : Client.State, Client.Ready K J u → u.phase = .top →
      u.proc = s.client.proc → Client.view K u = { Client.view K s.client with phase := .top } →
      ∃ c, Client.step K J u .iterate = .ok c ∧
        (s.client.sendIndex < c.sendIndex ∨ s.client.recvIndex < c.recvIndex) ∧
        s.client.proc.ring.unreaped < c.proc.ring.unreaped := by
    intro u hu hphase hproc hview
    obtain ⟨c,hc⟩ := hu.iterate hn (hproc ▸ hmem) hphase
    obtain ⟨-,hsend,hrecv,hunreaped,-⟩ := iterate_edges hu.inv hc
    have hus : u.sendIndex = s.client.sendIndex := congrArg Client.View.sendIndex hview
    have hur : u.recvIndex = s.client.recvIndex := congrArg Client.View.recvIndex hview
    have hse : (Client.view K u).sendEdge K J = (Client.view K s.client).sendEdge K J := by
      rw [hview]; rfl
    have hre : (Client.view K u).recvEdge K J = (Client.view K s.client).recvEdge K J := by
      rw [hview]; rfl
    rw [hus,hur,hproc] at hunreaped
    rw [hse] at hsend
    rw [hre] at hrecv
    have hlt : s.client.sendIndex + s.client.recvIndex < c.sendIndex + c.recvIndex := by
      rw [hsend,hrecv]
      exact hedges
    exact ⟨c,hc,by omega,by omega⟩
  rcases hp with hp | hp
  · obtain ⟨c,hc,hindex,hlt⟩ := hqueues s.client hg.client hp rfl (by simp [Client.view,hp])
    exact ⟨_,{ s with client := c },Or.inl rfl,
      execute_cons_ok.mpr ⟨_,step_client (by simp) hc,rfl⟩,hindex,hlt⟩
  · have hfinish : Client.step K J s.client .finish = .ok (Client.finish K J s.client) :=
      if_pos ⟨hp,hcq⟩
    have hbreak : ¬ breakCondition K J s.client.totalReceived s.client.sendIndex :=
      not_break (paged_of_path hpath).1 (counts_of_path hpath) hfits hloop
    have htop : Client.finish K J s.client = { s.client with phase := .top } := by
      rw [Client.finish,if_neg hbreak,Client.testLoop,if_pos hloop]
    rw [htop] at hfinish
    obtain ⟨c,hc,hindex,hlt⟩ := hqueues { s.client with phase := .top }
      (hg.client.step hn hfinish) rfl rfl rfl
    refine ⟨_,{ s with client := c },Or.inr rfl,?_,hindex,hlt⟩
    exact execute_cons_ok.mpr ⟨_,step_client (by simp) hfinish,
      execute_cons_ok.mpr ⟨_,step_client (by simp) hc,rfl⟩⟩

end Good

end FastNet.Simple.Connection
