import FastNet.Max.ServerHeap
import FastNet.Max.Work

/-! # The max benchmark with its buffers

All connections, each handler with its pool and its heap. Without the buffers a run is
one of the benchmark that counts bytes, with the same total; the reads in flight have
live buffers of their own throughout, and as many are leaked as a ring has entries.
-/
namespace FastNet.Max.Buffers
open Execution Simple
open Simple.Client (Job threadJob)

structure Conn where
  client : Client.State
  handler : Server.OnHeap.State
  /-- The bytes on their way from the client to the server. -/
  stream : ℕ

structure State where
  conns : ℕ → Conn
  /-- `total_bytes_received`. -/
  total : ℕ

inductive Event
  | client (e : Client.Event)
  | handler (e : Server.OnHeap.Event)

/-- The connection without the buffers. -/
def Conn.view (c : Conn) : Accounting.Conn := ⟨c.client,c.handler.view,c.stream⟩

def State.view (s : State) : Accounting.State := ⟨fun i => (s.conns i).view,s.total⟩

def Event.forget : Event → Accounting.Event
  | .client e => .client e
  | .handler .take => .handler .take
  | .handler (.kernel e) => .handler (.kernel e.forget)

variable (K : Consts) (J : Job)

/-- The bytes left after what the kernel of the handler does. -/
def streamAfter (c : Accounting.Conn) : ResultRing.Event → Except Stop ℕ
  | .exec res => Accounting.readStream c res
  | .post _ => .ok c.stream

/-- One event of a connection, with the total. -/
def connStep (c : Conn) (total : ℕ) : Event → Except Stop (Conn × ℕ)
  | .client e => do
    let client ← Client.step K J c.client e
    return ({ c with client := client, stream := c.stream + (e.result.map Int.toNat).sum },total)
  | .handler .take => do
    let (handler,total) ← Server.OnHeap.take K c.handler total
    return ({ c with handler := handler },total)
  | .handler (.kernel e) => do
    let stream ← streamAfter c.view e.forget
    let proc ← c.handler.proc.kernel e
    return ({ c with handler := { c.handler with proc := proc }, stream := stream },total)

variable (numRequests clientThreads : ℕ)

/-- An event of one of the connections. -/
def step (s : State) (ie : ℕ × Event) : Except Stop State :=
  if ie.1 < clientThreads then do
    let (c,total) ← connStep K (threadJob numRequests clientThreads ie.1) (s.conns ie.1) s.total ie.2
    return ⟨Function.update s.conns ie.1 c,total⟩
  else .error .disabled

/-- All clients and handlers at their start, each handler on some heap. -/
structure Starts (s : State) : Prop where
  total : s.total = 0
  conn : ∀ i, ∃ header bytes supply handler,
    Server.OnHeap.start K header bytes supply = .ok handler ∧
      s.conns i = ⟨Client.start K (threadJob numRequests clientThreads i),handler,0⟩

/-- Every handler keeps account of its buffers. -/
def Inv (s : State) : Prop := ∀ i, Server.OnHeap.Inv K (s.conns i).handler

variable {K J numRequests clientThreads} {c d : Conn} {s s0 t : State} {total total' : ℕ}

theorem Starts.view (h0 : Starts K numRequests clientThreads s0) :
    Inv K s0 ∧ Accounting.start K numRequests clientThreads = .ok s0.view := by
  have hone (i : ℕ) : Server.OnHeap.Inv K (s0.conns i).handler ∧
      Server.start K = .ok (s0.conns i).handler.view := by
    obtain ⟨header,bytes,supply,handler,hstart,hconn⟩ := h0.conn i
    rw [hconn]
    exact Server.OnHeap.start_ok hstart
  refine ⟨fun i => (hone i).1,bind_ok.mpr ⟨_,(hone 0).2,congrArg Except.ok ?_⟩⟩
  have hconns (i : ℕ) : (s0.conns i).view =
      ⟨Client.start K (threadJob numRequests clientThreads i),(s0.conns 0).handler.view,0⟩ := by
    have hsame : (s0.conns i).handler.view = (s0.conns 0).handler.view :=
      Except.ok.inj ((hone i).2.symm.trans (hone 0).2)
    obtain ⟨header,bytes,supply,handler,-,hconn⟩ := h0.conn i
    rw [Conn.view,hsame,hconn]
  simp only [State.view,hconns,h0.total]

section Steps

theorem connStep_ok (hi : Server.OnHeap.Inv K c.handler) {e : Event}
    (h : connStep K J c total e = .ok (d,total')) : Server.OnHeap.Inv K d.handler ∧
      Accounting.connStep K J c.view total e.forget = .ok (d.view,total') := by
  cases e with
  | client e =>
    obtain ⟨client,hclient,h⟩ := bind_ok.mp h
    cases h
    exact ⟨hi,bind_ok.mpr ⟨client,hclient,rfl⟩⟩
  | handler e =>
    cases e with
    | take =>
      obtain ⟨⟨handler,total''⟩,htake,h⟩ := bind_ok.mp h
      cases h
      obtain ⟨hi',htake'⟩ := hi.take_ok htake
      exact ⟨hi',bind_ok.mpr ⟨_,htake',rfl⟩⟩
    | kernel e =>
      obtain ⟨stream,hstream,h⟩ := bind_ok.mp h
      obtain ⟨proc,hproc,h⟩ := bind_ok.mp h
      cases h
      obtain ⟨hi',hring⟩ := hi.kernel hproc
      refine ⟨hi',?_⟩
      cases hforget : e.forget with
      | exec res =>
        rw [hforget] at hstream hring
        simp only [Event.forget,hforget]
        exact bind_ok.mpr ⟨stream,hstream,bind_ok.mpr ⟨_,hring,rfl⟩⟩
      | post i =>
        rw [hforget] at hstream hring
        obtain rfl : c.stream = stream := Except.ok.inj hstream
        simp only [Event.forget,hforget]
        exact bind_ok.mpr ⟨_,hring,rfl⟩

theorem readStream_error {c : Accounting.Conn} {res : ℤ} {why : Stop}
    (h : Accounting.readStream c res = .error why) : why = .disabled := by
  unfold Accounting.readStream at h
  split at h
  · split at h <;> cases h
    rfl
  · split at h
    · split at h <;> cases h
      rfl
    · cases h

theorem connStep_error (hi : Server.OnHeap.Inv K c.handler) (hf : Work.Filled K c.handler.view)
    {e : Event} {why : Stop} (h : connStep K J c total e = .error why) : why = .disabled := by
  cases e with
  | client e =>
    rcases bind_error.mp h with h | ⟨client,-,h⟩
    · exact Work.client_error h
    · cases h
  | handler e =>
    cases e with
    | take =>
      rcases bind_error.mp h with h | ⟨x,-,h⟩
      · exact Work.take_error hf (hi.take_error h)
      · cases h
    | kernel e =>
      rcases bind_error.mp h with h | ⟨stream,-,h⟩
      · cases hforget : e.forget with
        | exec res =>
          rw [hforget] at h
          exact readStream_error h
        | post i =>
          rw [hforget] at h
          cases h
      · rcases bind_error.mp h with h | ⟨proc,-,h⟩
        · exact Process.kernel_error h
        · cases h

theorem step_ok {ie : ℕ × Event} (hi : Inv K s)
    (h : step K numRequests clientThreads s ie = .ok t) : Inv K t ∧
      Accounting.step K numRequests clientThreads s.view (ie.1,ie.2.forget) = .ok t.view := by
  unfold step at h
  split at h
  · rename_i hlt
    obtain ⟨⟨c,total⟩,hconn,h⟩ := bind_ok.mp h
    cases h
    obtain ⟨hi',hconn'⟩ := connStep_ok (hi ie.1) hconn
    constructor
    · intro j
      by_cases hj : j = ie.1
      · subst hj
        simpa using hi'
      · simpa [Function.update_of_ne hj] using hi j
    · refine (if_pos hlt).trans (bind_ok.mpr ⟨_,hconn',congrArg Except.ok ?_⟩)
      simp only [State.view]
      congr 1
      funext j
      by_cases hj : j = ie.1
      · subst hj
        simp
      · simp [Function.update_of_ne hj]
  · cases h

theorem step_error {ie : ℕ × Event} (hi : Inv K s)
    (hs : Work.Served K numRequests clientThreads s.view) {why : Stop}
    (h : step K numRequests clientThreads s ie = .error why) : why = .disabled := by
  unfold step at h
  split at h
  · rename_i hlt
    rcases bind_error.mp h with h | ⟨x,-,h⟩
    · exact connStep_error (hi ie.1) (hs.filled ie.1 hlt) h
    · cases h
  · cases h
    rfl

end Steps

section Small

/-- One connection on an allocator that never hands out an address twice. -/
def smallStart : Except Stop State := do
  let handler ← Server.OnHeap.start Consts.small (fun _ => ⟨(0,0),.readEvent,0⟩) (fun _ => [])
    Process.countingSupply
  return ⟨fun i => ⟨Client.start Consts.small (threadJob 1 1 i),handler,0⟩,0⟩

theorem starts_small (h : smallStart = .ok s0) : Starts Consts.small 1 1 s0 := by
  obtain ⟨handler,hstart,h⟩ := bind_ok.mp h
  cases h
  exact ⟨rfl,fun i => ⟨_,_,_,handler,hstart,rfl⟩⟩

/-- A page is sent and counted, and the handler sees the end of the connection. -/
def pageCounted : List (ℕ × Event) :=
  [(0,.client .iterate),(0,.client (.kernel (.exec 4))),
    (0,.handler (.kernel (.execRx 0 [0,0,0,0]))),(0,.handler (.kernel (.postRx 0))),
    (0,.handler .take),(0,.client (.kernel (.post 0))),(0,.client .reap),(0,.client .finish),
    (0,.handler (.kernel (.execRx 0 []))),(0,.handler (.kernel (.postRx 0))),(0,.handler .take)]

theorem run_small : ∃ s0 s, Starts Consts.small 1 1 s0 ∧
    execute (step Consts.small 1 1) s0 pageCounted = .ok s ∧
      (s.conns 0).handler.phase = .returned ∧ s.total = 4 := by
  have hrun : yields (smallStart >>= fun s0 => execute (step Consts.small 1 1) s0 pageCounted)
      (fun s => decide ((s.conns 0).handler.phase = .returned ∧ s.total = 4)) = true := by
    decide +kernel
  obtain ⟨s,hs,htest⟩ := exists_of_yields hrun
  obtain ⟨s0,h0,hs⟩ := bind_ok.mp hs
  exact ⟨s0,s,starts_small h0,hs,of_decide_eq_true htest⟩

end Small

section Runs
variable {es : List (ℕ × Event)}

theorem inv_of_run (h0 : Starts K numRequests clientThreads s0)
    (h : execute (step K numRequests clientThreads) s0 es = .ok s) : Inv K s :=
  execute_invariant (fun _ _ _ hi ht => (step_ok hi ht).1) h h0.view.1

/-- Every run of the benchmark is, without the buffers, one of the benchmark that counts
bytes only, and no step goes wrong: the pool's destructor finds what it frees, and an
entry of the ring is there for each read. -/
theorem buffers_unnoticed (h0 : Starts K numRequests clientThreads s0) (es : List (ℕ × Event)) :
    Accounting.start K numRequests clientThreads = .ok s0.view ∧
      match execute (step K numRequests clientThreads) s0 es with
      | .ok s => execute (Accounting.step K numRequests clientThreads) s0.view
          (es.map fun ie => (ie.1,ie.2.forget)) = .ok s.view
      | .error why => why = .disabled := by
  obtain ⟨hi0,hstart⟩ := h0.view
  refine ⟨hstart,?_⟩
  split
  · rename_i s h
    rw [List.map_eq_flatMap]
    refine (execute_simulates (P := Inv K) State.view ?_ h hi0).2
    intro s ie t hi ht
    obtain ⟨hi',hview⟩ := step_ok hi ht
    exact ⟨hi',execute_cons_ok.mpr ⟨_,hview,rfl⟩⟩
  · rename_i why h
    refine execute_error (P := fun s => Inv K s ∧ Work.Served K numRequests clientThreads s.view)
      (Q := fun why => why = .disabled) ?_ ?_ h ⟨hi0,(Work.Served.of_start hstart).1⟩
    · rintro s ie t ⟨hi,hs⟩ ht
      obtain ⟨hi',hview⟩ := step_ok hi ht
      exact ⟨hi',(hs.step hview).1⟩
    · rintro s ie why ⟨hi,hs⟩ herr
      exact step_error hi hs herr

theorem buffers_unnoticed_small : ∃ s0 s, Starts Consts.small 1 1 s0 ∧
    execute (step Consts.small 1 1) s0 pageCounted = .ok s ∧
      execute (Accounting.step Consts.small 1 1) s0.view
        (pageCounted.map fun ie => (ie.1,ie.2.forget)) = .ok s.view ∧ s.view.total = 4 := by
  obtain ⟨s0,s,h0,hs,-,htotal⟩ := run_small
  have hrun := (buffers_unnoticed h0 pageCounted).2
  rw [hs] at hrun
  exact ⟨s0,s,h0,hs,hrun,htotal⟩

/-- In every run the reads of a handler in flight have live buffers of their own, apart
from the ones in its pool. When the handler has returned, the pool is gone and as many
buffers as the ring has entries are left: those of the reads still in flight, to which
the kernel may go on to write, and the one of the last completion. -/
theorem reads_keep_buffers (h0 : Starts K numRequests clientThreads s0)
    (h : execute (step K numRequests clientThreads) s0 es = .ok s) (i : ℕ) :
    (s.conns i).handler.proc.ring.addrs.Nodup ∧
      (∀ a ∈ (s.conns i).handler.proc.ring.addrs,
        (a,K.pageBuffer) ∈ (s.conns i).handler.proc.mem.live ∧
          a ∉ (BufferPool.filed (s.conns i).handler.proc.pool.pools).map Prod.fst) ∧
      ((s.conns i).handler.phase = .returned →
        (s.conns i).handler.proc.ring.addrs.length + 1 = K.ringSize ∧
          (s.conns i).handler.proc.mem.live.length = K.ringSize) := by
  have hi := inv_of_run h0 h i
  exact ⟨hi.apart.1,hi.apart.2,hi.leaked⟩

theorem reads_keep_buffers_small : ∃ s0 s, Starts Consts.small 1 1 s0 ∧
    execute (step Consts.small 1 1) s0 pageCounted = .ok s ∧
      (s.conns 0).handler.proc.ring.addrs.length = 3 ∧
        (s.conns 0).handler.proc.mem.live.length = 4 := by
  obtain ⟨s0,s,h0,hs,hp,-⟩ := run_small
  obtain ⟨hflight,hlive⟩ := (reads_keep_buffers h0 hs 0).2.2 hp
  exact ⟨s0,s,h0,hs,Nat.succ.inj hflight,hlive⟩

end Runs

end FastNet.Max.Buffers
