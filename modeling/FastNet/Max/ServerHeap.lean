import FastNet.Foundation.ReceiveRing
import FastNet.Max.Server
import FastNet.Simple.Process

/-! # The handlers of max_server with their buffers

`event_loop` with its pool and its heap. The reads in flight have a buffer each, and
whatever a read brings, its buffer is posted again as it is. The loop ends with the
destruction of the pool, while other reads are still in flight; the kernel goes on.
-/
namespace FastNet.Max.Server.OnHeap
open Execution Simple

structure State where
  proc : Process
  phase : Phase
  received : ℕ

inductive Event
  | take
  | kernel (e : KernelEvent)

variable (K : Consts)

/-- `add_read_request`. -/
def addReadRequest (P : Process) (req : Addr) : Except Stop Process :=
  P.requeue req { P.mem.header req with eventType := .readEvent, bufferOffset := 0 } .recv K.pageLen

/-- The loop that posts the first reads. -/
def addReadRequests : ℕ → Process → Except Stop Process
  | 0, P => .ok P
  | n + 1, P => do
    let (req,pool,mem) ← P.pool.allocate P.mem K.pageBuffer
    let P ← addReadRequest K ⟨mem,pool,P.ring⟩ req
    addReadRequests n P

/-- The state in which the first completion is waited for. -/
def start (header : Addr → RequestData) (bytes : Addr → List UInt8)
    (supply : ℕ → Block RequestData) : Except Stop State := do
  let (pool,mem) ← BufferPool.construct [K.pageBuffer] bufferPoolInitialPoolSize
    (Heap.fresh header bytes supply)
  let proc ← addReadRequests K K.ringSize ⟨mem,pool,.queueInit K.ringSize⟩
  return ⟨proc.submit,.running,0⟩

/-- The handling of the first completion, with `total_bytes_received`; the pool does not
outlive the loop. -/
def take (s : State) (total : ℕ) : Except Stop (State × ℕ) :=
  match s.phase, s.proc.ring.cq with
  | .running, e :: rest =>
    if e.res ≤ 0 then do
      let proc := s.proc.seen rest
      let mem ← proc.pool.destroy proc.mem
      return ({ s with proc := ⟨mem,⟨[]⟩,proc.ring⟩, phase := .returned },total)
    else do
      let proc ← addReadRequest K s.proc e.userData
      return ({ s with
        proc := (proc.seen rest).submit
        received := s.received + e.res.toNat },(total + e.res.toNat) % sizeMod)
  | _, _ => .error .disabled

/-- The handler without its buffers. -/
def State.view (s : State) : Server.State := ⟨s.proc.ring.results,s.phase,s.received⟩

/-- Buffers for one read each. -/
def buffers (reqs : List Addr) : List (Addr × ℕ) := reqs.map (fun a => (a,K.pageBuffer))

/-- The live blocks are the free ones of the pool, the buffers of the reads that are not
taken off and the one of the read that the loop ended with. -/
structure Inv (s : State) : Prop where
  receives : s.proc.ring.Receives K.pageLen
  conserved : ∃ spent, spent.length = (if s.phase = .returned then 1 else 0) ∧
    (spent ++ s.proc.ring.addrs).length = K.ringSize ∧
    BufferPool.Conserved s.proc.mem s.proc.pool (buffers K (spent ++ s.proc.ring.addrs))
  destroyed : s.phase = .returned → s.proc.pool.pools = []

variable {K} {P P' : Process} {s t : State} {total total' : ℕ} {req : Addr}
  {held held' : List (Addr × ℕ)}

theorem conserved_perm {m : Heap RequestData} {p : BufferPool}
    (h : BufferPool.Conserved m p held) (hp : held.Perm held') : BufferPool.Conserved m p held' :=
  (hp.symm.append_left _).trans h

/-- Handing a block out to the caller keeps count of it. -/
theorem conserved_allocate {m m' : Heap RequestData} {p p' : BufferPool} {size : ℕ}
    (hc : BufferPool.Conserved m p held) (h : p.allocate m size = .ok (req,p',m')) :
    BufferPool.Conserved m' p' ((req,size) :: held) := by
  rcases BufferPool.allocate_cases h with ⟨-,rfl,hperm⟩ | ⟨-,rfl,hmalloc⟩
  · exact (List.perm_middle.trans (hperm.symm.append_right held)).trans hc
  · exact hc.malloc hmalloc List.perm_middle

theorem addReadRequest_ok (hr : P.ring.Receives K.pageLen)
    (h : addReadRequest K P req = .ok P') :
    P'.ring.Receives K.pageLen ∧ Server.addReadRequest P.ring.results = .ok P'.ring.results ∧
      P'.ring.addrs.Perm (req :: P.ring.addrs) ∧ P'.ring.cq = P.ring.cq ∧
      P'.mem.live = P.mem.live ∧ P'.pool = P.pool := by
  obtain ⟨ring,hqueue,h⟩ := bind_ok.mp h
  cases h
  obtain ⟨hr',hget,hperm⟩ := hr.queue hqueue
  refine ⟨hr',?_,hperm,?_,rfl,rfl⟩
  · simp only [Server.addReadRequest,hget]
  · rw [(Ring.queue_ok hqueue).1]

theorem addReadRequest_error {why : Stop} (h : addReadRequest K P req = .error why) :
    Server.addReadRequest P.ring.results = .error why := by
  obtain ⟨rfl,hroom⟩ := Process.requeue_error h
  simp only [Server.addReadRequest,ResultRing.getSqe]
  rw [if_neg]
  exact hroom

section Start

theorem addReadRequests_ok {n : ℕ} (hr : P.ring.Receives K.pageLen)
    (hc : BufferPool.Conserved P.mem P.pool (buffers K P.ring.addrs))
    (h : addReadRequests K n P = .ok P') :
    P'.ring.Receives K.pageLen ∧ Server.addReadRequests n P.ring.results = .ok P'.ring.results ∧
      BufferPool.Conserved P'.mem P'.pool (buffers K P'.ring.addrs) ∧
      P'.ring.addrs.length = P.ring.addrs.length + n := by
  induction n generalizing P with
  | zero =>
    cases h
    exact ⟨hr,rfl,hc,rfl⟩
  | succ n ih =>
    obtain ⟨⟨req,pool,mem⟩,halloc,h⟩ := bind_ok.mp h
    obtain ⟨P1,hadd,h⟩ := bind_ok.mp h
    obtain ⟨hr1,hview,hperm,-,hlive,hpool⟩ :=
      addReadRequest_ok (P := ⟨mem,pool,P.ring⟩) hr hadd
    have hc1 : BufferPool.Conserved P1.mem P1.pool (buffers K P1.ring.addrs) := by
      have hnew := conserved_allocate hc halloc
      unfold BufferPool.Conserved at hnew ⊢
      rw [hlive,hpool]
      exact ((hperm.map _).append_left _).trans hnew
    obtain ⟨hr',hview',hc',hlen⟩ := ih hr1 hc1 h
    refine ⟨hr',bind_ok.mpr ⟨_,hview,hview'⟩,hc',?_⟩
    have hone : P1.ring.addrs.length = P.ring.addrs.length + 1 := hperm.length_eq
    omega

theorem start_ok {header : Addr → RequestData} {bytes : Addr → List UInt8}
    {supply : ℕ → Block RequestData} (h : start K header bytes supply = .ok s) :
    Inv K s ∧ Server.start K = .ok s.view := by
  obtain ⟨⟨pool,mem⟩,hcons,h⟩ := bind_ok.mp h
  obtain ⟨P,hadd,h⟩ := bind_ok.mp h
  cases h
  obtain ⟨hr,hview,hc,hlen⟩ := addReadRequests_ok
    (P := ⟨mem,pool,.queueInit K.ringSize⟩) (Ring.receives_queueInit _ _)
    (BufferPool.Conserved.construct hcons) hadd
  obtain ⟨hsub,hsubview⟩ := hr.submit
  refine ⟨⟨hsub,⟨[],rfl,?_,?_⟩,fun hp => by cases hp⟩,?_⟩
  · have hinit : (Ring.queueInit K.ringSize).addrs.length = 0 := rfl
    rw [List.nil_append,Process.submit,Ring.submit_addrs,hlen,hinit,Nat.zero_add]
  · simpa [Process.submit] using hc
  · refine bind_ok.mpr ⟨_,hview,?_⟩
    simp only [State.view,Process.submit,hsubview]
    rfl

end Start

section Steps

/-- The buffer of a completion is the one the next read of the handler gets. -/
theorem Inv.take_ok (hi : Inv K s) (h : take K s total = .ok (t,total')) :
    Inv K t ∧ Server.take s.view total = .ok (t.view,total') := by
  obtain ⟨spent,hspent,hlen,hc⟩ := hi.conserved
  unfold take at h
  split at h
  · rename_i e rest hp hcq
    have hview : s.view.ring.cq = e.res :: rest.map Cqe.res := by
      simp [State.view,Ring.results,hcq]
    have hp' : s.view.phase = .running := hp
    have hreap := Ring.addrs_reap hcq
    rw [hp,if_neg (by decide)] at hspent
    obtain rfl := List.eq_nil_of_length_eq_zero hspent
    rw [List.nil_append] at hlen hc
    split at h
    · rename_i hres
      obtain ⟨mem,hdestroy,h⟩ := bind_ok.mp h
      cases h
      obtain ⟨mem',hdestroy',hlive,-⟩ := (conserved_perm hc (hreap.map _)).destroy
      cases hdestroy'.symm.trans hdestroy
      refine ⟨⟨(hi.receives.seen rest).1,⟨[e.userData],rfl,?_,hlive⟩,fun _ => rfl⟩,?_⟩
      · rw [← hlen,hreap.length_eq]
        rfl
      · simp only [Server.take,hp',hview]
        exact if_pos hres
    · rename_i hres
      obtain ⟨P,hadd,h⟩ := bind_ok.mp h
      cases h
      obtain ⟨hr,hget,hperm,hcq',hlive,hpool⟩ := addReadRequest_ok hi.receives hadd
      obtain ⟨hsub,hsubview⟩ := (hr.seen rest).1.submit
      have hsame : (P.seen rest).submit.ring.addrs.Perm s.proc.ring.addrs := by
        rw [Process.submit,Ring.submit_addrs]
        exact ((Ring.addrs_reap (hcq'.trans hcq)).symm.trans hperm).cons_inv
      refine ⟨⟨hsub,⟨[],?_,?_,?_⟩,?_⟩,?_⟩
      · rw [hp]
        rfl
      · rw [← hlen]
        exact hsame.length_eq
      · unfold BufferPool.Conserved at hc ⊢
        change (BufferPool.filed P.pool.pools ++ _).Perm P.mem.live
        rw [hlive,hpool]
        exact ((hsame.map _).append_left _).trans hc
      · intro hret
        cases hp.symm.trans hret
      · have hview' : (P.seen rest).submit.ring.results =
            (P.ring.results.seen (rest.map Cqe.res)).submit := hsubview
        simp only [Server.take,hp',hview]
        refine (if_neg hres).trans (bind_ok.mpr ⟨_,hget,?_⟩)
        rw [← hview',State.view,hp]
        rfl
  · cases h

theorem Inv.take_error (hi : Inv K s) {why : Stop} (h : take K s total = .error why) :
    Server.take s.view total = .error why := by
  obtain ⟨spent,hspent,-,hc⟩ := hi.conserved
  unfold take at h
  split at h
  · rename_i e rest hp hcq
    have hview : s.view.ring.cq = e.res :: rest.map Cqe.res := by
      simp [State.view,Ring.results,hcq]
    have hp' : s.view.phase = .running := hp
    split at h
    · -- the pool has what it frees
      rw [hp,if_neg (by decide)] at hspent
      obtain rfl := List.eq_nil_of_length_eq_zero hspent
      obtain ⟨mem,hdestroy,-⟩ := (conserved_perm hc ((Ring.addrs_reap hcq).map _)).destroy
      rcases bind_error.mp h with h | ⟨mem',-,h⟩
      · cases hdestroy.symm.trans h
      · cases h
    · rename_i hres
      rcases bind_error.mp h with h | ⟨P,-,h⟩
      · simp only [Server.take,hp',hview]
        refine (if_neg hres).trans (bind_error.mpr (Or.inl ?_))
        exact addReadRequest_error h
      · cases h
  · rename_i hnot
    cases h
    unfold Server.take
    split
    · rename_i res rest hp hcq
      cases hring : s.proc.ring.cq with
      | nil => simp [State.view,Ring.results,hring] at hcq
      | cons e rest => exact absurd hring (hnot e rest hp)
    · rfl

/-- The kernel writes to buffers of reads in flight, also after the handler is gone. -/
theorem Inv.kernel (hi : Inv K s) {e : KernelEvent} (h : s.proc.kernel e = .ok P) :
    Inv K { s with proc := P } ∧
      s.view.ring.kernel K.pageLen e.forget = .ok P.ring.results := by
  obtain ⟨⟨mem,ring⟩,hk,h⟩ := bind_ok.mp h
  cases h
  obtain ⟨spent,hspent,hlen,hc⟩ := hi.conserved
  obtain ⟨hr,hview,hperm⟩ := hi.receives.kernel hk
  have hsame : (spent ++ ring.addrs).Perm (spent ++ s.proc.ring.addrs) := hperm.append_left spent
  refine ⟨⟨hr,⟨spent,hspent,?_,?_⟩,hi.destroyed⟩,hview⟩
  · rw [← hlen]
    exact hsame.length_eq
  · unfold BufferPool.Conserved at hc ⊢
    rw [Ring.kernel_mem hk]
    exact ((hsame.map _).append_left _).trans hc

/-- The reads in flight have live buffers of their own, and none of them is in the pool. -/
theorem Inv.apart (hi : Inv K s) : s.proc.ring.addrs.Nodup ∧
    ∀ a ∈ s.proc.ring.addrs, (a,K.pageBuffer) ∈ s.proc.mem.live ∧
      a ∉ (BufferPool.filed s.proc.pool.pools).map Prod.fst := by
  obtain ⟨spent,-,-,hc⟩ := hi.conserved
  have hfst : (buffers K (spent ++ s.proc.ring.addrs)).map Prod.fst =
      spent ++ s.proc.ring.addrs := by
    simp [buffers,Function.comp_def]
  have hnodup := hc.owned.nodup
  rw [List.map_append,hfst,List.nodup_append] at hnodup
  refine ⟨(List.nodup_append.mp hnodup.2.1).2.1,fun a ha => ⟨?_,fun hfiled => ?_⟩⟩
  · have hmem : (a,K.pageBuffer) ∈ buffers K (spent ++ s.proc.ring.addrs) :=
      List.mem_map_of_mem (List.mem_append_right _ ha)
    exact hc.owned.live _ (List.mem_append_right _ hmem)
  · exact hnodup.2.2 a hfiled a (List.mem_append_right _ ha) rfl

/-- The pool takes none of the buffers of the reads with it. -/
theorem Inv.leaked (hi : Inv K s) (hp : s.phase = .returned) :
    s.proc.ring.addrs.length + 1 = K.ringSize ∧ s.proc.mem.live.length = K.ringSize := by
  obtain ⟨spent,hspent,hlen,hc⟩ := hi.conserved
  rw [if_pos hp] at hspent
  rw [BufferPool.Conserved,hi.destroyed hp] at hc
  have hlive := hc.length_eq
  simp only [BufferPool.filed,List.flatMap_nil,List.nil_append,buffers,List.length_map] at hlive
  rw [List.length_append] at hlen hlive
  omega

end Steps

end FastNet.Max.Server.OnHeap
