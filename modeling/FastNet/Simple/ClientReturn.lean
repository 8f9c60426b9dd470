import FastNet.Foundation.Tiling
import FastNet.Simple.ClientView
import Mathlib.Algebra.BigOperators.Group.Finset.Basic
import Mathlib.Algebra.BigOperators.Ring.Finset

/-! # When the client thread returns

The counters bound each other in every run. With whole pages the total is the
number of reaped receives times the size of a page, so the thread returns with
everything reaped exactly when the kernel had posted every completion before the
last pass over the completion queue found it empty.
-/
namespace FastNet.Simple.Client
open Execution
variable {K : Consts} {J : Job}

/-- No operation fails and every receive that completes carries a full page. -/
def Whole (K : Consts) : Event → Prop
  | .kernel (.failTx _ _) => False
  | .kernel (.failRx _ _) => False
  | .kernel (.execRx _ bytes) => bytes.length = K.pageLen
  | _ => True

theorem Whole.brings {e : KernelEvent} (h : Whole K (.kernel e)) :
    RingView.Brings (fun res => 0 ≤ res) (fun res _ => res = K.pageLen) e := by
  cases e with
  | execTx i bytes => exact Int.natCast_nonneg _
  | failTx i err => exact h.elim
  | execRx i bytes => exact fun _ _ => congrArg Nat.cast h
  | failRx i err => exact h.elim
  | postTx i => trivial
  | postRx i => trivial

/-- What whole pages add to the counters. -/
structure Paged (K : Consts) (v : View) : Prop where
  results : v.ring.Results (fun res => 0 ≤ res) (fun res _ => res = K.pageLen)
  total : v.totalReceived = v.iterationsReceived * K.pageLen % sizeMod
  stored : v.phase = .returned → v.stored = some v.totalReceived

theorem Paged.step {v w : View} {e : Event} (he : Whole K e) (hv : Paged K v)
    (h : Step K J v e w) : Paged K w := by
  have hr := hv.results
  cases h with
  | iterate h =>
    exact ⟨⟨hr.txDone,hr.rxDone,hr.cqTx,hr.cqRx⟩,hv.total,fun h => by cases h⟩
  | reapSend res rest h hcq hres =>
    exact ⟨⟨hr.txDone,hr.rxDone,fun r hm => hr.cqTx r (hcq ▸ List.mem_cons_of_mem _ hm),
      fun r d hm => hr.cqRx r d (hcq ▸ List.mem_cons_of_mem _ hm)⟩,hv.total,hv.stored⟩
  | reapRecv res data rest h hcq hres =>
    refine ⟨⟨hr.txDone,hr.rxDone,fun r hm => hr.cqTx r (hcq ▸ List.mem_cons_of_mem _ hm),
      fun r d hm => hr.cqRx r d (hcq ▸ List.mem_cons_of_mem _ hm)⟩,?_,?_⟩
    · have hfull := hr.cqRx res data (hcq ▸ List.mem_cons_self)
      have hnat : res.toNat = K.pageLen := by omega
      change (v.totalReceived + res.toNat) % sizeMod = (v.iterationsReceived + 1) * K.pageLen % sizeMod
      rw [hv.total,hnat,Nat.mod_add_mod,Nat.succ_mul]
    · intro hp
      have hp : v.phase = .returned := hp
      rw [h] at hp
      cases hp
  | reapFailed h hcq => exact ⟨hr,hv.total,fun h => by cases h⟩
  | finishLeave h hcq hexit => exact ⟨hr,hv.total,fun _ => rfl⟩
  | finishAgain h hcq hbreak hloop => exact ⟨hr,hv.total,fun h => by cases h⟩
  | kernel e w h hmove =>
    refine ⟨hmove.results hr he.brings,hv.total,?_⟩
    intro hp
    have hp : v.phase = .returned := hp
    rcases h with h | h <;> rw [h] at hp <;> cases hp

theorem Paged.start : Paged K (View.start J) := by
  refine ⟨⟨?_,?_,?_,?_⟩,?_,?_⟩
  · intro r h
    cases h
  · intro r h
    cases h
  · intro r h
    cases h
  · intro r d h
    cases h
  · simp [View.start]
  · intro h
    unfold View.start at h ⊢
    dsimp only at h ⊢
    split at h
    · cases h
    · rename_i hl
      rw [if_neg hl]

/-- Everything the thread submitted is reaped, every request has its page, and the
stored total is that of all pages. -/
def Complete (K : Consts) (J : Job) (s : State) : Prop :=
  s.proc.ring.Drained ∧ s.iterationsReceived = J.numRequests ∧
    s.stored = some (J.numRequests * K.pageLen)

instance (K : Consts) (J : Job) (s : State) : Decidable (Complete K J s) := by
  unfold Complete; infer_instance

/-- At the end of the pass after the last submission, the kernel has posted the
completion of every operation. -/
def Settled (J : Job) (s : State) (e : Event) : Prop :=
  e = .finish → ¬ loopCondition J s.sendIndex s.recvIndex → s.proc.ring.Idle

section Returned
variable {s t : State}

theorem view_rx_of_idle (hi : Inv K s) (h : s.proc.ring.Idle) :
    (view K s).ring.rx = 0 ∧ (view K s).ring.rxDone = [] := by
  obtain ⟨-,-,hrx,hrxDone⟩ := h
  simp [view,Process.view,Ring.view,Ring.rxAll,hrx,hrxDone,hi.sq]

/-- Only the end of a pass leaves the loop. -/
theorem returned_of_step {e : Event} (hi : Inv K s) (h : step K J s e = .ok t)
    (ht : t.phase = .returned) :
    e = .finish ∧ s.phase = .reaping ∧ s.proc.ring.cq = [] ∧ t.proc = s.proc ∧
      t.sendIndex = s.sendIndex ∧ t.recvIndex = s.recvIndex ∧
      t.iterationsReceived = s.iterationsReceived ∧ t.totalReceived = s.totalReceived ∧
      (breakCondition K J s.totalReceived s.sendIndex ∨
        ¬ loopCondition J s.sendIndex s.recvIndex) := by
  have hstep := (step_view hi h).2
  have hphase : (view K t).phase = .returned := ht
  generalize hw : view K t = w at hstep hphase
  cases hstep with
  | iterate hp => cases hphase
  | reapSend res rest hp hcq hres =>
    have hp : s.phase = .reaping := hp
    have hphase : s.phase = .returned := hphase
    rw [hp] at hphase
    cases hphase
  | reapRecv res data rest hp hcq hres =>
    have hp : s.phase = .reaping := hp
    have hphase : s.phase = .returned := hphase
    rw [hp] at hphase
    cases hphase
  | reapFailed hp hcq => cases hphase
  | finishLeave hp hcq hexit =>
    obtain ⟨hp,hcq,rfl⟩ := step_finish h
    exact ⟨rfl,hp,hcq,finish_proc s,congrArg View.sendIndex hw,congrArg View.recvIndex hw,
      congrArg View.iterationsReceived hw,congrArg View.totalReceived hw,hexit⟩
  | finishAgain hp hcq hbreak hloop => cases hphase
  | kernel e w hp hmove =>
    have hphase : s.phase = .returned := hphase
    rcases hp with hp | hp
    · have hp : s.phase = .top := hp
      rw [hp] at hphase
      cases hphase
    · have hp : s.phase = .reaping := hp
      rw [hp] at hphase
      cases hphase

theorem step_returned {e : Event} (hs : s.phase = .returned) : step K J s e ≠ .ok t := by
  intro h
  cases e <;> simp [step,hs] at h

/-- With whole pages and no wrap-around, both exits of the loop need every request
to be sent and every receive to be posted. -/
theorem exit_submitted (hcounts : Counts K J (view K s)) (hpaged : Paged K (view K s))
    (hsize : J.numRequests * K.pageLen < sizeMod)
    (hexit : breakCondition K J s.totalReceived s.sendIndex ∨
      ¬ loopCondition J s.sendIndex s.recvIndex) :
    ¬ loopCondition J s.sendIndex s.recvIndex := by
  rcases hexit with hbreak | hloop
  · obtain ⟨hle,hsend⟩ := hbreak
    have hrecvs := hcounts.recvs
    have hrecv := hcounts.recv_le
    have hsend' := hcounts.send_le
    have htotal := hpaged.total
    simp only [view] at hrecvs hrecv hsend' htotal
    have hiter : s.iterationsReceived ≤ J.numRequests := by omega
    have hmul : s.iterationsReceived * K.pageLen ≤ J.numRequests * K.pageLen :=
      Nat.mul_le_mul_right _ hiter
    rw [totalExpectedReceived,Nat.mod_eq_of_lt hsize,htotal,
      Nat.mod_eq_of_lt (lt_of_le_of_lt hmul hsize)] at hle
    have hall : J.numRequests ≤ s.iterationsReceived := Nat.le_of_mul_le_mul_right hle K.pageLen_pos
    unfold loopCondition
    omega
  · exact hloop

/-- The state from which the loop was left decides whether all was reaped. -/
theorem complete_of_settled (hi : Inv K s) (hcounts : Counts K J (view K s))
    (hpaged : Paged K (view K s)) (hsize : J.numRequests * K.pageLen < sizeMod)
    (hstored : s.stored = some s.totalReceived)
    (hloop : ¬ loopCondition J s.sendIndex s.recvIndex) (hcq : s.proc.ring.cq = [])
    (hidle : s.proc.ring.Idle) : Complete K J s := by
  obtain ⟨hrx,hrxDone⟩ := view_rx_of_idle hi hidle
  have hrecvs := hcounts.recvs
  have hrecv := hcounts.recv_le
  have hsend := hcounts.send_le
  have hvcq : (view K s).ring.cq = [] := by simp [view,Process.view,Ring.view,hcq]
  simp only [RingView.recvs,hrx,hrxDone,hvcq,List.length_nil,List.countP_nil,Nat.add_zero]
    at hrecvs
  have hiter : s.iterationsReceived = J.numRequests := by
    unfold loopCondition at hloop
    simp only [view] at hrecvs hrecv hsend
    omega
  refine ⟨⟨hi.sq,hidle,hcq⟩,hiter,?_⟩
  have htotal : s.totalReceived = s.iterationsReceived * K.pageLen % sizeMod := hpaged.total
  rw [hstored,htotal,hiter,Nat.mod_eq_of_lt hsize]

end Returned

section Thread
variable {header : Addr → RequestData} {bytes : Addr → List UInt8}
  {supply : ℕ → Block RequestData} {s0 s : State} {es : List Event}

theorem counts_of_run (h0 : start K J header bytes supply = .ok s0)
    (hrun : execute (step K J) s0 es = .ok s) : Inv K s ∧ Counts K J (view K s) := by
  obtain ⟨hi,hpath⟩ := Run.path ⟨header,bytes,supply,s0,h0,hrun⟩
  exact ⟨hi,hpath.invariant (fun _ _ _ hv h => hv.step h) (Counts.start K J)⟩

theorem paged_of_run (h0 : start K J header bytes supply = .ok s0)
    (hrun : execute (step K J) s0 es = .ok s) (hwhole : ∀ e ∈ es, Whole K e) :
    Paged K (view K s) := by
  obtain ⟨-,hpath⟩ := Run.path ⟨header,bytes,supply,s0,h0,hrun⟩
  exact hpath.invariant_of (fun _ _ _ he hv h => hv.step he h) hwhole Paged.start

theorem start_returned (h0 : start K J header bytes supply = .ok s0) (hs : s0.phase = .returned) :
    J.numRequests = 0 ∧ Complete K J s0 := by
  obtain ⟨hi,hv,hring⟩ := start_view h0
  have hphase : (View.start J).phase = .returned := hv ▸ hs
  have hstored : s0.stored = (View.start J).stored := congrArg View.stored hv
  have hiter : s0.iterationsReceived = 0 := congrArg View.iterationsReceived hv
  unfold View.start at hphase hstored
  dsimp only at hphase hstored
  split at hphase
  · cases hphase
  · rename_i hl
    have hn : J.numRequests = 0 := by
      unfold loopCondition at hl
      omega
    rw [if_neg hl] at hstored
    refine ⟨hn,?_,by omega,by rw [hstored,hn,Nat.zero_mul]⟩
    rw [hring]
    exact ⟨rfl,⟨rfl,rfl,rfl,rfl⟩,rfl⟩

/-- A returned thread has reaped all its operations just when each of its steps
found the operations settled. -/
theorem complete_iff_settled (h0 : start K J header bytes supply = .ok s0)
    (hrun : execute (step K J) s0 es = .ok s) (hwhole : ∀ e ∈ es, Whole K e)
    (hret : s.phase = .returned) :
    Complete K J s ↔
      Throughout (step K J) (Settled J) s0 es ∧ J.numRequests * K.pageLen < sizeMod := by
  constructor
  · intro hc
    constructor
    · rintro es1 e es2 t rfl ht rfl hloop
      obtain ⟨t',ht',hrest⟩ := execute_append_ok.mp hrun
      cases ht.symm.trans ht'
      obtain ⟨u,hu,hrest⟩ := execute_cons_ok.mp hrest
      have hphase : u.phase = .returned ∧ u.proc = t.proc := by
        obtain ⟨-,-,rfl⟩ := step_finish hu
        refine ⟨?_,finish_proc t⟩
        unfold finish testLoop
        rw [if_neg hloop]
        split <;> rfl
      cases es2 with
      | nil =>
        cases hrest
        exact hphase.2 ▸ hc.1.2.1
      | cons e es2 =>
        obtain ⟨v,hv,-⟩ := execute_cons_ok.mp hrest
        exact (step_returned hphase.1 hv).elim
    · have hstored := (paged_of_run h0 hrun hwhole).stored hret
      have htotal := (paged_of_run h0 hrun hwhole).total
      have heq : J.numRequests * K.pageLen = (view K s).totalReceived :=
        Option.some.inj (hc.2.2.symm.trans hstored)
      rw [heq,htotal]
      exact Nat.mod_lt _ (by decide)
  · rintro ⟨hsettled,hsize⟩
    rcases List.eq_nil_or_concat' es with rfl | ⟨es,e,rfl⟩
    · cases hrun
      exact (start_returned h0 hret).2
    · obtain ⟨t,ht,hstep⟩ := execute_concat_ok.mp hrun
      obtain ⟨hit,hcounts⟩ := counts_of_run h0 ht
      have hpaged := paged_of_run h0 ht (fun e he => hwhole e (by simp [he]))
      obtain ⟨rfl,-,hcq,hproc,hs,hr,-,-,hexit⟩ := returned_of_step hit hstep hret
      have hloop := exit_submitted hcounts hpaged hsize hexit
      have hidle := ((throughout_concat ht).mp hsettled).2 rfl hloop
      obtain ⟨his,hcounts'⟩ := counts_of_run h0 hrun
      have hpaged' := paged_of_run h0 hrun hwhole
      exact complete_of_settled his hcounts' hpaged' hsize (hpaged'.stored hret)
        (by rw [hs,hr]; exact hloop) (by rw [hproc]; exact hcq) (by rw [hproc]; exact hidle)

end Thread

section Main

/-- The range `main` gives to thread `i`: equal parts, the last one with the rest. -/
def threadJob (numRequests clientThreads i : ℕ) : Job where
  startIndex := i * (numRequests / clientThreads)
  endIndex := if i = clientThreads - 1 then numRequests else (i + 1) * (numRequests / clientThreads)
  threadIndex := i
  start_le := by
    split
    · rename_i h
      have hq := Nat.div_mul_le_self numRequests clientThreads
      have hi : i * (numRequests / clientThreads) ≤ clientThreads * (numRequests / clientThreads) :=
        Nat.mul_le_mul_right _ (by omega)
      rw [Nat.mul_comm] at hq
      exact hi.trans hq
    · exact Nat.mul_le_mul_right _ (Nat.le_succ i)

/-- The sum over the threads in `main`, in `uint64_t`. -/
def totalReceivedBytes (totals : List ℕ) : ℕ :=
  totals.foldl (fun acc total => (acc + total) % sizeMod) 0

theorem totalReceivedBytes_eq (totals : List ℕ) :
    totalReceivedBytes totals = totals.sum % sizeMod := by
  have hfold : ∀ acc, totals.foldl (fun acc total => (acc + total) % sizeMod) (acc % sizeMod) =
      (acc + totals.sum) % sizeMod := by
    induction totals with
    | nil => simp
    | cons t ts ih =>
      intro acc
      rw [List.foldl_cons,Nat.mod_add_mod,ih,List.sum_cons,Nat.add_assoc]
  have h := hfold 0
  rwa [Nat.zero_mod,Nat.zero_add] at h

/-- The ranges that `main` hands out, one after the other, are all requests. -/
theorem flatMap_threadJob (numRequests : ℕ) {clientThreads : ℕ} (ht : 1 ≤ clientThreads) :
    (List.range clientThreads).flatMap (fun i =>
      List.range' (threadJob numRequests clientThreads i).startIndex
        (threadJob numRequests clientThreads i).numRequests) = List.range numRequests := by
  rw [← Tiling.flatMap_parts numRequests ht]
  apply List.flatMap_congr
  intro i hi
  have hlt := List.mem_range.mp hi
  rw [Tiling.edge_start hlt,Tiling.edge_stop hlt]
  rfl

theorem sum_threadJob (numRequests : ℕ) {clientThreads : ℕ} (h : 0 < clientThreads) :
    ((List.range clientThreads).map
      (fun i => (threadJob numRequests clientThreads i).numRequests)).sum = numRequests := by
  have hlength := congrArg List.length (flatMap_threadJob numRequests h)
  simpa only [List.length_flatMap,List.length_range',List.length_range] using hlength

theorem threadJob_numRequests_le {numRequests clientThreads i : ℕ} (hi : i < clientThreads) :
    (threadJob numRequests clientThreads i).numRequests ≤ numRequests := by
  conv_rhs => rw [← sum_threadJob numRequests (Nat.zero_lt_of_lt hi)]
  exact List.single_le_sum (fun _ _ => Nat.zero_le _) _
    (List.mem_map.mpr ⟨i,List.mem_range.mpr hi,rfl⟩)

theorem threadJob_endIndex_le {numRequests clientThreads i : ℕ} (hi : i < clientThreads) :
    (threadJob numRequests clientThreads i).endIndex ≤ numRequests := by
  unfold threadJob
  dsimp only
  split
  · exact le_rfl
  · exact (Nat.mul_le_mul_right _ hi).trans (Nat.mul_div_le numRequests clientThreads)

/-- A run of a thread to its return with whole pages, settled at each step. -/
def Returns (K : Consts) (J : Job) (s : State) : Prop :=
  ∃ header bytes supply s0 es, start K J header bytes supply = .ok s0 ∧
    execute (step K J) s0 es = .ok s ∧ (∀ e ∈ es, Whole K e) ∧ s.phase = .returned ∧
    Throughout (step K J) (Settled J) s0 es

/-- The total of `main` when every thread settles before it returns. -/
theorem total_of_returns {numRequests clientThreads : ℕ} (h : 0 < clientThreads)
    (hsize : numRequests * K.pageLen < sizeMod) {s : ℕ → State}
    (hs : ∀ i < clientThreads, Returns K (threadJob numRequests clientThreads i) (s i)) :
    totalReceivedBytes ((List.range clientThreads).map (fun i => (s i).stored.getD 0)) =
      numRequests * K.pageLen := by
  have hsum := sum_threadJob numRequests h
  have heach : ∀ i ∈ List.range clientThreads, (s i).stored.getD 0 =
      (threadJob numRequests clientThreads i).numRequests * K.pageLen := by
    intro i hi
    obtain ⟨header,bytes,supply,s0,es,h0,hrun,hwhole,hret,hsettled⟩ := hs i (List.mem_range.mp hi)
    have hle : (threadJob numRequests clientThreads i).numRequests ≤ numRequests :=
      threadJob_numRequests_le (List.mem_range.mp hi)
    have hlt := lt_of_le_of_lt (Nat.mul_le_mul_right K.pageLen hle) hsize
    have hc := (complete_iff_settled h0 hrun hwhole hret).mpr ⟨hsettled,hlt⟩
    rw [hc.2.2]
    rfl
  rw [totalReceivedBytes_eq,List.map_congr_left heach,List.sum_map_mul_right,hsum,
    Nat.mod_eq_of_lt hsize]

end Main

section Verdict

/-- The thread returns with everything reaped and the full total stored exactly in
the runs whose last pass finds all operations settled; when all threads of `main`
do, the sum is the size of all pages. -/
theorem returns_complete_iff (K : Consts) :
    (∀ (J : Job) (header : Addr → RequestData) (bytes : Addr → List UInt8)
      (supply : ℕ → Block RequestData) (s0 s : State) (es : List Event),
      start K J header bytes supply = .ok s0 → execute (step K J) s0 es = .ok s →
      (∀ e ∈ es, Whole K e) → s.phase = .returned →
      (Complete K J s ↔
        Throughout (step K J) (Settled J) s0 es ∧ J.numRequests * K.pageLen < sizeMod)) ∧
    ∀ (numRequests clientThreads : ℕ) (s : ℕ → State), 0 < clientThreads →
      numRequests * K.pageLen < sizeMod →
      (∀ i < clientThreads, Returns K (threadJob numRequests clientThreads i) (s i)) →
      totalReceivedBytes ((List.range clientThreads).map (fun i => (s i).stored.getD 0)) =
        numRequests * K.pageLen :=
  ⟨fun _ _ _ _ _ _ _ h0 hrun hwhole hret => complete_iff_settled h0 hrun hwhole hret,
    fun _ _ _ h hsize hs => total_of_returns h hsize hs⟩

def smallStart (J : Job) : Except Stop State :=
  start Consts.small J (fun _ => ⟨(0,0),.readEvent,0⟩) (fun _ => []) Process.countingSupply

/-- One request, both operations completed by the kernel before the pass over the queue. -/
def requestEvents (k : UInt8) : List Event :=
  [.iterate,.kernel (.execTx 0 [k,0,0,0]),.kernel (.postTx 0),.kernel (.execRx 0 [k,0,0,0]),
    .kernel (.postRx 0),.reap,.reap,.finish]

/-- The two requests of one of two threads. -/
def promptEvents (i : ℕ) : List Event :=
  requestEvents (UInt8.ofNat (2 * i)) ++ requestEvents (UInt8.ofNat (2 * i + 1))

theorem prompt_complete : ∃ s0 s : ℕ → State, ∀ i < 2, smallStart (threadJob 4 2 i) = .ok (s0 i) ∧
    execute (step Consts.small (threadJob 4 2 i)) (s0 i) (promptEvents i) = .ok (s i) ∧
    (s i).phase = .returned ∧ Complete Consts.small (threadJob 4 2 i) (s i) := by
  have hrun : ∀ i < 2, ((smallStart (threadJob 4 2 i) >>= fun s0 =>
      execute (step Consts.small (threadJob 4 2 i)) s0 (promptEvents i)) |>
      (yields · (fun s => s.phase = .returned && Complete Consts.small (threadJob 4 2 i) s))) =
        true := by decide +kernel
  have hall : ∀ i < 2, ∃ s0 s, smallStart (threadJob 4 2 i) = .ok s0 ∧
      execute (step Consts.small (threadJob 4 2 i)) s0 (promptEvents i) = .ok s ∧
      s.phase = .returned ∧ Complete Consts.small (threadJob 4 2 i) s := by
    intro i hi
    obtain ⟨s,hs,htest⟩ := exists_of_yields (hrun i hi)
    obtain ⟨s0,h0,hs⟩ := bind_ok.mp hs
    simp only [Bool.and_eq_true,decide_eq_true_eq] at htest
    exact ⟨s0,s,h0,hs,htest⟩
  obtain ⟨a0,a,ha⟩ := hall 0 (by decide)
  obtain ⟨b0,b,hb⟩ := hall 1 (by decide)
  refine ⟨fun i => if i = 0 then a0 else b0,fun i => if i = 0 then a else b,fun i hi => ?_⟩
  obtain rfl | rfl : i = 0 ∨ i = 1 := by omega
  · exact ha
  · exact hb

theorem returns_complete_prompt : ∃ s0 s : ℕ → State,
    (∀ i < 2, smallStart (threadJob 4 2 i) = .ok (s0 i) ∧
      execute (step Consts.small (threadJob 4 2 i)) (s0 i) (promptEvents i) = .ok (s i) ∧
      Complete Consts.small (threadJob 4 2 i) (s i) ∧
      Throughout (step Consts.small (threadJob 4 2 i)) (Settled (threadJob 4 2 i)) (s0 i)
        (promptEvents i)) ∧
    totalReceivedBytes ((List.range 2).map (fun i => (s i).stored.getD 0)) = 16 := by
  obtain ⟨s0,s,hall⟩ := prompt_complete
  have hwhole : ∀ i, ∀ e ∈ promptEvents i, Whole Consts.small e := by
    simp [promptEvents,requestEvents,Whole,Consts.small,Consts.pageLen,sizeofInt32]
  obtain ⟨hthread,hmain⟩ := returns_complete_iff Consts.small
  have hsettled : ∀ i < 2, Throughout (step Consts.small (threadJob 4 2 i))
      (Settled (threadJob 4 2 i)) (s0 i) (promptEvents i) := by
    intro i hi
    obtain ⟨h0,hs,hret,hcomplete⟩ := hall i hi
    exact ((hthread (threadJob 4 2 i) _ _ _ (s0 i) (s i) (promptEvents i) h0 hs (hwhole i)
      hret).mp hcomplete).1
  refine ⟨s0,s,?_,hmain 4 2 s (by decide) (by decide) ?_⟩
  · intro i hi
    obtain ⟨h0,hs,-,hcomplete⟩ := hall i hi
    exact ⟨h0,hs,hcomplete,hsettled i hi⟩
  · intro i hi
    obtain ⟨h0,hs,hret,-⟩ := hall i hi
    exact ⟨_,_,_,s0 i,promptEvents i,h0,hs,hwhole i,hret,hsettled i hi⟩

/-- One request. -/
def oneRequest : Job := ⟨0,1,0,Nat.zero_le _⟩

/-- The thread queues its only request, finds no completion and returns. -/
theorem returns_without_response : ∃ s, Run Consts.small oneRequest [.iterate,.finish] s ∧
    s.phase = .returned ∧ s.iterationsReceived = 0 ∧ s.stored = some 0 ∧
    ¬ s.proc.ring.Drained ∧ ¬ Complete Consts.small oneRequest s := by
  have hrun : ((smallStart oneRequest >>= fun s0 =>
      execute (step Consts.small oneRequest) s0 [.iterate,.finish]) |> (yields · (fun s =>
        s.phase = .returned && s.iterationsReceived = 0 && s.stored = some 0 &&
          !s.proc.ring.Drained && !Complete Consts.small oneRequest s))) = true := by
    decide +kernel
  obtain ⟨s,hs,htest⟩ := exists_of_yields hrun
  obtain ⟨s0,h0,hs⟩ := bind_ok.mp hs
  simp only [Bool.and_eq_true,Bool.not_eq_true',decide_eq_true_eq,decide_eq_false_iff_not] at htest
  exact ⟨s,⟨_,_,_,s0,h0,hs⟩,htest.1.1.1.1,htest.1.1.1.2,htest.1.1.2,htest.1.2,htest.2⟩

end Verdict

end FastNet.Simple.Client
