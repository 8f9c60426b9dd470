import FastNet.Foundation.Fairness
import FastNet.Simple.Shutdown

/-! # The two programs come to an end

The work left on all connections, with what the two `main`s still have to do, bounds
the steps of a run that are not idle. The idle ones are the passes of a client's loop
over closed windows and an empty queue, and the sleep of the server while a handler is
not done. Some other step is always on offer until both programs have ended.
-/
namespace FastNet.Simple.System
open Execution

section Work
variable {P : Setup}

def phaseWork : Phase → ℕ
  | .accepting => 2
  | .waiting => 1
  | .down => 0

/-- Connecting, accepting and counting take one each, besides the work of the connection. -/
def slotWork (i : Fin P.clientThreads) : Slot → ℕ
  | .apart => Connection.work P.K (P.job i) (Connection.View.start P.K (P.job i)) + 3
  | .pending client requests pages => Connection.work P.K (P.job i)
      ⟨Client.view P.K client,Server.View.start P.K,requests,pages⟩ + 2
  | .handled _ conn counted =>
    Connection.work P.K (P.job i) (Connection.view P.K conn) + if counted then 0 else 1

def work (s : State P) : ℕ :=
  ∑ i, slotWork i (s.slots i) + (P.clientThreads - s.started) + (P.clientThreads - s.joined) +
    phaseWork s.phase

/-- A pass of a client's loop that finds nothing, and the sleep of the server. -/
def Idle (s : State P) : Event P → Prop
  | .client i e => ∃ c ∈ (s.slots i).thread,
      Connection.Idle P.K (P.job i) (Client.view P.K c) (.client e)
  | .check => s.finishedThreads < s.clientNum
  | _ => False

instance (s : State P) (e : Event P) : Decidable (Idle s e) := by
  unfold Idle
  split <;> infer_instance

end Work

variable {P : Setup} {B : Boot P} {s t : State P} {i : Fin P.clientThreads} {slot slot' : Slot}
  {es : List (Event P)}

section Decrease

theorem connection_work {n : ℕ} {conn conn' : Connection.State} {e : Connection.Event}
    (h : ∃ es, Connection.Run P.K (P.job i) n P.L es conn)
    (hstep : Connection.step P.K (P.job i) n P.L conn e = .ok conn') :
    Connection.work P.K (P.job i) (Connection.view P.K conn') ≤
        Connection.work P.K (P.job i) (Connection.view P.K conn) ∧
      (¬ Connection.Idle P.K (P.job i) (Client.view P.K conn.client) e →
        Connection.work P.K (P.job i) (Connection.view P.K conn') <
          Connection.work P.K (P.job i) (Connection.view P.K conn)) := by
  obtain ⟨es,hrun⟩ := h
  obtain ⟨hi,hpath⟩ := hrun.path
  exact Connection.work_step (Connection.counts_of_path hpath) (Connection.step_view hi hstep).2

theorem view_handler {client : Client.State} {requests pages : List UInt8} {n : ℕ}
    (hn : n < P.clientThreads) :
    Connection.view P.K ⟨client,B.handler n,requests,pages⟩ =
      ⟨Client.view P.K client,Server.View.start P.K,requests,pages⟩ := by
  obtain ⟨header,bytes,supply,h⟩ := B.handler_start n hn
  simp only [Connection.view,(Server.start_view h).2]

theorem slotWork_client {e : Client.Event} (hs : SlotOk B i slot)
    (h : slot.stepClient P i e = .ok slot') :
    slotWork i slot' ≤ slotWork i slot ∧
      ((¬ ∃ c ∈ slot.thread, Connection.Idle P.K (P.job i) (Client.view P.K c) (.client e)) →
        slotWork i slot' < slotWork i slot) := by
  cases slot with
  | apart => cases h
  | pending client requests pages =>
    obtain ⟨client',requests',pages',rfl,-,hstep⟩ := stepClient_pending (B := B) h
    obtain ⟨es,hrun⟩ := hs
    obtain ⟨hle,hlt⟩ := connection_work ⟨es,hrun 0 P.clientThreads_pos⟩ (hstep 0 P.clientThreads_pos)
    rw [view_handler P.clientThreads_pos,view_handler P.clientThreads_pos] at hle hlt
    refine ⟨Nat.add_le_add_right hle _,fun hidle => Nat.add_lt_add_right (hlt ?_) _⟩
    exact fun hc => hidle ⟨client,rfl,hc⟩
  | handled n conn counted =>
    obtain ⟨conn',rfl,-,-,hstep⟩ := stepClient_handled h
    obtain ⟨hle,hlt⟩ := connection_work hs.1 hstep
    refine ⟨Nat.add_le_add_right hle _,fun hidle => Nat.add_lt_add_right (hlt ?_) _⟩
    exact fun hc => hidle ⟨conn.client,rfl,hc⟩

theorem slotWork_server {e : Server.Event} (hs : SlotOk B i slot)
    (h : slot.stepServer P i e = .ok slot') : slotWork i slot' < slotWork i slot := by
  obtain ⟨n,conn,counted,conn',rfl,rfl,-,-,hstep⟩ := stepServer_handled h
  exact Nat.add_lt_add_right ((connection_work hs.1 hstep).2 id) _

theorem work_setSlot (s : State P) (i : Fin P.clientThreads) (slot : Slot) :
    work (s.setSlot i slot) + slotWork i (s.slots i) = work s + slotWork i slot := by
  have hsum := Family.sum_update (fun j x => slotWork j x) s.slots i slot
  simp only [work,State.setSlot] at hsum ⊢
  omega

/-- No step adds work, and only an idle one takes none away. -/
theorem work_step (hi : Inv B s) {e : Event P} (h : step B s e = .ok t) :
    work t ≤ work s ∧ (¬ Idle s e → work t < work s) := by
  have hless : ∀ {n m : ℕ}, n < m → n ≤ m ∧ (¬ Idle s e → n < m) :=
    fun hlt => ⟨hlt.le,fun _ => hlt⟩
  cases step_cases h with
  | spawn hlt =>
    apply hless
    simp only [work]
    omega
  | connect i hslot hstarted hphase hroom =>
    apply hless
    have hwork := work_setSlot s i (.pending (B.client i) [] [])
    have hview : Connection.View.start P.K (P.job i) =
        ⟨Client.view P.K (B.client i),Server.View.start P.K,[],[]⟩ := by
      obtain ⟨header,bytes,supply,hstart⟩ := B.client_start i
      rw [(Client.start_view hstart).2.1]
      rfl
    simp only [slotWork,hslot,hview] at hwork
    change work (s.setSlot i (.pending (B.client i) [] [])) < work s
    omega
  | client i e slot hslot =>
    have hwork := work_setSlot s i slot
    obtain ⟨hle,hlt⟩ := slotWork_client (hi.slot i) hslot
    refine ⟨by omega,fun hidle => ?_⟩
    have hlt := hlt hidle
    omega
  | accept i rest client requests pages hphase hnum hbacklog hslot =>
    apply hless
    have hwork := work_setSlot s i
      (.handled s.clientNum ⟨client,B.handler s.clientNum,requests,pages⟩ false)
    simp only [slotWork,hslot,view_handler hnum,Bool.false_eq_true,if_false] at hwork
    change work (s.setSlot i _) < work s
    omega
  | server i e slot hphase hslot =>
    apply hless
    have hwork := work_setSlot s i slot
    have hlt := slotWork_server (hi.slot i) hslot
    omega
  | finish i slot hphase hslot =>
    apply hless
    obtain ⟨n,conn,hbefore,-,rfl⟩ := count_ok hslot
    have hwork := work_setSlot s i (.handled n conn true)
    simp only [slotWork,hbefore,Bool.false_eq_true,if_false,if_true] at hwork
    change work (s.setSlot i _) < work s
    omega
  | full hphase hnum =>
    apply hless
    simp only [work,hphase,phaseWork]
    omega
  | sleep hphase hnum => exact ⟨le_rfl,fun hidle => (hidle hnum).elim⟩
  | leave hphase hnum =>
    apply hless
    simp only [work,hphase,phaseWork]
    omega
  | join i hi' hstarted hret =>
    apply hless
    have hlt := i.isLt
    simp only [work]
    omega

theorem work_start (P : Setup) (i : Fin P.clientThreads) :
    Connection.work P.K (P.job i) (Connection.View.start P.K (P.job i)) ≤
      19 * (P.job i).numRequests + 2 * (P.K.ringSize / 4) + 2 := by
  have hstage : Connection.stage P.K (P.job i) (Client.View.start (P.job i)) ≤ 1 := by
    unfold Connection.stage Client.View.start
    dsimp only
    split
    · simp
    · rename_i hp
      split at hp <;> cases hp
    · exact Nat.zero_le _
    · exact Nat.zero_le _
  simp only [Connection.work,Connection.clientWork,Connection.serverWork,Connection.View.start,
    Server.View.start,RingView.weight,Connection.clientWeights,Connection.serverWeights]
  simp only [Client.View.start,List.length_nil,List.map_nil,List.sum_nil] at hstage ⊢
  simp only [if_true,Nat.sub_zero,Nat.mul_zero,Nat.add_zero,Nat.zero_div]
  omega

end Decrease

section Rest

/-- Once both programs have ended, nothing is on offer any more. -/
theorem rest_of_ended (hn : P.numRequests ≤ intMax) (h : Run B es s) (hdown : s.phase = .down)
    (hjoined : s.joined = P.clientThreads) (e : Event P) : step B s e = .error .disabled := by
  have hi := h.inv
  obtain ⟨-,-,hall⟩ := down_complete hn h hdown
  have hstarted := hi.joining (by have hpos := P.clientThreads_pos; omega)
  cases e with
  | spawn => simp [step,hstarted]
  | connect i =>
    obtain ⟨n,conn,hslot,-⟩ := hall i
    simp [step,hslot]
  | client i e =>
    obtain ⟨n,conn,hslot,-,hret,-⟩ := hall i
    have hstep : Client.step P.K (P.job i) conn.client e = .error .disabled := by
      cases e <;> simp [Client.step,hret]
    simp only [step,hslot,Slot.stepClient,Connection.step,hstep]
    cases Connection.clientLink P.K P.L conn.requests conn.pages
      conn.server.proc.ring.txDone.length e <;> rfl
  | accept => simp [step,hdown]
  | server i e => simp [step,hdown]
  | finish i => simp [step,hdown]
  | full => simp [step,hdown]
  | check => simp [step,hdown]
  | join =>
    have hnone : (List.finRange P.clientThreads)[s.joined]? = none := by simp [hjoined]
    simp only [step,hnone]

theorem stepClient_offered {n : ℕ} {conn : Connection.State} {counted : Bool} {e : Client.Event}
    (hslot : s.slots i = .handled n conn counted)
    (h : Connection.step P.K (P.job i) n P.L conn (.client e) ≠ .error .disabled) :
    step B s (.client i e) ≠ .error .disabled := by
  intro hstep
  simp only [step,hslot,Slot.stepClient] at hstep
  rcases bind_error.mp hstep with hstep | ⟨slot,-,hstep⟩
  · rcases bind_error.mp hstep with hstep | ⟨conn',-,hstep⟩
    · exact h hstep
    · cases hstep
  · cases hstep

theorem stepServer_offered {n : ℕ} {conn : Connection.State} {counted : Bool} {e : Server.Event}
    (hphase : s.phase ≠ .down) (hslot : s.slots i = .handled n conn counted)
    (h : Connection.step P.K (P.job i) n P.L conn (.server e) ≠ .error .disabled) :
    step B s (.server i e) ≠ .error .disabled := by
  intro hstep
  simp only [step,if_pos hphase,hslot,Slot.stepServer] at hstep
  rcases bind_error.mp hstep with hstep | ⟨slot,-,hstep⟩
  · rcases bind_error.mp hstep with hstep | ⟨conn',-,hstep⟩
    · exact h hstep
    · cases hstep
  · cases hstep

/-- While a thread is not accepted, one can be connected or accepted. -/
theorem connecting_offered (hi : Inv B s) (hstarted : s.started = P.clientThreads)
    (hslot : (s.slots i).accepted = 0) :
    (∃ j, step B s (.connect j) ≠ .error .disabled) ∨ step B s .accept ≠ .error .disabled := by
  have hnum : s.clientNum < P.clientThreads := by
    by_contra hge
    have hone := Family.eq_one_of_card_le (fun i => Slot.accepted_le (s.slots i)) (by
      have hcount := hi.clientNum
      unfold State.count at hcount
      rw [Fintype.card_fin]
      omega) i
    omega
  have hphase : s.phase = .accepting := by
    by_contra hne
    have hge := hi.waiting hne
    omega
  cases hbacklog : s.backlog with
  | cons j rest =>
    right
    have hpending := (hi.backlog j).mp (by simp [hbacklog])
    cases hj : s.slots j with
    | apart => simp [hj,Slot.pending?] at hpending
    | handled n conn counted => simp [hj,Slot.pending?] at hpending
    | pending client requests pages => simp [step,hphase,hnum,hbacklog,hj]
  | nil =>
    left
    have hnone := mt (hi.backlog i).mpr (by simp [hbacklog])
    refine ⟨i,?_⟩
    cases hj : s.slots i with
    | pending client requests pages => simp [hj,Slot.pending?] at hnone
    | handled n conn counted => simp [hj,Slot.accepted] at hslot
    | apart => simp [step,hj,hstarted,hphase,hbacklog,backlogLen]

/-- Once all connections are closed, the two `main`s come to their ends. -/
theorem ending_offered (hi : Inv B s) (hstarted : s.started = P.clientThreads)
    (hclosed : ∀ i, ∃ n conn counted, s.slots i = .handled n conn counted ∧
      conn.client.phase = .returned ∧ conn.server.phase = .closed)
    (hnot : ¬ (s.phase = .down ∧ s.joined = P.clientThreads)) :
    ∃ e, ¬ Idle s e ∧ step B s e ≠ .error .disabled := by
  by_cases hfin : ∃ i, (s.slots i).finished = 0
  · obtain ⟨i,hfin⟩ := hfin
    obtain ⟨n,conn,counted,hslot,-,hserver⟩ := hclosed i
    cases counted with
    | true => simp [hslot,Slot.finished] at hfin
    | false =>
      have hphase : s.phase ≠ .down := by
        intro hdown
        obtain ⟨-,-,hall⟩ := hi.handled_of_down hdown
        obtain ⟨n',conn',hslot',-⟩ := hall i
        rw [hslot] at hslot'
        cases hslot'
      refine ⟨.finish i,id,?_⟩
      simp only [step,if_pos hphase,hslot,Slot.count,if_pos hserver]
      intro h
      cases h
  · have hcount : s.clientNum ≤ s.finishedThreads := by
      rw [hi.clientNum,hi.finishedThreads]
      refine Finset.sum_le_sum fun i _ => ?_
      have hne := not_exists.mp hfin i
      have hle := Slot.accepted_le (s.slots i)
      omega
    cases hphase : s.phase with
    | accepting =>
      have hnum : P.clientThreads ≤ s.clientNum := by
        rw [hi.clientNum]
        unfold State.count
        have hone : ∀ i, (s.slots i).accepted = 1 := by
          intro i
          obtain ⟨n,conn,counted,hslot,-⟩ := hclosed i
          rw [hslot]
          rfl
        simp [hone]
      exact ⟨.full,id,by simp [step,hphase,hnum]⟩
    | waiting =>
      have hsleep : ¬ s.finishedThreads < s.clientNum := by omega
      exact ⟨.check,hsleep,by simp [step,hphase,hsleep]⟩
    | down =>
      have hlt : s.joined < P.clientThreads :=
        lt_of_le_of_ne hi.joined_le fun heq => hnot ⟨hphase,heq⟩
      have hnext : (List.finRange P.clientThreads)[s.joined]? = some ⟨s.joined,hlt⟩ := by simp [hlt]
      obtain ⟨n,conn,counted,hslot,hret,-⟩ := hclosed ⟨s.joined,hlt⟩
      have hreturned : (s.slots ⟨s.joined,hlt⟩).Returned := by
        rw [hslot]
        exact ⟨conn.client,rfl,hret⟩
      exact ⟨.join,id,by simp [step,hnext,hstarted,hreturned]⟩

/-- Until both programs have ended some step that is not idle is on offer. -/
theorem offers (hi : Inv B s) (hn : P.numRequests ≤ intMax) (hring : 4 ≤ P.K.ringSize)
    (hroom : sizeofInt32 ≤ P.L.requestRoom) (hroom' : P.K.pageLen ≤ P.L.pageRoom)
    (hnot : ¬ (s.phase = .down ∧ s.joined = P.clientThreads)) :
    ∃ e, ¬ Idle s e ∧ step B s e ≠ .error .disabled := by
  by_cases hstarted : s.started < P.clientThreads
  · exact ⟨.spawn,id,by simp [step,hstarted]⟩
  have hstarted : s.started = P.clientThreads := le_antisymm hi.started (by omega)
  by_cases hacc : ∃ i, (s.slots i).accepted = 0
  · obtain ⟨i,hslot⟩ := hacc
    rcases connecting_offered hi hstarted hslot with ⟨j,hj⟩ | haccept
    · exact ⟨.connect j,id,hj⟩
    · exact ⟨.accept,id,haccept⟩
  by_cases hopen : ∃ i n conn counted, s.slots i = .handled n conn counted ∧
      ¬ (conn.client.phase = .returned ∧ conn.server.phase = .closed)
  · obtain ⟨i,n,conn,counted,hslot,hopen⟩ := hopen
    have hok := hi.slot i
    rw [hslot] at hok
    obtain ⟨⟨es,hrun⟩,-⟩ := hok
    have hphase : s.phase ≠ .down := by
      intro hdown
      obtain ⟨-,-,hall⟩ := hi.handled_of_down hdown
      obtain ⟨n',conn',hslot',hclosed⟩ := hall i
      rw [hslot] at hslot'
      cases hslot'
      obtain ⟨-,hpath⟩ := hrun.path
      obtain ⟨forth,back,hr⟩ := Connection.relay_of_path hpath
      exact hopen ⟨(hr.closed (Connection.endOfStream_of_path hpath) hclosed).1,hclosed⟩
    obtain ⟨e,hidle,he⟩ := (hrun.good ((job_numRequests_le i).trans hn)).offers n
      ((job_numRequests_le i).trans hn) hring hroom hroom' hopen
    cases e with
    | client e =>
      refine ⟨.client i e,?_,stepClient_offered hslot he⟩
      rintro ⟨c,hc,hidle'⟩
      rw [hslot] at hc
      cases hc
      exact hidle hidle'
    | server e => exact ⟨.server i e,id,stepServer_offered hphase hslot he⟩
  · refine ending_offered hi hstarted (fun i => ?_) hnot
    have hone := not_exists.mp hacc i
    cases hslot : s.slots i with
    | apart => simp [hslot,Slot.accepted] at hone
    | pending client requests pages => simp [hslot,Slot.accepted] at hone
    | handled n conn counted =>
      have hends : conn.client.phase = .returned ∧ conn.server.phase = .closed := by
        by_contra hne
        exact hopen ⟨i,n,conn,counted,hslot,hne⟩
      exact ⟨n,conn,counted,rfl,hends⟩

/-- Apart from idle passes, the two programs rest exactly when both have ended. -/
theorem rest_iff_ended (hn : P.numRequests ≤ intMax) (hring : 4 ≤ P.K.ringSize)
    (hroom : sizeofInt32 ≤ P.L.requestRoom) (hroom' : P.K.pageLen ≤ P.L.pageRoom)
    (h : Run B es s) : (∀ e, ¬ Idle s e → step B s e = .error .disabled) ↔
      s.phase = .down ∧ s.joined = P.clientThreads := by
  constructor
  · intro hrest
    by_contra hnot
    obtain ⟨e,hidle,he⟩ := offers h.inv hn hring hroom hroom' hnot
    exact he (hrest e hidle)
  · exact fun hend e _ => rest_of_ended hn h hend.1 hend.2 e

theorem rest_iff_ended_exchange : ∃ s, Run smallBoot exchange s ∧
    ∀ e, ¬ Idle s e → step smallBoot s e = .error .disabled := by
  obtain ⟨s,hs,hdown,hjoined,-⟩ := run_exchange
  exact ⟨s,hs,(rest_iff_ended (by decide) (by decide) (by decide) (by decide) hs).mpr
    ⟨hdown,hjoined⟩⟩

/-- A run that goes on without an end starves a step that is on offer: from some point
on it only goes round idle. -/
theorem endless_starves (hn : P.numRequests ≤ intMax) (hring : 4 ≤ P.K.ringSize)
    (hroom : sizeofInt32 ≤ P.L.requestRoom) (hroom' : P.K.pageLen ≤ P.L.pageRoom)
    (h : Run B es s) (r : Endless (step B) s) :
    ∃ N, ∀ j, N ≤ j → Idle (r.state j) (r.event j) ∧
      ∃ e, ¬ Idle (r.state j) e ∧ step B (r.state j) e ≠ .error .disabled := by
  have hstep : ∀ s e t, Inv B s → step B s e = .ok t →
      Inv B t ∧ work t ≤ work s ∧ (¬ Idle s e → work t < work s) :=
    fun s e t hi h => ⟨hi.step h,work_step hi h⟩
  obtain ⟨N,hN⟩ := r.idle_from hstep h.inv
  refine ⟨N,fun j hj => ?_⟩
  have hrun : Run B _ (r.state j) := execute_append_ok.mpr ⟨s,h,r.execute j⟩
  refine ⟨hN j hj,offers hrun.inv hn hring hroom hroom' ?_⟩
  rintro ⟨hdown,hjoined⟩
  have hrest := rest_of_ended hn hrun hdown hjoined (r.event j)
  rw [r.steps j] at hrest
  cases hrest

/-- The server sleeps for ever, though its handler could go on. -/
theorem endless_starves_sleep : ∃ s, Run smallBoot opening s ∧
    ∃ e, ¬ Idle s e ∧ step smallBoot s e ≠ .error .disabled := by
  have hrun : yields (execute (step smallBoot) (init smallSetup) opening)
      (fun s => s.phase = .waiting && s.finishedThreads = 0 && s.clientNum = 2) = true := by
    decide +kernel
  obtain ⟨s,hs,htest⟩ := exists_of_yields hrun
  simp only [Bool.and_eq_true,decide_eq_true_eq] at htest
  have hstep : step smallBoot s .check = .ok s := by simp [step,htest]
  obtain ⟨N,hN⟩ := endless_starves (by decide) (by decide) (by decide) (by decide) hs
    ⟨fun _ => s,fun _ => .check,rfl,fun _ => hstep⟩
  exact ⟨s,hs,(hN N le_rfl).2⟩

end Rest

section Faults

theorem stepClient_error (hs : SlotOk B i slot) (hn : P.numRequests ≤ intMax)
    (hring : 2 ≤ P.K.ringSize) {e : Client.Event} {why : Stop}
    (h : slot.stepClient P i e = .error why) : why = .disabled ∨ why = .mallocLive := by
  have hjob := (job_numRequests_le i).trans hn
  cases slot with
  | apart =>
    cases h
    exact Or.inl rfl
  | pending client requests pages =>
    obtain ⟨es,hrun⟩ := hs
    simp only [Slot.stepClient] at h
    split at h
    · cases h
      exact Or.inl rfl
    · rcases bind_error.mp h with h | ⟨c,-,h⟩
      · exact ((hrun 0 P.clientThreads_pos).good hjob).client.step_error hjob h
      · cases h
  | handled n conn counted =>
    obtain ⟨⟨es,hrun⟩,-⟩ := hs
    rcases bind_error.mp h with h | ⟨c,-,h⟩
    · exact (hrun.good hjob).step_error hjob hring h
    · cases h

theorem stepServer_error (hs : SlotOk B i slot) (hn : P.numRequests ≤ intMax)
    (hring : 2 ≤ P.K.ringSize) {e : Server.Event} {why : Stop}
    (h : slot.stepServer P i e = .error why) : why = .disabled ∨ why = .mallocLive := by
  have hjob := (job_numRequests_le i).trans hn
  cases slot with
  | apart =>
    cases h
    exact Or.inl rfl
  | pending client requests pages =>
    cases h
    exact Or.inl rfl
  | handled n conn counted =>
    obtain ⟨⟨es,hrun⟩,-⟩ := hs
    rcases bind_error.mp h with h | ⟨c,-,h⟩
    · exact (hrun.good hjob).step_error hjob hring h
    · cases h

theorem count_error {why : Stop} (h : slot.count = .error why) : why = .disabled := by
  unfold Slot.count at h
  split at h
  · split at h
    · cases h
    · cases h
      rfl
  · cases h
    rfl

theorem Inv.step_error (hi : Inv B s) (hn : P.numRequests ≤ intMax) (hring : 2 ≤ P.K.ringSize)
    {e : Event P} {why : Stop} (h : System.step B s e = .error why) :
    why = .disabled ∨ why = .mallocLive := by
  cases e with
  | client i e =>
    rcases bind_error.mp h with h | ⟨slot,-,h⟩
    · exact stepClient_error (hi.slot i) hn hring h
    · cases h
  | server i e =>
    simp only [System.step] at h
    split at h
    · rcases bind_error.mp h with h | ⟨slot,-,h⟩
      · exact stepServer_error (hi.slot i) hn hring h
      · cases h
    · cases h
      exact Or.inl rfl
  | finish i =>
    simp only [System.step] at h
    split at h
    · rcases bind_error.mp h with h | ⟨slot,-,h⟩
      · exact Or.inl (count_error h)
      · cases h
    · cases h
      exact Or.inl rfl
  | spawn | connect i | accept | full | check | join =>
    simp only [System.step] at h
    repeat' split at h
    all_goals cases h
    all_goals exact Or.inl rfl

/-- No handler meets a completion without a buffer, and a step that is on offer stops only
on an allocator that returns a live block. -/
theorem faultless (hn : P.numRequests ≤ intMax) (hring : 2 ≤ P.K.ringSize) (h : Run B es s) :
    (∀ i n conn counted, s.slots i = .handled n conn counted → conn.server.phase ≠ .failed) ∧
      ∀ e why, step B s e = .error why → why = .disabled ∨ why = .mallocLive := by
  have hi := h.inv
  refine ⟨?_,fun e why => hi.step_error hn hring⟩
  intro i n conn counted hslot
  have hok := hi.slot i
  rw [hslot] at hok
  obtain ⟨⟨es,hrun⟩,-⟩ := hok
  exact (Connection.placed_of_path hrun.path.2).server

theorem faultless_exchange : ∃ s, Run smallBoot exchange s ∧
    ∀ i n conn counted, s.slots i = .handled n conn counted → conn.server.phase ≠ .failed := by
  obtain ⟨s,hs,-⟩ := run_exchange
  exact ⟨s,hs,(faultless (by decide) (by decide) hs).1⟩

end Faults

end FastNet.Simple.System
