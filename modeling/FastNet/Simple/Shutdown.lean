import FastNet.Simple.Requests
import FastNet.Simple.System
import Mathlib.Algebra.BigOperators.Fin
import Mathlib.Data.List.Flatten

/-! # What the two programs have done when they end

Each connection of a run is a run of its own, so its handler answers the requests of
its thread from the first one on. Over all threads no page is answered twice; once the
server is down each request is answered or was never sent, and the total that the
client prints is that of the pages its threads have reaped.
-/
namespace FastNet.Simple.System
open Execution

namespace Slot

/-- The pages that the handler has answered, in order. -/
def responses : Slot → List ℤ
  | .handled _ conn _ => conn.server.responses
  | _ => []

/-- The receives that the thread has reaped. -/
def iterationsReceived (slot : Slot) : ℕ := (slot.thread.map Client.State.iterationsReceived).getD 0

end Slot

variable {P : Setup} {B : Boot P} {s t : State P} {i : Fin P.clientThreads} {slot : Slot}
  {es : List (Event P)}

section Threads

theorem job_numRequests_le (i : Fin P.clientThreads) : (P.job i).numRequests ≤ P.numRequests :=
  Client.threadJob_numRequests_le i.isLt

theorem job_endIndex_le (i : Fin P.clientThreads) : (P.job i).endIndex ≤ P.numRequests :=
  Client.threadJob_endIndex_le i.isLt

theorem flatMap_job (P : Setup) : (List.finRange P.clientThreads).flatMap
    (fun i => List.range' (P.job i).startIndex (P.job i).numRequests) = List.range P.numRequests := by
  have h := Client.flatMap_threadJob P.numRequests P.clientThreads_pos
  rw [← List.map_coe_finRange_eq_range,List.flatMap_map] at h
  exact h

theorem sum_job (P : Setup) : ∑ i, (P.job i).numRequests = P.numRequests := by
  have h := congrArg List.length (flatMap_job P)
  rw [List.length_flatMap,List.length_range] at h
  simp only [List.length_range'] at h
  rw [← h,Fin.sum_univ_def]

/-- Behind each slot with a thread there is a run of its connection. -/
theorem SlotOk.run (hs : SlotOk B i slot) (h : slot ≠ .apart) : ∃ n conn es,
    Connection.Run P.K (P.job i) n P.L es conn ∧ slot.thread = some conn.client ∧
      slot.responses = conn.server.responses := by
  cases slot with
  | apart => exact (h rfl).elim
  | pending client requests pages =>
    obtain ⟨es,hrun⟩ := hs
    refine ⟨0,_,es,hrun 0 P.clientThreads_pos,rfl,?_⟩
    obtain ⟨header,bytes,supply,hstart⟩ := B.handler_start 0 P.clientThreads_pos
    exact (congrArg Server.View.responses (Server.start_view hstart).2).symm
  | handled clientNum conn counted =>
    obtain ⟨⟨es,hrun⟩,-⟩ := hs
    exact ⟨clientNum,conn,es,hrun,rfl,rfl⟩

/-- The handler has answered the first requests of the range of its thread. -/
theorem SlotOk.responses (hs : SlotOk B i slot) (hn : P.numRequests ≤ intMax) :
    slot.responses.length ≤ (P.job i).numRequests ∧ slot.responses =
      (List.range' (P.job i).startIndex slot.responses.length).map Nat.cast := by
  by_cases hslot : slot = .apart
  · subst hslot
    exact ⟨Nat.zero_le _,rfl⟩
  · obtain ⟨n,conn,es,hrun,-,hresp⟩ := hs.run hslot
    obtain ⟨-,hpath⟩ := hrun.path
    obtain ⟨forth,back,hr⟩ := Connection.relay_of_path hpath
    have hle := hr.responses_le.trans (Connection.counts_of_path hpath).send_le
    have hend := job_endIndex_le i
    have hvalues := hr.values
    simp only [Connection.view,Server.view] at hle hvalues
    rw [hresp]
    refine ⟨hle,?_⟩
    conv_lhs => rw [hvalues]
    rw [List.range'_eq_map_range,List.map_map]
    apply List.map_congr_left
    intro k hk
    have hk := List.mem_range.mp hk
    unfold Client.Job.numRequests at hle
    unfold intMax at hn
    exact Connection.value_eq (by omega)

/-- Over all threads, no page is answered twice and none that was not asked for. -/
theorem answered_once (hn : P.numRequests ≤ intMax) (h : Run B es s) :
    ((List.finRange P.clientThreads).flatMap fun i => (s.slots i).responses).Sublist
      ((List.range P.numRequests).map Nat.cast) := by
  rw [← flatMap_job P,List.map_flatMap]
  refine List.Sublist.flatMap_right _ fun i _ => ?_
  obtain ⟨hle,hresp⟩ := (h.inv.slot i).responses hn
  rw [hresp]
  refine List.Sublist.map _ ?_
  have hsplit := @List.range'_append_1 (P.job i).startIndex (s.slots i).responses.length
    ((P.job i).numRequests - (s.slots i).responses.length)
  rw [Nat.add_sub_cancel' hle] at hsplit
  rw [← hsplit]
  exact List.sublist_append_left _ _

theorem answered_once_exchange : ∃ s, Run smallBoot exchange s ∧
    ((List.finRange 2).flatMap fun i => (s.slots i).responses).Sublist [0,1,2,3] := by
  obtain ⟨s,hs,-⟩ := run_exchange
  exact ⟨s,hs,answered_once (by decide) hs⟩

end Threads

section Down

/-- Once the server is down, all connections have been accepted and closed. -/
theorem Inv.handled_of_down (hi : Inv B s) (h : s.phase = .down) :
    s.clientNum = P.clientThreads ∧ s.finishedThreads = P.clientThreads ∧
      ∀ i, ∃ n conn, s.slots i = .handled n conn true ∧ conn.server.phase = .closed := by
  have hnum := hi.waiting (by simp [h])
  have hfin := hi.down h
  have hcard : Fintype.card (Fin P.clientThreads) = P.clientThreads := Fintype.card_fin _
  have hle : ∀ i, (s.slots i).finished ≤ 1 := fun i => (Slot.finished_le _).trans (Slot.accepted_le _)
  have hacc := Family.sum_le_card fun i => Slot.accepted_le (s.slots i)
  have hsum := Family.sum_le_card hle
  have hone := Family.eq_one_of_card_le hle (by
    have hcount := hi.finishedThreads
    unfold State.count at hcount
    omega)
  have hclient := hi.clientNum
  have hfinished := hi.finishedThreads
  unfold State.count at hclient hfinished
  refine ⟨by omega,by omega,fun i => ?_⟩
  have hi1 := hone i
  have hok := hi.slot i
  cases hslot : s.slots i with
  | apart => simp [hslot,Slot.finished] at hi1
  | pending client requests pages => simp [hslot,Slot.finished] at hi1
  | handled n conn counted =>
    cases counted with
    | false => simp [hslot,Slot.finished] at hi1
    | true =>
      rw [hslot] at hok
      exact ⟨n,conn,rfl,hok.2 rfl⟩

/-- The server goes down only after all clients have closed their connections, and what
it has not answered was never sent. -/
theorem down_complete (hn : P.numRequests ≤ intMax) (h : Run B es s) (hdown : s.phase = .down) :
    s.clientNum = P.clientThreads ∧ s.finishedThreads = P.clientThreads ∧
      ∀ i, ∃ n conn, s.slots i = .handled n conn true ∧ conn.server.phase = .closed ∧
        conn.client.phase = .returned ∧
        conn.server.responses =
          (List.range' (P.job i).startIndex conn.server.responses.length).map Nat.cast ∧
        conn.server.responses.length + conn.client.proc.ring.tx.length = (P.job i).numRequests := by
  obtain ⟨hnum,hfin,hall⟩ := h.inv.handled_of_down hdown
  refine ⟨hnum,hfin,fun i => ?_⟩
  obtain ⟨n,conn,hslot,hclosed⟩ := hall i
  have hok := h.inv.slot i
  rw [hslot] at hok
  obtain ⟨-,hresp⟩ := hok.responses hn
  obtain ⟨⟨es,hrun⟩,-⟩ := hok
  obtain ⟨hi,hpath⟩ := hrun.path
  obtain ⟨forth,back,hr⟩ := Connection.relay_of_path hpath
  obtain ⟨hret,-,hcount⟩ := hr.closed (Connection.endOfStream_of_path hpath) hclosed
  have hall := (Connection.placed_of_path hpath).returned hret
  have hsend := (Connection.counts_of_path hpath).send_le
  have htx : (Connection.view P.K conn).client.ring.tx.length = conn.client.proc.ring.tx.length := by
    change (Client.view P.K conn.client).ring.tx.length = _
    rw [Client.view_tx hi.client,List.length_map]
  have hresponses : (Connection.view P.K conn).server.responses = conn.server.responses := rfl
  refine ⟨n,conn,hslot,hclosed,hret,hresp,?_⟩
  rw [htx,hresponses] at hcount
  omega

theorem down_complete_exchange : ∃ s, Run smallBoot exchange s ∧ s.finishedThreads = 2 := by
  obtain ⟨s,hs,hdown,-⟩ := run_exchange
  exact ⟨s,hs,(down_complete (by decide) hs hdown).2.1⟩

end Down

section Totals

/-- A thread has reaped no more pages than its handler has answered. -/
theorem SlotOk.received (hs : SlotOk B i slot) :
    slot.iterationsReceived ≤ slot.responses.length ∧
      (slot.Returned → slot.totalReceived = slot.iterationsReceived * P.K.pageLen % sizeMod) := by
  by_cases hslot : slot = .apart
  · subst hslot
    exact ⟨Nat.zero_le _,fun ⟨c,hc,_⟩ => by cases hc⟩
  · obtain ⟨n,conn,es,hrun,hthread,hresp⟩ := hs.run hslot
    obtain ⟨-,hpath⟩ := hrun.path
    obtain ⟨forth,back,hr⟩ := Connection.relay_of_path hpath
    have hreaped := (Connection.counts_of_path hpath).reaped
    have hpaged := (Connection.paged_of_path hpath).1
    have hanswers := congrArg List.length hr.answers
    simp only [List.length_append,List.length_map] at hanswers
    simp only [Connection.view,Client.view,Server.view] at hreaped hanswers
    rw [Slot.iterationsReceived,hthread,hresp,Option.map_some,Option.getD_some]
    refine ⟨by omega,?_⟩
    rintro ⟨c,hc,hret⟩
    obtain rfl : conn.client = c := Option.some.inj (hthread.symm.trans hc)
    have hstored : conn.client.stored = some conn.client.totalReceived := hpaged.stored hret
    rw [Slot.totalReceived,hthread,Option.bind_some,hstored,Option.getD_some]
    exact hpaged.total

/-- The total that the client prints is that of the reaped pages, and it is the size of
all pages just when every thread has reaped all of its own. -/
theorem total_reaped (hn : P.numRequests ≤ intMax) (hsize : P.numRequests * P.K.pageLen < sizeMod)
    (h : Run B es s) (hjoined : s.joined = P.clientThreads) :
    totalReceivedBytes s = s.count Slot.iterationsReceived * P.K.pageLen ∧
      s.count Slot.iterationsReceived ≤ s.count (fun slot => slot.responses.length) ∧
      (totalReceivedBytes s = P.numRequests * P.K.pageLen ↔
        ∀ i, (s.slots i).iterationsReceived = (P.job i).numRequests) := by
  have hi := h.inv
  have hrecv : ∀ i, (s.slots i).iterationsReceived ≤ (s.slots i).responses.length :=
    fun i => (hi.slot i).received.1
  have hjob : ∀ i, (s.slots i).iterationsReceived ≤ (P.job i).numRequests :=
    fun i => (hrecv i).trans ((hi.slot i).responses hn).1
  have hle : s.count Slot.iterationsReceived ≤ P.numRequests :=
    (Finset.sum_le_sum fun i _ => hjob i).trans (sum_job P).le
  have heach : ∀ i ∈ List.finRange P.clientThreads, (s.slots i).totalReceived =
      (s.slots i).iterationsReceived * P.K.pageLen := by
    intro i _
    have hmul : (s.slots i).iterationsReceived * P.K.pageLen ≤ P.numRequests * P.K.pageLen :=
      Nat.mul_le_mul_right _ ((hjob i).trans (job_numRequests_le i))
    have hret := hi.joined i (by rw [hjoined]; exact i.isLt)
    rw [(hi.slot i).received.2 hret,Nat.mod_eq_of_lt (by omega)]
  have htotal : totalReceivedBytes s = s.count Slot.iterationsReceived * P.K.pageLen := by
    rw [totalReceivedBytes,Client.totalReceivedBytes_eq,List.map_congr_left heach,
      List.sum_map_mul_right,← Fin.sum_univ_def]
    have hmul := Nat.mul_le_mul_right P.K.pageLen hle
    exact Nat.mod_eq_of_lt (lt_of_le_of_lt hmul hsize)
  refine ⟨htotal,Finset.sum_le_sum fun i _ => hrecv i,?_⟩
  rw [htotal,Nat.mul_left_inj P.K.pageLen_pos.ne',← sum_job P]
  exact (Finset.sum_eq_sum_iff_of_le fun i _ => hjob i).trans (by simp)

theorem total_reaped_exchange : ∃ s, Run smallBoot exchange s ∧
    ∀ i, (s.slots i).iterationsReceived = (smallSetup.job i).numRequests := by
  obtain ⟨s,hs,-,hjoined,htotal⟩ := run_exchange
  exact ⟨s,hs,(total_reaped (by decide) (by decide) hs hjoined).2.2.mp htotal⟩

end Totals

end FastNet.Simple.System
