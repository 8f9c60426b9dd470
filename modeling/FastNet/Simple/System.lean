import FastNet.Foundation.Family
import FastNet.Simple.Ending

/-! # The two programs

`main` of the client starts a thread for each part of the requests and joins them in
order. `main` of the server accepts as many connections, each for a handler of its own,
and waits until all handlers are done. A connection stands in the backlog of the
listening socket until it is accepted, and its client can already send.
-/
namespace FastNet.Simple.System
open Execution

/-- The macros both programs are compiled with, and the connections between them. -/
structure Setup where
  K : Consts
  numRequests : ℕ
  clientThreads : ℕ
  clientThreads_pos : 1 ≤ clientThreads
  L : Connection.Link

namespace Setup

def job (P : Setup) (i : Fin P.clientThreads) : Client.Job :=
  Client.threadJob P.numRequests P.clientThreads i

end Setup

/-- The backlog that the server asks `listen` for. -/
def backlogLen : ℕ := 1024

/-- The state in which each thread enters its loop, over any heap; a handler has the
number that `main` passes to it. -/
structure Boot (P : Setup) where
  client : Fin P.clientThreads → Client.State
  handler : ℕ → Server.State
  client_start : ∀ i, ∃ header bytes supply,
    Client.start P.K (P.job i) header bytes supply = .ok (client i)
  handler_start : ∀ n < P.clientThreads, ∃ header bytes supply,
    Server.start P.K n header bytes supply = .ok (handler n)

/-- A client thread before it is connected, while its connection is in the backlog, and
with its handler, which may have been counted in `finished_threads`. -/
inductive Slot
  | apart
  | pending (client : Client.State) (requests pages : List UInt8)
  | handled (clientNum : ℕ) (conn : Connection.State) (counted : Bool)

/-- Where `main` of the server is: in the loop that accepts, in the loop that waits, or
past it. -/
inductive Phase
  | accepting
  | waiting
  | down
  deriving DecidableEq, Repr

structure State (P : Setup) where
  slots : Fin P.clientThreads → Slot
  /-- The threads that `main` of the client has started, and those it has joined. -/
  started : ℕ
  joined : ℕ
  backlog : List (Fin P.clientThreads)
  clientNum : ℕ
  finishedThreads : ℕ
  phase : Phase

inductive Event (P : Setup)
  | spawn
  | connect (i : Fin P.clientThreads)
  | client (i : Fin P.clientThreads) (e : Client.Event)
  | accept
  | server (i : Fin P.clientThreads) (e : Server.Event)
  | finish (i : Fin P.clientThreads)
  | full
  | check
  | join

namespace Slot
variable (P : Setup) (i : Fin P.clientThreads)

/-- A step of the client thread, with or without its handler. -/
def stepClient (e : Client.Event) : Slot → Except Stop Slot
  | .apart => .error .disabled
  | .pending client requests pages =>
    match Connection.clientLink P.K P.L requests pages 0 e with
    | none => .error .disabled
    | some (requests,pages) => do
      let client ← Client.step P.K (P.job i) client e
      return .pending client requests pages
  | .handled clientNum conn counted => do
    let conn ← Connection.step P.K (P.job i) clientNum P.L conn (.client e)
    return .handled clientNum conn counted

def stepServer (e : Server.Event) : Slot → Except Stop Slot
  | .handled clientNum conn counted => do
    let conn ← Connection.step P.K (P.job i) clientNum P.L conn (.server e)
    return .handled clientNum conn counted
  | _ => .error .disabled

/-- The end of `handle_client`, once its event loop is left. -/
def count : Slot → Except Stop Slot
  | .handled clientNum conn false =>
    if conn.server.phase = .closed then .ok (.handled clientNum conn true) else .error .disabled
  | _ => .error .disabled

/-- The state of the thread once it is connected. -/
def thread : Slot → Option Client.State
  | .apart => none
  | .pending client _ _ => some client
  | .handled _ conn _ => some conn.client

def Returned (slot : Slot) : Prop := ∃ c ∈ slot.thread, c.phase = .returned

instance (slot : Slot) : Decidable slot.Returned := by unfold Returned; infer_instance

/-- The element of `total_received` that the thread has a pointer to. -/
def totalReceived (slot : Slot) : ℕ := (slot.thread.bind Client.State.stored).getD 0

end Slot

section Step
variable {P : Setup} (B : Boot P)

def State.setSlot (s : State P) (i : Fin P.clientThreads) (slot : Slot) : State P :=
  { s with slots := Function.update s.slots i slot }

def step (s : State P) : Event P → Except Stop (State P)
  | .spawn =>
    if s.started < P.clientThreads then .ok { s with started := s.started + 1 }
    else .error .disabled
  | .connect i =>
    match s.slots i with
    | .apart =>
      if i < s.started ∧ s.phase ≠ .down ∧ s.backlog.length < backlogLen then
        .ok { s.setSlot i (.pending (B.client i) [] []) with backlog := s.backlog ++ [i] }
      else .error .disabled
    | _ => .error .disabled
  | .client i e => do
    let slot ← (s.slots i).stepClient P i e
    return s.setSlot i slot
  | .accept =>
    if s.phase = .accepting ∧ s.clientNum < P.clientThreads then
      match s.backlog with
      | [] => .error .disabled
      | i :: rest =>
        match s.slots i with
        | .pending client requests pages =>
          .ok { s.setSlot i
              (.handled s.clientNum ⟨client,B.handler s.clientNum,requests,pages⟩ false) with
            backlog := rest
            clientNum := s.clientNum + 1 }
        | _ => .error .disabled
    else .error .disabled
  | .server i e =>
    if s.phase ≠ .down then do
      let slot ← (s.slots i).stepServer P i e
      return s.setSlot i slot
    else .error .disabled
  | .finish i =>
    if s.phase ≠ .down then do
      let slot ← (s.slots i).count
      return { s.setSlot i slot with finishedThreads := s.finishedThreads + 1 }
    else .error .disabled
  | .full =>
    if s.phase = .accepting ∧ P.clientThreads ≤ s.clientNum then .ok { s with phase := .waiting }
    else .error .disabled
  | .check =>
    if s.phase = .waiting then
      if s.finishedThreads < s.clientNum then .ok s else .ok { s with phase := .down }
    else .error .disabled
  | .join =>
    match (List.finRange P.clientThreads)[s.joined]? with
    | none => .error .disabled
    | some i =>
      if s.started = P.clientThreads ∧ (s.slots i).Returned then
        .ok { s with joined := s.joined + 1 }
      else .error .disabled

variable (P) in
def init : State P := ⟨fun _ => .apart,0,0,[],0,0,.accepting⟩

/-- A state the two programs can be in after the events. -/
def Run (es : List (Event P)) (s : State P) : Prop := execute (step B) (init P) es = .ok s

/-- What `main` of the client prints as the total, once all threads are joined. -/
def totalReceivedBytes (s : State P) : ℕ :=
  Client.totalReceivedBytes ((List.finRange P.clientThreads).map fun i => (s.slots i).totalReceived)

end Step

section Inversion
variable {P : Setup} (B : Boot P)

/-- What each event needs and does. -/
inductive Step (s : State P) : Event P → State P → Prop
  | spawn (h : s.started < P.clientThreads) : Step s .spawn { s with started := s.started + 1 }
  | connect (i : Fin P.clientThreads) (hslot : s.slots i = .apart) (hstarted : i < s.started)
      (hphase : s.phase ≠ .down) (hroom : s.backlog.length < backlogLen) :
      Step s (.connect i)
        { s.setSlot i (.pending (B.client i) [] []) with backlog := s.backlog ++ [i] }
  | client (i : Fin P.clientThreads) (e : Client.Event) (slot : Slot)
      (h : (s.slots i).stepClient P i e = .ok slot) : Step s (.client i e) (s.setSlot i slot)
  | accept (i : Fin P.clientThreads) (rest : List (Fin P.clientThreads)) (client : Client.State)
      (requests pages : List UInt8) (hphase : s.phase = .accepting)
      (hnum : s.clientNum < P.clientThreads) (hbacklog : s.backlog = i :: rest)
      (hslot : s.slots i = .pending client requests pages) :
      Step s .accept { s.setSlot i
          (.handled s.clientNum ⟨client,B.handler s.clientNum,requests,pages⟩ false) with
        backlog := rest
        clientNum := s.clientNum + 1 }
  | server (i : Fin P.clientThreads) (e : Server.Event) (slot : Slot) (hphase : s.phase ≠ .down)
      (h : (s.slots i).stepServer P i e = .ok slot) : Step s (.server i e) (s.setSlot i slot)
  | finish (i : Fin P.clientThreads) (slot : Slot) (hphase : s.phase ≠ .down)
      (h : (s.slots i).count = .ok slot) :
      Step s (.finish i) { s.setSlot i slot with finishedThreads := s.finishedThreads + 1 }
  | full (hphase : s.phase = .accepting) (hnum : P.clientThreads ≤ s.clientNum) :
      Step s .full { s with phase := .waiting }
  | sleep (hphase : s.phase = .waiting) (hnum : s.finishedThreads < s.clientNum) :
      Step s .check s
  | leave (hphase : s.phase = .waiting) (hnum : s.clientNum ≤ s.finishedThreads) :
      Step s .check { s with phase := .down }
  | join (i : Fin P.clientThreads) (hi : s.joined = i) (hstarted : s.started = P.clientThreads)
      (hret : (s.slots i).Returned) : Step s .join { s with joined := s.joined + 1 }

variable {B} {s t : State P}

theorem step_cases {e : Event P} (h : step B s e = .ok t) : Step B s e t := by
  cases e with
  | spawn =>
    simp only [step] at h
    split at h
    · cases h
      exact .spawn ‹_›
    · cases h
  | connect i =>
    simp only [step] at h
    split at h
    · rename_i hslot
      split at h
      · rename_i hg
        cases h
        exact .connect i hslot hg.1 hg.2.1 hg.2.2
      · cases h
    · cases h
  | client i e =>
    obtain ⟨slot,hslot,h⟩ := bind_ok.mp h
    cases h
    exact .client i e slot hslot
  | accept =>
    simp only [step] at h
    split at h
    · rename_i hg
      split at h
      · cases h
      · rename_i i rest hbacklog
        split at h
        · rename_i client requests pages hslot
          cases h
          exact .accept i rest client requests pages hg.1 hg.2 hbacklog hslot
        · cases h
    · cases h
  | server i e =>
    simp only [step] at h
    split at h
    · rename_i hphase
      obtain ⟨slot,hslot,h⟩ := bind_ok.mp h
      cases h
      exact .server i e slot hphase hslot
    · cases h
  | finish i =>
    simp only [step] at h
    split at h
    · rename_i hphase
      obtain ⟨slot,hslot,h⟩ := bind_ok.mp h
      cases h
      exact .finish i slot hphase hslot
    · cases h
  | full =>
    simp only [step] at h
    split at h
    · rename_i hg
      cases h
      exact .full hg.1 hg.2
    · cases h
  | check =>
    simp only [step] at h
    split at h
    · rename_i hphase
      split at h
      · rename_i hnum
        cases h
        exact .sleep hphase hnum
      · rename_i hnum
        cases h
        exact .leave hphase (by omega)
    · cases h
  | join =>
    simp only [step] at h
    split at h
    · cases h
    · rename_i i hi
      split at h
      · rename_i hg
        cases h
        obtain ⟨hlt,hi⟩ := List.getElem?_eq_some_iff.mp hi
        refine .join i ?_ hg.1 hg.2
        rw [← hi]
        simp
      · cases h

end Inversion

section Slots
variable {P : Setup} (B : Boot P)

/-- A connection is in a state that it reaches on its own; a handler that is not there
yet has taken no step, whatever its number will be. -/
def SlotOk (i : Fin P.clientThreads) : Slot → Prop
  | .apart => True
  | .pending client requests pages => ∃ es, ∀ n < P.clientThreads,
      Connection.Run P.K (P.job i) n P.L es ⟨client,B.handler n,requests,pages⟩
  | .handled clientNum conn counted =>
    (∃ es, Connection.Run P.K (P.job i) clientNum P.L es conn) ∧
      (counted = true → conn.server.phase = .closed)

variable {B} {i : Fin P.clientThreads} {slot slot' : Slot}

theorem slotOk_connect : SlotOk B i (.pending (B.client i) [] []) :=
  ⟨[],fun n hn => ⟨_,⟨B.client_start i,B.handler_start n hn,rfl,rfl⟩,rfl⟩⟩

theorem txDone_handler {n : ℕ} (hn : n < P.clientThreads) :
    (B.handler n).proc.ring.txDone.length = 0 := by
  obtain ⟨header,bytes,supply,h⟩ := B.handler_start n hn
  have hv := congrArg (fun v => v.ring.txDone.length) (Server.start_view h).2
  simpa [Server.view,Server.View.start,Process.view,Ring.view] using hv

/-- A client that is not accepted yet moves as one whose handler waits. -/
theorem stepClient_pending {client : Client.State} {requests pages : List UInt8} {e : Client.Event}
    (h : (Slot.pending client requests pages).stepClient P i e = .ok slot) :
    ∃ client' requests' pages', slot = .pending client' requests' pages' ∧
      Client.step P.K (P.job i) client e = .ok client' ∧
      ∀ n < P.clientThreads,
        Connection.step P.K (P.job i) n P.L ⟨client,B.handler n,requests,pages⟩ (.client e) =
          .ok ⟨client',B.handler n,requests',pages'⟩ := by
  simp only [Slot.stepClient] at h
  split at h
  · cases h
  · rename_i requests' pages' hlink
    obtain ⟨client',hclient,h⟩ := bind_ok.mp h
    cases h
    refine ⟨client',requests',pages',rfl,hclient,fun n hn => ?_⟩
    simp only [Connection.step,txDone_handler hn,hlink,hclient]
    rfl

theorem stepClient_handled {clientNum : ℕ} {conn : Connection.State} {counted : Bool}
    {e : Client.Event}
    (h : (Slot.handled clientNum conn counted).stepClient P i e = .ok slot) :
    ∃ conn', slot = .handled clientNum conn' counted ∧ conn'.server = conn.server ∧
      Client.step P.K (P.job i) conn.client e = .ok conn'.client ∧
      Connection.step P.K (P.job i) clientNum P.L conn (.client e) = .ok conn' := by
  obtain ⟨conn',hconn,h⟩ := bind_ok.mp h
  cases h
  have hstep := hconn
  simp only [Connection.step] at hconn
  split at hconn
  · cases hconn
  · obtain ⟨c,hc,hconn⟩ := bind_ok.mp hconn
    cases hconn
    exact ⟨_,rfl,rfl,hc,hstep⟩

theorem stepServer_handled {e : Server.Event} (h : slot.stepServer P i e = .ok slot') :
    ∃ clientNum conn counted conn', slot = .handled clientNum conn counted ∧
      slot' = .handled clientNum conn' counted ∧ conn'.client = conn.client ∧
      Server.step P.K clientNum conn.server e = .ok conn'.server ∧
      Connection.step P.K (P.job i) clientNum P.L conn (.server e) = .ok conn' := by
  cases slot with
  | apart => cases h
  | pending client requests pages => cases h
  | handled clientNum conn counted =>
    obtain ⟨conn',hconn,h⟩ := bind_ok.mp h
    cases h
    have hstep := hconn
    simp only [Connection.step] at hconn
    split at hconn
    · cases hconn
    · obtain ⟨d,hd,hconn⟩ := bind_ok.mp hconn
      cases hconn
      exact ⟨clientNum,conn,counted,_,rfl,rfl,rfl,hd,hstep⟩

theorem count_ok (h : slot.count = .ok slot') : ∃ clientNum conn,
    slot = .handled clientNum conn false ∧ conn.server.phase = .closed ∧
      slot' = .handled clientNum conn true := by
  unfold Slot.count at h
  split at h
  · rename_i clientNum conn
    split at h
    · rename_i hclosed
      cases h
      exact ⟨clientNum,conn,rfl,hclosed,rfl⟩
    · cases h
  · cases h

theorem SlotOk.stepClient {e : Client.Event} (hs : SlotOk B i slot)
    (h : slot.stepClient P i e = .ok slot') : SlotOk B i slot' := by
  cases slot with
  | apart => cases h
  | pending client requests pages =>
    obtain ⟨client',requests',pages',rfl,-,hstep⟩ := stepClient_pending (B := B) h
    obtain ⟨es,hrun⟩ := hs
    exact ⟨_,fun n hn => (hrun n hn).snoc (hstep n hn)⟩
  | handled clientNum conn counted =>
    obtain ⟨conn',rfl,hserver,-,hstep⟩ := stepClient_handled h
    obtain ⟨⟨es,hrun⟩,hcounted⟩ := hs
    exact ⟨⟨_,hrun.snoc hstep⟩,by rwa [hserver]⟩

/-- A handler past its loop takes no more steps. -/
theorem SlotOk.stepServer {e : Server.Event} (hs : SlotOk B i slot)
    (h : slot.stepServer P i e = .ok slot') : SlotOk B i slot' := by
  obtain ⟨clientNum,conn,counted,conn',rfl,rfl,-,hserver,hstep⟩ := stepServer_handled h
  obtain ⟨⟨es,hrun⟩,hcounted⟩ := hs
  refine ⟨⟨_,hrun.snoc hstep⟩,fun hc => ?_⟩
  have hclosed := hcounted hc
  cases e with
  | serve =>
    obtain ⟨hp,-⟩ := Server.step_serve hserver
    simp [hclosed] at hp
  | kernel e =>
    obtain ⟨hp,-⟩ := Server.step_kernel hserver
    simp [hclosed] at hp

theorem SlotOk.count (hs : SlotOk B i slot) (h : slot.count = .ok slot') : SlotOk B i slot' := by
  obtain ⟨clientNum,conn,rfl,hclosed,rfl⟩ := count_ok h
  exact ⟨hs.1,fun _ => hclosed⟩

end Slots

section Counters
variable {P : Setup} {B : Boot P} {s t : State P}

theorem forall_setSlot {Q : Fin P.clientThreads → Slot → Prop} {i : Fin P.clientThreads}
    {slot : Slot} (h : ∀ j, j ≠ i → Q j (s.slots j)) (hx : Q i slot) :
    ∀ j, Q j ((s.setSlot i slot).slots j) := Family.forall_update h hx

def State.count (f : Slot → ℕ) (s : State P) : ℕ := ∑ i, f (s.slots i)

theorem count_setSlot (f : Slot → ℕ) (s : State P) (i : Fin P.clientThreads) (slot : Slot) :
    (s.setSlot i slot).count f + f (s.slots i) = s.count f + f slot :=
  Family.sum_update (fun _ => f) s.slots i slot

namespace Slot

def pending? : Slot → Bool
  | .pending _ _ _ => true
  | _ => false

/-- What a slot adds to `client_num`. -/
def accepted : Slot → ℕ
  | .handled _ _ _ => 1
  | _ => 0

/-- What a slot adds to `finished_threads`. -/
def finished : Slot → ℕ
  | .handled _ _ true => 1
  | _ => 0

theorem accepted_le (slot : Slot) : slot.accepted ≤ 1 := by
  cases slot <;> simp [accepted]

theorem finished_le (slot : Slot) : slot.finished ≤ slot.accepted := by
  rcases slot with _ | _ | ⟨n,conn,_ | _⟩ <;> simp [accepted,finished]

/-- A step of one of the two threads of a connection. -/
structure Same (slot slot' : Slot) : Prop where
  pending : slot'.pending? = slot.pending?
  accepted : slot'.accepted = slot.accepted
  finished : slot'.finished = slot.finished
  apart : slot ≠ .apart
  returned : slot.Returned → slot'.Returned

end Slot

open Slot

variable (B) in
/-- The counters of both programs agree with where the connections are. -/
structure Inv (s : State P) : Prop where
  slot : ∀ i, SlotOk B i (s.slots i)
  backlog_nodup : s.backlog.Nodup
  backlog : ∀ i, i ∈ s.backlog ↔ (s.slots i).pending? = true
  clientNum : s.clientNum = s.count Slot.accepted
  finishedThreads : s.finishedThreads = s.count Slot.finished
  apart : ∀ i : Fin P.clientThreads, s.started ≤ i → s.slots i = .apart
  started : s.started ≤ P.clientThreads
  joined : ∀ i : Fin P.clientThreads, i < s.joined → (s.slots i).Returned
  joined_le : s.joined ≤ P.clientThreads
  joining : 0 < s.joined → s.started = P.clientThreads
  waiting : s.phase ≠ .accepting → P.clientThreads ≤ s.clientNum
  down : s.phase = .down → s.clientNum ≤ s.finishedThreads

theorem same_client {i : Fin P.clientThreads} {slot slot' : Slot} {e : Client.Event}
    (h : slot.stepClient P i e = .ok slot') : Same slot slot' := by
  have hnot : ∀ {c c' : Client.State}, slot.thread = some c →
      Client.step P.K (P.job i) c e = .ok c' → ¬ slot.Returned := by
    rintro c c' hc hstep ⟨d,hd,hret⟩
    obtain rfl : c = d := Option.some.inj (hc.symm.trans hd)
    exact Client.step_returned hret hstep
  cases slot with
  | apart => cases h
  | pending client requests pages =>
    simp only [Slot.stepClient] at h
    split at h
    · cases h
    · obtain ⟨client',hclient,h⟩ := bind_ok.mp h
      cases h
      exact ⟨rfl,rfl,rfl,by simp,fun hret => (hnot rfl hclient hret).elim⟩
  | handled clientNum conn counted =>
    obtain ⟨conn',rfl,-,hclient,-⟩ := stepClient_handled h
    refine ⟨rfl,rfl,?_,by simp,fun hret => (hnot rfl hclient hret).elim⟩
    cases counted <;> rfl

theorem same_server {i : Fin P.clientThreads} {slot slot' : Slot} {e : Server.Event}
    (h : slot.stepServer P i e = .ok slot') : Same slot slot' := by
  obtain ⟨clientNum,conn,counted,conn',rfl,rfl,hclient,-,-⟩ := stepServer_handled h
  refine ⟨rfl,rfl,by cases counted <;> rfl,by simp,fun hret => ?_⟩
  simpa only [Slot.Returned,Slot.thread,hclient] using hret

theorem Inv.setSlot (hi : Inv B s) {i : Fin P.clientThreads} {slot : Slot}
    (hs : Same (s.slots i) slot) (hok : SlotOk B i slot) : Inv B (s.setSlot i slot) where
  slot := forall_setSlot (fun j _ => hi.slot j) hok
  backlog_nodup := hi.backlog_nodup
  backlog := forall_setSlot (Q := fun j (x : Slot) => j ∈ s.backlog ↔ x.pending? = true)
    (fun j _ => hi.backlog j) (by rw [hs.pending]; exact hi.backlog i)
  clientNum := by
    have hsum := count_setSlot Slot.accepted s i slot
    rw [hs.accepted,← hi.clientNum] at hsum
    exact (Nat.add_right_cancel hsum).symm
  finishedThreads := by
    have hsum := count_setSlot Slot.finished s i slot
    rw [hs.finished,← hi.finishedThreads] at hsum
    exact (Nat.add_right_cancel hsum).symm
  apart := forall_setSlot (Q := fun j x => s.started ≤ j → x = .apart) (fun j _ => hi.apart j)
    (fun hj => (hs.apart (hi.apart i hj)).elim)
  started := hi.started
  joined := forall_setSlot (Q := fun j (x : Slot) => (j : ℕ) < s.joined → x.Returned)
    (fun j _ => hi.joined j) (fun hj => hs.returned (hi.joined i hj))
  joined_le := hi.joined_le
  joining := hi.joining
  waiting := hi.waiting
  down := hi.down

theorem Inv.connect (hi : Inv B s) {i : Fin P.clientThreads} (hslot : s.slots i = .apart)
    (hstarted : i < s.started) : Inv B
      { s.setSlot i (.pending (B.client i) [] []) with backlog := s.backlog ++ [i] } where
  slot := forall_setSlot (fun j _ => hi.slot j) slotOk_connect
  backlog_nodup := by
    refine List.nodup_append.mpr ⟨hi.backlog_nodup,List.nodup_singleton i,?_⟩
    rintro j hj k hk rfl
    obtain rfl := List.mem_singleton.mp hk
    have hpending := (hi.backlog _).mp hj
    rw [hslot] at hpending
    cases hpending
  backlog := by
    refine forall_setSlot (Q := fun j (x : Slot) => j ∈ s.backlog ++ [i] ↔ x.pending? = true)
      (fun j hj => ?_) (by simp [Slot.pending?])
    rw [List.mem_append,List.mem_singleton,hi.backlog j]
    simp [hj]
  clientNum := by
    have hsum := count_setSlot Slot.accepted s i (.pending (B.client i) [] [])
    rw [hslot,← hi.clientNum] at hsum
    exact (Nat.add_right_cancel hsum).symm
  finishedThreads := by
    have hsum := count_setSlot Slot.finished s i (.pending (B.client i) [] [])
    rw [hslot,← hi.finishedThreads] at hsum
    exact (Nat.add_right_cancel hsum).symm
  apart := forall_setSlot (Q := fun j x => s.started ≤ j → x = .apart) (fun j _ => hi.apart j)
    (fun hj => by omega)
  started := hi.started
  joined := by
    refine forall_setSlot (Q := fun j (x : Slot) => (j : ℕ) < s.joined → x.Returned)
      (fun j _ => hi.joined j) (fun hj => ?_)
    have hret := hi.joined i hj
    rw [hslot] at hret
    obtain ⟨c,hc,-⟩ := hret
    cases hc
  joined_le := hi.joined_le
  joining := hi.joining
  waiting := hi.waiting
  down := hi.down

theorem Inv.accept (hi : Inv B s) {i : Fin P.clientThreads} {rest : List (Fin P.clientThreads)}
    {client : Client.State} {requests pages : List UInt8} (hphase : s.phase = .accepting)
    (hnum : s.clientNum < P.clientThreads) (hbacklog : s.backlog = i :: rest)
    (hslot : s.slots i = .pending client requests pages) :
    Inv B { s.setSlot i
        (.handled s.clientNum ⟨client,B.handler s.clientNum,requests,pages⟩ false) with
      backlog := rest
      clientNum := s.clientNum + 1 } where
  slot := by
    refine forall_setSlot (fun j _ => hi.slot j) ?_
    have hok := hi.slot i
    rw [hslot] at hok
    obtain ⟨es,hrun⟩ := hok
    exact ⟨⟨es,hrun _ hnum⟩,by simp⟩
  backlog_nodup := (List.nodup_cons.mp (hbacklog ▸ hi.backlog_nodup)).2
  backlog := by
    have hnodup := List.nodup_cons.mp (hbacklog ▸ hi.backlog_nodup)
    refine forall_setSlot (Q := fun j (x : Slot) => j ∈ rest ↔ x.pending? = true)
      (fun j hj => ?_) (by simpa [Slot.pending?] using hnodup.1)
    rw [← hi.backlog j,hbacklog,List.mem_cons]
    simp [hj]
  clientNum := by
    have hsum := count_setSlot Slot.accepted s i
      (.handled s.clientNum ⟨client,B.handler s.clientNum,requests,pages⟩ false)
    rw [hslot,← hi.clientNum] at hsum
    exact hsum.symm
  finishedThreads := by
    have hsum := count_setSlot Slot.finished s i
      (.handled s.clientNum ⟨client,B.handler s.clientNum,requests,pages⟩ false)
    rw [hslot,← hi.finishedThreads] at hsum
    exact (Nat.add_right_cancel hsum).symm
  apart := by
    refine forall_setSlot (Q := fun j x => s.started ≤ j → x = .apart) (fun j _ => hi.apart j)
      (fun hj => ?_)
    have hapart := hi.apart i hj
    rw [hslot] at hapart
    cases hapart
  started := hi.started
  joined := by
    refine forall_setSlot (Q := fun j (x : Slot) => (j : ℕ) < s.joined → x.Returned)
      (fun j _ => hi.joined j) (fun hj => ?_)
    have hret := hi.joined i hj
    rwa [hslot] at hret
  joined_le := hi.joined_le
  joining := hi.joining
  waiting h := (h hphase).elim
  down h := by
    have h : s.phase = .down := h
    rw [hphase] at h
    cases h

theorem Inv.finish (hi : Inv B s) {i : Fin P.clientThreads} {slot : Slot}
    (h : (s.slots i).count = .ok slot) :
    Inv B { s.setSlot i slot with finishedThreads := s.finishedThreads + 1 } := by
  have hok := (hi.slot i).count h
  obtain ⟨clientNum,conn,hslot,-,rfl⟩ := count_ok h
  constructor
  · exact forall_setSlot (fun j _ => hi.slot j) hok
  · exact hi.backlog_nodup
  · refine forall_setSlot (Q := fun j (x : Slot) => j ∈ s.backlog ↔ x.pending? = true)
      (fun j _ => hi.backlog j) ?_
    rw [hi.backlog i,hslot]
    rfl
  · have hsum := count_setSlot Slot.accepted s i (.handled clientNum conn true)
    rw [hslot,← hi.clientNum] at hsum
    exact (Nat.add_right_cancel hsum).symm
  · have hsum := count_setSlot Slot.finished s i (.handled clientNum conn true)
    rw [hslot,← hi.finishedThreads] at hsum
    exact hsum.symm
  · refine forall_setSlot (Q := fun j x => s.started ≤ j → x = .apart) (fun j _ => hi.apart j)
      (fun hj => ?_)
    have hapart := hi.apart i hj
    rw [hslot] at hapart
    cases hapart
  · exact hi.started
  · refine forall_setSlot (Q := fun j (x : Slot) => (j : ℕ) < s.joined → x.Returned)
      (fun j _ => hi.joined j) (fun hj => ?_)
    have hret := hi.joined i hj
    rwa [hslot] at hret
  · exact hi.joined_le
  · exact hi.joining
  · exact hi.waiting
  · exact fun h => (hi.down h).trans (Nat.le_succ _)

theorem Inv.step (hi : Inv B s) {e : Event P} (h : step B s e = .ok t) : Inv B t := by
  cases step_cases h with
  | spawn hlt =>
    exact { hi with
      apart := fun i hi' => hi.apart i (by have hi' : s.started + 1 ≤ i := hi'; omega)
      started := hlt
      joining := fun hj => by have heq := hi.joining hj; omega }
  | connect i hslot hstarted hphase hroom => exact hi.connect hslot hstarted
  | client i e slot hslot => exact hi.setSlot (same_client hslot) ((hi.slot i).stepClient hslot)
  | accept i rest client requests pages hphase hnum hbacklog hslot =>
    exact hi.accept hphase hnum hbacklog hslot
  | server i e slot hphase hslot =>
    exact hi.setSlot (same_server hslot) ((hi.slot i).stepServer hslot)
  | finish i slot hphase hslot => exact hi.finish hslot
  | full hphase hnum =>
    exact { hi with
      waiting := fun _ => hnum
      down := fun h => by cases h }
  | sleep hphase hnum => exact hi
  | leave hphase hnum =>
    exact { hi with
      waiting := fun _ => hi.waiting (by simp [hphase])
      down := fun _ => hnum }
  | join i hi' hstarted hret =>
    refine { hi with joined := fun j hj => ?_, joined_le := ?_, joining := fun _ => hstarted }
    · have hj : (j : ℕ) < s.joined + 1 := hj
      rcases Nat.lt_succ_iff_lt_or_eq.mp hj with hlt | heq
      · exact hi.joined j hlt
      · obtain rfl : j = i := Fin.ext (heq.trans hi')
        exact hret
    · have hlt := i.isLt
      change s.joined + 1 ≤ P.clientThreads
      omega

theorem inv_init : Inv B (init P) where
  slot _ := trivial
  backlog_nodup := List.nodup_nil
  backlog i := by simp [init,Slot.pending?]
  clientNum := by simp [init,State.count,Slot.accepted]
  finishedThreads := by simp [init,State.count,Slot.finished]
  apart _ _ := rfl
  started := Nat.zero_le _
  joined i hi := (Nat.not_lt_zero _ hi).elim
  joined_le := Nat.zero_le _
  joining h := (Nat.not_lt_zero _ h).elim
  waiting h := (h rfl).elim
  down h := by cases h

theorem Run.inv {es : List (Event P)} (h : Run B es s) : Inv B s :=
  execute_invariant (fun _ _ _ hi h => hi.step h) h inv_init

end Counters

section Small

theorem eq_ok_get {ε α : Type} {x : Except ε α} (h : x.toOption.isSome = true) :
    x = .ok (x.toOption.get h) := by
  cases x with
  | ok a => rfl
  | error e => cases h

/-- Two threads with two requests each, of one integer. -/
def smallSetup : Setup := ⟨Consts.small,4,2,Nat.le_succ 1,Connection.roomyLink⟩

def smallHandler (n : ℕ) : Except Stop Server.State :=
  Server.start Consts.small n (fun _ => ⟨(0,0),.readEvent,0⟩) (fun _ => []) Process.countingSupply

theorem smallClient_isSome : ∀ i : Fin 2,
    (Client.smallStart (Client.threadJob 4 2 i)).toOption.isSome = true := by decide +kernel

theorem smallHandler_isSome : ∀ n < 2, (smallHandler n).toOption.isSome = true := by
  decide +kernel

def smallBoot : Boot smallSetup where
  client i := (Client.smallStart (smallSetup.job i)).toOption.get (smallClient_isSome i)
  handler n :=
    (smallHandler (n % 2)).toOption.get (smallHandler_isSome (n % 2) (Nat.mod_lt n Nat.two_pos))
  client_start i := ⟨_,_,_,eq_ok_get (smallClient_isSome i)⟩
  handler_start n hn := by
    have hn : n < 2 := hn
    have hmod : smallHandler n = smallHandler (n % 2) := by rw [Nat.mod_eq_of_lt hn]
    exact ⟨_,_,_,hmod.trans (eq_ok_get (smallHandler_isSome (n % 2) (Nat.mod_lt n Nat.two_pos)))⟩

def firstThread : Fin smallSetup.clientThreads := ⟨0,Nat.two_pos⟩

def secondThread : Fin smallSetup.clientThreads := ⟨1,Nat.one_lt_two⟩

/-- A step of a thread or its handler, once they are connected. -/
def along (i : Fin smallSetup.clientThreads) : Connection.Event → Event smallSetup
  | .client e => .client i e
  | .server e => .server i e

/-- The handler of a thread meets the end of the stream. -/
def closing (i : Fin smallSetup.clientThreads) : List (Event smallSetup) :=
  [.server i (.kernel (.execRx 0 [])),.server i (.kernel (.postRx 0)),.server i .serve,.finish i]

def opening : List (Event smallSetup) :=
  [.spawn,.spawn,.connect secondThread,.connect firstThread,.accept,.accept,.full]

/-- The threads ask for their pages in turn and reap them, and both programs end. -/
def exchange : List (Event smallSetup) :=
  opening ++ (Connection.exchange 2).map (along secondThread) ++
    (Connection.exchange 0).map (along firstThread) ++
    (Connection.exchange 3).map (along secondThread) ++
    (Connection.exchange 1).map (along firstThread) ++ closing firstThread ++ closing secondThread ++
    [.check,.join,.join]

theorem run_exchange : ∃ s, Run smallBoot exchange s ∧ s.phase = .down ∧ s.joined = 2 ∧
    totalReceivedBytes s = 16 := by
  have hrun : yields (execute (step smallBoot) (init smallSetup) exchange)
      (fun s => s.phase = .down && s.joined = 2 && totalReceivedBytes s = 16) = true := by
    decide +kernel
  obtain ⟨s,hs,htest⟩ := exists_of_yields hrun
  simp only [Bool.and_eq_true,decide_eq_true_eq] at htest
  exact ⟨s,hs,htest.1.1,htest.1.2,htest.2⟩

end Small

end FastNet.Simple.System
