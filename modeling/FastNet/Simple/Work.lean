import FastNet.Foundation.RingWork
import FastNet.Simple.Relay

/-! # The work left on a connection

A request that is not sent yet weighs most, and each stage on its way through the two
rings and back weighs more than all that it turns into. No step of the connection adds
weight; only a pass of the client's loop that finds nothing to reap and nothing to
queue leaves it as it is. So the weight at the start bounds all the other steps.
-/
namespace FastNet.Simple.Connection
open Execution Client
variable (K : Consts) (J : Job)

def clientWeights : Weights where
  tx := 10
  txDone := 3
  rx := 5
  rxDone _ := 4
  cq c := if c.isRx then 2 else 1

/-- A read at the end of the stream leads to no answer. -/
def serverWeights : Weights where
  tx := 3
  txDone := 2
  rx := 2
  rxDone res := if res = 0 then 1 else 7
  cq
    | .tx _ => 1
    | .rx res _ => if res = 0 then 0 else 6

/-- One of the two windows lets the client queue an operation. -/
def Open (c : Client.View) : Prop :=
  sendGuard K J c.sendIndex c.recvIndex ∨ recvGuard K c.sendIndex c.recvIndex c.iterationsReceived

instance (c : Client.View) : Decidable (Open K J c) := by unfold Open; infer_instance

/-- What the place in the loop adds: the way round to a completion that waits or to an
open window. -/
def stage (c : Client.View) : ℕ :=
  match c.phase with
  | .top => if c.ring.cq = [] then 1 else 2
  | .reaping => if Open K J c then 2 else 1
  | .returned | .failed => 0

def clientWork (c : Client.View) : ℕ :=
  12 * (J.numRequests - c.sendIndex) + 7 * (J.numRequests - c.recvIndex) +
    c.ring.weight clientWeights + stage K J c

def serverWork (d : Server.View) : ℕ :=
  d.ring.weight serverWeights + if d.phase = .running then 1 else 0

def work (v : View) : ℕ :=
  clientWork K J v.client + serverWork v.server + 6 * (v.requests.length / sizeofInt32)

/-- Half a pass of the client's loop with nothing to reap and nothing to queue. -/
def Idle (c : Client.View) : Event → Prop
  | .client .iterate => c.ring.cq = [] ∧ ¬ Open K J c
  | .client .finish => ¬ breakCondition K J c.totalReceived c.sendIndex ∧
      loopCondition J c.sendIndex c.recvIndex ∧ ¬ Open K J c
  | _ => False

instance (c : Client.View) (e : Event) : Decidable (Idle K J c e) := by
  unfold Idle
  split <;> infer_instance

variable {K J} {L : Link} {clientNum : ℕ} {v w : View}

section Loop
variable {c : Client.View}

theorem stage_pos (h : c.phase = .top ∨ c.phase = .reaping) : 1 ≤ stage K J c := by
  unfold stage
  rcases h with h | h
  · simp only [h]
    split <;> omega
  · simp only [h]
    split <;> omega

theorem stage_le : stage K J c ≤ 2 := by
  unfold stage
  split
  · split <;> omega
  · split <;> omega
  · omega
  · omega

/-- Where no window is open, an iteration queues nothing. -/
theorem edges_of_not_open (h : ¬ Open K J c) (hc : Counts K J c) :
    c.sendEdge K J = c.sendIndex ∧ c.recvEdge K J = c.recvIndex := by
  obtain ⟨-,hle,hsend,-,-,-⟩ := hc
  unfold Open sendGuard recvGuard at h
  unfold Client.View.recvEdge Client.View.sendEdge
  omega

/-- Where one is open, it queues an operation. -/
theorem edges_of_open (h : Open K J c) (hc : Counts K J c) :
    c.sendIndex + c.recvIndex < c.sendEdge K J + c.recvEdge K J := by
  obtain ⟨-,hle,hsend,-,-,-⟩ := hc
  unfold Open sendGuard recvGuard at h
  unfold Client.View.recvEdge Client.View.sendEdge
  omega

theorem edges_le (hc : Counts K J c) :
    c.sendEdge K J ≤ J.numRequests ∧ c.recvEdge K J ≤ J.numRequests := by
  obtain ⟨-,hle,hsend,-,-,-⟩ := hc
  unfold Client.View.recvEdge Client.View.sendEdge
  omega

theorem weight_queued (i j : ℕ) :
    ((c.sent J i).posted j).ring.weight clientWeights =
      c.ring.weight clientWeights + 10 * (i - c.sendIndex) + 5 * (j - c.recvIndex) := by
  simp only [RingView.weight,clientWeights,Client.View.posted,Client.View.sent,List.length_append,
    List.length_map,List.length_range']
  omega

theorem work_iterate (hc : Counts K J c) (hp : c.phase = .top) :
    clientWork K J { (c.sent J (c.sendEdge K J)).posted (c.recvEdge K J) with phase := .reaping } ≤
        clientWork K J c ∧
      (¬ Idle K J c (.client .iterate) →
        clientWork K J { (c.sent J (c.sendEdge K J)).posted (c.recvEdge K J) with
          phase := .reaping } < clientWork K J c) := by
  have hweight := weight_queued (J := J) (c := c) (c.sendEdge K J) (c.recvEdge K J)
  have hs := c.le_sendEdge (K := K) (J := J)
  have hr := c.le_recvEdge (K := K) (J := J)
  obtain ⟨hsn,hrn⟩ := edges_le hc
  by_cases ho : Open K J c
  · have hedge := edges_of_open ho hc
    have hbefore := stage_pos (K := K) (J := J) (Or.inl hp)
    have hafter := stage_le (K := K) (J := J) (c :=
      { (c.sent J (c.sendEdge K J)).posted (c.recvEdge K J) with phase := .reaping })
    simp only [clientWork,Client.View.posted,Client.View.sent] at hweight hafter ⊢
    omega
  · obtain ⟨hse,hre⟩ := edges_of_not_open ho hc
    rw [hse,hre,Client.View.sent_self,Client.View.posted_self]
    have hafter : stage K J { c with phase := .reaping } = 1 := if_neg ho
    have hbefore : stage K J c = if c.ring.cq = [] then 1 else 2 := by simp only [stage,hp]
    simp only [clientWork,hafter,hbefore,Idle,ho,not_false_eq_true,and_true]
    split
    · rename_i hcq
      simp [hcq]
    · omega

theorem work_reap {d : Client.View} {x : Completion} {rest : List Completion}
    (hp : c.phase = .reaping) (hcq : c.ring.cq = x :: rest) (hring : d.ring = c.ring.setCq rest)
    (hphase : d.phase = .reaping) (hs : d.sendIndex = c.sendIndex) (hr : d.recvIndex = c.recvIndex)
    (hiter : d.iterationsReceived = c.iterationsReceived + if x.isRx then 1 else 0) :
    clientWork K J d < clientWork K J c := by
  have hw := RingView.weight_setCq (W := clientWeights) hcq
  have hbefore := stage_pos (K := K) (J := J) (Or.inr hp)
  have hafter := stage_le (K := K) (J := J) (c := d)
  simp only [clientWork,hs,hr,hring]
  cases hx : x.isRx with
  | true =>
    simp only [clientWeights,hx,if_true] at hw
    simp only [clientWeights]
    omega
  | false =>
    simp only [hx,Bool.false_eq_true,if_false,Nat.add_zero] at hiter
    have hstage : stage K J d = stage K J c := by
      simp only [stage,hp,hphase,Open,hs,hr,hiter]
    simp only [clientWeights,hx,Bool.false_eq_true,if_false] at hw
    simp only [clientWeights,hstage]
    omega

theorem work_finishAgain (hp : c.phase = .reaping) (hcq : c.ring.cq = [])
    (hbreak : ¬ breakCondition K J c.totalReceived c.sendIndex)
    (hloop : loopCondition J c.sendIndex c.recvIndex) :
    clientWork K J { c with phase := .top } ≤ clientWork K J c ∧
      (¬ Idle K J c (.client .finish) →
        clientWork K J { c with phase := .top } < clientWork K J c) := by
  have hafter : stage K J { c with phase := .top } = 1 := if_pos hcq
  have hbefore : stage K J c = if Open K J c then 2 else 1 := by simp only [stage,hp]
  simp only [clientWork,hafter,hbefore,Idle,hbreak,hloop,not_false_eq_true,true_and]
  split
  · omega
  · rename_i ho
    simp [ho]

/-- Leaving the loop, by whichever way, takes the weight of the place in it. -/
theorem work_leave {d : Client.View} (hp : c.phase = .reaping) (hring : d.ring = c.ring)
    (hphase : d.phase = .returned ∨ d.phase = .failed) (hs : d.sendIndex = c.sendIndex)
    (hr : d.recvIndex = c.recvIndex) : clientWork K J d < clientWork K J c := by
  have hbefore := stage_pos (K := K) (J := J) (Or.inr hp)
  have hafter : stage K J d = 0 := by
    rcases hphase with h | h <;> simp only [stage,h]
  simp only [clientWork,hring,hs,hr,hafter]
  omega

/-- A move of the kernel can only add the way round to a completion. -/
theorem stage_move {r : RingView} (h : c.phase = .top ∨ c.phase = .reaping) :
    stage K J { c with ring := r } ≤ stage K J c + 1 ∧
      (r.cq = c.ring.cq → stage K J { c with ring := r } = stage K J c) := by
  constructor
  · have hbefore := stage_pos (K := K) (J := J) h
    have hafter := stage_le (K := K) (J := J) (c := { c with ring := r })
    omega
  · intro hcq
    rcases h with h | h <;> simp only [stage,h,hcq,Open]

end Loop

theorem div_four_add (n : ℕ) : (n + sizeofInt32) / sizeofInt32 = n / sizeofInt32 + 1 :=
  Nat.add_div_right n (by decide)

theorem work_clientKernel {e : KernelEvent} {r : RingView} {requests pages : List UInt8}
    (hp : v.client.phase = .top ∨ v.client.phase = .reaping)
    (hlink : ClientLinked K L v.requests v.pages v.server.ring.txDone.length e requests pages)
    (hmove : RingView.Move K.pageLen v.client.ring e r) :
    work K J { v with
      client := { v.client with ring := r }
      requests := requests
      pages := pages } < work K J v := by
  obtain ⟨hstage,hkeep⟩ := stage_move (K := K) (J := J) (c := v.client) (r := r) hp
  simp only [work,clientWork]
  cases hlink with
  | send bytes hlen hroom =>
    have hw : r.weight clientWeights + 10 = v.client.ring.weight clientWeights + 3 :=
      hmove.weight_execTx
    have hcq : r.cq = v.client.ring.cq := by cases hmove; rfl
    have hq := div_four_add v.requests.length
    rw [hkeep hcq,List.length_append,hlen]
    omega
  | receive bytes hlen hpre =>
    have hw : r.weight clientWeights + 5 = v.client.ring.weight clientWeights + 4 :=
      hmove.weight_execRx
    have hcq : r.cq = v.client.ring.cq := by cases hmove; rfl
    rw [hkeep hcq]
    omega
  | postSend =>
    obtain ⟨res,-,hw⟩ := hmove.weight_postTx (W := clientWeights)
    have hw : r.weight clientWeights + 3 = v.client.ring.weight clientWeights + 1 := hw
    omega
  | postReceive =>
    obtain ⟨res,data,-,hw⟩ := hmove.weight_postRx (W := clientWeights)
    have hw : r.weight clientWeights + 4 = v.client.ring.weight clientWeights + 2 := hw
    omega

theorem work_serverKernel {e : KernelEvent} {r : RingView} {requests pages : List UInt8}
    {closed : Bool} (hlink : ServerLinked K L v.requests v.pages closed e requests pages)
    (hmove : RingView.Move sizeofInt32 v.server.ring e r) :
    work K J { v with
      server := { v.server with ring := r }
      requests := requests
      pages := pages } < work K J v := by
  simp only [work,serverWork]
  cases hlink with
  | write bytes hlen hroom =>
    have hw : r.weight serverWeights + 3 = v.server.ring.weight serverWeights + 2 :=
      hmove.weight_execTx
    omega
  | read bytes hlen hpre =>
    have hres : ((bytes.length : ℕ) : ℤ) ≠ 0 := by simp [hlen,sizeofInt32]
    have hw : r.weight serverWeights + 2 = v.server.ring.weight serverWeights + 7 :=
      hmove.weight_execRx.trans (congrArg _ (if_neg hres))
    have hle := hpre.length_le
    have hq := div_four_add (v.requests.length - bytes.length)
    rw [hlen] at hle hq
    rw [Nat.sub_add_cancel hle] at hq
    rw [List.length_drop,hlen]
    omega
  | eof hclosed hnil =>
    have hw : r.weight serverWeights + 2 = v.server.ring.weight serverWeights + 1 :=
      hmove.weight_execRx
    omega
  | postWrite =>
    obtain ⟨res,-,hw⟩ := hmove.weight_postTx (W := serverWeights)
    have hw : r.weight serverWeights + 2 = v.server.ring.weight serverWeights + 1 := hw
    omega
  | postRead =>
    obtain ⟨res,data,-,hw⟩ := hmove.weight_postRx (W := serverWeights)
    have hw : r.weight serverWeights + (if res = 0 then 1 else 7) =
        v.server.ring.weight serverWeights + if res = 0 then 0 else 6 := hw
    split at hw <;> omega

/-- Taking a completion, with what the answer to a read adds. -/
theorem work_serve {e : Server.Event} {d : Server.View} {requests pages : List UInt8}
    {closed : Bool} (hlink : serverLink K L v.requests v.pages closed e = some (requests,pages))
    (hstep : Server.Step K v.server e d) :
    work K J { v with server := d, requests := requests, pages := pages } < work K J v := by
  cases hstep with
  | read res data rest hp hcq hres =>
    cases hlink
    have hw : (v.server.ring.setCq rest).weight serverWeights + (if res = 0 then 0 else 6) =
      v.server.ring.weight serverWeights := RingView.weight_setCq hcq
    rw [if_neg hres] at hw
    have hans : (Server.answered K v.server.ring rest (Bytes.int32OfBytes data)).weight
        serverWeights = (v.server.ring.setCq rest).weight serverWeights + 5 := by
      simp only [Server.answered,RingView.weight,RingView.setCq,serverWeights,List.length_append,
        List.length_singleton]
      omega
    simp only [work,serverWork,hans]
    omega
  | closed data rest hp hcq =>
    cases hlink
    simp [work,serverWork,hp]
  | written res rest hp hcq =>
    cases hlink
    have hw : (v.server.ring.setCq rest).weight serverWeights + 1 =
      v.server.ring.weight serverWeights := RingView.weight_setCq hcq
    simp only [work,serverWork]
    omega
  | kernel e r hp hmove => exact work_serverKernel (serverLink_kernel hlink) hmove

theorem work_client {c : Client.View} {e : Event}
    (h : clientWork K J c ≤ clientWork K J v.client ∧
      (¬ Idle K J v.client e → clientWork K J c < clientWork K J v.client)) :
    work K J { v with client := c } ≤ work K J v ∧
      (¬ Idle K J v.client e → work K J { v with client := c } < work K J v) := by
  simp only [work]
  exact ⟨by omega,fun hidle => by have hlt := h.2 hidle; omega⟩

/-- No step adds work, and only an idle one takes none away. -/
theorem work_step {e : Event} (hc : Counts K J v.client) (h : Step K J L v e w) :
    work K J w ≤ work K J v ∧ (¬ Idle K J v.client e → work K J w < work K J v) := by
  have hless : ∀ {n m : ℕ}, n < m → n ≤ m ∧ (¬ Idle K J v.client e → n < m) :=
    fun hlt => ⟨hlt.le,fun _ => hlt⟩
  cases h with
  | server e d requests pages hlink hstep => exact hless (work_serve hlink hstep)
  | client e c requests pages hlink hstep =>
    cases hstep with
    | iterate hp =>
      cases hlink
      exact work_client (work_iterate hc hp)
    | reapSend res rest hp hcq hres =>
      cases hlink
      exact work_client (hless (work_reap hp hcq rfl hp rfl rfl rfl))
    | reapRecv res data rest hp hcq hres =>
      cases hlink
      exact work_client (hless (work_reap hp hcq rfl hp rfl rfl rfl))
    | reapFailed hp hcq =>
      cases hlink
      exact work_client (hless (work_leave hp rfl (Or.inr rfl) rfl rfl))
    | finishLeave hp hcq hexit =>
      cases hlink
      exact work_client (hless (work_leave hp rfl (Or.inl rfl) rfl rfl))
    | finishAgain hp hcq hbreak hloop =>
      cases hlink
      exact work_client (work_finishAgain hp hcq hbreak hloop)
    | kernel e r hp hmove => exact hless (work_clientKernel hp (clientLink_kernel hlink) hmove)

end FastNet.Simple.Connection
