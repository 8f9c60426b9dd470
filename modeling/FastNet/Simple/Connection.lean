import FastNet.Simple.ClientView
import FastNet.Simple.ServerView

/-! # One client thread and its handler

The client and the server handler over one connection: a byte queue with bounded
room in each direction. Operations of one kind execute and post in submission
order and transfer whole messages. A read returns no bytes once the client has
closed its end and all of its bytes are read.
-/
namespace FastNet.Simple.Connection
open Execution

/-- The room in each direction in bytes, and whether the client can read bytes
before the completion of the send that carried them is posted. -/
structure Link where
  requestRoom : ℕ
  pageRoom : ℕ
  early : Bool

structure State where
  client : Client.State
  server : Server.State
  requests : List UInt8
  pages : List UInt8

inductive Event
  | client (e : Client.Event)
  | server (e : Server.Event)

variable (K : Consts) (J : Client.Job) (clientNum : ℕ) (L : Link)

/-- The bytes of pages that the client can read; the last `unposted` pages belong
to sends without a completion. -/
def readable (pages : List UInt8) (unposted : ℕ) : List UInt8 :=
  if L.early then pages else pages.take (pages.length - K.pageLen * unposted)

/-- The two queues after an event of the client, if they allow it. -/
def clientLink (requests pages : List UInt8) (unposted : ℕ) :
    Client.Event → Option (List UInt8 × List UInt8)
  | .kernel (.execTx i bytes) =>
    if i = 0 ∧ bytes.length = sizeofInt32 ∧ requests.length + bytes.length ≤ L.requestRoom then
      some (requests ++ bytes,pages)
    else none
  | .kernel (.execRx i bytes) =>
    if i = 0 ∧ bytes.length = K.pageLen ∧ bytes <+: readable K L pages unposted then
      some (requests,pages.drop bytes.length)
    else none
  | .kernel (.postTx i) | .kernel (.postRx i) => if i = 0 then some (requests,pages) else none
  | .kernel (.failTx _ _) | .kernel (.failRx _ _) => none
  | .iterate | .reap | .finish => some (requests,pages)

/-- The two queues after an event of the server, if they allow it. -/
def serverLink (requests pages : List UInt8) (closed : Bool) :
    Server.Event → Option (List UInt8 × List UInt8)
  | .kernel (.execTx i bytes) =>
    if i = 0 ∧ bytes.length = K.pageLen ∧ pages.length + bytes.length ≤ L.pageRoom then
      some (requests,pages ++ bytes)
    else none
  | .kernel (.execRx i bytes) =>
    if i = 0 ∧ ((bytes.length = sizeofInt32 ∧ bytes <+: requests) ∨
        (closed = true ∧ requests = [] ∧ bytes = [])) then
      some (requests.drop bytes.length,pages)
    else none
  | .kernel (.postTx i) | .kernel (.postRx i) => if i = 0 then some (requests,pages) else none
  | .kernel (.failTx _ _) | .kernel (.failRx _ _) => none
  | .serve => some (requests,pages)

def step (s : State) : Event → Except Stop State
  | .client e =>
    match clientLink K L s.requests s.pages s.server.proc.ring.txDone.length e with
    | none => .error .disabled
    | some (requests,pages) => do
      let client ← Client.step K J s.client e
      return { s with client := client, requests := requests, pages := pages }
  | .server e =>
    match serverLink K L s.requests s.pages (s.client.phase = .returned) e with
    | none => .error .disabled
    | some (requests,pages) => do
      let server ← Server.step K clientNum s.server e
      return { s with server := server, requests := requests, pages := pages }

/-- Both programs at the head of their loops and nothing on the way. -/
structure Starts (s : State) : Prop where
  client : ∃ header bytes supply, Client.start K J header bytes supply = .ok s.client
  server : ∃ header bytes supply, Server.start K clientNum header bytes supply = .ok s.server
  requests : s.requests = []
  pages : s.pages = []

/-- A state the connection can be in after the events. -/
def Run (es : List Event) (s : State) : Prop :=
  ∃ s0, Starts K J clientNum s0 ∧ execute (step K J clientNum L) s0 es = .ok s

structure View where
  client : Client.View
  server : Server.View
  requests : List UInt8
  pages : List UInt8

def view (s : State) : View :=
  ⟨Client.view K s.client,Server.view s.server,s.requests,s.pages⟩

structure Inv (s : State) : Prop where
  client : Client.Inv K s.client
  server : Server.Inv K s.server

/-- A transition of one party on its view, with the queues it leaves. -/
inductive Step : View → Event → View → Prop
  | client (v : View) (e : Client.Event) (c : Client.View) (requests pages : List UInt8)
      (hlink : clientLink K L v.requests v.pages v.server.ring.txDone.length e =
        some (requests,pages))
      (hstep : Client.Step K J v.client e c) :
      Step v (.client e) { v with client := c, requests := requests, pages := pages }
  | server (v : View) (e : Server.Event) (d : Server.View) (requests pages : List UInt8)
      (hlink : serverLink K L v.requests v.pages (v.client.phase = .returned) e =
        some (requests,pages))
      (hstep : Server.Step K v.server e d) :
      Step v (.server e) { v with server := d, requests := requests, pages := pages }

variable {K J clientNum L} {s t : State}

section Links
variable (K L) (requests pages : List UInt8)

/-- What the connection lets the kernel of the client do, with the queues after it. -/
inductive ClientLinked (unposted : ℕ) : KernelEvent → List UInt8 → List UInt8 → Prop
  | send (bytes : List UInt8) (hlen : bytes.length = sizeofInt32)
      (hroom : requests.length + bytes.length ≤ L.requestRoom) :
      ClientLinked unposted (.execTx 0 bytes) (requests ++ bytes) pages
  | receive (bytes : List UInt8) (hlen : bytes.length = K.pageLen)
      (hp : bytes <+: readable K L pages unposted) :
      ClientLinked unposted (.execRx 0 bytes) requests (pages.drop bytes.length)
  | postSend : ClientLinked unposted (.postTx 0) requests pages
  | postReceive : ClientLinked unposted (.postRx 0) requests pages

/-- What the connection lets the kernel of the server do, with the queues after it. -/
inductive ServerLinked (closed : Bool) : KernelEvent → List UInt8 → List UInt8 → Prop
  | write (bytes : List UInt8) (hlen : bytes.length = K.pageLen)
      (hroom : pages.length + bytes.length ≤ L.pageRoom) :
      ServerLinked closed (.execTx 0 bytes) requests (pages ++ bytes)
  | read (bytes : List UInt8) (hlen : bytes.length = sizeofInt32) (hp : bytes <+: requests) :
      ServerLinked closed (.execRx 0 bytes) (requests.drop bytes.length) pages
  | eof (hclosed : closed = true) (hnil : requests = []) :
      ServerLinked closed (.execRx 0 []) requests pages
  | postWrite : ServerLinked closed (.postTx 0) requests pages
  | postRead : ServerLinked closed (.postRx 0) requests pages

variable {K L requests pages}

theorem clientLink_kernel {unposted : ℕ} {e : KernelEvent} {requests' pages' : List UInt8}
    (h : clientLink K L requests pages unposted (.kernel e) = some (requests',pages')) :
    ClientLinked K L requests pages unposted e requests' pages' := by
  cases e with
  | execTx i bytes =>
    simp only [clientLink] at h
    split at h
    · rename_i hg
      cases h
      obtain ⟨rfl,hlen,hroom⟩ := hg
      exact .send bytes hlen hroom
    · cases h
  | failTx i err => cases h
  | execRx i bytes =>
    simp only [clientLink] at h
    split at h
    · rename_i hg
      cases h
      obtain ⟨rfl,hlen,hp⟩ := hg
      exact .receive bytes hlen hp
    · cases h
  | failRx i err => cases h
  | postTx i =>
    simp only [clientLink] at h
    split at h
    · rename_i hg
      cases h
      subst hg
      exact .postSend
    · cases h
  | postRx i =>
    simp only [clientLink] at h
    split at h
    · rename_i hg
      cases h
      subst hg
      exact .postReceive
    · cases h

theorem serverLink_kernel {closed : Bool} {e : KernelEvent} {requests' pages' : List UInt8}
    (h : serverLink K L requests pages closed (.kernel e) = some (requests',pages')) :
    ServerLinked K L requests pages closed e requests' pages' := by
  cases e with
  | execTx i bytes =>
    simp only [serverLink] at h
    split at h
    · rename_i hg
      cases h
      obtain ⟨rfl,hlen,hroom⟩ := hg
      exact .write bytes hlen hroom
    · cases h
  | failTx i err => cases h
  | execRx i bytes =>
    simp only [serverLink] at h
    split at h
    · rename_i hg
      cases h
      obtain ⟨rfl,⟨hlen,hp⟩ | ⟨hclosed,hnil,rfl⟩⟩ := hg
      · exact .read bytes hlen hp
      · exact .eof hclosed hnil
    · cases h
  | failRx i err => cases h
  | postTx i =>
    simp only [serverLink] at h
    split at h
    · rename_i hg
      cases h
      subst hg
      exact .postWrite
    · cases h
  | postRx i =>
    simp only [serverLink] at h
    split at h
    · rename_i hg
      cases h
      subst hg
      exact .postRead
    · cases h

end Links

theorem step_view {e : Event} (hi : Inv K s) (h : step K J clientNum L s e = .ok t) :
    Inv K t ∧ Step K J L (view K s) e (view K t) := by
  cases e with
  | client e =>
    simp only [step] at h
    split at h
    · cases h
    · rename_i requests pages hlink
      obtain ⟨c,hc,h⟩ := bind_ok.mp h
      cases h
      have hv := Client.step_view hi.client hc
      have hdone : (view K s).server.ring.txDone.length = s.server.proc.ring.txDone.length := by
        simp [view,Server.view,Process.view,Ring.view]
      exact ⟨⟨hv.1,hi.server⟩,Step.client (view K s) e _ _ _ (by rw [hdone]; exact hlink) hv.2⟩
  | server e =>
    simp only [step] at h
    split at h
    · cases h
    · rename_i requests pages hlink
      obtain ⟨d,hd,h⟩ := bind_ok.mp h
      cases h
      have hv := Server.step_view hi.server hd
      exact ⟨⟨hi.client,hv.1⟩,Step.server (view K s) e _ _ _ hlink hv.2⟩

variable (K J clientNum L) in
theorem refines : Refines (step K J clientNum L) (Step K J L) (view K) (Inv K) where
  kept _ _ _ hi h := (step_view hi h).1
  matched _ _ _ hi h := (step_view hi h).2

variable (K J) in
def View.start : View := ⟨Client.View.start J,Server.View.start K,[],[]⟩

theorem Run.path {es : List Event} (h : Run K J clientNum L es s) :
    Inv K s ∧ Path (Step K J L) (View.start K J) es (view K s) := by
  obtain ⟨s0,⟨⟨_,_,_,hc⟩,⟨_,_,_,hd⟩,hrequests,hpages⟩,hrun⟩ := h
  obtain ⟨hic,hvc,-⟩ := Client.start_view hc
  obtain ⟨hid,hvd⟩ := Server.start_view hd
  have hi : Inv K s0 := ⟨hic,hid⟩
  have hv : view K s0 = View.start K J := by
    simp only [view,View.start,hvc,hvd,hrequests,hpages]
  exact ⟨(refines K J clientNum L).invariant hrun hi,
    hv ▸ (refines K J clientNum L).path hrun hi⟩

theorem prefix_readable (pages : List UInt8) (unposted : ℕ) :
    readable K L pages unposted <+: pages := by
  unfold readable
  split
  · exact List.prefix_refl pages
  · exact List.take_prefix _ _

end FastNet.Simple.Connection
