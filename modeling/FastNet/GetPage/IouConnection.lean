import FastNet.GetPage.IouThread

/-! # One thread of the io_uring client and whatever serves it

The half of the client on a connection, for every server: what a thread sends waits in
front of the server, and what the server sends in one step reaches the thread.
-/
namespace FastNet.GetPage.IouConnection
open Execution IouThread

/-- The bytes on their way to the server, and its handler. -/
structure Link (S : Type) where
  toServer : List UInt8
  server : S

/-- An event of the thread or its kernel, or one at the other end. -/
inductive Event (E : Type)
  | client (e : ClientIou.Event)
  | serve (e : E)

variable {S E : Type} (pageCount : ℕ) (serve : Link S → E → Except Stop (Link S × List UInt8))
  (J : ClientIou.Job)

def step (c : ClientIou.State) (l : Link S) : Event E → Except Stop (ClientIou.State × Link S)
  | .client e =>
    if carried e then
      (ClientIou.step pageCount J c e).map (fun d =>
        (d,{ l with toServer := l.toServer ++ transmitted c e }))
    else .error .disabled
  | .serve e => (serve l e).map (fun r => ({ c with stream := c.stream ++ r.2 },r.1))

/-- What a step of the client takes from the connection. -/
def takenBy : Event E → List (List UInt8)
  | .client e => ClientIou.taken [e]
  | .serve _ => []

/-- Of the first `sent` requests, the server has taken `served`; the others wait. -/
structure Queued (first : ℕ) (l : Link S) (sent served : ℕ) : Prop where
  served_le : served ≤ sent
  toServer : l.toServer = asked pageCount (first + served) (sent - served)

/-- The requests that the server has still to take. -/
def pending (c : ClientIou.State) (l : Link S) : ℕ :=
  unsent J c + l.toServer.length / sizeofRequest

variable {pageCount serve J} {c d : ClientIou.State} {l l' : Link S} {total : List UInt8}
  {pieces : List (List UInt8)} {first posted sent served : ℕ}

section Queue

theorem Queued.waiting (h : Queued pageCount first l sent served) :
    l.toServer.length = sizeofRequest * (sent - served) := by
  rw [h.toServer,length_asked]

/-- The thread sends more requests. -/
theorem Queued.ask (h : Queued pageCount first l sent served) {sent' : ℕ} (hle : sent ≤ sent') :
    Queued pageCount first
      { l with toServer := l.toServer ++ asked pageCount (first + sent) (sent' - sent) } sent'
      served := by
  have hserved := h.served_le
  have hindex : first + served + (sent - served) = first + sent := by omega
  have hsplit : sent' - served = sent - served + (sent' - sent) := by omega
  refine ⟨by omega,?_⟩
  rw [h.toServer,hsplit,asked_append,hindex]

/-- The server takes the oldest request. -/
theorem Queued.take (h : Queued pageCount first l sent served)
    (hlen : sizeofRequest ≤ l.toServer.length) (u : S) :
    l.toServer.take sizeofRequest = (Client.request pageCount (first + served)).bytes ∧
      Queued pageCount first ⟨l.toServer.drop sizeofRequest,u⟩ sent (served + 1) ∧
      l.toServer.length / sizeofRequest =
        (l.toServer.drop sizeofRequest).length / sizeofRequest + 1 := by
  have hwaiting := h.waiting
  obtain ⟨n,hn⟩ : ∃ n, sent - served = n + 1 := by
    apply Nat.exists_eq_add_one.mpr
    unfold sizeofRequest at hwaiting hlen
    omega
  have hfirst : l.toServer = (Client.request pageCount (first + served)).bytes ++
      asked pageCount (first + served + 1) n := by
    rw [h.toServer,hn,asked_cons]
  have hsize : (Client.request pageCount (first + served)).bytes.length = sizeofRequest :=
    GetPageRequest.length_bytes _
  refine ⟨?_,⟨by omega,?_⟩,?_⟩
  · rw [hfirst,List.take_left' hsize]
  · have hleft : sent - (served + 1) = n := by omega
    rw [hleft,← Nat.add_assoc]
    change l.toServer.drop sizeofRequest = _
    rw [hfirst,List.drop_left' hsize]
  · rw [List.length_drop]
    unfold sizeofRequest at hlen ⊢
    omega

end Queue

section Client

/-- A step is one of the thread and its kernel, or one at the other end. -/
theorem step_cases {e : Event E} (h : step pageCount serve J c l e = .ok (d,l')) :
    (∃ a, e = .client a ∧ carried a = true ∧ ClientIou.step pageCount J c a = .ok d ∧
      l' = { l with toServer := l.toServer ++ transmitted c a }) ∨
    ∃ a bs, e = .serve a ∧ serve l a = .ok (l',bs) ∧ d = { c with stream := c.stream ++ bs } := by
  cases e with
  | client a =>
    simp only [step] at h
    split at h
    · rename_i hcarried
      obtain ⟨u,hu,heq⟩ := map_ok.mp h
      cases heq
      exact Or.inl ⟨a,rfl,hcarried,hu,rfl⟩
    · cases h
  | serve a =>
    obtain ⟨⟨u,bs⟩,hu,heq⟩ := map_ok.mp h
    cases heq
    exact Or.inr ⟨a,bs,rfl,hu,rfl⟩

theorem step_error (hpc : 0 < pageCount)
    (hserve : ∀ l e why, serve l e = .error why → why = .disabled) {e : Event E} {why : Stop}
    (h : step pageCount serve J c l e = .error why) : why = .disabled := by
  cases e with
  | client a =>
    simp only [step] at h
    split at h
    · cases hd : ClientIou.step pageCount J c a with
      | ok d => simp [hd,Except.map] at h
      | error w =>
        rw [hd] at h
        cases h
        exact IouThread.step_error hpc hd
    · cases h
      rfl
  | serve a =>
    simp only [step] at h
    cases hd : serve l a with
    | ok r => simp [hd,Except.map] at h
    | error w =>
      rw [hd] at h
      cases h
      exact hserve l a _ hd

/-- A step of the thread keeps it in step; a request that it sends is still pending. -/
theorem Queued.client (hq : Queued pageCount J.start l sent served)
    (h : InStep pageCount J c total pieces posted sent) {e : ClientIou.Event}
    (hcarried : carried e = true) (hstep : ClientIou.step pageCount J c e = .ok d) :
    ∃ posted' sent', InStep pageCount J d total (pieces ++ ClientIou.taken [e]) posted' sent' ∧
      Queued pageCount J.start { l with toServer := l.toServer ++ transmitted c e } sent' served ∧
      pending J d { l with toServer := l.toServer ++ transmitted c e } = pending J c l ∧
      IouThread.work J d < IouThread.work J c := by
  obtain ⟨posted',sent',hd,hle,hbytes,hunsent,hwork⟩ := h.step hcarried hstep
  have hask := hq.ask hle
  rw [← hbytes] at hask
  refine ⟨posted',sent',hd,hask,?_,hwork⟩
  have hdiv : (l.toServer ++ transmitted c e).length / sizeofRequest =
      l.toServer.length / sizeofRequest + (sent' - sent) := by
    rw [List.length_append,hbytes,length_asked,Nat.add_mul_div_left _ _ (by decide)]
  simp only [pending,hdiv]
  omega

/-- A step changes nothing in the vectors outside the range of its thread. -/
theorem frame (h : InStep pageCount J c total pieces posted sent) {e : Event E}
    (hstep : step pageCount serve J c l e = .ok (d,l')) {j : ℕ}
    (hj : ¬ (J.start ≤ j ∧ j < J.stop)) :
    d.requests j = c.requests j ∧ d.responses j = c.responses j := by
  rcases step_cases hstep with ⟨a,-,-,hu,-⟩ | ⟨a,bs,-,-,rfl⟩
  · exact h.frame hu hj
  · exact ⟨rfl,rfl⟩

/-- A thread that has not finished can go on, or the other end can, which else has sent
all responses. -/
theorem enabled (h : InStep pageCount J c total pieces posted sent) (hpc : 0 < pageCount)
    (hp : c.phase ≠ .done)
    (hserve : (∃ e r, serve l e = .ok r) ∨ sizeofResponse * sent ≤ total.length) :
    ∃ e d l', step pageCount serve J c l e = .ok (d,l') := by
  rcases h.enabled hpc hp with ⟨e,d,hcarried,hd⟩ | hshort
  · exact ⟨.client e,d,_,(if_pos hcarried).trans (map_ok.mpr ⟨d,hd,rfl⟩)⟩
  · rcases hserve with ⟨e,r,hr⟩ | hall
    · exact ⟨.serve e,_,r.1,map_ok.mpr ⟨r,hr,rfl⟩⟩
    · omega

end Client

end FastNet.GetPage.IouConnection
