import FastNet.Simple.Relay

/-! # The client's window bounds the server's writes

The server answers whatever it reads. When no page can be read before its send is
posted, the client asks for request `k` only after the completion of the write
that is a whole window older was posted, and the completion queue keeps the two in
this order. So the server reaps that write before it reads the request.
-/
namespace FastNet.Simple.Connection
open Execution Client
variable {K : Consts} {J : Job} {L : Link} {v w : View} {forth back : List (List UInt8)}

/-- The requests the client can be ahead of its reaped pages. -/
def window (K : Consts) : ℕ := K.ringSize / 4 + K.ringSize / 2

/-- `k` requests are answered and `n` writes reaped before the queue: every read in
it that holds a request has all but a window of the older writes ahead of it. -/
def Paced (bound : ℕ) : ℕ → ℕ → List Completion → Prop
  | _, _, [] => True
  | k, n, .tx _ :: cq => Paced bound k (n + 1) cq
  | k, n, .rx res _ :: cq =>
    if res = 0 then Paced bound k n cq else k + 1 ≤ n + bound ∧ Paced bound (k + 1) n cq

/-- The reads in a completion queue that hold a request. -/
def asking (cq : List Completion) : List (ℤ × List UInt8) :=
  (cq.filterMap Completion.arrival).filter (fun a => a.1 ≠ 0)

theorem Paced.concat_tx {bound k n : ℕ} {cq : List Completion} {res : ℤ}
    (h : Paced bound k n cq) : Paced bound k n (cq ++ [.tx res]) := by
  induction cq generalizing k n with
  | nil => trivial
  | cons c cq ih =>
    cases c with
    | tx r => exact ih h
    | rx r data =>
      simp only [List.cons_append,Paced] at h ⊢
      split
      · rename_i hr
        rw [if_pos hr] at h
        exact ih h
      · rename_i hr
        rw [if_neg hr] at h
        exact ⟨h.1,ih h.2⟩

theorem Paced.concat_rx {bound k n : ℕ} {cq : List Completion} {res : ℤ} {data : List UInt8}
    (h : Paced bound k n cq)
    (hlast : res ≠ 0 →
      k + (asking cq).length + 1 ≤ n + cq.countP (fun c => !c.isRx) + bound) :
    Paced bound k n (cq ++ [.rx res data]) := by
  induction cq generalizing k n with
  | nil =>
    simp only [List.nil_append,Paced]
    by_cases hr : res = 0
    · rw [if_pos hr]
      trivial
    · rw [if_neg hr]
      exact ⟨hlast hr,trivial⟩
  | cons c cq ih =>
    cases c with
    | tx r =>
      apply ih h
      intro hr
      have hle := hlast hr
      have hask : asking (.tx r :: cq) = asking cq := by
        simp [asking,List.filterMap_cons,Completion.arrival]
      rw [hask,List.countP_cons_of_pos (by rfl)] at hle
      omega
    | rx r d =>
      simp only [List.cons_append,Paced] at h ⊢
      by_cases hr : r = 0
      · rw [if_pos hr] at h ⊢
        apply ih h
        intro hres
        have hle := hlast hres
        have hask : asking (.rx r d :: cq) = asking cq := by
          simp [asking,Completion.arrival,hr]
        rwa [hask,List.countP_cons_of_neg (by simp [Completion.isRx])] at hle
      · rw [if_neg hr] at h ⊢
        refine ⟨h.1,ih h.2 ?_⟩
        intro hres
        have hle := hlast hres
        have hask : asking (.rx r d :: cq) = (r,d) :: asking cq := by
          simp [asking,Completion.arrival,hr]
        rw [hask,List.length_cons,List.countP_cons_of_neg (by simp [Completion.isRx])] at hle
        omega

/-- What bounds the server's operations. -/
structure Windowed (K : Consts) (v : View) : Prop where
  unposted : K.pageLen * v.server.ring.txDone.length ≤ v.pages.length
  reads : v.server.ring.recvs = K.ringSize / 4
  writes_le : v.server.ring.sends ≤ v.server.responses.length
  bound : v.server.ring.sends ≤ window K
  paced : Paced (window K) v.server.responses.length
    (v.server.responses.length - v.server.ring.sends) v.server.ring.cq

section Counting

/-- The pages the client has reaped were all posted by the server. -/
theorem Relay.posted_le (h : Relay K J v forth back) (hc : Counts K J v.client)
    (hw : Windowed K v) :
    v.client.iterationsReceived + v.server.ring.sends ≤
      v.server.responses.length + v.server.ring.cq.countP (fun c => !c.isRx) := by
  have hlen := congrArg List.length h.answers
  have hreaped := hc.reaped
  simp only [List.length_append,List.length_map] at hlen
  have hpages : v.pages.length = K.pageLen * back.length := by
    rw [h.pages,Bytes.length_flatten_of_all h.mem_back]
  have hun := hw.unposted
  rw [hpages] at hun
  have hback := Nat.le_of_mul_le_mul_left hun K.pageLen_pos
  simp only [RingView.sends]
  omega

/-- The requests in the server's reads are among those asked for. -/
theorem Relay.reads_le (h : Relay K J v forth back) :
    v.server.responses.length + v.reads.length ≤ v.client.sendIndex := by
  have hlen := congrArg List.length h.asked
  have hle := h.responses_le
  simp only [List.length_append,List.length_map,List.length_range'] at hlen
  omega

/-- A request in a read is at most a window ahead of the posted writes. -/
theorem Relay.reads_window (h : Relay K J v forth back) (hc : Counts K J v.client)
    (hw : Windowed K v) :
    v.reads.length + v.server.ring.sends ≤
      v.server.ring.cq.countP (fun c => !c.isRx) + window K := by
  have h1 := h.posted_le hc hw
  have h2 := h.reads_le
  have h3 := hc.send_window
  have h4 := hc.recv_window
  unfold window
  omega

end Counting

section Steps

theorem Windowed.client (hw : Windowed K v) {e : Client.Event} {c : Client.View}
    {requests pages : List UInt8} (hearly : L.early = false)
    (hlink : clientLink K L v.requests v.pages v.server.ring.txDone.length e =
      some (requests,pages)) :
    Windowed K { v with client := c, requests := requests, pages := pages } := by
  refine ⟨?_,hw.reads,hw.writes_le,hw.bound,hw.paced⟩
  have hun := hw.unposted
  cases e with
  | iterate =>
    cases hlink
    exact hun
  | reap =>
    cases hlink
    exact hun
  | finish =>
    cases hlink
    exact hun
  | kernel e =>
    cases clientLink_kernel hlink with
    | send bytes hlen hroom => exact hun
    | receive bytes hlen hp =>
      have hle := hp.length_le
      simp only [readable,hearly,Bool.false_eq_true,if_false,List.length_take] at hle
      change K.pageLen * v.server.ring.txDone.length ≤ (v.pages.drop bytes.length).length
      have hpos := K.pageLen_pos
      rw [List.length_drop]
      omega
    | postSend => exact hun
    | postReceive => exact hun

theorem Windowed.respond (hw : Windowed K v) {res : ℤ} {data : List UInt8}
    {rest : List Completion} (hcq : v.server.ring.cq = .rx res data :: rest) (hres : res ≠ 0) :
    Windowed K { v with server := { v.server with
      ring := Server.answered K v.server.ring rest (Bytes.int32OfBytes data)
      handled := v.server.handled + 1
      responses := v.server.responses ++ [Bytes.int32OfBytes data] } } := by
  have hpaced := hw.paced
  have hwrites := hw.writes_le
  rw [hcq] at hpaced
  simp only [Paced,if_neg hres] at hpaced
  obtain ⟨hsends,hrecvs⟩ := Server.answered_count K hcq (Bytes.int32OfBytes data)
  have hlen : (v.server.responses ++ [Bytes.int32OfBytes data]).length =
      v.server.responses.length + 1 := by simp
  refine ⟨hw.unposted,hrecvs.trans hw.reads,?_,?_,?_⟩
  · change (Server.answered K v.server.ring rest _).sends ≤ (v.server.responses ++ _).length
    omega
  · change (Server.answered K v.server.ring rest _).sends ≤ window K
    omega
  · change Paced _ (v.server.responses ++ _).length
      ((v.server.responses ++ _).length - (Server.answered K v.server.ring rest _).sends) rest
    rw [hlen,hsends,Nat.add_sub_add_right]
    exact hpaced.2

theorem Windowed.written (hw : Windowed K v) {res : ℤ} {rest : List Completion}
    (hcq : v.server.ring.cq = .tx res :: rest) :
    Windowed K { v with server := { v.server with ring := v.server.ring.setCq rest } } := by
  have hpaced := hw.paced
  have hreads := hw.reads
  have hwrites := hw.writes_le
  have hbound := hw.bound
  obtain ⟨hrecvs,hsends⟩ := RingView.reap_tx hcq
  rw [hcq] at hpaced
  simp only [Paced] at hpaced
  refine ⟨hw.unposted,hrecvs.symm.trans hreads,?_,?_,?_⟩
  · change (v.server.ring.setCq rest).sends ≤ v.server.responses.length
    omega
  · change (v.server.ring.setCq rest).sends ≤ window K
    omega
  · change Paced _ v.server.responses.length
      (v.server.responses.length - (v.server.ring.setCq rest).sends) rest
    have hnext : v.server.responses.length - (v.server.ring.setCq rest).sends =
        v.server.responses.length - v.server.ring.sends + 1 := by omega
    rw [hnext]
    exact hpaced

/-- A kernel event that does not touch the completion queue. -/
theorem Windowed.exec (hw : Windowed K v) {e : KernelEvent} {d : RingView}
    {requests pages : List UInt8} (hmove : RingView.Move sizeofInt32 v.server.ring e d)
    (hcq : d.cq = v.server.ring.cq)
    (hun : K.pageLen * d.txDone.length ≤ pages.length) :
    Windowed K { v with
      server := { v.server with ring := d }
      requests := requests
      pages := pages } := by
  obtain ⟨hsends,hrecvs⟩ := hmove.count
  have hpaced := hw.paced
  rw [← hsends,← hcq] at hpaced
  exact ⟨hun,hrecvs.trans hw.reads,hsends.le.trans hw.writes_le,hsends.le.trans hw.bound,hpaced⟩

theorem Windowed.postTx (hw : Windowed K v) {d : RingView}
    (hmove : RingView.Move sizeofInt32 v.server.ring (.postTx 0) d) :
    Windowed K { v with server := { v.server with ring := d } } := by
  obtain ⟨hsends,hrecvs⟩ := hmove.count
  have hun := hw.unposted
  have hpaced := hw.paced
  cases hmove with
  | postTx i res h =>
    refine ⟨?_,hrecvs.trans hw.reads,hsends.le.trans hw.writes_le,hsends.le.trans hw.bound,?_⟩
    · refine (Nat.mul_le_mul_left _ ?_).trans hun
      exact List.length_eraseIdx_le _ _
    · dsimp only at hsends ⊢
      rw [hsends]
      exact hpaced.concat_tx

/-- A read enters the completion queue behind the writes posted so far. -/
theorem Windowed.postRx (hw : Windowed K v) (h : Relay K J v forth back)
    (hc : Counts K J v.client) {d : RingView}
    (hmove : RingView.Move sizeofInt32 v.server.ring (.postRx 0) d) :
    Windowed K { v with server := { v.server with ring := d } } := by
  obtain ⟨hsends,hrecvs⟩ := hmove.count
  have hpaced := hw.paced
  have hwindow := h.reads_window hc hw
  have hwrites := hw.writes_le
  cases hmove with
  | postRx i res data hi =>
    refine ⟨hw.unposted,hrecvs.trans hw.reads,hsends.le.trans hwrites,hsends.le.trans hw.bound,?_⟩
    dsimp only at hsends ⊢
    rw [hsends]
    apply hpaced.concat_rx
    intro hres
    have hask : (asking v.server.ring.cq).length + 1 ≤ v.reads.length := by
      cases hd : v.server.ring.rxDone with
      | nil => simp [hd] at hi
      | cons d ds =>
        rw [hd] at hi
        obtain rfl : d = (res,data) := by simpa using hi
        simp [View.reads,RingView.arrivals,asking,hd,hres]
    omega

theorem Windowed.serverKernel (hw : Windowed K v) (h : Relay K J v forth back)
    (hc : Counts K J v.client) {e : KernelEvent} {d : RingView} {requests pages : List UInt8}
    {closed : Bool}
    (hlink : serverLink K L v.requests v.pages closed (.kernel e) = some (requests,pages))
    (hmove : RingView.Move sizeofInt32 v.server.ring e d) :
    Windowed K { v with
      server := { v.server with ring := d }
      requests := requests
      pages := pages } := by
  have hun := hw.unposted
  cases serverLink_kernel hlink with
  | write bytes hlen hroom =>
    obtain ⟨-,hcq,-,-,hdone⟩ := exec_first hmove (fun p hp => h.mem_answers
      (List.mem_append_right _ hp)) hlen
    apply hw.exec hmove hcq
    rw [hdone,List.length_append,hlen,Nat.mul_succ]
    omega
  | read bytes hlen hp =>
    obtain ⟨-,-,-,-,-,hdone,hcq⟩ := exec_receive hmove
    exact hw.exec hmove hcq (by rw [hdone]; exact hun)
  | eof hclosed hnil =>
    obtain ⟨-,-,-,-,-,hdone,hcq⟩ := exec_receive hmove
    exact hw.exec hmove hcq (by rw [hdone]; exact hun)
  | postWrite => exact hw.postTx hmove
  | postRead => exact hw.postRx h hc hmove

theorem Windowed.step {e : Event} (hw : Windowed K v) (h : Relay K J v forth back)
    (hc : Counts K J v.client) (hearly : L.early = false) (hstep : Step K J L v e w) :
    Windowed K w := by
  cases hstep with
  | client e c requests pages hlink hstep => exact hw.client hearly hlink
  | server e d requests pages hlink hstep =>
    cases hstep with
    | read res data rest hp hcq hres =>
      cases hlink
      exact hw.respond hcq hres
    | closed data rest hp hcq =>
      cases hlink
      exact ⟨hw.unposted,hw.reads,hw.writes_le,hw.bound,hw.paced⟩
    | written res rest hp hcq =>
      cases hlink
      exact hw.written hcq
    | kernel e d hp hmove => exact hw.serverKernel h hc hlink hmove

end Steps

theorem Windowed.start : Windowed K (View.start K J) :=
  ⟨Nat.le_refl 0,rfl,Nat.le_refl 0,Nat.zero_le _,trivial⟩

theorem windowed_of_path (hearly : L.early = false) {es : List Event}
    (h : Path (Step K J L) (View.start K J) es v) : Windowed K v := by
  have hall : (∃ forth back, Relay K J v forth back) ∧ Counts K J v.client ∧ Windowed K v := by
    refine h.invariant (P := fun v => (∃ forth back, Relay K J v forth back) ∧
      Counts K J v.client ∧ Windowed K v) ?_ ⟨⟨_,_,Relay.start⟩,Counts.start K J,Windowed.start⟩
    rintro v e w ⟨⟨forth,back,hr⟩,hc,hw⟩ hstep
    exact ⟨hr.step hstep,counts_of_step hc hstep,hw.step hr hc hearly hstep⟩
  exact hall.2.2

section Outstanding

/-- Submitted operations of one event type that are not reaped. -/
def outstanding (P : Process) (eventType : EventType) : ℕ :=
  P.ring.addrs.countP (fun a => (P.mem.header a).eventType = eventType)

theorem outstanding_view {s : Server.State} (hi : Server.Inv K s) :
    outstanding s.proc .readEvent = (Server.view s).ring.recvs ∧
      outstanding s.proc .writeEvent = (Server.view s).ring.sends := by
  obtain ⟨hsend,hrecv⟩ := hi.proc.typed.count
  have hkind : ∀ (header : RequestData),
      (Server.serverKind header = some .recv ↔ header.eventType = .readEvent) ∧
        (Server.serverKind header = some .send ↔ header.eventType = .writeEvent) := by
    intro header
    cases ht : header.eventType <;> simp [Server.serverKind,ht]
  constructor
  · refine Eq.trans ?_ hrecv
    exact List.countP_congr fun a _ => by simp [(hkind _).1]
  · refine Eq.trans ?_ hsend
    exact List.countP_congr fun a _ => by simp [(hkind _).2]

/-- Without early reads, the server never has more than a quarter of the ring in
reads and the client's window in writes, which its completion queue can hold. -/
theorem server_outstanding {clientNum : ℕ} {es : List Event} {s : State}
    (h : Run K J clientNum L es s) (hearly : L.early = false) :
    outstanding s.server.proc .readEvent ≤ K.ringSize / 4 ∧
      outstanding s.server.proc .writeEvent ≤ K.ringSize / 4 + K.ringSize / 2 ∧
      outstanding s.server.proc .readEvent + outstanding s.server.proc .writeEvent ≤
        Ring.cqEntries K.ringSize := by
  obtain ⟨hi,hpath⟩ := h.path
  have hw := windowed_of_path hearly hpath
  obtain ⟨hreads,hwrites⟩ := outstanding_view hi.server
  have hr : (Server.view s.server).ring.recvs = K.ringSize / 4 := hw.reads
  have hb : (Server.view s.server).ring.sends ≤ K.ringSize / 4 + K.ringSize / 2 := hw.bound
  have hround := Ring.le_roundUp K.ringSize
  unfold Ring.cqEntries
  omega

def lateLink : Link := ⟨4,4,false⟩

/-- The page of the second request is on the way and its send is not posted. -/
theorem server_outstanding_exchange :
    ∃ s, smallRun Consts.small threeRequests lateLink (exchange 7 ++ (exchange 8).take 6) = .ok s ∧
      s.server.responses = [7,8] ∧ outstanding s.server.proc .writeEvent = 1 ∧
      outstanding s.server.proc .writeEvent ≤ 3 := by
  have hrun : yields (smallRun Consts.small threeRequests lateLink
      (exchange 7 ++ (exchange 8).take 6)) (fun s => s.server.responses = [7,8] &&
        outstanding s.server.proc .writeEvent = 1) = true := by decide +kernel
  obtain ⟨s,hs,htest⟩ := exists_of_yields hrun
  simp only [Bool.and_eq_true,decide_eq_true_eq] at htest
  exact ⟨s,hs,htest.1,htest.2,(server_outstanding (run_of_smallRun hs) rfl).2.1⟩

end Outstanding

end FastNet.Simple.Connection
