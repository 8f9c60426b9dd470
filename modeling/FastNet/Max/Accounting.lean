import FastNet.Max.Server

/-! # Bytes sent and bytes counted

All connections of the max benchmark with the total they share. A send puts as many
bytes on its connection as it reports, a read takes some of them, and a handler
counts what its reads report until one reports nothing. The bytes that a send leaves
out and those a handler leaves behind are lost to the total, and nothing else is.
-/
namespace FastNet.Max.Accounting
open Execution Simple
open Simple.Client (Job threadJob)

structure Conn where
  client : Client.State
  handler : Server.State
  /-- The bytes on their way from the client to the server. -/
  stream : ℕ

structure State where
  conns : ℕ → Conn
  /-- `total_bytes_received`. -/
  total : ℕ

inductive Event
  | client (e : Client.Event)
  | handler (e : Server.Event)
  deriving DecidableEq

variable (K : Consts) (J : Job)

/-- The bytes left after a read with the given result: some are taken, or there are
none and the client has closed, or the read fails. -/
def readStream (c : Conn) (res : ℤ) : Except Stop ℕ :=
  if 0 < res then if res.toNat ≤ c.stream then .ok (c.stream - res.toNat) else .error .disabled
  else if res = 0 then
    if c.stream = 0 ∧ c.client.phase = .returned then .ok 0 else .error .disabled
  else .ok c.stream

/-- One event of a connection, with the total. -/
def connStep (c : Conn) (total : ℕ) : Event → Except Stop (Conn × ℕ)
  | .client e => do
    let client ← Client.step K J c.client e
    return ({ c with client := client, stream := c.stream + (e.result.map Int.toNat).sum },total)
  | .handler .take => do
    let (handler,total) ← Server.take c.handler total
    return ({ c with handler := handler },total)
  | .handler (.kernel (.exec res)) => do
    let stream ← readStream c res
    let ring ← c.handler.ring.kernel K.pageLen (.exec res)
    return ({ c with handler := { c.handler with ring := ring }, stream := stream },total)
  | .handler (.kernel (.post i)) => do
    let ring ← c.handler.ring.kernel K.pageLen (.post i)
    return ({ c with handler := { c.handler with ring := ring } },total)

variable (numRequests clientThreads : ℕ)

/-- An event of one of the connections. -/
def step (s : State) (ie : ℕ × Event) : Except Stop State :=
  if ie.1 < clientThreads then do
    let (c,total) ← connStep K (threadJob numRequests clientThreads ie.1) (s.conns ie.1) s.total ie.2
    return ⟨Function.update s.conns ie.1 c,total⟩
  else .error .disabled

def start : Except Stop State := do
  let handler ← Server.start K
  return ⟨fun i => ⟨Client.start K (threadJob numRequests clientThreads i),handler,0⟩,0⟩

/-- Both ends of every connection have returned. -/
def Finished (s : State) : Prop :=
  ∀ i < clientThreads,
    (s.conns i).client.phase = .returned ∧ (s.conns i).handler.phase = .returned

instance (s : State) : Decidable (Finished clientThreads s) := by unfold Finished; infer_instance

/-- The bytes of a connection that no handler has counted. -/
def Conn.unread (c : Conn) : ℕ := c.stream + (c.handler.ring.results.map Int.toNat).sum

/-- A send puts its whole page on the connection while the handler runs, and the handler
takes a completion without bytes only when it has counted all bytes. -/
def Good (c : Conn) : Event → Prop
  | .client e => ∀ res ∈ e.result, res = K.pageLen ∧ c.handler.phase = .running
  | .handler .take => ∀ res rest, c.handler.ring.cq = res :: rest → res ≤ 0 → c.unread = 0
  | .handler (.kernel _) => True

/-- The bytes that the sends have left out. -/
def Conn.omitted (c : Conn) : ℕ := (c.client.reported.map (fun res => K.pageLen - res.toNat)).sum

/-- The bytes that cannot reach the total any more. -/
def Conn.lost (c : Conn) : ℕ :=
  c.omitted K + if c.handler.phase = .returned then c.unread else 0

structure Conn.Inv (c : Conn) : Prop where
  client : Client.Inv J c.client
  bounded : ∀ res ∈ c.client.reported, res ≤ K.pageLen
  balance : (c.client.reported.map Int.toNat).sum = c.handler.received + c.unread

variable {K J} {c d : Conn} {e : Event} {total total' : ℕ}

section Steps

theorem Conn.Inv.client_step (hi : c.Inv K J) {e : Client.Event} {client : Client.State}
    (h : Client.step K J c.client e = .ok client)
    (hd : d = { c with client := client, stream := c.stream + (e.result.map Int.toNat).sum }) :
    d.Inv K J ∧ c.lost K ≤ d.lost K ∧ (d.lost K = c.lost K ↔ Good K c (.client e)) := by
  have hreported := Client.reported_step h
  have hle := Client.result_le h
  have hunread : d.unread = c.unread + (e.result.map Int.toNat).sum := by
    rw [hd]
    simp only [Conn.unread]
    omega
  have homitted : d.omitted K =
      c.omitted K + (e.result.map (fun res => K.pageLen - res.toNat)).sum := by
    rw [hd]
    simp only [Conn.omitted,hreported,List.map_append,List.sum_append]
  have hphase : d.handler = c.handler := by rw [hd]
  refine ⟨⟨?_,?_,?_⟩,?_⟩
  · rw [hd]
    exact hi.client.step h
  · rw [hd]
    intro res hres
    rw [hreported] at hres
    exact (List.mem_append.mp hres).elim (hi.bounded res) (hle res)
  · have hbalance := hi.balance
    have hsum : d.client.reported = c.client.reported ++ e.result := by rw [hd,← hreported]
    rw [hsum,hunread,hphase,List.map_append,List.sum_append]
    omega
  · have hpos := K.pageLen_pos
    simp only [Conn.lost,hunread,homitted,hphase,Good]
    rcases e.result_cases with hres | ⟨res,hres⟩
    · simp [hres]
    · have hbound := hle res (by simp [hres])
      simp only [hres,List.map_cons,List.map_nil,List.sum_cons,List.sum_nil,List.mem_singleton,
        forall_eq]
      cases hp : c.handler.phase with
      | running =>
        simp only [reduceCtorEq,if_false,and_true]
        omega
      | returned =>
        simp only [if_true,reduceCtorEq,and_false,iff_false]
        omega

/-- The server's side only moves bytes and counts them. -/
theorem Conn.Inv.of_client (hi : c.Inv K J) (hclient : d.client = c.client)
    (hbalance : d.handler.received + d.unread = c.handler.received + c.unread) : d.Inv K J := by
  refine ⟨?_,?_,?_⟩
  · rw [hclient]
    exact hi.client
  · rw [hclient]
    exact hi.bounded
  · rw [hclient,hi.balance,hbalance]

theorem Conn.Inv.take_step (hi : c.Inv K J) {handler : Server.State}
    (h : Server.take c.handler total = .ok (handler,total')) (hd : d = { c with handler := handler })
    (ht : total < sizeMod) :
    (d.Inv K J ∧ c.lost K ≤ d.lost K ∧ (d.lost K = c.lost K ↔ Good K c (.handler .take))) ∧
      ∃ gain, d.handler.received = c.handler.received + gain ∧
        total' = (total + gain) % sizeMod := by
  obtain ⟨hp,res,rest,hcq,hresults,hcase⟩ := Server.take_cases h
  have hunread : c.unread = d.unread + res.toNat := by
    rw [hd]
    simp only [Conn.unread,hresults]
    simp only [ResultRing.results,hcq,List.map_append,List.map_cons,List.sum_append,List.sum_cons]
    omega
  have homitted : d.omitted K = c.omitted K := by rw [hd,Conn.omitted,Conn.omitted]
  have hclient : d.client = c.client := by rw [hd]
  have hhandler : d.handler = handler := by rw [hd]
  have hgood : Good K c (.handler .take) ↔ (res ≤ 0 → c.unread = 0) := by
    simp only [Good,hcq,List.cons.injEq,and_imp]
    exact ⟨fun hg => hg res rest rfl rfl,fun hg res' rest' h1 _ hres => hg (h1 ▸ hres)⟩
  rw [hgood]
  rcases hcase with ⟨hres,hp',hreceived,rfl⟩ | ⟨hres,hp',hreceived,rfl⟩
  · have hzero : res.toNat = 0 := Int.toNat_of_nonpos hres
    refine ⟨⟨hi.of_client hclient (by rw [hhandler,hreceived]; omega),?_⟩,0,
      by rw [hhandler,hreceived,Nat.add_zero],by rw [Nat.add_zero,Nat.mod_eq_of_lt ht]⟩
    simp only [Conn.lost,homitted,hhandler,hp,hp',if_true,reduceCtorEq,if_false,hres,true_imp_iff]
    omega
  · have hnot : ¬ res ≤ 0 := by omega
    refine ⟨⟨hi.of_client hclient (by rw [hhandler,hreceived]; omega),?_⟩,res.toNat,
      by rw [hhandler,hreceived],rfl⟩
    simp [Conn.lost,homitted,hhandler,hp,hp',hnot]

/-- The kernel of a handler only moves bytes. -/
theorem Conn.Inv.moved (hi : c.Inv K J) {ring : ResultRing} {stream : ℕ}
    (hd : d = { c with handler := { c.handler with ring := ring }, stream := stream })
    (hunread : stream + (ring.results.map Int.toNat).sum = c.unread) :
    d.Inv K J ∧ c.lost K ≤ d.lost K ∧ d.lost K = c.lost K := by
  have hu : d.unread = c.unread := by
    rw [hd,← hunread]
    rfl
  have hlost : d.lost K = c.lost K := by
    rw [Conn.lost,Conn.lost,hu,hd]
    rfl
  exact ⟨hi.of_client (by rw [hd]) (by rw [hu,hd]),hlost.ge,hlost⟩

theorem readStream_ok {res : ℤ} {stream : ℕ} (h : readStream c res = .ok stream) :
    stream + res.toNat = c.stream := by
  unfold readStream at h
  split at h
  · split at h
    · cases h
      omega
    · cases h
  · split at h
    · split at h
      · cases h
        omega
      · cases h
    · cases h
      omega

/-- A step loses bytes unless it is good, and adds to the total what the handler counts. -/
theorem Conn.Inv.step (hi : c.Inv K J) (h : connStep K J c total e = .ok (d,total'))
    (ht : total < sizeMod) :
    (d.Inv K J ∧ c.lost K ≤ d.lost K ∧ (d.lost K = c.lost K ↔ Good K c e)) ∧
      ∃ gain, d.handler.received = c.handler.received + gain ∧
        total' = (total + gain) % sizeMod := by
  cases e with
  | client e =>
    obtain ⟨client,hclient,h⟩ := bind_ok.mp h
    cases h
    exact ⟨hi.client_step hclient rfl,0,rfl,(Nat.mod_eq_of_lt ht).symm⟩
  | handler e =>
    cases e with
    | take =>
      obtain ⟨⟨handler,total''⟩,htake,h⟩ := bind_ok.mp h
      cases h
      exact hi.take_step htake rfl ht
    | kernel e =>
      cases e with
      | exec res =>
        obtain ⟨stream,hstream,h⟩ := bind_ok.mp h
        obtain ⟨ring,hring,h⟩ := bind_ok.mp h
        cases h
        have hperm := (ResultRing.kernel_ok hring).2.2.2.1
        have hread := readStream_ok hstream
        obtain ⟨hinv,hle,hlost⟩ := hi.moved rfl (show stream + _ = c.unread by
          rw [(hperm.map _).sum_eq]
          simp only [ResultRing.Event.result,List.singleton_append,List.map_cons,List.sum_cons,
            Conn.unread]
          omega)
        exact ⟨⟨hinv,hle,iff_of_true hlost trivial⟩,0,rfl,(Nat.mod_eq_of_lt ht).symm⟩
      | post i =>
        obtain ⟨ring,hring,h⟩ := bind_ok.mp h
        cases h
        have hperm := (ResultRing.kernel_ok hring).2.2.2.1
        obtain ⟨hinv,hle,hlost⟩ := hi.moved rfl (show c.stream + _ = c.unread by
          rw [(hperm.map _).sum_eq]
          rfl)
        exact ⟨⟨hinv,hle,iff_of_true hlost trivial⟩,0,rfl,(Nat.mod_eq_of_lt ht).symm⟩

end Steps

section Runs
variable {numRequests clientThreads : ℕ} {s s0 t : State} {es : List (ℕ × Event)}

/-- The invariant of all connections, with the total they share. -/
structure Inv (K : Consts) (numRequests clientThreads : ℕ) (s : State) : Prop where
  conn : ∀ i < clientThreads, (s.conns i).Inv K (threadJob numRequests clientThreads i)
  total : s.total = (∑ i ∈ Finset.range clientThreads, (s.conns i).handler.received) % sizeMod

/-- The bytes of all connections that cannot reach the total any more. -/
def lost (K : Consts) (clientThreads : ℕ) (s : State) : ℕ :=
  ∑ i ∈ Finset.range clientThreads, (s.conns i).lost K

theorem sum_update (f : Conn → ℕ) (conns : ℕ → Conn) {i : ℕ} (hi : i < clientThreads) (c : Conn) :
    ∑ j ∈ Finset.range clientThreads, f (Function.update conns i c j) + f (conns i) =
      ∑ j ∈ Finset.range clientThreads, f (conns j) + f c := by
  have hmem := Finset.mem_range.mpr hi
  have hrest : ∑ j ∈ (Finset.range clientThreads).erase i, f (Function.update conns i c j) =
      ∑ j ∈ (Finset.range clientThreads).erase i, f (conns j) := by
    refine Finset.sum_congr rfl fun j hj => ?_
    rw [Function.update_of_ne (Finset.ne_of_mem_erase hj)]
  rw [← Finset.add_sum_erase _ _ hmem,← Finset.add_sum_erase _ (fun j => f (conns j)) hmem,hrest,
    Function.update_self]
  omega

/-- The condition on a step of one of the connections. -/
def GoodAt (K : Consts) (s : State) (ie : ℕ × Event) : Prop := Good K (s.conns ie.1) ie.2

theorem Inv.step (hi : Inv K numRequests clientThreads s) {ie : ℕ × Event}
    (h : step K numRequests clientThreads s ie = .ok t) :
    Inv K numRequests clientThreads t ∧ lost K clientThreads s ≤ lost K clientThreads t ∧
      (lost K clientThreads t = lost K clientThreads s ↔ GoodAt K s ie) := by
  obtain ⟨i,e⟩ := ie
  unfold Accounting.step at h
  split at h
  · rename_i hlt
    obtain ⟨⟨c,total⟩,hstep,h⟩ := bind_ok.mp h
    cases h
    dsimp only at hlt hstep
    have hmod : s.total < sizeMod := by
      rw [hi.total]
      exact Nat.mod_lt _ (by decide)
    obtain ⟨⟨hc,hle,hgood⟩,gain,hreceived,htotal⟩ := (hi.conn i hlt).step hstep hmod
    have hlost := sum_update (fun c => c.lost K) s.conns hlt c
    have hsum := sum_update (fun c => c.handler.received) s.conns hlt c
    refine ⟨⟨?_,?_⟩,?_,?_⟩
    · intro j hj
      by_cases hji : j = i
      · subst hji
        simpa using hc
      · simpa [Function.update_of_ne hji] using hi.conn j hj
    · have hadd : ∑ j ∈ Finset.range clientThreads,
          (Function.update s.conns i c j).handler.received =
          ∑ j ∈ Finset.range clientThreads, (s.conns j).handler.received + gain := by omega
      simp only [htotal,hadd,hi.total,Nat.mod_add_mod]
    · simp only [lost]
      omega
    · rw [GoodAt,← hgood]
      simp only [lost]
      omega
  · cases h

theorem Inv.start (h : start K numRequests clientThreads = .ok s) :
    Inv K numRequests clientThreads s ∧ lost K clientThreads s = 0 := by
  obtain ⟨handler,hhandler,h⟩ := bind_ok.mp h
  cases h
  obtain ⟨hphase,hreceived,hresults⟩ := Server.start_ok hhandler
  refine ⟨⟨?_,?_⟩,?_⟩
  · intro i _
    refine ⟨Client.Inv.start,?_,?_⟩
    · simp [Client.reported_start]
    · simp [Client.reported_start,hreceived,Conn.unread,hresults]
  · simp [hreceived]
  · simp [lost,Conn.lost,Conn.omitted,Client.reported_start,hphase]

/-- What a client was to send is counted or lost once both ends have returned. -/
theorem Conn.Inv.finished (hi : c.Inv K J) (hclient : c.client.phase = .returned)
    (hhandler : c.handler.phase = .returned) :
    c.handler.received + c.lost K = J.numRequests * K.pageLen := by
  have hbalance := hi.balance
  have hall : (c.client.reported.map Int.toNat).sum + c.omitted K =
      c.client.reported.length * K.pageLen := by
    rw [Conn.omitted,← List.sum_map_add,List.map_congr_left (g := fun _ => K.pageLen)]
    · simp
    · intro res hres
      have hle := hi.bounded res hres
      omega
  rw [hi.client.reported_length hclient] at hall
  simp only [Conn.lost,hhandler,if_true]
  omega

theorem Inv.finished (hi : Inv K numRequests clientThreads s) (ht : 1 ≤ clientThreads)
    (hs : Finished clientThreads s) :
    ∑ i ∈ Finset.range clientThreads, (s.conns i).handler.received + lost K clientThreads s =
      numRequests * K.pageLen := by
  have heach : ∀ i ∈ Finset.range clientThreads,
      (s.conns i).handler.received + (s.conns i).lost K =
        (threadJob numRequests clientThreads i).numRequests * K.pageLen := by
    intro i hmem
    have hlt := Finset.mem_range.mp hmem
    exact (hi.conn i hlt).finished (hs i hlt).1 (hs i hlt).2
  rw [lost,← Finset.sum_add_distrib,Finset.sum_congr rfl heach,← Finset.sum_mul]
  congr 1
  exact Client.sum_threadJob numRequests ht

/-- Once all threads have returned, the total is the expected volume and the waiting
loop ends exactly when every step was good and the volume fits in the counter. -/
theorem total_iff (below : ℕ → ℕ → Bool) (ht : 1 ≤ clientThreads)
    (h0 : start K numRequests clientThreads = .ok s0)
    (h : execute (step K numRequests clientThreads) s0 es = .ok s) (hs : Finished clientThreads s) :
    (s.total = numRequests * K.pageLen ∧ ¬ Server.Waiting K below numRequests s.total) ↔
      Throughout (step K numRequests clientThreads) (GoodAt K) s0 es ∧
        numRequests * K.pageLen < sizeMod := by
  obtain ⟨hi0,hlost0⟩ := Inv.start h0
  obtain ⟨hi,-,hiff⟩ := cost_eq_iff_throughout (P := Inv K numRequests clientThreads)
    (lost K clientThreads) (fun s e t hi => hi.step) h hi0
  have hsum := hi.finished ht hs
  have htotal := hi.total
  rw [hlost0] at hiff
  rw [← hiff]
  constructor
  · rintro ⟨heq,-⟩
    have hlt : s.total < sizeMod := by
      rw [htotal]
      exact Nat.mod_lt _ (by decide)
    have hle := Nat.mod_le (∑ i ∈ Finset.range clientThreads, (s.conns i).handler.received) sizeMod
    omega
  · rintro ⟨hzero,hfits⟩
    rw [hzero,Nat.add_zero] at hsum
    rw [hsum,Nat.mod_eq_of_lt hfits] at htotal
    refine ⟨htotal,?_⟩
    rintro ⟨hlt,-⟩
    rw [htotal,expectedTotalBytes_eq hfits] at hlt
    exact lt_irrefl _ hlt

/-- One thread sends one page, or the part of it that the result tells, and both ends
run to their return. -/
def onePage (res : ℤ) : List (ℕ × Event) :=
  [(0,.client .iterate),(0,.client (.kernel (.exec res))),(0,.handler (.kernel (.exec res))),
    (0,.handler (.kernel (.post 0))),(0,.handler .take),(0,.client (.kernel (.post 0))),
    (0,.client .reap),(0,.client .finish),(0,.handler (.kernel (.exec 0))),
    (0,.handler (.kernel (.post 0))),(0,.handler .take)]

/-- The comparison with 95 percent, without rounding. -/
def below95 (total expected : ℕ) : Bool := total * 100 < 95 * expected

/-- The run of one connection from its start. -/
def onePageRun (res : ℤ) : Except Stop State :=
  start Consts.small 1 1 >>= fun s0 => execute (step Consts.small 1 1) s0 (onePage res)

theorem total_onePage :
    ∃ s0 s, start Consts.small 1 1 = .ok s0 ∧
      execute (step Consts.small 1 1) s0 (onePage 4) = .ok s ∧ Finished 1 s ∧
      (Throughout (step Consts.small 1 1) (GoodAt Consts.small) s0 (onePage 4) ∧
        1 * Consts.small.pageLen < sizeMod) := by
  have hrun : yields (onePageRun 4) (fun s => Finished 1 s ∧ s.total = 4) = true := by
    decide +kernel
  obtain ⟨s,hs,htest⟩ := exists_of_yields hrun
  obtain ⟨s0,h0,hs⟩ := bind_ok.mp hs
  obtain ⟨hfin,htotal⟩ : Finished 1 s ∧ s.total = 4 := by simpa using htest
  refine ⟨s0,s,h0,hs,hfin,(total_iff below95 (le_refl 1) h0 hs hfin).mp ?_⟩
  rw [htotal]
  decide

/-- A send of one byte is counted as a request, and the server waits for the other three. -/
theorem total_onePage_short :
    ∃ s0 s, start Consts.small 1 1 = .ok s0 ∧
      execute (step Consts.small 1 1) s0 (onePage 1) = .ok s ∧ Finished 1 s ∧
      (s.conns 0).client.requestsCompleted = 1 ∧ s.total = 1 ∧ 1 * Consts.small.pageLen = 4 ∧
      Server.Waiting Consts.small below95 1 s.total := by
  have hrun : yields (onePageRun 1) (fun s => Finished 1 s ∧
      (s.conns 0).client.requestsCompleted = 1 ∧ s.total = 1) = true := by decide +kernel
  obtain ⟨s,hs,htest⟩ := exists_of_yields hrun
  obtain ⟨s0,h0,hs⟩ := bind_ok.mp hs
  obtain ⟨hfin,hcompleted,htotal⟩ : Finished 1 s ∧ (s.conns 0).client.requestsCompleted = 1 ∧
    s.total = 1 := by simpa using htest
  refine ⟨s0,s,h0,hs,hfin,hcompleted,htotal,rfl,?_⟩
  rw [htotal]
  decide

end Runs

end FastNet.Max.Accounting
