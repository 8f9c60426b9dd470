import FastNet.Simple.Ownership
import FastNet.Simple.ServerView
import FastNet.Simple.Slots

/-! # The pool calls of the simple programs

The calls of `allocate` and `deallocate` that the client thread and the server's
event loop make, step by step. In every run they are calls that the pool machine
allows, from the pool the program constructed to the pool it has.
-/
namespace FastNet.Simple
open Execution

namespace Client
variable {K : Consts} {J : Job} {s s1 t : State} {st : Pool.State RequestData}

/-- The pool calls of a step, in order. -/
def poolCalls (K : Consts) (s : State) (e : Event) (t : State) : List (Pool.Call RequestData) :=
  match e with
  | .iterate =>
    List.replicate (t.sendIndex - s.sendIndex) (.allocate Consts.requestBuffer) ++
      List.replicate (t.recvIndex - s.recvIndex) (.allocate K.pageBuffer)
  | .reap =>
    match s.proc.ring.cq with
    | [] => []
    | e :: _ =>
      if e.res < 0 then []
      else
        match (s.proc.mem.header e.userData).eventType with
        | .sendEvent => [.deallocate e.userData Consts.requestBuffer]
        | .recvEvent => [.deallocate e.userData K.pageBuffer]
        | _ => []
  | .finish => []
  | .kernel _ => []

/-- The thread's buffers are accounted for between events. -/
abbrev Accounts (K : Consts) (s : State) (st : Pool.State RequestData) : Prop :=
  Process.Accounted K clientKind K.pageLen [] s.proc st

theorem sendLoop_accounts {left : ℕ} (ha : Accounts K s st) (h : sendLoop K J left s = .ok t) :
    s.sendIndex ≤ t.sendIndex ∧ t.recvIndex = s.recvIndex ∧
      ∃ st', Pool.Runs st
        (List.replicate (t.sendIndex - s.sendIndex) (.allocate Consts.requestBuffer)) st' ∧
        Accounts K t st' := by
  rw [sendLoop_eq] at h
  refine (loop_rule (P := fun t => s.sendIndex ≤ t.sendIndex ∧ t.recvIndex = s.recvIndex ∧
    ∃ st', Pool.Runs st
      (List.replicate (t.sendIndex - s.sendIndex) (.allocate Consts.requestBuffer)) st' ∧
      Accounts K t st') (Q := fun _ => True) ?_ (fun _ _ _ _ _ => trivial) ?_).1 t h
  · rintro u v ⟨hle,hrecv,st1,hruns,hu⟩ - hv
    obtain ⟨hsend,hrecv',-⟩ := queueSend_ok hv
    obtain ⟨P,hP,-,hv⟩ := bind_ite_ok.mp hv
    obtain ⟨st2,hruns',hv'⟩ := hu.enqueue (by rfl) (by rfl) (fun h => by cases h)
      (Nat.le_refl _) hP
    have hcount : v.sendIndex - s.sendIndex = u.sendIndex - s.sendIndex + 1 := by omega
    refine ⟨by omega,by omega,st2,?_,?_⟩
    · rw [hcount,List.replicate_succ']
      exact hruns.append hruns'
    · cases hv
      exact hv'
  · exact ⟨le_rfl,rfl,st,by rw [Nat.sub_self]; exact Pool.Runs.refl st,ha⟩

theorem recvLoop_accounts {left : ℕ} (ha : Accounts K s st) (h : recvLoop K J left s = .ok t) :
    s.recvIndex ≤ t.recvIndex ∧ t.sendIndex = s.sendIndex ∧
      ∃ st', Pool.Runs st
        (List.replicate (t.recvIndex - s.recvIndex) (.allocate K.pageBuffer)) st' ∧
        Accounts K t st' := by
  rw [recvLoop_eq] at h
  refine (loop_rule (P := fun t => s.recvIndex ≤ t.recvIndex ∧ t.sendIndex = s.sendIndex ∧
    ∃ st', Pool.Runs st
      (List.replicate (t.recvIndex - s.recvIndex) (.allocate K.pageBuffer)) st' ∧
      Accounts K t st') (Q := fun _ => True) ?_ (fun _ _ _ _ _ => trivial) ?_).1 t h
  · rintro u v ⟨hle,hsend,st1,hruns,hu⟩ - hv
    obtain ⟨hsend',hrecv,-⟩ := queueRecv_ok hv
    obtain ⟨P,hP,-,hv⟩ := bind_ite_ok.mp hv
    obtain ⟨st2,hruns',hv'⟩ := hu.enqueue (by rfl) (by rfl) (fun _ => rfl) (Nat.le_refl _) hP
    have hcount : v.recvIndex - s.recvIndex = u.recvIndex - s.recvIndex + 1 := by omega
    refine ⟨by omega,by omega,st2,?_,?_⟩
    · rw [hcount,List.replicate_succ']
      exact hruns.append hruns'
    · cases hv
      exact hv'
  · exact ⟨le_rfl,rfl,st,by rw [Nat.sub_self]; exact Pool.Runs.refl st,ha⟩

theorem iterate_accounts (ha : Accounts K s st) (h : iterate K J s = .ok t) :
    ∃ st', Pool.Runs st (poolCalls K s .iterate t) st' ∧ Accounts K t st' := by
  obtain ⟨s1,h1,h⟩ := bind_ok.mp h
  obtain ⟨s2,h2,h⟩ := bind_ok.mp h
  obtain ⟨-,hrecv1,st1,hruns1,ha1⟩ := sendLoop_accounts ha h1
  obtain ⟨-,hsend2,st2,hruns2,ha2⟩ := recvLoop_accounts ha1 h2
  rw [hrecv1] at hruns2
  rw [← hsend2] at hruns1
  refine ⟨st2,?_⟩
  split at h
  · cases h
    exact ⟨hruns1.append hruns2,ha2.submit⟩
  · cases h
    exact ⟨hruns1.append hruns2,ha2⟩

theorem reap_accounts (ha : Accounts K s st) {e : Cqe} {rest : List Cqe}
    (hcq : s.proc.ring.cq = e :: rest) (h : reap K s e rest = .ok t) :
    ∃ st', Pool.Runs st (poolCalls K s .reap t) st' ∧ Accounts K t st' := by
  obtain ⟨-,hnew,-,-⟩ := ha.inv.seen hcq
  simp only [poolCalls,hcq]
  rcases reap_cases ha.inv hcq h with ⟨hneg,rfl⟩ | ⟨hpos,P,hP,hcase⟩
  · rw [if_pos hneg]
    exact ⟨st,Pool.Runs.refl st,ha⟩
  · rw [if_neg (not_lt.mpr hpos)]
    obtain ⟨st1,hruns1,hset⟩ := (ha.seen hcq).setHeader hnew
      ((s.proc.mem.header e.userData).setOffset e.res)
    obtain ⟨st2,hruns2,hrel⟩ := hset.release hP
    rcases hcase with ⟨htype,rfl⟩ | ⟨htype,rfl⟩
    · rw [htype] at hruns2 ⊢
      exact ⟨st2,hruns1.append hruns2,hrel⟩
    · rw [htype] at hruns2 ⊢
      exact ⟨st2,hruns1.append hruns2,hrel⟩

theorem step_accounts {e : Event} (ha : Accounts K s st) (h : step K J s e = .ok t) :
    ∃ st', Pool.Runs st (poolCalls K s e t) st' ∧ Accounts K t st' := by
  cases e with
  | iterate =>
    obtain ⟨-,h⟩ := step_iterate h
    exact iterate_accounts ha h
  | reap =>
    obtain ⟨-,e,rest,hcq,h⟩ := step_reap h
    exact reap_accounts ha hcq h
  | finish =>
    obtain ⟨-,-,rfl⟩ := step_finish h
    refine ⟨st,Pool.Runs.refl st,?_⟩
    unfold Accounts
    rw [finish_proc]
    exact ha
  | kernel e =>
    obtain ⟨-,P,hP,rfl⟩ := step_kernel h
    exact ha.kernel hP

theorem step_not_invalidFree (hi : Inv K s) (e : Event) : step K J s e ≠ .error .invalidFree := by
  intro h
  cases e with
  | iterate =>
    simp only [step] at h
    split at h
    · rcases bind_error.mp h with h | ⟨s1,-,h⟩
      · rw [sendLoop_eq] at h
        refine (loop_rule (P := fun _ => True) (Q := (· ≠ .invalidFree))
          (fun _ _ _ _ _ => trivial) ?_ trivial).2 _ h rfl
        rintro u why - - hwhy rfl
        rcases queueSend_error hwhy with ⟨h,-⟩ | ⟨h,-⟩ | ⟨h,-⟩ <;> cases h
      · rcases bind_error.mp h with h | ⟨s2,-,h⟩
        · rw [recvLoop_eq] at h
          refine (loop_rule (P := fun _ => True) (Q := (· ≠ .invalidFree))
            (fun _ _ _ _ _ => trivial) ?_ trivial).2 _ h rfl
          rintro u why - - hwhy rfl
          rcases queueRecv_error hwhy with ⟨h,-⟩ | ⟨h,-⟩ | ⟨h,-⟩ <;> cases h
        · split at h <;> cases h
    · cases h
  | reap =>
    simp only [step] at h
    split at h
    · split at h
      · cases h
      · rename_i e rest hcq
        cases (reap_error hi hcq h).1
    · cases h
  | finish =>
    simp only [step] at h
    split at h <;> cases h
  | kernel e =>
    simp only [step] at h
    split at h
    · rcases bind_error.mp h with h | ⟨P,-,h⟩
      · cases Process.kernel_error h
      · cases h
    · cases h

theorem run_accounts {header : Addr → RequestData} {bytes : Addr → List UInt8}
    {supply : ℕ → Block RequestData} {s0 : State} {es : List Event}
    (h0 : start K J header bytes supply = .ok s0) (h : execute (step K J) s0 es = .ok s) :
    ∃ st0 st, Pool.start K.bufferSizes bufferPoolInitialPoolSize header bytes supply = .ok st0 ∧
      Pool.Runs st0 (outputs (step K J) (poolCalls K) s0 es) st ∧ s.proc.Buffers K st := by
  obtain ⟨⟨pool,mem⟩,hc,h0⟩ := bind_ok.mp h0
  obtain ⟨st0,hst0,ha⟩ : ∃ st0,
      Pool.start K.bufferSizes bufferPoolInitialPoolSize header bytes supply = .ok st0 ∧
      Process.Accounted K clientKind K.pageLen [] ⟨mem,pool,.queueInit K.ringSize⟩ st0 :=
    Process.Accounted.start hc
  have ha0 : Accounts K s0 st0 := by
    cases h0
    unfold testLoop
    split <;> exact ha
  obtain ⟨st,hruns,hst⟩ := Pool.runs_outputs (R := Accounts K) h ha0
    (fun _ _ _ _ ha h => step_accounts ha h)
  exact ⟨st0,st,hst0,hruns,hst.buffers (hruns.inv (Pool.Inv.start hst0))⟩

end Client

namespace Server
variable {K : Consts} {clientNum : ℕ} {s t : State} {st : Pool.State RequestData}

/-- The pool calls of a step; the buffer of a read goes back to the ring. -/
def poolCalls (K : Consts) (s : State) (e : Event) (_ : State) : List (Pool.Call RequestData) :=
  match e, s.proc.ring.cq with
  | .serve, e :: _ =>
    if e.userData = nullptr then []
    else
      match (s.proc.mem.header e.userData).eventType with
      | .readEvent => if e.res = 0 then [] else [.allocate K.pageBuffer]
      | .writeEvent => [.deallocate e.userData K.pageBuffer]
      | _ => []
  | _, _ => []

/-- The calls before the loop, one for each read that is posted. -/
def startCalls (K : Consts) : List (Pool.Call RequestData) :=
  List.replicate (K.ringSize / 4) (.allocate K.pageBuffer)

abbrev Accounts (K : Consts) (s : State) (st : Pool.State RequestData) : Prop :=
  Process.Accounted K serverKind sizeofInt32 [] s.proc st

/-- The number a read carries fits in front of a page buffer. -/
theorem read_fits (K : Consts) : sizeofRequestData + sizeofInt32 ≤ K.pageBuffer := by
  have h := K.pageSize_pos
  unfold Consts.pageBuffer Consts.pageLen sizeofInt32
  omega

theorem postReads_accounts {count : ℕ} (ha : Accounts K s st)
    (h : postReads K clientNum count s = .ok t) :
    ∃ st', Pool.Runs st (List.replicate count (.allocate K.pageBuffer)) st' ∧ Accounts K t st' := by
  induction count generalizing s st with
  | zero =>
    obtain rfl : s = t := Except.ok.inj h
    exact ⟨st,Pool.Runs.refl st,ha⟩
  | succ count ih =>
    obtain ⟨P,hP,h⟩ := bind_ok.mp h
    obtain ⟨st1,hruns1,ha1⟩ := ha.enqueue (by rfl) (by rfl) (fun _ => rfl) (read_fits K) hP
    obtain ⟨st2,hruns2,ha2⟩ := ih ha1 h
    exact ⟨st2,hruns1.append hruns2,ha2⟩

theorem respond_accounts (ha : Accounts K s st) {e : Cqe} {rest : List Cqe}
    (hcq : s.proc.ring.cq = e :: rest)
    (htype : (s.proc.mem.header e.userData).eventType = .readEvent)
    (h : respond K clientNum s e rest = .ok t) :
    ∃ st', Pool.Runs st [.allocate K.pageBuffer] st' ∧ Accounts K t st' := by
  have hseen := ha.seen hcq
  rw [htype] at hseen
  obtain ⟨P,hP,h⟩ := bind_ok.mp h
  obtain ⟨P',hP',h⟩ := bind_ok.mp h
  cases h
  obtain ⟨st1,hruns1,ha1⟩ := hseen.enqueue (by rfl) (by rfl) (fun h => by cases h)
    (Nat.le_refl _) hP
  obtain ⟨st2,hruns2,ha2⟩ := Process.Accounted.requeue_recv ha1 (by rfl) (by rfl) (read_fits K) hP'
  exact ⟨st2,hruns1.append hruns2,ha2.submit⟩

theorem serve_accounts (hi : Inv K s) (ha : Accounts K s st) {e : Cqe} {rest : List Cqe}
    (hcq : s.proc.ring.cq = e :: rest) (h : serve K clientNum s e rest = .ok t) :
    ∃ st', Pool.Runs st (poolCalls K s .serve t) st' ∧ Accounts K t st' := by
  have hseen := ha.seen hcq
  simp only [poolCalls,hcq,if_neg (userData_ne_null hi hcq)]
  rcases serve_cases hi hcq h with ⟨htype,⟨hzero,rfl⟩ | ⟨hres,h⟩⟩ | ⟨htype,P,hP,rfl⟩
  · simp only [htype,if_pos hzero]
    exact ⟨st,Pool.Runs.refl st,ha⟩
  · simp only [htype,if_neg hres]
    exact respond_accounts ha hcq htype h
  · simp only [htype]
    rw [htype] at hseen
    exact hseen.release hP

theorem step_accounts {e : Event} (ha : Accounts K s st) (hi : Inv K s)
    (h : step K clientNum s e = .ok t) :
    ∃ st', Pool.Runs st (poolCalls K s e t) st' ∧ Accounts K t st' := by
  cases e with
  | serve =>
    obtain ⟨-,e,rest,hcq,h⟩ := step_serve h
    exact serve_accounts hi ha hcq h
  | kernel e =>
    obtain ⟨-,P,hP,rfl⟩ := step_kernel h
    exact ha.kernel hP

theorem step_not_invalidFree (hi : Inv K s) (e : Event) :
    step K clientNum s e ≠ .error .invalidFree := by
  intro h
  cases e with
  | serve =>
    simp only [step] at h
    split at h
    · split at h
      · cases h
      · rename_i e rest hcq
        have hheld := (hi.proc.seen hcq).1
        unfold serve at h
        dsimp only at h
        rw [if_neg (userData_ne_null hi hcq)] at h
        cases htype : (s.proc.mem.header e.userData).eventType with
        | sendEvent =>
          simp only [htype] at h
          cases h
        | recvEvent =>
          simp only [htype] at h
          cases h
        | readEvent =>
          simp only [htype] at h
          split at h
          · cases h
          · rcases bind_error.mp h with h | ⟨P,-,h⟩
            · rcases Process.enqueue_error h with ⟨h,-⟩ | ⟨h,-⟩ <;> cases h
            · rcases bind_error.mp h with h | ⟨P',-,h⟩
              · cases (Process.requeue_error h).1
              · cases h
        | writeEvent =>
          simp only [htype] at h
          rw [htype] at hheld
          rcases bind_error.mp h with h | ⟨P,-,h⟩
          · exact hheld.release_error h
          · cases h
    · cases h
  | kernel e =>
    simp only [step] at h
    split at h
    · rcases bind_error.mp h with h | ⟨P,-,h⟩
      · cases Process.kernel_error h
      · cases h
    · cases h

theorem run_accounts {header : Addr → RequestData} {bytes : Addr → List UInt8}
    {supply : ℕ → Block RequestData} {s0 : State} {es : List Event}
    (h0 : start K clientNum header bytes supply = .ok s0)
    (h : execute (step K clientNum) s0 es = .ok s) :
    ∃ st0 st, Pool.start K.bufferSizes bufferPoolInitialPoolSize header bytes supply = .ok st0 ∧
      Pool.Runs st0 (startCalls K ++ outputs (step K clientNum) (poolCalls K) s0 es) st ∧
      s.proc.Buffers K st := by
  have hi0 := (start_view h0).1
  obtain ⟨⟨pool,mem⟩,hc,h0⟩ := bind_ok.mp h0
  obtain ⟨u,hu,h0⟩ := bind_ok.mp h0
  obtain ⟨st0,hst0,ha⟩ : ∃ st0,
      Pool.start K.bufferSizes bufferPoolInitialPoolSize header bytes supply = .ok st0 ∧
      Process.Accounted K serverKind sizeofInt32 [] ⟨mem,pool,.queueInit K.ringSize⟩ st0 :=
    Process.Accounted.start hc
  obtain ⟨st1,hruns1,ha1⟩ := postReads_accounts ha hu
  have ha0 : Accounts K s0 st1 := by
    cases h0
    exact ha1.submit
  obtain ⟨st,hruns,-,hst⟩ := Pool.runs_outputs (R := fun s st => Inv K s ∧ Accounts K s st) h
    ⟨hi0,ha0⟩ (by
      rintro s e t st ⟨hi,ha⟩ hstep
      obtain ⟨st',hruns,ha'⟩ := step_accounts ha hi hstep
      exact ⟨st',hruns,(step_view hi hstep).1,ha'⟩)
  have hall := hruns1.append hruns
  exact ⟨st0,st,hst0,hall,hst.buffers (hall.inv (Pool.Inv.start hst0))⟩

end Server

/-- In every state of the client thread and of the server's event loop the calls made
to the pool are calls the pool machine allows, each buffer given back being
outstanding with its size; every unreaped operation has its own buffer, large enough
and in no free list, which the destructor of the pool leaves alone; and no step
frees what is not live. -/
theorem buffers_owned (K : Consts) (header : Addr → RequestData) (bytes : Addr → List UInt8)
    (supply : ℕ → Block RequestData) :
    (∀ (J : Client.Job) (s0 s : Client.State) (es : List Client.Event),
      Client.start K J header bytes supply = .ok s0 → execute (Client.step K J) s0 es = .ok s →
      (∃ st0 st, Pool.start K.bufferSizes bufferPoolInitialPoolSize header bytes supply = .ok st0 ∧
        Pool.Runs st0 (outputs (Client.step K J) (Client.poolCalls K) s0 es) st ∧
        s.proc.Buffers K st) ∧
      ∀ e, Client.step K J s e ≠ .error .invalidFree) ∧
    ∀ (clientNum : ℕ) (s0 s : Server.State) (es : List Server.Event),
      Server.start K clientNum header bytes supply = .ok s0 →
      execute (Server.step K clientNum) s0 es = .ok s →
      (∃ st0 st, Pool.start K.bufferSizes bufferPoolInitialPoolSize header bytes supply = .ok st0 ∧
        Pool.Runs st0 (Server.startCalls K ++
          outputs (Server.step K clientNum) (Server.poolCalls K) s0 es) st ∧
        s.proc.Buffers K st) ∧
      ∀ e, Server.step K clientNum s e ≠ .error .invalidFree := by
  constructor
  · intro J s0 s es h0 h
    have hi := (Client.refines K J).invariant h (Client.start_view h0).1
    exact ⟨Client.run_accounts h0 h,Client.step_not_invalidFree hi⟩
  · intro clientNum s0 s es h0 h
    have hi := (Server.refines K clientNum).invariant h (Server.start_view h0).1
    exact ⟨Server.run_accounts h0 h,Server.step_not_invalidFree hi⟩

/-- The server reads one request and its page is on the way. -/
def oneAnswer : List Server.Event :=
  [.kernel (.execRx 0 [0,0,0,0]),.kernel (.postRx 0),.serve,.kernel (.execTx 0 [0,0,0,0])]

theorem buffers_owned_small : (∃ (s : Client.State) (st : Pool.State RequestData),
      s.proc.ring.unreaped = 1 ∧ st.outstanding.length = 1 ∧ s.proc.Buffers Consts.small st) ∧
    ∃ (s : Server.State) (st : Pool.State RequestData),
      s.proc.ring.unreaped = 2 ∧ st.outstanding.length = 2 ∧ s.proc.Buffers Consts.small st := by
  have hall := buffers_owned Consts.small (fun _ => ⟨(0,0),.readEvent,0⟩) (fun _ => [])
    Process.countingSupply
  have hlength : ∀ {P : Process} {st : Pool.State RequestData} {n : ℕ}, P.Buffers Consts.small st →
      P.ring.addrs.length = n → st.outstanding.length = n := by
    intro P st n hb hn
    rw [hb.outstanding.length_eq,Process.held,List.length_map,hn]
  constructor
  · have hrun : ((Client.smallStart Client.oneRequest >>= fun s0 => execute
        (Client.step Consts.small Client.oneRequest) s0 ((Client.requestEvents 0).take 6)) |>
          (yields · (fun s => s.proc.ring.unreaped = 1 && s.proc.ring.addrs.length = 1))) = true := by
      decide +kernel
    obtain ⟨s,hs,htest⟩ := exists_of_yields hrun
    obtain ⟨s0,h0,hs⟩ := bind_ok.mp hs
    simp only [Bool.and_eq_true,decide_eq_true_eq] at htest
    obtain ⟨⟨-,st,-,-,hb⟩,-⟩ := hall.1 Client.oneRequest s0 s _ h0 hs
    exact ⟨s,st,htest.1,hlength hb htest.2,hb⟩
  · have hrun : ((Server.start Consts.small 0 (fun _ => ⟨(0,0),.readEvent,0⟩) (fun _ => [])
        Process.countingSupply >>= fun s0 => execute (Server.step Consts.small 0) s0 oneAnswer) |>
          (yields · (fun s => s.proc.ring.unreaped = 2 && s.proc.ring.addrs.length = 2))) = true := by
      decide +kernel
    obtain ⟨s,hs,htest⟩ := exists_of_yields hrun
    obtain ⟨s0,h0,hs⟩ := bind_ok.mp hs
    simp only [Bool.and_eq_true,decide_eq_true_eq] at htest
    obtain ⟨⟨-,st,-,-,hb⟩,-⟩ := hall.2 0 s0 s _ h0 hs
    exact ⟨s,st,htest.1,hlength hb htest.2,hb⟩

end FastNet.Simple
