import FastNet.Simple.PoolRuns
import FastNet.Simple.Process

/-! # Who owns which buffer

What both programs do with buffers, each part as calls of the pool machine: its
outstanding buffers are those of the unreaped operations and the one the program has
in hand. Then every operation has a buffer of its own that is large enough, and the
destructor of the pool frees nothing the kernel may still write to.
-/
namespace FastNet

namespace Ring
variable {η : Type} {m m' : Heap η} {r r' : Ring}

/-- The operations that are not executed. -/
def waiting (r : Ring) : List Sqe := r.sq ++ r.tx ++ r.rx

/-- The results of the executed operations that are not reaped. -/
def done (r : Ring) : List Cqe := r.txDone ++ r.rxDone ++ r.cq

theorem mem_addrs_waiting {q : Sqe} (h : q ∈ r.waiting) : q.userData ∈ r.addrs := by
  rcases List.mem_append.mp h with h | h
  · rcases List.mem_append.mp h with h | h
    · cases hq : q.opcode
      · exact mem_addrs_tx (List.mem_append_right _ (List.mem_filter.mpr ⟨h,by simp [hq]⟩))
      · exact mem_addrs_rx (List.mem_append_right _ (List.mem_filter.mpr ⟨h,by simp [hq]⟩))
    · exact mem_addrs_tx (List.mem_append_left _ h)
  · exact mem_addrs_rx (List.mem_append_left _ h)

theorem mem_addrs_done {e : Cqe} (h : e ∈ r.done) : e.userData ∈ r.addrs := by
  rcases List.mem_append.mp h with h | h
  · rcases List.mem_append.mp h with h | h
    · exact mem_addrs_txDone h
    · exact mem_addrs_rxDone h
  · exact mem_addrs_cq h

theorem waiting_submit {q : Sqe} (h : q ∈ r.submit.waiting) : q ∈ r.waiting := by
  simp only [waiting,submit,List.nil_append,List.mem_append,List.mem_filter] at h ⊢
  tauto

/-- From one ring to the other operations are executed and completions move, and
what an operation has transferred is no more than it was asked to. -/
def Transfers (r r' : Ring) : Prop :=
  (∀ q ∈ r'.waiting, q ∈ r.waiting) ∧
    ∀ d ∈ r'.done, d ∈ r.done ∨ ∃ q ∈ r.waiting, q.userData = d.userData ∧ d.res.toNat ≤ q.len

theorem transfers_doneTx {i : ℕ} {q : Sqe} (hq : r.tx[i]? = some q) {res : ℤ}
    (hres : res.toNat ≤ q.len) : Transfers r (r.doneTx i q res) := by
  have hmem : q ∈ r.waiting := by simp [waiting,List.mem_of_getElem? hq]
  constructor
  · intro p hp
    simp only [waiting,doneTx,List.mem_append] at hp ⊢
    exact hp.imp_left (Or.imp_right List.mem_of_mem_eraseIdx)
  · intro d hd
    simp only [done,doneTx,List.mem_append,List.mem_singleton] at hd ⊢
    rcases hd with ((hd | rfl) | hd) | hd
    · exact Or.inl (Or.inl (Or.inl hd))
    · exact Or.inr ⟨q,hmem,rfl,hres⟩
    · exact Or.inl (Or.inl (Or.inr hd))
    · exact Or.inl (Or.inr hd)

theorem transfers_doneRx {i : ℕ} {q : Sqe} (hq : r.rx[i]? = some q) {res : ℤ}
    (hres : res.toNat ≤ q.len) : Transfers r (r.doneRx i q res) := by
  have hmem : q ∈ r.waiting := by simp [waiting,List.mem_of_getElem? hq]
  constructor
  · intro p hp
    simp only [waiting,doneRx,List.mem_append] at hp ⊢
    exact hp.imp_right List.mem_of_mem_eraseIdx
  · intro d hd
    simp only [done,doneRx,List.mem_append,List.mem_singleton] at hd ⊢
    rcases hd with (hd | hd | rfl) | hd
    · exact Or.inl (Or.inl (Or.inl hd))
    · exact Or.inl (Or.inl (Or.inr hd))
    · exact Or.inr ⟨q,hmem,rfl,hres⟩
    · exact Or.inl (Or.inr hd)

theorem transfers_post (hw : r'.waiting = r.waiting) (hd : ∀ d ∈ r'.done, d ∈ r.done) :
    Transfers r r' := ⟨fun _ hq => hw ▸ hq,fun d hd' => Or.inl (hd d hd')⟩

theorem kernel_transfers {e : KernelEvent} (h : r.kernel m e = .ok (m',r')) : Transfers r r' := by
  cases kernel_executes h with
  | execTx i bytes q hq hp =>
    have hle := hp.length_le
    rw [List.length_take] at hle
    exact transfers_doneTx hq (by omega)
  | failTx i err q hq => exact transfers_doneTx hq (by omega)
  | execRx i bytes q hq hl => exact transfers_doneRx hq (by omega)
  | failRx i err q hq => exact transfers_doneRx hq (by omega)
  | postTx i e he =>
    refine transfers_post rfl fun d hd => ?_
    simp only [done,postedTx,List.mem_append,List.mem_singleton] at hd ⊢
    rcases hd with (hd | hd) | hd | rfl
    · exact Or.inl (Or.inl (List.mem_of_mem_eraseIdx hd))
    · exact Or.inl (Or.inr hd)
    · exact Or.inr hd
    · exact Or.inl (Or.inl (List.mem_of_getElem? he))
  | postRx i e he =>
    refine transfers_post rfl fun d hd => ?_
    simp only [done,postedRx,List.mem_append,List.mem_singleton] at hd ⊢
    rcases hd with (hd | hd) | hd | rfl
    · exact Or.inl (Or.inl hd)
    · exact Or.inl (Or.inr (List.mem_of_mem_eraseIdx hd))
    · exact Or.inr hd
    · exact Or.inl (Or.inr (List.mem_of_getElem? he))

end Ring

namespace Simple
open Execution

namespace Pool
variable {η : Type}

/-- Calls of the pool, as opposed to writes to memory. -/
def Call.toPool : Call η → Bool
  | .write _ _ => false
  | _ => true

/-- The pool gets from one state to the other through these calls, with anything
written to memory in between. -/
def Runs (s : State η) (calls : List (Call η)) (t : State η) : Prop :=
  ∃ es, execute step s es = .ok t ∧ es.filter Call.toPool = calls

variable {s t u : State η} {calls calls' : List (Call η)}

theorem Runs.refl (s : State η) : Runs s [] s := ⟨[],rfl,rfl⟩

theorem Runs.append (h : Runs s calls t) (h' : Runs t calls' u) : Runs s (calls ++ calls') u := by
  obtain ⟨es,hes,rfl⟩ := h
  obtain ⟨fs,hfs,rfl⟩ := h'
  exact ⟨es ++ fs,execute_append_ok.mpr ⟨t,hes,hfs⟩,List.filter_append ..⟩

/-- If each step of a program makes its calls, a run makes those of its steps. -/
theorem runs_outputs {S E : Type*} {step : S → E → Except Stop S}
    {calls : S → E → S → List (Call η)} {R : S → State η → Prop} {s t : S} {st : State η}
    {es : List E} (h : execute step s es = .ok t) (hs : R s st)
    (hstep : ∀ s e t st, R s st → step s e = .ok t → ∃ st', Runs st (calls s e t) st' ∧ R t st') :
    ∃ st', Runs st (outputs step calls s es) st' ∧ R t st' := by
  refine execute_induction
    (P := fun es t => ∃ st', Runs st (outputs step calls s es) st' ∧ R t st') ?_ ?_ h
  · exact ⟨st,Runs.refl st,hs⟩
  · rintro es t e u ht ⟨st1,hruns,hr⟩ hu
    obtain ⟨st2,hruns',hr'⟩ := hstep t e u st1 hr hu
    rw [outputs_concat ht hu]
    exact ⟨st2,hruns.append hruns',hr'⟩

theorem Runs.inv (h : Runs s calls t) (hi : Inv s) : Inv t := by
  obtain ⟨es,hes,-⟩ := h
  exact hi.run hes

end Pool

namespace Process
variable {K : Consts} {kind : RequestData → Option Opcode} {rxLen size len : ℕ}
  {extra : List (Addr × ℕ)} {P P' : Process} {st : Pool.State RequestData} {req : Addr}
  {header : RequestData} {contents : List UInt8 → List UInt8} {opcode : Opcode}

/-- The program's pool and heap are those of the pool machine, whose outstanding
buffers are those of the operations and the ones the program has in hand. -/
structure Tracked (K : Consts) (extra : List (Addr × ℕ)) (P : Process)
    (st : Pool.State RequestData) : Prop where
  pool : st.pool = P.pool
  mem : st.mem = P.mem
  held : st.outstanding.Perm (extra ++ P.held K)

theorem Tracked.enqueue (ht : Tracked K extra P st) (hi : Inv K kind rxLen extra P)
    (hsize : K.bufferFor header.eventType = size)
    (h : P.enqueue size header contents opcode len = .ok P') :
    ∃ st', Pool.Runs st [.allocate size] st' ∧ Tracked K extra P' st' := by
  obtain ⟨req,pool,mem,halloc,-,rfl,hheld⟩ := hi.held_enqueue hsize h
  let filled := (mem.setBytes req (contents (mem.bytes req))).setHeader req header
  refine ⟨⟨pool,filled,(req,size) :: st.outstanding,st.freed⟩,
    ⟨[.allocate size,.write filled.header filled.bytes],?_,rfl⟩,⟨rfl,rfl,?_⟩⟩
  · refine execute_cons_ok.mpr ⟨{ st with
      pool := pool, mem := mem, outstanding := (req,size) :: st.outstanding },?_,rfl⟩
    simp only [Pool.step,ht.pool,ht.mem,halloc]
    rfl
  · exact (ht.held.cons _).trans
      (List.perm_middle.symm.trans (hheld.symm.append_left extra))

theorem Tracked.write (ht : Tracked K extra P st) {extra' : List (Addr × ℕ)}
    (hpool : P'.pool = P.pool) (hmem : P'.mem = P.mem.setContents P'.mem.header P'.mem.bytes)
    (hheld : (extra' ++ P'.held K).Perm (extra ++ P.held K)) :
    ∃ st', Pool.Runs st [] st' ∧ Tracked K extra' P' st' := by
  refine ⟨{ st with mem := P'.mem },⟨[.write P'.mem.header P'.mem.bytes],?_,rfl⟩,
    ⟨ht.pool.trans hpool.symm,rfl,ht.held.trans hheld.symm⟩⟩
  simp only [execute,Pool.step,ht.mem,← hmem]

theorem Tracked.requeue (ht : Tracked K [(req,size)] P st) (hi : Inv K kind rxLen [(req,size)] P)
    (hsize : K.bufferFor header.eventType = size) (h : P.requeue req header opcode len = .ok P') :
    ∃ st', Pool.Runs st [] st' ∧ Tracked K [] P' st' := by
  obtain ⟨-,-,rfl,hheld⟩ := hi.held_requeue hsize h
  exact ht.write rfl rfl hheld

theorem Tracked.submit (ht : Tracked K extra P st) : Tracked K extra P.submit st :=
  ⟨ht.pool,ht.mem,by rw [held_submit]; exact ht.held⟩

theorem Tracked.seen (ht : Tracked K [] P st) {e : Cqe} {rest : List Cqe}
    (h : P.ring.cq = e :: rest) :
    Tracked K [(e.userData,K.bufferFor (P.mem.header e.userData).eventType)] (P.seen rest) st :=
  ⟨ht.pool,ht.mem,ht.held.trans (held_seen h)⟩

theorem Tracked.setHeader (ht : Tracked K extra P st) (hreq : req ∉ P.ring.addrs)
    (header : RequestData) :
    ∃ st', Pool.Runs st [] st' ∧ Tracked K extra (P.setHeader req header) st' :=
  ht.write rfl rfl (by rw [held_setHeader hreq])

theorem Tracked.release (ht : Tracked K [(req,size)] P st) (hi : Inv K kind rxLen [(req,size)] P)
    (h : P.release req size = .ok P') :
    ∃ st', Pool.Runs st [.deallocate req size] st' ∧ Tracked K [] P' st' := by
  have hheld := hi.held_release h
  obtain ⟨⟨pool,mem⟩,hde,h⟩ := bind_ok.mp h
  cases h
  have hmem : (req,size) ∈ st.outstanding := ht.held.mem_iff.mpr (by simp)
  refine ⟨⟨pool,mem,st.outstanding.erase (req,size),
    if P.pool.keeps size then st.freed else st.freed ++ [req]⟩,
    ⟨[.deallocate req size],?_,rfl⟩,⟨rfl,rfl,?_⟩⟩
  · simp only [execute,Pool.step,if_pos hmem,ht.pool,ht.mem,hde]
    rfl
  · rw [hheld]
    exact List.Perm.cons_inv ((List.perm_cons_erase hmem).symm.trans ht.held)

theorem Tracked.kernel (ht : Tracked K extra P st) (hi : Inv K kind rxLen extra P)
    {e : KernelEvent} (h : P.kernel e = .ok P') :
    ∃ st', Pool.Runs st [] st' ∧ Tracked K extra P' st' := by
  have hheld := hi.held_kernel h
  obtain ⟨⟨mem,ring⟩,hk,h⟩ := bind_ok.mp h
  cases h
  exact ht.write rfl (Ring.kernel_mem hk) (hheld.append_left extra)

/-- Each buffer has room for its header and for what its operation transfers. -/
structure Fits (K : Consts) (P : Process) : Prop where
  waiting : ∀ q ∈ P.ring.waiting,
    sizeofRequestData + q.len ≤ K.bufferFor (P.mem.header q.userData).eventType
  done : ∀ e ∈ P.ring.done,
    sizeofRequestData + e.res.toNat ≤ K.bufferFor (P.mem.header e.userData).eventType

theorem Fits.congr (hf : Fits K P) (hring : P'.ring = P.ring)
    (h : P.mem.AgreeOn P'.mem P.ring.addrs) : Fits K P' where
  waiting q hq := by
    rw [hring] at hq
    rw [(h _ (Ring.mem_addrs_waiting hq)).1]
    exact hf.waiting q hq
  done e he := by
    rw [hring] at he
    rw [(h _ (Ring.mem_addrs_done he)).1]
    exact hf.done e he

theorem Fits.queue (hf : Fits K P) {q : Sqe}
    (hq : sizeofRequestData + q.len ≤ K.bufferFor (P.mem.header q.userData).eventType) :
    Fits K ⟨P.mem,P.pool,{ P.ring with sq := P.ring.sq ++ [q] }⟩ where
  waiting p hp := by
    simp only [Ring.waiting,List.mem_append,List.mem_singleton] at hp
    rcases hp with ((hp | rfl) | hp) | hp
    · exact hf.waiting p (by simp [Ring.waiting,hp])
    · exact hq
    · exact hf.waiting p (by simp [Ring.waiting,hp])
    · exact hf.waiting p (by simp [Ring.waiting,hp])
  done := hf.done

theorem Fits.submit (hf : Fits K P) : Fits K P.submit where
  waiting q hq := hf.waiting q (Ring.waiting_submit hq)
  done := hf.done

theorem Fits.seen (hf : Fits K P) {e : Cqe} {rest : List Cqe} (h : P.ring.cq = e :: rest) :
    Fits K (P.seen rest) where
  waiting := hf.waiting
  done d hd := by
    apply hf.done d
    simp only [Process.seen,Ring.done,h,List.mem_append,List.mem_cons] at hd ⊢
    tauto

theorem Fits.kernel (hf : Fits K P) (hi : Inv K kind rxLen extra P) {e : KernelEvent}
    (h : P.kernel e = .ok P') : Fits K P' := by
  obtain ⟨⟨mem,ring⟩,hk,h⟩ := bind_ok.mp h
  cases h
  obtain ⟨hwaiting,hdone⟩ := Ring.kernel_transfers hk
  have hheader := (Ring.kernel_step hi.typed hk).header
  constructor
  · intro q hq
    rw [hheader]
    exact hf.waiting q (hwaiting q hq)
  · intro d hd
    rw [hheader]
    rcases hdone d hd with hd | ⟨q,hq,heq,hle⟩
    · exact hf.done d hd
    · have hroom := hf.waiting q hq
      rw [heq] at hroom
      exact (Nat.add_le_add_left hle _).trans hroom

/-- The buffers of a program are in order, and the pool machine has the same. -/
structure Accounted (K : Consts) (kind : RequestData → Option Opcode) (rxLen : ℕ)
    (extra : List (Addr × ℕ)) (P : Process) (st : Pool.State RequestData) : Prop where
  inv : Inv K kind rxLen extra P
  tracked : Tracked K extra P st
  fits : Fits K P

theorem Accounted.enqueue (ha : Accounted K kind rxLen extra P st)
    (hsize : K.bufferFor header.eventType = size) (hkind : kind header = some opcode)
    (hlen : opcode = .recv → len = rxLen) (hroom : sizeofRequestData + len ≤ size)
    (h : P.enqueue size header contents opcode len = .ok P') :
    ∃ st', Pool.Runs st [.allocate size] st' ∧ Accounted K kind rxLen extra P' st' := by
  obtain ⟨st',hruns,htracked⟩ := ha.tracked.enqueue ha.inv hsize h
  refine ⟨st',hruns,?_,htracked,?_⟩
  · cases opcode with
    | send => exact (ha.inv.enqueue_send hsize hkind h).1
    | recv =>
      obtain rfl := hlen rfl
      exact (ha.inv.enqueue_recv hsize hkind h).1
  · obtain ⟨req,pool,mem,halloc,-,rfl,-⟩ := ha.inv.held_enqueue hsize h
    obtain ⟨-,hagree,-⟩ := ha.inv.filled halloc header (contents (mem.bytes req))
    have hfits : Fits K ⟨(mem.setBytes req (contents (mem.bytes req))).setHeader req header,pool,
        P.ring⟩ := ha.fits.congr rfl hagree
    apply hfits.queue
    rw [Heap.setHeader_header_self,hsize]
    exact hroom

theorem Accounted.requeue_recv (ha : Accounted K kind rxLen [(req,size)] P st)
    (hsize : K.bufferFor header.eventType = size) (hkind : kind header = some .recv)
    (hroom : sizeofRequestData + rxLen ≤ size) (h : P.requeue req header .recv rxLen = .ok P') :
    ∃ st', Pool.Runs st [] st' ∧ Accounted K kind rxLen [] P' st' := by
  obtain ⟨st',hruns,htracked⟩ := ha.tracked.requeue ha.inv hsize h
  refine ⟨st',hruns,(ha.inv.requeue_recv hsize hkind h).1,htracked,?_⟩
  obtain ⟨hnew,-,rfl,-⟩ := ha.inv.held_requeue hsize h
  have hfits : Fits K ⟨P.mem.setHeader req header,P.pool,P.ring⟩ :=
    ha.fits.congr rfl (Heap.agreeOn_setHeader P.mem header hnew)
  apply hfits.queue
  rw [Heap.setHeader_header_self,hsize]
  exact hroom

theorem Accounted.submit (ha : Accounted K kind rxLen extra P st) :
    Accounted K kind rxLen extra P.submit st :=
  ⟨ha.inv.submit.1,ha.tracked.submit,ha.fits.submit⟩

theorem Accounted.seen (ha : Accounted K kind rxLen [] P st) {e : Cqe} {rest : List Cqe}
    (h : P.ring.cq = e :: rest) :
    Accounted K kind rxLen [(e.userData,K.bufferFor (P.mem.header e.userData).eventType)]
      (P.seen rest) st :=
  ⟨(ha.inv.seen h).1,ha.tracked.seen h,ha.fits.seen h⟩

theorem Accounted.setHeader (ha : Accounted K kind rxLen [(req,size)] P st)
    (hreq : req ∉ P.ring.addrs) (header : RequestData) :
    ∃ st', Pool.Runs st [] st' ∧
      Accounted K kind rxLen [(req,size)] (P.setHeader req header) st' := by
  obtain ⟨st',hruns,htracked⟩ := ha.tracked.setHeader hreq header
  exact ⟨st',hruns,(ha.inv.setHeader hreq header).1,htracked,
    ha.fits.congr rfl (Heap.agreeOn_setHeader P.mem header hreq)⟩

theorem Accounted.release (ha : Accounted K kind rxLen [(req,size)] P st)
    (h : P.release req size = .ok P') :
    ∃ st', Pool.Runs st [.deallocate req size] st' ∧ Accounted K kind rxLen [] P' st' := by
  obtain ⟨st',hruns,htracked⟩ := ha.tracked.release ha.inv h
  obtain ⟨hring,hagree,-⟩ := ha.inv.release_ok h
  exact ⟨st',hruns,(ha.inv.release h).1,htracked,ha.fits.congr hring hagree⟩

theorem Accounted.kernel (ha : Accounted K kind rxLen extra P st) {e : KernelEvent}
    (h : P.kernel e = .ok P') :
    ∃ st', Pool.Runs st [] st' ∧ Accounted K kind rxLen extra P' st' := by
  obtain ⟨st',hruns,htracked⟩ := ha.tracked.kernel ha.inv h
  exact ⟨st',hruns,(ha.inv.kernel h).1,htracked,ha.fits.kernel ha.inv h⟩

theorem Accounted.start {header : Addr → RequestData} {bytes : Addr → List UInt8}
    {supply : ℕ → Block RequestData} {pool : BufferPool} {mem : Heap RequestData}
    (h : BufferPool.construct K.bufferSizes bufferPoolInitialPoolSize
      (Heap.fresh header bytes supply) = .ok (pool,mem)) :
    ∃ st, Pool.start K.bufferSizes bufferPoolInitialPoolSize header bytes supply = .ok st ∧
      Accounted K kind rxLen [] ⟨mem,pool,.queueInit K.ringSize⟩ st := by
  refine ⟨⟨pool,mem,[],[]⟩,?_,⟨Ring.typed_queueInit _,BufferPool.owned_construct h⟩,
    ⟨rfl,rfl,List.Perm.refl _⟩,?_,?_⟩
  · simp only [Pool.start,h]
    rfl
  · intro q hq
    cases hq
  · intro e he
    cases he

/-- Who owns the buffers of a program whose pool has come to this state: the
outstanding ones are those of the unreaped operations, each with one of its own that
is large enough and not free-listed, and the destructor frees none of them. -/
structure Buffers (K : Consts) (P : Process) (st : Pool.State RequestData) : Prop where
  pool : st.pool = P.pool
  mem : st.mem = P.mem
  outstanding : st.outstanding.Perm (P.held K)
  distinct : P.ring.addrs.Nodup
  apart : ∀ a ∈ P.ring.addrs, a ∉ (BufferPool.filed P.pool.pools).map Prod.fst
  sized : ∀ b ∈ P.held K, b ∈ P.mem.live
  fits : Fits K P
  destroyed : ∃ m, P.pool.destroy P.mem = .ok m ∧ ∀ b ∈ P.held K, b ∈ m.live

theorem Accounted.buffers (ha : Accounted K kind rxLen [] P st) (hi : Pool.Inv st) :
    Buffers K P st := by
  have hown := ha.inv.owned
  have hconserved := hi.conserved
  rw [ha.tracked.pool,ha.tracked.mem] at hconserved
  obtain ⟨m,hm,hlive,-⟩ := hconserved.destroy
  have hheld := ha.tracked.held
  refine ⟨ha.tracked.pool,ha.tracked.mem,hheld,ha.inv.typed.nodup,?_,?_,ha.fits,m,hm,?_⟩
  · intro a hring hfiled
    have hn := hown.nodup
    rw [List.map_append,List.nodup_append] at hn
    refine hn.2.2 a hfiled a ?_ rfl
    rw [List.nil_append,held_fst]
    exact hring
  · intro b hb
    exact hown.live b (List.mem_append_right _ hb)
  · intro b hb
    exact hlive.mem_iff.mp (hheld.mem_iff.mpr hb)

end Process

end Simple

end FastNet
