import FastNet.Foundation.Uring

/-! # Rings without memory

A view forgets addresses: it keeps the payload of each unexecuted send, the
result and the data of each executed operation, and the order of the completions.
When every operation points to a block of its own, whose header tells the two
directions apart, each step on the ring and the heap is a step on the view.
-/
namespace FastNet

/-- A posted completion: the result, and for a receive the front of its buffer. -/
inductive Completion
  | tx (res : ℤ)
  | rx (res : ℤ) (data : List UInt8)
  deriving DecidableEq

def Completion.isRx : Completion → Bool
  | .tx _ => false
  | .rx _ _ => true

structure RingView where
  tx : List (List UInt8)
  txDone : List ℤ
  rx : ℕ
  rxDone : List (ℤ × List UInt8)
  cq : List Completion

namespace RingView

def setCq (v : RingView) (cq : List Completion) : RingView := { v with cq := cq }

/-- The kernel events on a view; `rxLen` is the length of every receive. -/
inductive Move (rxLen : ℕ) : RingView → KernelEvent → RingView → Prop
  | execTx (v : RingView) (i : ℕ) (bytes payload : List UInt8) (h : v.tx[i]? = some payload)
      (hp : bytes <+: payload) : Move rxLen v (.execTx i bytes)
        { v with tx := v.tx.eraseIdx i, txDone := v.txDone ++ [(bytes.length : ℤ)] }
  | failTx (v : RingView) (i err : ℕ) (payload : List UInt8) (h : v.tx[i]? = some payload) :
      Move rxLen v (.failTx i err)
        { v with tx := v.tx.eraseIdx i, txDone := v.txDone ++ [-((err : ℤ) + 1)] }
  | execRx (v : RingView) (i : ℕ) (bytes data : List UInt8) (h : i < v.rx)
      (hl : data.length ≤ rxLen) (hp : bytes <+: data) : Move rxLen v (.execRx i bytes)
        { v with rx := v.rx - 1, rxDone := v.rxDone ++ [((bytes.length : ℤ),data)] }
  | failRx (v : RingView) (i err : ℕ) (data : List UInt8) (h : i < v.rx)
      (hl : data.length ≤ rxLen) : Move rxLen v (.failRx i err)
        { v with rx := v.rx - 1, rxDone := v.rxDone ++ [(-((err : ℤ) + 1),data)] }
  | postTx (v : RingView) (i : ℕ) (res : ℤ) (h : v.txDone[i]? = some res) :
      Move rxLen v (.postTx i) { v with txDone := v.txDone.eraseIdx i, cq := v.cq ++ [.tx res] }
  | postRx (v : RingView) (i : ℕ) (res : ℤ) (data : List UInt8)
      (h : v.rxDone[i]? = some (res,data)) : Move rxLen v (.postRx i)
        { v with rxDone := v.rxDone.eraseIdx i, cq := v.cq ++ [.rx res data] }

/-- Sends that were queued and whose completion is not reaped. -/
def sends (v : RingView) : ℕ :=
  v.tx.length + v.txDone.length + v.cq.countP (fun c => !c.isRx)

/-- Receives that were queued and whose completion is not reaped. -/
def recvs (v : RingView) : ℕ := v.rx + v.rxDone.length + v.cq.countP (·.isRx)

theorem reap_tx {v : RingView} {res : ℤ} {rest : List Completion} (h : v.cq = .tx res :: rest) :
    v.recvs = (v.setCq rest).recvs ∧
      v.sends = (v.setCq rest).sends + 1 := by
  have hc : (Completion.tx res).isRx = false := rfl
  simp [sends,recvs,setCq,h,hc,Nat.add_assoc]

theorem reap_rx {v : RingView} {res : ℤ} {data : List UInt8} {rest : List Completion}
    (h : v.cq = .rx res data :: rest) :
    v.recvs = (v.setCq rest).recvs + 1 ∧
      v.sends = (v.setCq rest).sends := by
  have hc : (Completion.rx res data).isRx = true := rfl
  simp [sends,recvs,setCq,h,hc,Nat.add_assoc]

theorem length_eraseIdx_of_some {α : Type*} {l : List α} {i : ℕ} {x : α} (h : l[i]? = some x) :
    (l.eraseIdx i).length + 1 = l.length := by
  obtain ⟨hi,_⟩ := List.getElem?_eq_some_iff.mp h
  rw [List.length_eraseIdx_of_lt hi]
  omega

/-- The kernel neither adds nor drops operations. -/
theorem Move.count {rxLen : ℕ} {v w : RingView} {e : KernelEvent} (h : Move rxLen v e w) :
    w.sends = v.sends ∧ w.recvs = v.recvs := by
  cases h with
  | execTx i bytes payload h hp =>
    have hl := length_eraseIdx_of_some h
    simp [sends,recvs]
    omega
  | failTx i err payload h =>
    have hl := length_eraseIdx_of_some h
    simp [sends,recvs]
    omega
  | execRx i bytes data h hl hp =>
    simp [sends,recvs]
    omega
  | failRx i err data h hl =>
    simp [sends,recvs]
    omega
  | postTx i res h =>
    have hl := length_eraseIdx_of_some h
    simp [sends,recvs,Completion.isRx]
    omega
  | postRx i res data h =>
    have hl := length_eraseIdx_of_some h
    simp [sends,recvs,Completion.isRx]
    omega

/-- Every executed operation, posted or not, has a result with the property of its
direction. -/
structure Results (T : ℤ → Prop) (R : ℤ → List UInt8 → Prop) (v : RingView) : Prop where
  txDone : ∀ res ∈ v.txDone, T res
  rxDone : ∀ e ∈ v.rxDone, R e.1 e.2
  cqTx : ∀ res, .tx res ∈ v.cq → T res
  cqRx : ∀ res data, .rx res data ∈ v.cq → R res data

/-- The result an event brings about has the property. -/
def Brings (T : ℤ → Prop) (R : ℤ → List UInt8 → Prop) : KernelEvent → Prop
  | .execTx _ bytes => T bytes.length
  | .failTx _ err => T (-((err : ℤ) + 1))
  | .execRx _ bytes => ∀ data, bytes <+: data → R bytes.length data
  | .failRx _ err => ∀ data, R (-((err : ℤ) + 1)) data
  | _ => True

theorem Move.results {rxLen : ℕ} {v w : RingView} {e : KernelEvent} {T : ℤ → Prop}
    {R : ℤ → List UInt8 → Prop} (h : Move rxLen v e w) (hv : v.Results T R)
    (he : Brings T R e) : w.Results T R := by
  cases h with
  | execTx i bytes payload h hp =>
    refine ⟨?_,hv.rxDone,hv.cqTx,hv.cqRx⟩
    exact List.forall_mem_append.mpr ⟨hv.txDone,List.forall_mem_singleton.mpr he⟩
  | failTx i err payload h =>
    refine ⟨?_,hv.rxDone,hv.cqTx,hv.cqRx⟩
    exact List.forall_mem_append.mpr ⟨hv.txDone,List.forall_mem_singleton.mpr he⟩
  | execRx i bytes data h hl hp =>
    refine ⟨hv.txDone,?_,hv.cqTx,hv.cqRx⟩
    exact List.forall_mem_append.mpr ⟨hv.rxDone,List.forall_mem_singleton.mpr (he data hp)⟩
  | failRx i err data h hl =>
    refine ⟨hv.txDone,?_,hv.cqTx,hv.cqRx⟩
    exact List.forall_mem_append.mpr ⟨hv.rxDone,List.forall_mem_singleton.mpr (he data)⟩
  | postTx i res h =>
    refine ⟨fun r hr => hv.txDone r (List.mem_of_mem_eraseIdx hr),hv.rxDone,?_,?_⟩
    · intro r hr
      rcases List.mem_append.mp hr with hr | hr
      · exact hv.cqTx r hr
      · cases List.mem_singleton.mp hr
        exact hv.txDone res (List.mem_of_getElem? h)
    · intro r d hr
      rcases List.mem_append.mp hr with hr | hr
      · exact hv.cqRx r d hr
      · cases List.mem_singleton.mp hr
  | postRx i res data h =>
    refine ⟨hv.txDone,fun r hr => hv.rxDone r (List.mem_of_mem_eraseIdx hr),?_,?_⟩
    · intro r hr
      rcases List.mem_append.mp hr with hr | hr
      · exact hv.cqTx r hr
      · cases List.mem_singleton.mp hr
    · intro r d hr
      rcases List.mem_append.mp hr with hr | hr
      · exact hv.cqRx r d hr
      · cases List.mem_singleton.mp hr
        exact hv.rxDone (res,data) (List.mem_of_getElem? h)

end RingView

namespace Ring
variable {η : Type} (kind : η → Option Opcode) (rxLen : ℕ)

def completion (m : Heap η) (e : Cqe) : Completion :=
  if kind (m.header e.userData) = some .send then .tx e.res
  else .rx e.res ((m.bytes e.userData).take rxLen)

def view (m : Heap η) (r : Ring) : RingView where
  tx := r.txAll.map (fun q => (m.bytes q.userData).take q.len)
  txDone := r.txDone.map (·.res)
  rx := r.rxAll.length
  rxDone := r.rxDone.map (fun e => (e.res,(m.bytes e.userData).take rxLen))
  cq := r.cq.map (completion kind rxLen m)

/-- Each operation has a block of its own, and the header of the block says which
direction it is. -/
structure Typed (m : Heap η) (r : Ring) : Prop where
  nodup : r.addrs.Nodup
  tx : ∀ q ∈ r.txAll, kind (m.header q.userData) = some .send
  txDone : ∀ e ∈ r.txDone, kind (m.header e.userData) = some .send
  rx : ∀ q ∈ r.rxAll, kind (m.header q.userData) = some .recv ∧ q.len = rxLen
  rxDone : ∀ e ∈ r.rxDone, kind (m.header e.userData) = some .recv
  cq : ∀ e ∈ r.cq, (kind (m.header e.userData)).isSome

variable {kind rxLen} {m m' : Heap η} {r r' : Ring}

theorem mem_addrs_tx {q : Sqe} (h : q ∈ r.txAll) : q.userData ∈ r.addrs := by
  simp only [addrs,List.mem_append,List.mem_map]
  exact Or.inl (Or.inl (Or.inl ⟨q,h,rfl⟩))

theorem mem_addrs_txDone {e : Cqe} (h : e ∈ r.txDone) : e.userData ∈ r.addrs := by
  simp only [addrs,List.mem_append,List.mem_map]
  exact Or.inl (Or.inl (Or.inr ⟨e,h,rfl⟩))

theorem mem_addrs_rx {q : Sqe} (h : q ∈ r.rxAll) : q.userData ∈ r.addrs := by
  simp only [addrs,List.mem_append,List.mem_map]
  exact Or.inl (Or.inr (Or.inl ⟨q,h,rfl⟩))

theorem mem_addrs_rxDone {e : Cqe} (h : e ∈ r.rxDone) : e.userData ∈ r.addrs := by
  simp only [addrs,List.mem_append,List.mem_map]
  exact Or.inl (Or.inr (Or.inr ⟨e,h,rfl⟩))

theorem mem_addrs_cq {e : Cqe} (h : e ∈ r.cq) : e.userData ∈ r.addrs := by
  simp only [addrs,List.mem_append,List.mem_map]
  exact Or.inr ⟨e,h,rfl⟩

/-- Storage outside the operations of a ring does not matter to its view. -/
theorem view_congr (h : m.AgreeOn m' r.addrs) : view kind rxLen m' r = view kind rxLen m r := by
  unfold view
  congr 1
  · exact List.map_congr_left fun q hq => by rw [(h _ (mem_addrs_tx hq)).2]
  · exact List.map_congr_left fun e he => by rw [(h _ (mem_addrs_rxDone he)).2]
  · apply List.map_congr_left
    intro e he
    have ha := h _ (mem_addrs_cq he)
    rw [completion,completion,ha.1,ha.2]

theorem Typed.congr (ht : Typed kind rxLen m r) (h : m.AgreeOn m' r.addrs) :
    Typed kind rxLen m' r where
  nodup := ht.nodup
  tx q hq := by rw [(h _ (mem_addrs_tx hq)).1]; exact ht.tx q hq
  txDone e he := by rw [(h _ (mem_addrs_txDone he)).1]; exact ht.txDone e he
  rx q hq := by rw [(h _ (mem_addrs_rx hq)).1]; exact ht.rx q hq
  rxDone e he := by rw [(h _ (mem_addrs_rxDone he)).1]; exact ht.rxDone e he
  cq e he := by rw [(h _ (mem_addrs_cq he)).1]; exact ht.cq e he

theorem countP_kind {β : Type} {l : List β} {a : β → Addr} {op : Opcode}
    (h : ∀ x ∈ l, kind (m.header (a x)) = some op) (op' : Opcode) :
    l.countP (fun x => kind (m.header (a x)) = some op') = if op = op' then l.length else 0 := by
  by_cases hop : op = op'
  · rw [if_pos hop]
    apply List.countP_eq_length.mpr
    intro x hx
    simp [h x hx,hop]
  · rw [if_neg hop]
    apply List.countP_eq_zero.mpr
    intro x hx
    simp [h x hx,hop]

/-- The blocks of one direction are the operations of that direction on the view. -/
theorem Typed.count (ht : Typed kind rxLen m r) :
    r.addrs.countP (fun a => kind (m.header a) = some .send) = (view kind rxLen m r).sends ∧
      r.addrs.countP (fun a => kind (m.header a) = some .recv) = (view kind rxLen m r).recvs := by
  have hcq (op : Opcode) : r.cq.countP (fun e => kind (m.header e.userData) = some op) =
      (r.cq.map (completion kind rxLen m)).countP (fun c => c.isRx ↔ op = .recv) := by
    rw [List.countP_map]
    apply List.countP_congr
    intro e he
    have hop := ht.cq e he
    cases hk : kind (m.header e.userData) with
    | none => simp [hk] at hop
    | some k => cases k <;> cases op <;> simp [completion,hk,Completion.isRx]
  have htx := countP_kind ht.tx
  have htxDone := countP_kind ht.txDone
  have hrx := countP_kind (fun q hq => (ht.rx q hq).1)
  have hrxDone := countP_kind ht.rxDone
  constructor
  · simp only [addrs,List.countP_append,List.countP_map,Function.comp_def,htx,htxDone,hrx,hrxDone,
      RingView.sends,view,List.length_map,hcq]
    simp
  · simp only [addrs,List.countP_append,List.countP_map,Function.comp_def,htx,htxDone,hrx,hrxDone,
      RingView.recvs,view,List.length_map,hcq]
    simp

theorem typed_queueInit (n : ℕ) : Typed kind rxLen m (queueInit n) := by
  constructor <;> simp [queueInit,addrs,txAll,rxAll]

theorem view_queueInit (n : ℕ) : view kind rxLen m (queueInit n) = ⟨[],[],0,[],[]⟩ := by
  simp [view,queueInit,txAll,rxAll]

section Submission

@[simp] theorem submit_cq (r : Ring) : r.submit.cq = r.cq := rfl
@[simp] theorem submit_txAll (r : Ring) : r.submit.txAll = r.txAll := by simp [submit,txAll]
@[simp] theorem submit_rxAll (r : Ring) : r.submit.rxAll = r.rxAll := by simp [submit,rxAll]
@[simp] theorem submit_addrs (r : Ring) : r.submit.addrs = r.addrs := by
  simp only [addrs,submit_txAll,submit_rxAll,submit_cq]
  rfl

theorem view_submit : view kind rxLen m r.submit = view kind rxLen m r := by
  simp only [view,submit_txAll,submit_rxAll,submit_cq]
  rfl

theorem Typed.submit (ht : Typed kind rxLen m r) : Typed kind rxLen m r.submit where
  nodup := by rw [submit_addrs]; exact ht.nodup
  tx := by rw [submit_txAll]; exact ht.tx
  txDone := ht.txDone
  rx := by rw [submit_rxAll]; exact ht.rx
  rxDone := ht.rxDone
  cq := ht.cq

theorem queue_ok {q : Sqe} (h : r.queue q = .ok r') :
    r' = { r with sq := r.sq ++ [q] } ∧ r.sq.length < r.sqEntries := by
  unfold queue at h
  split at h
  · rename_i hlt
    cases h
    exact ⟨rfl,hlt⟩
  · cases h

variable {q : Sqe}

theorem txAll_queue_send (hq : q.opcode = .send) :
    ({ r with sq := r.sq ++ [q] } : Ring).txAll = r.txAll ++ [q] := by
  simp [txAll,hq]

theorem rxAll_queue_send (hq : q.opcode = .send) :
    ({ r with sq := r.sq ++ [q] } : Ring).rxAll = r.rxAll := by
  simp [rxAll,hq]

theorem txAll_queue_recv (hq : q.opcode = .recv) :
    ({ r with sq := r.sq ++ [q] } : Ring).txAll = r.txAll := by
  simp [txAll,hq]

theorem rxAll_queue_recv (hq : q.opcode = .recv) :
    ({ r with sq := r.sq ++ [q] } : Ring).rxAll = r.rxAll ++ [q] := by
  simp [rxAll,hq]

theorem addrs_queue : ({ r with sq := r.sq ++ [q] } : Ring).addrs.Perm (q.userData :: r.addrs) := by
  apply List.perm_iff_count.mpr
  intro a
  cases hq : q.opcode
  · simp only [addrs,txAll_queue_send hq,rxAll_queue_send hq,List.map_append,List.count_append,
      List.count_cons,List.map_cons,List.map_nil,List.count_nil]
    omega
  · simp only [addrs,txAll_queue_recv hq,rxAll_queue_recv hq,List.map_append,List.count_append,
      List.count_cons,List.map_cons,List.map_nil,List.count_nil]
    omega

theorem Typed.queue_send (ht : Typed kind rxLen m r) (hop : q.opcode = .send)
    (hnew : q.userData ∉ r.addrs) (hk : kind (m.header q.userData) = some .send) :
    Typed kind rxLen m { r with sq := r.sq ++ [q] } where
  nodup := (addrs_queue.nodup_iff).mpr (List.nodup_cons.mpr ⟨hnew,ht.nodup⟩)
  tx p hp := by
    rw [txAll_queue_send hop,List.mem_append,List.mem_singleton] at hp
    rcases hp with hp | rfl
    · exact ht.tx p hp
    · exact hk
  txDone := ht.txDone
  rx := by rw [rxAll_queue_send hop]; exact ht.rx
  rxDone := ht.rxDone
  cq := ht.cq

theorem Typed.queue_recv (ht : Typed kind rxLen m r) (hop : q.opcode = .recv)
    (hnew : q.userData ∉ r.addrs) (hk : kind (m.header q.userData) = some .recv)
    (hlen : q.len = rxLen) : Typed kind rxLen m { r with sq := r.sq ++ [q] } where
  nodup := (addrs_queue.nodup_iff).mpr (List.nodup_cons.mpr ⟨hnew,ht.nodup⟩)
  tx := by rw [txAll_queue_recv hop]; exact ht.tx
  txDone := ht.txDone
  rx p hp := by
    rw [rxAll_queue_recv hop,List.mem_append,List.mem_singleton] at hp
    rcases hp with hp | rfl
    · exact ht.rx p hp
    · exact ⟨hk,hlen⟩
  rxDone := ht.rxDone
  cq := ht.cq

theorem view_queue_send (hop : q.opcode = .send) :
    view kind rxLen m { r with sq := r.sq ++ [q] } =
      { view kind rxLen m r with
        tx := (view kind rxLen m r).tx ++ [(m.bytes q.userData).take q.len] } := by
  simp only [view,txAll_queue_send hop,rxAll_queue_send hop,List.map_append,List.map_cons,
    List.map_nil]

theorem view_queue_recv (hop : q.opcode = .recv) :
    view kind rxLen m { r with sq := r.sq ++ [q] } =
      { view kind rxLen m r with rx := (view kind rxLen m r).rx + 1 } := by
  simp only [view,txAll_queue_recv hop,rxAll_queue_recv hop,List.length_append,
    List.length_singleton]

end Submission

section Reaping
variable {e : Cqe} {rest : List Cqe}

theorem addrs_reap (h : r.cq = e :: rest) :
    r.addrs.Perm (e.userData :: ({ r with cq := rest } : Ring).addrs) := by
  apply List.perm_iff_count.mpr
  intro a
  have htx : ({ r with cq := rest } : Ring).txAll = r.txAll := rfl
  have hrx : ({ r with cq := rest } : Ring).rxAll = r.rxAll := rfl
  simp only [addrs,htx,hrx,h,List.map_cons,List.count_append,List.count_cons]
  omega

theorem Typed.reap (ht : Typed kind rxLen m r) (h : r.cq = e :: rest) :
    Typed kind rxLen m { r with cq := rest } where
  nodup := (List.nodup_cons.mp ((addrs_reap h).nodup_iff.mp ht.nodup)).2
  tx := ht.tx
  txDone := ht.txDone
  rx := ht.rx
  rxDone := ht.rxDone
  cq d hd := ht.cq d (by rw [h]; exact List.mem_cons_of_mem _ hd)

theorem Typed.reap_notMem (ht : Typed kind rxLen m r) (h : r.cq = e :: rest) :
    e.userData ∉ ({ r with cq := rest } : Ring).addrs :=
  (List.nodup_cons.mp ((addrs_reap h).nodup_iff.mp ht.nodup)).1

theorem view_reap (h : r.cq = e :: rest) :
    (view kind rxLen m r).cq = completion kind rxLen m e :: rest.map (completion kind rxLen m) := by
  simp [view,h]

end Reaping

end Ring

end FastNet
