import FastNet.Foundation.RingView

/-! # The kernel as seen through the view

Every kernel event keeps the blocks of the ring and the headers of the heap, and
is the move of the same name on the view.
-/
namespace FastNet.Ring
variable {η : Type} {kind : η → Option Opcode} {rxLen : ℕ} {m m' : Heap η} {r r' : Ring}

theorem perm_cons_eraseIdx {α : Type*} {l : List α} {i : ℕ} {x : α} (h : l[i]? = some x) :
    l.Perm (x :: l.eraseIdx i) := by
  obtain ⟨hi,rfl⟩ := List.getElem?_eq_some_iff.mp h
  exact (List.getElem_cons_eraseIdx_perm hi).symm

theorem count_eraseIdx {α β : Type*} [DecidableEq β] (l : List α) {i : ℕ} {x : α}
    (h : l[i]? = some x) (f : α → β) (b : β) :
    (l.map f).count b = ((l.eraseIdx i).map f).count b + if f x = b then 1 else 0 := by
  rw [((perm_cons_eraseIdx h).map f).count_eq b,List.map_cons,List.count_cons]
  simp only [beq_iff_eq]

theorem getElem?_append_of_some {α : Type*} {l : List α} {i : ℕ} {x : α} (h : l[i]? = some x)
    (l' : List α) : (l ++ l')[i]? = some x ∧ (l ++ l').eraseIdx i = l.eraseIdx i ++ l' := by
  obtain ⟨hi,_⟩ := List.getElem?_eq_some_iff.mp h
  exact ⟨by rw [List.getElem?_append_left hi]; exact h,List.eraseIdx_append_of_lt_length hi l'⟩

section Tx
variable {q : Sqe} {i : ℕ} {res : ℤ}

/-- The `i`-th unexecuted send becomes the last executed one. -/
def doneTx (r : Ring) (i : ℕ) (q : Sqe) (res : ℤ) : Ring :=
  { r with tx := r.tx.eraseIdx i, txDone := r.txDone ++ [⟨q.userData,res⟩] }

theorem doneTx_txAll (h : r.tx[i]? = some q) : (r.doneTx i q res).txAll = r.txAll.eraseIdx i :=
  (getElem?_append_of_some h _).2.symm

theorem doneTx_addrs (h : r.tx[i]? = some q) : (r.doneTx i q res).addrs.Perm r.addrs := by
  apply List.perm_iff_count.mpr
  intro a
  have hall := (getElem?_append_of_some h (r.sq.filter (·.opcode = .send))).1
  have hc := count_eraseIdx r.txAll hall (·.userData) a
  have hrx : (r.doneTx i q res).rxAll = r.rxAll := rfl
  have hcq : (r.doneTx i q res).cq = r.cq := rfl
  have hrxDone : (r.doneTx i q res).rxDone = r.rxDone := rfl
  have htxDone : (r.doneTx i q res).txDone = r.txDone ++ [⟨q.userData,res⟩] := rfl
  simp only [addrs,doneTx_txAll h,hrx,hcq,hrxDone,htxDone,List.map_append,List.count_append,
    List.map_cons,List.map_nil,List.count_cons,List.count_nil,beq_iff_eq]
  omega

theorem Typed.doneTx (ht : Typed kind rxLen m r) (h : r.tx[i]? = some q) :
    Typed kind rxLen m (r.doneTx i q res) where
  nodup := (doneTx_addrs h).nodup_iff.mpr ht.nodup
  tx p hp := by
    rw [doneTx_txAll h] at hp
    exact ht.tx p (List.mem_of_mem_eraseIdx hp)
  txDone e he := by
    rcases List.mem_append.mp he with he | he
    · exact ht.txDone e he
    · obtain rfl := List.mem_singleton.mp he
      exact ht.tx q (List.mem_append_left _ (List.mem_of_getElem? h))
  rx := ht.rx
  rxDone := ht.rxDone
  cq := ht.cq

theorem view_doneTx (kind : η → Option Opcode) (rxLen : ℕ) (m : Heap η) (h : r.tx[i]? = some q)
    (res : ℤ) :
    (view kind rxLen m r).tx[i]? = some ((m.bytes q.userData).take q.len) ∧
      view kind rxLen m (r.doneTx i q res) =
        { view kind rxLen m r with
          tx := (view kind rxLen m r).tx.eraseIdx i
          txDone := (view kind rxLen m r).txDone ++ [res] } := by
  have hall := (getElem?_append_of_some h (r.sq.filter (·.opcode = .send))).1
  constructor
  · change (r.txAll.map _)[i]? = _
    rw [List.getElem?_map]
    exact congrArg (Option.map _) hall
  · have htxDone : (r.doneTx i q res).txDone = r.txDone ++ [⟨q.userData,res⟩] := rfl
    simp only [view,doneTx_txAll h,htxDone,List.eraseIdx_map,List.map_append,List.map_cons,
      List.map_nil]
    rfl

end Tx

section Rx
variable {q : Sqe} {i : ℕ} {res : ℤ}

/-- The `i`-th unexecuted receive becomes the last executed one. -/
def doneRx (r : Ring) (i : ℕ) (q : Sqe) (res : ℤ) : Ring :=
  { r with rx := r.rx.eraseIdx i, rxDone := r.rxDone ++ [⟨q.userData,res⟩] }

theorem doneRx_rxAll (h : r.rx[i]? = some q) : (r.doneRx i q res).rxAll = r.rxAll.eraseIdx i :=
  (getElem?_append_of_some h _).2.symm

theorem doneRx_addrs (h : r.rx[i]? = some q) : (r.doneRx i q res).addrs.Perm r.addrs := by
  apply List.perm_iff_count.mpr
  intro a
  have hall := (getElem?_append_of_some h (r.sq.filter (·.opcode = .recv))).1
  have hc := count_eraseIdx r.rxAll hall (·.userData) a
  have htx : (r.doneRx i q res).txAll = r.txAll := rfl
  have hcq : (r.doneRx i q res).cq = r.cq := rfl
  have htxDone : (r.doneRx i q res).txDone = r.txDone := rfl
  have hrxDone : (r.doneRx i q res).rxDone = r.rxDone ++ [⟨q.userData,res⟩] := rfl
  simp only [addrs,doneRx_rxAll h,htx,hcq,hrxDone,htxDone,List.map_append,List.count_append,
    List.map_cons,List.map_nil,List.count_cons,List.count_nil,beq_iff_eq]
  omega

theorem Typed.doneRx (ht : Typed kind rxLen m r) (h : r.rx[i]? = some q) (res : ℤ) :
    Typed kind rxLen m (r.doneRx i q res) where
  nodup := (doneRx_addrs h).nodup_iff.mpr ht.nodup
  tx := ht.tx
  txDone := ht.txDone
  rx p hp := by
    rw [doneRx_rxAll h] at hp
    exact ht.rx p (List.mem_of_mem_eraseIdx hp)
  rxDone e he := by
    rcases List.mem_append.mp he with he | he
    · exact ht.rxDone e he
    · obtain rfl := List.mem_singleton.mp he
      exact (ht.rx q (List.mem_append_left _ (List.mem_of_getElem? h))).1
  cq := ht.cq

/-- The receive writes to its own block, which no other operation reads. -/
theorem view_doneRx (ht : Typed kind rxLen m r) (h : r.rx[i]? = some q) (res : ℤ)
    (bs : List UInt8) :
    view kind rxLen (m.setBytes q.userData bs) (r.doneRx i q res) =
      { view kind rxLen m r with
        rx := (view kind rxLen m r).rx - 1
        rxDone := (view kind rxLen m r).rxDone ++ [(res,bs.take rxLen)] } := by
  obtain ⟨hi,_⟩ := List.getElem?_eq_some_iff.mp h
  have hall := (getElem?_append_of_some h (r.sq.filter (·.opcode = .recv))).1
  have hmem : q ∈ r.rxAll := List.mem_of_getElem? hall
  have hother : ∀ a, a ∈ r.txAll.map (·.userData) ∨ a ∈ r.rxDone.map (·.userData) ∨
      a ∈ r.cq.map (·.userData) → a ≠ q.userData := by
    rintro a ha rfl
    have hd := ht.nodup
    have hq : q.userData ∈ r.rxAll.map (·.userData) := List.mem_map.mpr ⟨q,hmem,rfl⟩
    simp only [addrs,List.nodup_append,List.mem_append] at hd
    rcases ha with ha | ha | ha
    · exact hd.1.2.2 _ (Or.inl ha) _ (Or.inl hq) rfl
    · exact hd.1.2.1.2.2 _ hq _ ha rfl
    · exact hd.2.2 _ (Or.inr (Or.inl hq)) _ ha rfl
  have hrxDone : (r.doneRx i q res).rxDone = r.rxDone ++ [⟨q.userData,res⟩] := rfl
  have hlen : (r.rxAll.eraseIdx i).length = r.rxAll.length - 1 := by
    apply List.length_eraseIdx_of_lt
    simp only [rxAll,List.length_append]
    omega
  simp only [view,doneRx_rxAll h,hrxDone,hlen,List.map_append,List.map_cons,List.map_nil,
    Heap.setBytes_bytes_self]
  congr 1
  · apply List.map_congr_left
    intro p hp
    rw [Heap.setBytes_bytes_ne _ _ (hother _ (Or.inl (List.mem_map.mpr ⟨p,hp,rfl⟩)))]
  · congr 1
    apply List.map_congr_left
    intro e he
    rw [Heap.setBytes_bytes_ne _ _ (hother _ (Or.inr (Or.inl (List.mem_map.mpr ⟨e,he,rfl⟩))))]
  · apply List.map_congr_left
    intro e he
    have hne := hother _ (Or.inr (Or.inr (List.mem_map.mpr ⟨e,he,rfl⟩)))
    rw [completion,completion,Heap.setBytes_bytes_ne _ _ hne,Heap.setBytes_header]

end Rx

section Post
variable {e : Cqe} {i : ℕ}

def postedTx (r : Ring) (i : ℕ) (e : Cqe) : Ring :=
  { r with txDone := r.txDone.eraseIdx i, cq := r.cq ++ [e] }

def postedRx (r : Ring) (i : ℕ) (e : Cqe) : Ring :=
  { r with rxDone := r.rxDone.eraseIdx i, cq := r.cq ++ [e] }

theorem postedTx_addrs (h : r.txDone[i]? = some e) : (r.postedTx i e).addrs.Perm r.addrs := by
  apply List.perm_iff_count.mpr
  intro a
  have hc := count_eraseIdx _ h (·.userData) a
  change (r.txAll.map (·.userData) ++ (r.txDone.eraseIdx i).map (·.userData) ++
    (r.rxAll.map (·.userData) ++ r.rxDone.map (·.userData)) ++
    (r.cq ++ [e]).map (·.userData)).count a = r.addrs.count a
  simp only [addrs,List.map_append,List.count_append,List.map_cons,List.map_nil,List.count_cons,
    List.count_nil,beq_iff_eq]
  omega

theorem postedRx_addrs (h : r.rxDone[i]? = some e) : (r.postedRx i e).addrs.Perm r.addrs := by
  apply List.perm_iff_count.mpr
  intro a
  have hc := count_eraseIdx _ h (·.userData) a
  change (r.txAll.map (·.userData) ++ r.txDone.map (·.userData) ++
    (r.rxAll.map (·.userData) ++ (r.rxDone.eraseIdx i).map (·.userData)) ++
    (r.cq ++ [e]).map (·.userData)).count a = r.addrs.count a
  simp only [addrs,List.map_append,List.count_append,List.map_cons,List.map_nil,List.count_cons,
    List.count_nil,beq_iff_eq]
  omega

theorem Typed.postedTx (ht : Typed kind rxLen m r) (h : r.txDone[i]? = some e) :
    Typed kind rxLen m (r.postedTx i e) where
  nodup := (postedTx_addrs h).nodup_iff.mpr ht.nodup
  tx := ht.tx
  txDone d hd := ht.txDone d (List.mem_of_mem_eraseIdx hd)
  rx := ht.rx
  rxDone := ht.rxDone
  cq d hd := by
    rcases List.mem_append.mp hd with hd | hd
    · exact ht.cq d hd
    · obtain rfl := List.mem_singleton.mp hd
      rw [ht.txDone d (List.mem_of_getElem? h)]
      rfl

theorem Typed.postedRx (ht : Typed kind rxLen m r) (h : r.rxDone[i]? = some e) :
    Typed kind rxLen m (r.postedRx i e) where
  nodup := (postedRx_addrs h).nodup_iff.mpr ht.nodup
  tx := ht.tx
  txDone := ht.txDone
  rx := ht.rx
  rxDone d hd := ht.rxDone d (List.mem_of_mem_eraseIdx hd)
  cq d hd := by
    rcases List.mem_append.mp hd with hd | hd
    · exact ht.cq d hd
    · obtain rfl := List.mem_singleton.mp hd
      rw [ht.rxDone d (List.mem_of_getElem? h)]
      rfl

theorem view_postedTx (ht : Typed kind rxLen m r) (h : r.txDone[i]? = some e) :
    (view kind rxLen m r).txDone[i]? = some e.res ∧
      view kind rxLen m (r.postedTx i e) =
        { view kind rxLen m r with
          txDone := (view kind rxLen m r).txDone.eraseIdx i
          cq := (view kind rxLen m r).cq ++ [.tx e.res] } := by
  have hk := ht.txDone e (List.mem_of_getElem? h)
  have hcq : (r.cq ++ [e]).map (completion kind rxLen m) =
      r.cq.map (completion kind rxLen m) ++ [.tx e.res] := by
    simp [completion,hk]
  constructor
  · simp [view,h]
  · change (⟨_,(r.txDone.eraseIdx i).map (·.res),_,_,(r.cq ++ [e]).map _⟩ : RingView) = _
    rw [hcq,← List.eraseIdx_map]
    rfl

theorem view_postedRx (ht : Typed kind rxLen m r) (h : r.rxDone[i]? = some e) :
    (view kind rxLen m r).rxDone[i]? = some (e.res,(m.bytes e.userData).take rxLen) ∧
      view kind rxLen m (r.postedRx i e) =
        { view kind rxLen m r with
          rxDone := (view kind rxLen m r).rxDone.eraseIdx i
          cq := (view kind rxLen m r).cq ++ [.rx e.res ((m.bytes e.userData).take rxLen)] } := by
  have hk := ht.rxDone e (List.mem_of_getElem? h)
  have hcq : (r.cq ++ [e]).map (completion kind rxLen m) =
      r.cq.map (completion kind rxLen m) ++ [.rx e.res ((m.bytes e.userData).take rxLen)] := by
    simp [completion,hk]
  constructor
  · simp [view,h]
  · change (⟨_,_,_,(r.rxDone.eraseIdx i).map _,(r.cq ++ [e]).map _⟩ : RingView) = _
    rw [hcq,← List.eraseIdx_map]
    rfl

end Post

/-- What a kernel event that is on offer does. -/
inductive Executes (m : Heap η) (r : Ring) : KernelEvent → Heap η → Ring → Prop
  | execTx (i : ℕ) (bytes : List UInt8) (q : Sqe) (hq : r.tx[i]? = some q)
      (hp : bytes <+: (m.bytes q.userData).take q.len) :
      Executes m r (.execTx i bytes) m (r.doneTx i q bytes.length)
  | failTx (i err : ℕ) (q : Sqe) (hq : r.tx[i]? = some q) :
      Executes m r (.failTx i err) m (r.doneTx i q (-((err : ℤ) + 1)))
  | execRx (i : ℕ) (bytes : List UInt8) (q : Sqe) (hq : r.rx[i]? = some q)
      (hl : bytes.length ≤ q.len) :
      Executes m r (.execRx i bytes)
        (m.setBytes q.userData (Bytes.overlay bytes (m.bytes q.userData)))
        (r.doneRx i q bytes.length)
  | failRx (i err : ℕ) (q : Sqe) (hq : r.rx[i]? = some q) :
      Executes m r (.failRx i err) m (r.doneRx i q (-((err : ℤ) + 1)))
  | postTx (i : ℕ) (e : Cqe) (he : r.txDone[i]? = some e) :
      Executes m r (.postTx i) m (r.postedTx i e)
  | postRx (i : ℕ) (e : Cqe) (he : r.rxDone[i]? = some e) :
      Executes m r (.postRx i) m (r.postedRx i e)

theorem kernel_executes {e : KernelEvent} (h : kernel m r e = .ok (m',r')) :
    Executes m r e m' r' := by
  cases e with
  | execTx i bytes =>
    simp only [kernel] at h
    split at h
    · cases h
    · rename_i q hq
      split at h
      · rename_i hp
        cases h
        exact .execTx i bytes q hq hp
      · cases h
  | failTx i err =>
    simp only [kernel] at h
    split at h
    · cases h
    · rename_i q hq
      cases h
      exact .failTx i err q hq
  | execRx i bytes =>
    simp only [kernel] at h
    split at h
    · cases h
    · rename_i q hq
      split at h
      · rename_i hl
        cases h
        exact .execRx i bytes q hq hl
      · cases h
  | failRx i err =>
    simp only [kernel] at h
    split at h
    · cases h
    · rename_i q hq
      cases h
      exact .failRx i err q hq
  | postTx i =>
    simp only [kernel] at h
    split at h
    · cases h
    · rename_i e he
      cases h
      exact .postTx i e he
  | postRx i =>
    simp only [kernel] at h
    split at h
    · cases h
    · rename_i e he
      cases h
      exact .postRx i e he

/-- What a kernel event keeps, and the move it is. -/
structure KernelStep (kind : η → Option Opcode) (rxLen : ℕ) (m : Heap η) (r : Ring)
    (e : KernelEvent) (m' : Heap η) (r' : Ring) : Prop where
  header : m'.header = m.header
  live : m'.live = m.live
  sq : r'.sq = r.sq
  sqEntries : r'.sqEntries = r.sqEntries
  addrs : r'.addrs.Perm r.addrs
  typed : Typed kind rxLen m' r'
  move : RingView.Move rxLen (view kind rxLen m r) e (view kind rxLen m' r')

theorem kernel_step (ht : Typed kind rxLen m r) {e : KernelEvent}
    (h : kernel m r e = .ok (m',r')) : KernelStep kind rxLen m r e m' r' := by
  have hlt {i : ℕ} {q : Sqe} (hq : r.rx[i]? = some q) : i < r.rxAll.length := by
    obtain ⟨hi,_⟩ := List.getElem?_eq_some_iff.mp hq
    simp only [rxAll,List.length_append]
    omega
  cases kernel_executes h with
  | execTx i bytes q hq hp =>
    have hv := view_doneTx kind rxLen m hq bytes.length
    refine ⟨rfl,rfl,rfl,rfl,doneTx_addrs hq,ht.doneTx hq,?_⟩
    rw [hv.2]
    exact .execTx _ i bytes _ hv.1 hp
  | failTx i err q hq =>
    have hv := view_doneTx kind rxLen m hq (-((err : ℤ) + 1))
    refine ⟨rfl,rfl,rfl,rfl,doneTx_addrs hq,ht.doneTx hq,?_⟩
    rw [hv.2]
    exact .failTx _ i err _ hv.1
  | execRx i bytes q hq hl =>
    have hmem : q ∈ r.rxAll := List.mem_append_left _ (List.mem_of_getElem? hq)
    rw [(ht.rx q hmem).2] at hl
    have hv := view_doneRx ht hq bytes.length (Bytes.overlay bytes (m.bytes q.userData))
    refine ⟨rfl,rfl,rfl,rfl,doneRx_addrs hq,?_,?_⟩
    · have htd := ht.doneRx hq bytes.length
      exact ⟨htd.nodup,htd.tx,htd.txDone,htd.rx,htd.rxDone,htd.cq⟩
    · rw [hv]
      refine .execRx _ i bytes _ (hlt hq) (List.length_take_le _ _) ?_
      exact List.prefix_take_iff.mpr ⟨List.prefix_append _ _,hl⟩
  | failRx i err q hq =>
    have hv := view_doneRx ht hq (-((err : ℤ) + 1)) (m.bytes q.userData)
    have hset : m.setBytes q.userData (m.bytes q.userData) = m := by
      simp [Heap.setBytes]
    rw [hset] at hv
    refine ⟨rfl,rfl,rfl,rfl,doneRx_addrs hq,ht.doneRx hq _,?_⟩
    rw [hv]
    exact .failRx _ i err _ (hlt hq) (List.length_take_le _ _)
  | postTx i e he =>
    have hv := view_postedTx ht he
    refine ⟨rfl,rfl,rfl,rfl,postedTx_addrs he,ht.postedTx he,?_⟩
    rw [hv.2]
    exact .postTx _ i _ hv.1
  | postRx i e he =>
    have hv := view_postedRx ht he
    refine ⟨rfl,rfl,rfl,rfl,postedRx_addrs he,ht.postedRx he,?_⟩
    rw [hv.2]
    exact .postRx _ i _ _ hv.1

section Enabled

/-- Once all is submitted, the oldest send can go out whole. -/
theorem kernel_execTx (hsq : r.sq = []) {p : List UInt8} {ps : List (List UInt8)}
    (h : (view kind rxLen m r).tx = p :: ps) : ∃ x, kernel m r (.execTx 0 p) = .ok x := by
  simp only [view,txAll,hsq,List.filter_nil,List.append_nil] at h
  cases htx : r.tx with
  | nil => simp [htx] at h
  | cons q qs =>
    rw [htx,List.map_cons] at h
    obtain ⟨rfl,-⟩ := List.cons.inj h
    simp [kernel,htx]

theorem kernel_execRx (ht : Typed kind rxLen m r) (hsq : r.sq = [])
    (h : 0 < (view kind rxLen m r).rx) {bytes : List UInt8} (hl : bytes.length ≤ rxLen) :
    ∃ x, kernel m r (.execRx 0 bytes) = .ok x := by
  simp only [view,rxAll,hsq,List.filter_nil,List.append_nil] at h
  cases hrx : r.rx with
  | nil => simp [hrx] at h
  | cons q qs =>
    have hlen := (ht.rx q (by simp [rxAll,hrx])).2
    simp [kernel,hrx,hlen,hl]

theorem kernel_postTx (h : (view kind rxLen m r).txDone ≠ []) :
    ∃ x, kernel m r (.postTx 0) = .ok x := by
  cases hd : r.txDone with
  | nil => simp [view,hd] at h
  | cons e es => simp [kernel,hd]

theorem kernel_postRx (h : (view kind rxLen m r).rxDone ≠ []) :
    ∃ x, kernel m r (.postRx 0) = .ok x := by
  cases hd : r.rxDone with
  | nil => simp [view,hd] at h
  | cons e es => simp [kernel,hd]

end Enabled

end FastNet.Ring
