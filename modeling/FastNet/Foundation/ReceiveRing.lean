import FastNet.Foundation.ResultRing

/-! # Rings of receives

A program that only receives, and never looks at what it received, drives its ring
as if it were one of results: forgetting the buffers takes each step on the ring to
the step of the same name, and the operations keep the buffers they point to.
-/
namespace FastNet

/-- The event without the position, which no count depends on, and without the bytes. -/
def KernelEvent.forget : KernelEvent → ResultRing.Event
  | .execTx _ bytes | .execRx _ bytes => .exec bytes.length
  | .failTx _ err | .failRx _ err => .exec (-((err : ℤ) + 1))
  | .postTx i | .postRx i => .post i

namespace Ring
variable {η : Type} {len : ℕ} {r r' : Ring} {m m' : Heap η}

/-- All operations of the ring are receives of one length. -/
structure Receives (len : ℕ) (r : Ring) : Prop where
  tx : r.tx = []
  txDone : r.txDone = []
  sq : ∀ q ∈ r.sq, q.opcode = .recv ∧ q.len = len
  rx : ∀ q ∈ r.rx, q.len = len

/-- The counts and the results of the receives. -/
def results (r : Ring) : ResultRing where
  sqEntries := r.sqEntries
  sq := r.sq.length
  pending := r.rx.length
  done := r.rxDone.map Cqe.res
  cq := r.cq.map Cqe.res

variable (len) in
theorem receives_queueInit (n : ℕ) : Receives len (queueInit n) := by
  constructor <;> simp [queueInit]

theorem Receives.queue (hr : Receives len r) {a : Addr} (h : r.queue ⟨.recv,a,len⟩ = .ok r') :
    Receives len r' ∧ r.results.getSqe = some r'.results ∧ r'.addrs.Perm (a :: r.addrs) := by
  obtain ⟨rfl,hroom⟩ := queue_ok h
  refine ⟨⟨hr.tx,hr.txDone,?_,hr.rx⟩,?_,addrs_queue⟩
  · intro q hq
    rcases List.mem_append.mp hq with hq | hq
    · exact hr.sq q hq
    · obtain rfl := List.mem_singleton.mp hq
      exact ⟨rfl,rfl⟩
  · refine (if_pos hroom).trans ?_
    simp [results]

theorem Receives.submit (hr : Receives len r) :
    Receives len r.submit ∧ r.submit.results = r.results.submit := by
  have hsend : r.sq.filter (·.opcode = .send) = [] := by
    apply List.filter_eq_nil_iff.mpr
    intro q hq
    simp [(hr.sq q hq).1]
  have hrecv : r.sq.filter (·.opcode = .recv) = r.sq := by
    apply List.filter_eq_self.mpr
    intro q hq
    simp [(hr.sq q hq).1]
  refine ⟨⟨?_,hr.txDone,?_,?_⟩,?_⟩
  · simp only [Ring.submit,hsend,List.append_nil]
    exact hr.tx
  · simp [Ring.submit]
  · simp only [Ring.submit,hrecv]
    intro q hq
    exact (List.mem_append.mp hq).elim (hr.rx q) (fun hq => (hr.sq q hq).2)
  · simp [Ring.submit,results,ResultRing.submit,hrecv]

theorem Receives.seen (hr : Receives len r) (rest : List Cqe) :
    Receives len { r with cq := rest } ∧
      ({ r with cq := rest } : Ring).results = r.results.seen (rest.map Cqe.res) :=
  ⟨⟨hr.tx,hr.txDone,hr.sq,hr.rx⟩,rfl⟩

/-- The `i`-th receive ends. -/
theorem Receives.done (hr : Receives len r) {i : ℕ} {q : Sqe} (hq : r.rx[i]? = some q) {res : ℤ}
    (hres : res ≤ len) : Receives len (r.doneRx i q res) ∧
      r.results.kernel len (.exec res) = .ok (r.doneRx i q res).results := by
  refine ⟨⟨hr.tx,hr.txDone,hr.sq,fun p hp => hr.rx p (List.mem_of_mem_eraseIdx hp)⟩,?_⟩
  have hlt := (List.getElem?_eq_some_iff.mp hq).1
  refine (if_pos ⟨Nat.zero_lt_of_lt hlt,hres⟩).trans ?_
  simp [results,doneRx,List.length_eraseIdx_of_lt hlt]

/-- What the kernel does to the ring is what it does to the counts and the results. -/
theorem Receives.kernel (hr : Receives len r) {e : KernelEvent}
    (h : r.kernel m e = .ok (m',r')) :
    Receives len r' ∧ r.results.kernel len e.forget = .ok r'.results ∧
      r'.addrs.Perm r.addrs := by
  cases kernel_executes h with
  | execTx i bytes q hq hp => simp [hr.tx] at hq
  | failTx i err q hq => simp [hr.tx] at hq
  | execRx i bytes q hq hl =>
    rw [hr.rx q (List.mem_of_getElem? hq)] at hl
    obtain ⟨hr',hk⟩ := hr.done hq (Nat.cast_le.mpr hl)
    exact ⟨hr',hk,doneRx_addrs hq⟩
  | failRx i err q hq =>
    obtain ⟨hr',hk⟩ := hr.done hq (show -((err : ℤ) + 1) ≤ len by omega)
    exact ⟨hr',hk,doneRx_addrs hq⟩
  | postTx i e he => simp [hr.txDone] at he
  | postRx i e he =>
    refine ⟨⟨hr.tx,hr.txDone,hr.sq,hr.rx⟩,?_,postedRx_addrs he⟩
    have hres : r.results.done[i]? = some e.res := by simp [results,he]
    simp only [KernelEvent.forget,ResultRing.kernel,hres]
    simp [results,postedRx,List.eraseIdx_map]

end Ring

end FastNet
