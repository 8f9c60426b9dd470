import FastNet.Foundation.RingKernel

/-! # Rings of which only the results matter

A program that never looks at the bytes it moves sees numbers: how many entries
it queued, how many operations the kernel has not executed, and the results. The
operations of a ring ask for the same length; the kernel executes and posts them
in any order.
-/
namespace FastNet

structure ResultRing where
  sqEntries : ℕ
  /-- Entries that are queued and not submitted. -/
  sq : ℕ
  /-- Operations that are submitted and not executed. -/
  pending : ℕ
  /-- Results whose completion is not posted. -/
  done : List ℤ
  cq : List ℤ

namespace ResultRing

/-- What the kernel does: an operation ends with a result, and the completion of one
that ended is posted. -/
inductive Event
  | exec (res : ℤ)
  | post (i : ℕ)
  deriving DecidableEq

/-- The result that becomes known with the event. -/
def Event.result : Event → List ℤ
  | .exec res => [res]
  | .post _ => []

/-- `io_uring_queue_init`. -/
def queueInit (n : ℕ) : ResultRing := ⟨Ring.roundUp n,0,0,[],[]⟩

/-- `io_uring_get_sqe` with the calls that fill the entry; none is the null pointer. -/
def getSqe (r : ResultRing) : Option ResultRing :=
  if r.sq < r.sqEntries then some { r with sq := r.sq + 1 } else none

/-- `io_uring_submit`. -/
def submit (r : ResultRing) : ResultRing := { r with sq := 0, pending := r.pending + r.sq }

/-- Take the first completion off the completion queue. -/
def seen (r : ResultRing) (rest : List ℤ) : ResultRing := { r with cq := rest }

def kernel (len : ℕ) (r : ResultRing) : Event → Except Stop ResultRing
  | .exec res =>
    if 0 < r.pending ∧ res ≤ len then
      .ok { r with pending := r.pending - 1, done := r.done ++ [res] }
    else .error .disabled
  | .post i =>
    match r.done[i]? with
    | none => .error .disabled
    | some res => .ok { r with done := r.done.eraseIdx i, cq := r.cq ++ [res] }

/-- The results the program has not taken. -/
def results (r : ResultRing) : List ℤ := r.done ++ r.cq

variable {len : ℕ} {r r' : ResultRing}

theorem getSqe_some (h : r.getSqe = some r') :
    r.sq < r.sqEntries ∧ r' = { r with sq := r.sq + 1 } := by
  unfold getSqe at h
  split at h
  · rename_i hroom
    cases h
    exact ⟨hroom,rfl⟩
  · cases h

theorem kernel_exec {res : ℤ} (h : r.kernel len (.exec res) = .ok r') :
    0 < r.pending ∧ res ≤ len ∧
      r' = { r with pending := r.pending - 1, done := r.done ++ [res] } := by
  simp only [kernel] at h
  split at h
  · rename_i hp
    cases h
    exact ⟨hp.1,hp.2,rfl⟩
  · cases h

/-- A pending operation can end with any result up to its length. -/
theorem exec_ok {res : ℤ} (hp : r.pending ≠ 0) (hlen : res ≤ len) : r.kernel len (.exec res) =
    .ok { r with pending := r.pending - 1, done := r.done ++ [res] } :=
  if_pos ⟨Nat.pos_of_ne_zero hp,hlen⟩

/-- The oldest completion can be posted. -/
theorem post_ok {res : ℤ} {rest : List ℤ} (h : r.done = res :: rest) :
    r.kernel len (.post 0) = .ok { r with done := rest, cq := r.cq ++ [res] } := by
  simp [kernel,h]

theorem results_exec (r : ResultRing) (res : ℤ) :
    ({ r with pending := r.pending - 1, done := r.done ++ [res] } : ResultRing).results.Perm
      (res :: r.results) := by
  simp only [results,List.append_assoc,List.singleton_append]
  exact List.perm_middle

theorem kernel_post {i : ℕ} (h : r.kernel len (.post i) = .ok r') :
    r'.sqEntries = r.sqEntries ∧ r'.sq = r.sq ∧ r'.pending = r.pending ∧
      r'.results.Perm r.results := by
  simp only [kernel] at h
  split at h
  · cases h
  · rename_i res hres
    cases h
    have hperm := (Ring.perm_cons_eraseIdx hres).symm.append_right r.cq
    refine ⟨rfl,rfl,rfl,?_⟩
    simp only [results,← List.append_assoc]
    exact (List.perm_append_singleton _ _).trans hperm

/-- What an event does to the numbers: the results known but not taken are those
before it with the new one. -/
theorem kernel_ok {e : Event} (h : r.kernel len e = .ok r') :
    r'.sqEntries = r.sqEntries ∧ r'.sq = r.sq ∧ r'.pending + e.result.length = r.pending ∧
      r'.results.Perm (e.result ++ r.results) ∧ ∀ res ∈ e.result, res ≤ len := by
  cases e with
  | exec res =>
    obtain ⟨hp,hlen,rfl⟩ := kernel_exec h
    refine ⟨rfl,rfl,?_,results_exec r res,by simpa [Event.result] using hlen⟩
    simp only [Event.result,List.length_singleton]
    omega
  | post i =>
    obtain ⟨hentries,hsq,hpending,hperm⟩ := kernel_post h
    exact ⟨hentries,hsq,hpending,hperm,by simp [Event.result]⟩

theorem kernel_error {e : Event} {why : Stop} (h : r.kernel len e = .error why) :
    why = .disabled := by
  cases e with
  | exec res =>
    simp only [kernel] at h
    split at h
    · cases h
    · cases h
      rfl
  | post i =>
    simp only [kernel] at h
    split at h
    · cases h
      rfl
    · cases h

end ResultRing

end FastNet
