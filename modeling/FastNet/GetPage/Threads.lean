import FastNet.Foundation.Tiling
import FastNet.GetPage.Batches

/-! # All threads of the io_uring client

The threads that `main` starts share the two vectors and run in any interleaving.
The batches of all threads are, one after the other, all indices; each index is
prepared, asked for and received once, by the thread that has it in its range.
-/
namespace FastNet.GetPage.ClientIou
open Execution

section Effects
variable {pageCount : ℕ} {J : Job} {s t : State} {posted count : ℕ}

variable (pageCount) in
/-- What is sent for an index. -/
def encoded (j : ℕ) : GetPageRequest :=
  (GetPageRequest.mk (UInt32.ofNat j) (UInt32.ofNat (j % pageCount))).toNetworkOrder

/-- The batch that a step starts. -/
def batchOf (J : Job) (s : State) (e : Event) (_ : State) : List (ℕ × ℕ) :=
  match e with
  | .batch => [(s.i,batchEnd J s.i)]
  | _ => []

/-- The indices whose requests a step prepares and submits. -/
def preparedOf (_ : Job) (s : State) (e : Event) (t : State) : List ℕ :=
  match e with
  | .batch => t.sends.drop s.sends.length
  | _ => []

/-- The indices whose responses a step submits receives for. -/
def postedOf (_ : Job) (s : State) (e : Event) (t : State) : List ℕ :=
  match e with
  | .batch => t.receives.drop s.receives.length
  | _ => []

/-- The response that an executed receive has written to. -/
def filledOf (_ : Job) (s : State) (e : Event) (_ : State) : List ℕ :=
  match e with
  | .receive _ => s.receives.take 1
  | _ => []

def indices (b : ℕ × ℕ) : List ℕ := List.range' b.1 (b.2 - b.1)

theorem foldl_sendRequest (pageCount : ℕ) (js : List ℕ) (s : State) :
    (js.foldl (sendRequest pageCount) s).sends = s.sends ++ js ∧
      (js.foldl (sendRequest pageCount) s).requests =
        fun j => if j ∈ js then encoded pageCount j else s.requests j := by
  induction js generalizing s with
  | nil => simp
  | cons k js ih =>
    obtain ⟨hsends,hrequests⟩ := ih (sendRequest pageCount s k)
    rw [List.foldl_cons,hsends,hrequests]
    refine ⟨List.append_assoc ..,?_⟩
    funext j
    by_cases hj : j ∈ js
    · rw [if_pos hj,if_pos (List.mem_cons_of_mem _ hj)]
    · rw [if_neg hj]
      by_cases hjk : j = k
      · subst hjk
        rw [if_pos List.mem_cons_self]
        exact Function.update_self ..
      · rw [if_neg (by simp [hjk,hj])]
        exact Function.update_of_ne hjk ..

/-- What a step does to the vectors, and to the indices of its batch. -/
structure Effect (pageCount : ℕ) (J : Job) (s : State) (e : Event) (t : State) : Prop where
  prepared : preparedOf J s e t = (batchOf J s e t).flatMap indices
  posted : postedOf J s e t = (batchOf J s e t).flatMap indices
  requests : t.requests =
    fun j => if j ∈ preparedOf J s e t then encoded pageCount j else s.requests j
  responses : ∀ j ∉ filledOf J s e t, t.responses j = s.responses j

theorem effect_of_step {e : Event} (h : step pageCount J s e = .ok t) :
    Effect pageCount J s e t := by
  cases e with
  | batch =>
    obtain ⟨-,-,rfl⟩ := step_batch h
    obtain ⟨hresponses,hreceives,-⟩ := sendRequests_frame pageCount s s.i (batchEnd J s.i)
    obtain ⟨hsends,hrequests⟩ :=
      foldl_sendRequest pageCount (List.range' s.i (batchEnd J s.i - s.i)) s
    have hprepared : preparedOf J s .batch { postReceives (sendRequests pageCount s s.i
        (batchEnd J s.i)) s.i (batchEnd J s.i) with phase := .waiting, j := 0 } =
        List.range' s.i (batchEnd J s.i - s.i) := by
      simp [preparedOf,postReceives,sendRequests,hsends]
    constructor
    · simp [hprepared,batchOf,indices]
    · simp [postedOf,postReceives,hreceives,batchOf,indices]
    · rw [hprepared]
      exact hrequests
    · intro j _
      exact congrFun hresponses j
  | reap =>
    obtain ⟨c,rest,-,-,-,rfl⟩ := step_reap h
    unfold consume
    dsimp only
    split
    · exact ⟨rfl,rfl,by simp [preparedOf],fun _ _ => rfl⟩
    · exact ⟨rfl,rfl,by simp [preparedOf],fun _ _ => rfl⟩
  | next =>
    obtain ⟨-,-,rfl⟩ := step_next h
    exact ⟨rfl,rfl,by simp [preparedOf,testBatch],fun _ _ => rfl⟩
  | send res =>
    obtain ⟨j,rest,-,-,rfl⟩ := step_send h
    exact ⟨rfl,rfl,by simp [preparedOf],fun _ _ => rfl⟩
  | postSend i =>
    obtain ⟨res,-,-,rfl⟩ := step_postSend h
    exact ⟨rfl,rfl,by simp [preparedOf],fun _ _ => rfl⟩
  | receive r =>
    obtain ⟨k,rest,res,-,hk,-,-,rfl⟩ := step_receive h
    refine ⟨rfl,rfl,by simp [preparedOf],?_⟩
    intro j hj
    have hne : j ≠ k := by simpa [filledOf,hk] using hj
    exact Function.update_of_ne hne ..
  | postReceive i =>
    obtain ⟨res,-,-,rfl⟩ := step_postReceive h
    exact ⟨rfl,rfl,by simp [preparedOf],fun _ _ => rfl⟩

/-- The batches of a thread reach from the start of its range to the end of the last
one, and the slots written to are the first of them. -/
structure Covered (J : Job) (s : State) (batches : List (ℕ × ℕ)) (filled : List ℕ)
    (posted count : ℕ) : Prop where
  batching : Batching J s posted count
  posted_le : posted ≤ J.stop
  batches_eq : batches.flatMap indices = List.range' J.start (posted - J.start)
  size : ∀ b ∈ batches, b.1 < b.2 ∧ b.2 ≤ b.1 + 64
  filled_eq : filled = List.range' J.start count

variable {batches : List (ℕ × ℕ)} {filled : List ℕ}

theorem Covered.start (stream : List UInt8) : Covered J (start J stream) [] [] J.start 0 :=
  ⟨Batching.start stream,J.start_le,by simp,by simp,rfl⟩

theorem Covered.batch (h : Covered J s batches filled posted count)
    (hstep : step pageCount J s .batch = .ok t) :
    Covered J t (batches ++ [(s.i,batchEnd J s.i)]) filled (batchEnd J s.i) count := by
  have hbt : Batching J t (batchEnd J s.i) count := h.batching.step hstep
  obtain ⟨hp,-,-⟩ := step_batch hstep
  obtain ⟨rfl,hlt,-⟩ := h.batching.sending hp
  obtain ⟨hless,hsize⟩ := batchEnd_le hlt
  have hend := batchEnd_eq hlt
  refine ⟨hbt,by omega,?_,?_,h.filled_eq⟩
  · rw [List.flatMap_append,h.batches_eq,List.flatMap_singleton]
    exact Tiling.range'_join h.batching.start_le hless.le
  · intro b hb
    rcases List.mem_append.mp hb with hb | hb
    · exact h.size b hb
    · rw [List.mem_singleton.mp hb]
      exact ⟨hless,hsize⟩

theorem Covered.keep (h : Covered J s batches filled posted count)
    (hb : Batching J t posted count) : Covered J t (batches ++ []) (filled ++ []) posted count := by
  rw [List.append_nil,List.append_nil]
  exact ⟨hb,h.posted_le,h.batches_eq,h.size,h.filled_eq⟩

theorem Covered.step (h : Covered J s batches filled posted count) {e : Event}
    (hstep : step pageCount J s e = .ok t) :
    Covered J t (batches ++ batchOf J s e t) (filled ++ filledOf J s e t)
      (postedAfter J s posted e) (count + (taken [e]).length) := by
  have hbt := h.batching.step hstep
  cases e with
  | batch =>
    have hnone : filledOf J s .batch t = [] := rfl
    rw [hnone,List.append_nil]
    exact h.batch hstep
  | receive r =>
    obtain ⟨k,rest,res,-,hk,-,-,rfl⟩ := step_receive hstep
    obtain ⟨rfl,-⟩ := h.batching.receive hk res s.responses s.stream
    have hlast := @List.range'_append_1 J.start count 1
    refine ⟨hbt,h.posted_le,?_,?_,?_⟩
    · simpa [batchOf,postedAfter] using h.batches_eq
    · simpa [batchOf] using h.size
    · simp only [filledOf,hk,h.filled_eq]
      exact hlast
  | reap => exact h.keep hbt
  | next => exact h.keep hbt
  | send res => exact h.keep hbt
  | postSend i => exact h.keep hbt
  | postReceive i => exact h.keep hbt

/-- A finished thread has covered its range. -/
theorem Covered.done (h : Covered J s batches filled posted count) (hp : s.phase = .done) :
    posted = J.stop ∧ J.start + count = J.stop := by
  obtain ⟨hposted,hzero⟩ := h.batching.done hp
  have hle := h.batching.count_le
  have hlen := congrArg List.length h.batching.receives
  rw [List.length_range'] at hlen
  unfold unreaped at hzero
  exact ⟨hposted,by omega⟩

end Effects

namespace Threads

/-- What `main` has read from the configuration. -/
structure Setup where
  numRequests : ℕ
  clientThreads : ℕ
  pageCount : ℕ
  clientThreads_pos : 1 ≤ clientThreads
  numRequests_lt : numRequests + batchSize < sizeMod

variable {W : Setup}

/-- The range `main` gives to thread `i`: equal parts, the last one with the rest. -/
def job (W : Setup) (i : Fin W.clientThreads) : Job where
  start := i * (W.numRequests / W.clientThreads)
  stop := if (i : ℕ) = W.clientThreads - 1 then W.numRequests
    else (i + 1) * (W.numRequests / W.clientThreads)
  start_le := by
    rw [← Tiling.edge_start i.isLt,← Tiling.edge_stop i.isLt]
    exact Tiling.edge_mono _ _ (Nat.le_succ _)
  stop_lt := by
    rw [← Tiling.edge_stop i.isLt]
    have hle := Tiling.edge_le W.numRequests W.clientThreads (i + 1)
    have hlt := W.numRequests_lt
    omega

/-- The threads with what is theirs, and the two vectors. -/
structure State (W : Setup) where
  threads : Fin W.clientThreads → ClientIou.State
  requests : ℕ → GetPageRequest
  responses : ℕ → List UInt8

/-- A thread with the vectors it refers to. -/
def State.thread (s : State W) (i : Fin W.clientThreads) : ClientIou.State :=
  { s.threads i with requests := s.requests, responses := s.responses }

/-- One thread or its kernel takes a step. -/
def step (W : Setup) (s : State W) (e : Fin W.clientThreads × Event) : Except Stop (State W) :=
  (ClientIou.step W.pageCount (job W e.1) (s.thread e.1) e.2).map (fun t =>
    { threads := Function.update s.threads e.1 t
      requests := t.requests
      responses := t.responses })

/-- All threads started, each with what its server will send. -/
def start (W : Setup) (streams : Fin W.clientThreads → List UInt8) : State W where
  threads := fun i => ClientIou.start (job W i) (streams i)
  requests := fun _ => ⟨0,0⟩
  responses := fun _ => GetPageResponse.zero.bytes

section Logs
variable {O : Type} (W : Setup) (streams : Fin W.clientThreads → List UInt8)
  (es : List (Fin W.clientThreads × Event)) (i : Fin W.clientThreads)

/-- What the steps of one thread put out in a run of all. -/
def log (out : Job → ClientIou.State → Event → ClientIou.State → List O) : List O :=
  outputs (step W) (fun s e t =>
    if e.1 = i then out (job W i) (s.thread i) e.2 (t.threads i) else []) (start W streams) es

def batches : List (ℕ × ℕ) := log W streams es i batchOf

def prepared : List ℕ := log W streams es i preparedOf

def posted : List ℕ := log W streams es i postedOf

def filled : List ℕ := log W streams es i filledOf

end Logs

variable {streams : Fin W.clientThreads → List UInt8} {s t : State W}
  {es : List (Fin W.clientThreads × Event)}

theorem step_ok {e : Fin W.clientThreads × Event} (h : step W s e = .ok t) :
    ∃ u, ClientIou.step W.pageCount (job W e.1) (s.thread e.1) e.2 = .ok u ∧
      t = { threads := Function.update s.threads e.1 u
            requests := u.requests
            responses := u.responses } := by
  obtain ⟨u,hu,rfl⟩ := map_ok.mp h
  exact ⟨u,hu,rfl⟩

/-- A step adds to the log of its own thread. -/
theorem log_concat {O : Type} (out : Job → ClientIou.State → Event → ClientIou.State → List O)
    {i : Fin W.clientThreads} {e : Event} {u : ClientIou.State}
    (hs : execute (step W) (start W streams) es = .ok s)
    (hu : ClientIou.step W.pageCount (job W i) (s.thread i) e = .ok u) (k : Fin W.clientThreads) :
    log W streams (es ++ [(i,e)]) k out = log W streams es k out ++
      if i = k then out (job W k) (s.thread k) e u else [] := by
  have hstep : step W s (i,e) = .ok { threads := Function.update s.threads i u
                                      requests := u.requests
                                      responses := u.responses } := map_ok.mpr ⟨u,hu,rfl⟩
  refine (outputs_concat hs hstep).trans ?_
  by_cases hik : i = k
  · subst hik
    simp only [if_true,Function.update_self]
    rfl
  · simp only [if_neg hik]
    rfl

/-- A log that goes through the batches goes through the batch of the next step too,
if the step does. -/
theorem log_batches {out : Job → ClientIou.State → Event → ClientIou.State → List ℕ}
    {i k : Fin W.clientThreads} {e : Event} {u : ClientIou.State}
    (hs : execute (step W) (start W streams) es = .ok s)
    (hu : ClientIou.step W.pageCount (job W i) (s.thread i) e = .ok u)
    (hout : out (job W i) (s.thread i) e u = (batchOf (job W i) (s.thread i) e u).flatMap indices)
    (hlog : log W streams es k out = (batches W streams es k).flatMap indices) :
    log W streams (es ++ [(i,e)]) k out =
      (batches W streams (es ++ [(i,e)]) k).flatMap indices := by
  rw [batches,log_concat out hs hu,log_concat batchOf hs hu,List.flatMap_append,hlog]
  by_cases hik : i = k
  · subst hik
    rw [if_pos rfl,if_pos rfl,hout]
    rfl
  · rw [if_neg hik,if_neg hik,List.flatMap_nil]
    rfl

/-- What has happened to the batches and to the vectors. -/
structure Inv (streams : Fin W.clientThreads → List UInt8)
    (es : List (Fin W.clientThreads × Event)) (s : State W) : Prop where
  covered : ∀ i, ∃ posted count, Covered (job W i) (s.threads i) (batches W streams es i)
    (filled W streams es i) posted count
  prepared : ∀ i, prepared W streams es i = (batches W streams es i).flatMap indices
  posted : ∀ i, posted W streams es i = (batches W streams es i).flatMap indices
  requests : ∀ i, ∀ j ∈ Threads.prepared W streams es i, s.requests j = encoded W.pageCount j
  unprepared : ∀ j, (∀ i, j ∉ Threads.prepared W streams es i) → s.requests j = ⟨0,0⟩
  unfilled : ∀ j, (∀ i, j ∉ filled W streams es i) → s.responses j = GetPageResponse.zero.bytes

theorem Inv.start (streams : Fin W.clientThreads → List UInt8) :
    Inv streams [] (start W streams) where
  covered i := ⟨_,_,Covered.start (streams i)⟩
  prepared _ := rfl
  posted _ := rfl
  requests _ _ hj := (List.not_mem_nil hj).elim
  unprepared _ _ := rfl
  unfilled _ _ := rfl

section Step
variable {i : Fin W.clientThreads} {e : Event} {u : ClientIou.State}

/-- The other threads are as before, and the one that moves does as it would alone. -/
theorem Inv.covered_step (hi : Inv streams es s)
    (hs : execute (step W) (Threads.start W streams) es = .ok s)
    (hu : ClientIou.step W.pageCount (job W i) (s.thread i) e = .ok u) (k : Fin W.clientThreads) :
    ∃ posted count, Covered (job W k) (Function.update s.threads i u k)
      (batches W streams (es ++ [(i,e)]) k) (filled W streams (es ++ [(i,e)]) k) posted count := by
  obtain ⟨posted,count,hk⟩ := hi.covered k
  rw [batches,filled,log_concat batchOf hs hu k,log_concat filledOf hs hu k]
  by_cases hik : i = k
  · subst hik
    have hthread : Covered (job W i) (s.thread i) (batches W streams es i)
        (filled W streams es i) posted count :=
      ⟨hk.batching.congr rfl rfl rfl rfl id,hk.posted_le,hk.batches_eq,hk.size,hk.filled_eq⟩
    rw [Function.update_self,if_pos rfl,if_pos rfl]
    exact ⟨_,_,hthread.step hu⟩
  · rw [Function.update_of_ne (Ne.symm hik),if_neg hik,if_neg hik]
    exact ⟨_,_,hk.keep hk.batching⟩

theorem Inv.step (hi : Inv streams es s)
    (hs : execute (step W) (Threads.start W streams) es = .ok s)
    (ht : Threads.step W s (i,e) = .ok t) : Inv streams (es ++ [(i,e)]) t := by
  obtain ⟨u,hu,rfl⟩ := step_ok ht
  have heffect := effect_of_step hu
  have hprepared (k : Fin W.clientThreads) : Threads.prepared W streams (es ++ [(i,e)]) k =
      Threads.prepared W streams es k ++
        if i = k then preparedOf (job W k) (s.thread k) e u else [] :=
    log_concat preparedOf hs hu k
  have hfilled (k : Fin W.clientThreads) : filled W streams (es ++ [(i,e)]) k =
      filled W streams es k ++ if i = k then filledOf (job W k) (s.thread k) e u else [] :=
    log_concat filledOf hs hu k
  have hrequests (j : ℕ) : u.requests j =
      if j ∈ preparedOf (job W i) (s.thread i) e u then encoded W.pageCount j
      else s.requests j := congrFun heffect.requests j
  constructor
  · exact hi.covered_step hs hu
  · intro k
    exact log_batches hs hu heffect.prepared (hi.prepared k)
  · intro k
    exact log_batches hs hu heffect.posted (hi.posted k)
  · intro k j hj
    change u.requests j = _
    rw [hrequests]
    by_cases hnew : j ∈ preparedOf (job W i) (s.thread i) e u
    · rw [if_pos hnew]
    · rw [if_neg hnew]
      rw [hprepared,List.mem_append] at hj
      rcases hj with hj | hj
      · exact hi.requests k j hj
      · by_cases hik : i = k
        · subst hik
          rw [if_pos rfl] at hj
          exact (hnew hj).elim
        · rw [if_neg hik] at hj
          exact (List.not_mem_nil hj).elim
  · intro j hj
    change u.requests j = _
    simp only [hprepared,List.mem_append,not_or] at hj
    have hnew := (hj i).2
    rw [if_pos rfl] at hnew
    rw [hrequests,if_neg hnew]
    exact hi.unprepared j (fun k => (hj k).1)
  · intro j hj
    simp only [hfilled,List.mem_append,not_or] at hj
    have hnew := (hj i).2
    rw [if_pos rfl] at hnew
    exact (heffect.responses j hnew).trans (hi.unfilled j (fun k => (hj k).1))

end Step

theorem inv_of_run (h : execute (step W) (Threads.start W streams) es = .ok s) :
    Inv streams es s := by
  refine execute_induction (P := fun es s => Inv streams es s) (Inv.start streams) ?_ h
  rintro es s ⟨i,e⟩ t hs hi ht
  exact hi.step hs ht

/-- The ranges of the threads, one after the other. -/
theorem flatMap_job (W : Setup) : (List.finRange W.clientThreads).flatMap (fun i =>
    List.range' (job W i).start ((job W i).stop - (job W i).start)) =
      List.range W.numRequests := by
  rw [← Tiling.flatMap_parts W.numRequests W.clientThreads_pos,← List.map_coe_finRange_eq_range,
    List.flatMap_map]
  apply List.flatMap_congr
  intro i _
  rw [Tiling.edge_start i.isLt,Tiling.edge_stop i.isLt]
  rfl

theorem bytes_encoded {pageCount : ℕ} (h : pageCount ≤ 4294967296) (h0 : 0 < pageCount) (j : ℕ) :
    (encoded pageCount j).bytes =
      Bytes.beBytes 4 (j % 4294967296) ++ Bytes.beBytes 4 (j % pageCount) := by
  have hmod := Nat.mod_lt j h0
  have hpage : j % pageCount % 4294967296 = j % pageCount := Nat.mod_eq_of_lt (by omega)
  simp only [encoded,GetPageRequest.toNetworkOrder,GetPageRequest.bytes,u32Bytes_htonl,
    UInt32.toNat_ofNat']
  rw [show 2 ^ 32 = 4294967296 from rfl,hpage]

theorem Inv.prepared_eq (hi : Inv streams es s) (i : Fin W.clientThreads) :
    ∃ n, n ≤ (job W i).stop - (job W i).start ∧
      Threads.prepared W streams es i = List.range' (job W i).start n ∧
      ((s.threads i).phase = .done → n = (job W i).stop - (job W i).start) := by
  obtain ⟨posted,count,hc⟩ := hi.covered i
  refine ⟨posted - (job W i).start,Nat.sub_le_sub_right hc.posted_le _,?_,?_⟩
  · rw [hi.prepared,hc.batches_eq]
  · intro hp
    rw [(hc.done hp).1]

theorem Inv.filled_eq (hi : Inv streams es s) (i : Fin W.clientThreads) :
    ∃ n, n ≤ (job W i).stop - (job W i).start ∧
      filled W streams es i = List.range' (job W i).start n ∧
      ((s.threads i).phase = .done → n = (job W i).stop - (job W i).start) := by
  obtain ⟨posted,count,hc⟩ := hi.covered i
  have hle := hc.batching.count_le
  have hstop := hc.posted_le
  refine ⟨count,by omega,hc.filled_eq,?_⟩
  intro hp
  obtain ⟨-,hcount⟩ := hc.done hp
  omega

/-- Threads that go through their ranges in order go through all indices in order: some
are left out, none is past the vectors, and none is left out once all threads are done. -/
theorem flatMap_progress {f : Fin W.clientThreads → List ℕ}
    (hf : ∀ i, ∃ n, n ≤ (job W i).stop - (job W i).start ∧
      f i = List.range' (job W i).start n ∧
      ((s.threads i).phase = .done → n = (job W i).stop - (job W i).start)) :
    ((List.finRange W.clientThreads).flatMap f).Sublist (List.range W.numRequests) ∧
      (∀ j, W.numRequests ≤ j → ∀ i, j ∉ f i) ∧
      ((∀ i, (s.threads i).phase = .done) →
        (List.finRange W.clientThreads).flatMap f = List.range W.numRequests) := by
  have hsub : ((List.finRange W.clientThreads).flatMap f).Sublist (List.range W.numRequests) := by
    rw [← flatMap_job W]
    apply List.Sublist.flatMap_right
    intro i _
    obtain ⟨n,hn,heq,-⟩ := hf i
    rw [heq]
    exact List.range'_sublist_right.mpr hn
  refine ⟨hsub,?_,?_⟩
  · intro j hj i hmem
    have hall := hsub.subset (List.mem_flatMap.mpr ⟨i,List.mem_finRange i,hmem⟩)
    exact absurd (List.mem_range.mp hall) (by omega)
  · intro hdone
    rw [← flatMap_job W]
    apply List.flatMap_congr
    intro i _
    obtain ⟨n,-,heq,hn⟩ := hf i
    rw [heq,hn (hdone i)]

/-- In every interleaving no index is prepared, asked for or received twice, by one
thread or two, and nothing past the vectors is touched; when all threads are done each
index has been in one batch, prepared once and received once. -/
theorem covers_exactly_once (W : Setup) (hpages : 1 ≤ W.pageCount ∧ W.pageCount ≤ 4294967296)
    (streams : Fin W.clientThreads → List UInt8) (es : List (Fin W.clientThreads × Event))
    (s : State W) (h : execute (step W) (start W streams) es = .ok s) :
    ((∀ i, (∀ b ∈ batches W streams es i, b.1 < b.2 ∧ b.2 ≤ b.1 + 64) ∧
        prepared W streams es i = (batches W streams es i).flatMap indices ∧
        posted W streams es i = (batches W streams es i).flatMap indices) ∧
      ((List.finRange W.clientThreads).flatMap (prepared W streams es)).Sublist
        (List.range W.numRequests) ∧
      ((List.finRange W.clientThreads).flatMap (filled W streams es)).Sublist
        (List.range W.numRequests) ∧
      (∀ i, ∀ j ∈ prepared W streams es i, (s.requests j).bytes =
        Bytes.beBytes 4 (j % 4294967296) ++ Bytes.beBytes 4 (j % W.pageCount)) ∧
      ∀ j, W.numRequests ≤ j →
        s.requests j = ⟨0,0⟩ ∧ s.responses j = GetPageResponse.zero.bytes) ∧
    ((∀ i, (s.threads i).phase = .done) →
      (List.finRange W.clientThreads).flatMap (fun i =>
        (batches W streams es i).flatMap indices) = List.range W.numRequests ∧
      (List.finRange W.clientThreads).flatMap (prepared W streams es) =
        List.range W.numRequests ∧
      (List.finRange W.clientThreads).flatMap (posted W streams es) = List.range W.numRequests ∧
      (List.finRange W.clientThreads).flatMap (filled W streams es) = List.range W.numRequests ∧
      ∀ j < W.numRequests, (s.requests j).bytes =
        Bytes.beBytes 4 (j % 4294967296) ++ Bytes.beBytes 4 (j % W.pageCount)) := by
  have hi := inv_of_run h
  have hbytes : ∀ i, ∀ j ∈ prepared W streams es i, (s.requests j).bytes =
      Bytes.beBytes 4 (j % 4294967296) ++ Bytes.beBytes 4 (j % W.pageCount) := by
    intro i j hj
    rw [hi.requests i j hj,bytes_encoded hpages.2 hpages.1]
  obtain ⟨hprepared,hunprepared,hwhole⟩ := flatMap_progress hi.prepared_eq
  obtain ⟨hfilled,hunfilled,hslots⟩ := flatMap_progress hi.filled_eq
  refine ⟨⟨?_,hprepared,hfilled,hbytes,?_⟩,?_⟩
  · intro i
    obtain ⟨_,_,hc⟩ := hi.covered i
    exact ⟨hc.size,hi.prepared i,hi.posted i⟩
  · intro j hj
    exact ⟨hi.unprepared j (hunprepared j hj),hi.unfilled j (hunfilled j hj)⟩
  · intro hdone
    have hall := hwhole hdone
    have hbatches : (List.finRange W.clientThreads).flatMap (fun i =>
        (batches W streams es i).flatMap indices) = List.range W.numRequests := by
      rw [← hall]
      exact List.flatMap_congr fun i _ => (hi.prepared i).symm
    have hposted : (List.finRange W.clientThreads).flatMap (posted W streams es) =
        List.range W.numRequests := by
      rw [← hbatches]
      exact List.flatMap_congr fun i _ => hi.posted i
    refine ⟨hbatches,hall,hposted,hslots hdone,?_⟩
    intro j hj
    have hmem : j ∈ (List.finRange W.clientThreads).flatMap (prepared W streams es) := by
      rw [hall]
      exact List.mem_range.mpr hj
    obtain ⟨i,-,hji⟩ := List.mem_flatMap.mp hmem
    exact hbytes i j hji

/-- Three requests for two threads; the second one has the rest. -/
def threeRequests : Setup := ⟨3,2,2,by decide,by decide⟩

/-- A thread with `k` requests that gets its responses in whole frames. -/
def wholeFrames (i : Fin 2) (k : ℕ) : List (Fin 2 × Event) :=
  (List.replicate k (i,.receive (.bytes (frames 42 1 [⟨0,0⟩]).flatten))) ++
    List.replicate k (i,.postReceive 0) ++ List.replicate k (i,.reap) ++ [(i,.next)]

theorem covers_exactly_once_interleaved : ∃ s,
    execute (step threeRequests) (start threeRequests
      (fun _ => (frames 42 1 [⟨0,0⟩,⟨0,0⟩]).flatten))
        ([(1,.batch),(0,.batch)] ++ wholeFrames 1 2 ++ wholeFrames 0 1) = .ok s ∧
      (s.requests 2).bytes = [0,0,0,2,0,0,0,0] := by
  have hrun : yields (execute (step threeRequests) (start threeRequests
      (fun _ => (frames 42 1 [⟨0,0⟩,⟨0,0⟩]).flatten))
        ([(1,.batch),(0,.batch)] ++ wholeFrames 1 2 ++ wholeFrames 0 1))
      (fun s => decide (∀ i : Fin 2, (s.threads i).phase = .done)) = true := by decide +kernel
  obtain ⟨s,hs,htest⟩ := exists_of_yields hrun
  have hdone := (covers_exactly_once threeRequests (by decide) _ _ s hs).2 (of_decide_eq_true htest)
  refine ⟨s,hs,(hdone.2.2.2.2 2 (by decide)).trans ?_⟩
  decide +kernel

end Threads

end FastNet.GetPage.ClientIou
