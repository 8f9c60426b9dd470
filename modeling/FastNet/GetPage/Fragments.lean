import FastNet.GetPage.ServerIouTiming
import Mathlib.Data.List.TakeWhile

/-! # Both page servers on a stream of requests

However a stream of encoded requests is cut into reads, the blocking server answers
the requests of the leading whole reads and closes the connection at the first
other one. The io_uring server answers each request of a stream that its reads
deliver in whole requests.
-/
namespace FastNet.GetPage
open Execution

def ReadResult.isWhole : ReadResult → Bool
  | .bytes bs => bs.length = sizeofRequest
  | .failed => false

/-- The bytes a client sends for a list of requests. -/
def requestStream (qs : List GetPageRequest) : List UInt8 :=
  (qs.map (fun q => q.toNetworkOrder.bytes)).flatten

/-- The whole reads before the first that is not whole. -/
def wholeReads (rs : List ReadResult) : ℕ := (rs.takeWhile ReadResult.isWhole).length

variable {memoryBlock : MemoryBlock} {pageCount : ℕ} {qs : List GetPageRequest}
  {rs : List ReadResult}

/-- The leading whole reads of a stream hold its first requests. -/
theorem leadingRequests_of_stream (h : (rs.map ReadResult.content).flatten <+: requestStream qs) :
    Server.leadingRequests rs = qs.take (wholeReads rs) := by
  induction rs generalizing qs with
  | nil => rfl
  | cons r rs ih =>
    by_cases hr : r.isWhole = true
    · cases r with
      | failed => cases hr
      | bytes bs =>
        have hbs : bs.length = sizeofRequest := by simpa [ReadResult.isWhole] using hr
        rw [List.map_cons,List.flatten_cons,ReadResult.content] at h
        cases qs with
        | nil =>
          have hle := h.length_le
          simp [requestStream,hbs,sizeofRequest] at hle
        | cons q qs =>
          have hstream : requestStream (q :: qs) = q.toNetworkOrder.bytes ++ requestStream qs := rfl
          rw [hstream] at h
          have hlen : bs.length = q.toNetworkOrder.bytes.length := by
            rw [hbs,GetPageRequest.length_bytes]
          have hq : bs = q.toNetworkOrder.bytes := by
            have hpre := List.prefix_of_prefix_length_le ((List.prefix_append bs _).trans h)
              (List.prefix_append _ (requestStream qs)) hlen.le
            exact hpre.eq_of_length hlen
          rw [hq] at h
          have hrest := (List.prefix_append_right_inj _).mp h
          have hwhole : Server.wholeRequest (.bytes bs) = some q := by
            rw [Server.wholeRequest,if_pos hbs,hq]
            simp
          have hcount : wholeReads (.bytes bs :: rs) = wholeReads rs + 1 := by
            simp [wholeReads,hr]
          rw [Server.leadingRequests,hwhole,hcount,List.take_succ_cons]
          exact congrArg (q :: ·) (ih hrest)
    · have hcount : wholeReads (r :: rs) = 0 := by simp [wholeReads,hr]
      have hnone : Server.wholeRequest r = none := by
        cases r with
        | failed => rfl
        | bytes bs =>
          have hbs : ¬ bs.length = sizeofRequest := by simpa [ReadResult.isWhole] using hr
          simp [Server.wholeRequest,hbs]
      rw [Server.leadingRequests,hnone,hcount,List.take_zero]

theorem length_leadingRequests (rs : List ReadResult) :
    (Server.leadingRequests rs).length = wholeReads rs := by
  induction rs with
  | nil => rfl
  | cons r rs ih =>
    cases r with
    | failed => rfl
    | bytes bs =>
      by_cases hbs : bs.length = sizeofRequest
      · simpa [Server.leadingRequests,Server.wholeRequest,wholeReads,ReadResult.isWhole,hbs]
          using ih
      · simp [Server.leadingRequests,Server.wholeRequest,wholeReads,ReadResult.isWhole,hbs]

theorem handleClient_of_stream (h : (rs.map ReadResult.content).flatten <+: requestStream qs) :
    (Server.handleClient memoryBlock pageCount rs).written =
        (qs.take (wholeReads rs)).map (Server.respond memoryBlock pageCount) ∧
      ((Server.handleClient memoryBlock pageCount rs).closed = true ↔
        wholeReads rs < rs.length) := by
  rw [Server.handleClient_eq]
  refine ⟨congrArg _ (leadingRequests_of_stream h),?_⟩
  simp [length_leadingRequests]

section Loop
open ServerIou
variable {malloc : ℕ → List UInt8} {response : GetPageResponse} {iov : IoVec × IoVec}
  {es : List Event} {s : State}

theorem eventLoop_of_stream
    (h : execute (step memoryBlock pageCount malloc) (start malloc response iov) es = .ok s)
    (hw : WholeReads es)
    (hstream : ((received es).map ReadResult.content).flatten <+: requestStream qs) :
    s.headers = (qs.take s.headers.length).map
        (fun q => Server.responseHeader (Server.statusOf pageCount q) q) ∧
      s.headers.length + s.arrivals.length = (received es).length ∧
      s.executed + s.writes.length = s.headers.length := by
  obtain ⟨waiting,hsplit,hwait⟩ := reading_of_run h hw
  obtain ⟨ws,hlog,-⟩ := log_of_run h
  have hlead := leadingRequests_of_stream hstream
  have hcount : wholeReads (received es) = (received es).length := by
    rw [wholeReads,List.takeWhile_eq_self_iff.mpr]
    intro r hr
    obtain ⟨bs,rfl,hbs⟩ := hw r hr
    simp [ReadResult.isWhole,hbs]
  have hlen := congrArg List.length hsplit
  rw [length_leadingRequests,hcount,List.length_append] at hlen
  have hheaders : s.headers.length = s.requests.length := by rw [hlog.headers,List.length_map]
  have hwrites := congrArg List.length hlog.writes
  rw [List.length_map,List.length_drop] at hwrites
  have hle := hlog.executed_le
  have harr := hwait.length_eq
  refine ⟨?_,by omega,by omega⟩
  have hreq : s.requests = qs.take s.requests.length := by
    have htake : (s.requests ++ waiting).take s.requests.length = s.requests :=
      List.take_left
    rw [← hsplit,hlead,List.take_take,hcount,min_eq_left (by omega)] at htake
    exact htake.symm
  rw [hheaders,← hreq]
  exact hlog.headers

end Loop

/-- The blocking server answers just the leading whole requests, and closes at the
first read that is not one. The io_uring server answers in order what arrives in
whole requests. An answer repeats the identifier and the page of its request. -/
theorem answers_whole_requests (memoryBlock : MemoryBlock) (pageCount : ℕ)
    (qs : List GetPageRequest) :
    (∀ rs : List ReadResult, (rs.map ReadResult.content).flatten <+: requestStream qs →
      (Server.handleClient memoryBlock pageCount rs).written =
          (qs.take (wholeReads rs)).map (Server.respond memoryBlock pageCount) ∧
        ((Server.handleClient memoryBlock pageCount rs).closed = true ↔
          wholeReads rs < rs.length)) ∧
    (∀ malloc response iov es s,
      execute (ServerIou.step memoryBlock pageCount malloc)
        (ServerIou.start malloc response iov) es = .ok s →
      ServerIou.WholeReads es →
      ((ServerIou.received es).map ReadResult.content).flatten <+: requestStream qs →
      s.headers = (qs.take s.headers.length).map
          (fun q => Server.responseHeader (Server.statusOf pageCount q) q) ∧
        s.headers.length + s.arrivals.length = (ServerIou.received es).length ∧
        s.executed + s.writes.length = s.headers.length) ∧
    ∀ q, (Server.responseHeader (Server.statusOf pageCount q) q).bytes <+:
        Server.respond memoryBlock pageCount q ∧
      (Server.responseHeader (Server.statusOf pageCount q) q).toHostOrder =
        ⟨q.requestId,Server.statusOf pageCount q,q.pageNumber⟩ :=
  ⟨fun _ h => handleClient_of_stream h,fun _ _ _ _ _ h hw hs => eventLoop_of_stream h hw hs,
    fun q => ⟨Server.header_prefix_respond memoryBlock pageCount q,
      GetPageResponseHeader.toHostOrder_toNetworkOrder _⟩⟩

/-- One request in two pieces after a whole one. -/
def cutReads : List ReadResult :=
  [.bytes [0,0,0,7,0,0,0,1],.bytes [0,0,0,8],.bytes [0,0,0,0]]

/-- The first of the two requests, read, handled and answered by the other server. -/
def firstRequest : List ServerIou.Event :=
  [.read (.bytes [0,0,0,7,0,0,0,1]),.postRead,.serve,.write]

theorem answers_whole_requests_cut :
    (Server.handleClient ServerIou.smallBlock 2 cutReads).written =
      [Server.respond ServerIou.smallBlock 2 ⟨7,1⟩] ∧
    ∃ s, ServerIou.smallRun firstRequest = .ok s ∧
      s.headers = [Server.responseHeader statusSuccess ⟨7,1⟩] := by
  have hstream : (cutReads.map ReadResult.content).flatten <+: requestStream [⟨7,1⟩,⟨8,0⟩] := by
    decide +kernel
  obtain ⟨hblocking,hring,-⟩ := answers_whole_requests ServerIou.smallBlock 2 [⟨7,1⟩,⟨8,0⟩]
  refine ⟨(hblocking cutReads hstream).1,?_⟩
  have hrun : yields (ServerIou.smallRun firstRequest) (fun s => s.headers.length = 1) = true := by
    decide +kernel
  obtain ⟨s,hs,hlen⟩ := exists_of_yields hrun
  have hwhole : ServerIou.WholeReads firstRequest := by
    simp [ServerIou.WholeReads,ServerIou.received,firstRequest,sizeofRequest]
  have hfirst : ((ServerIou.received firstRequest).map ReadResult.content).flatten <+:
      requestStream [⟨7,1⟩,⟨8,0⟩] := by decide +kernel
  obtain ⟨hheaders,-,-⟩ := hring _ _ _ _ s hs hwhole hfirst
  rw [of_decide_eq_true hlen] at hheaders
  exact ⟨s,hs,hheaders⟩

/-- The stream of two requests is delivered in full, and only one is answered. -/
theorem cut_request_unanswered :
    (cutReads.map ReadResult.content).flatten = requestStream [⟨7,1⟩,⟨8,0⟩] ∧
      (∀ r ∈ cutReads, r.content ≠ []) ∧
      (Server.handleClient ServerIou.smallBlock 2 cutReads).written.length = 1 ∧
      (Server.handleClient ServerIou.smallBlock 2 cutReads).closed = true := by
  decide +kernel

end FastNet.GetPage
