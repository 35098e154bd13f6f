import Zhtps.Config
import Zhtps.Http.ResponseHead
import Zhtps.Worker.Step

/-!
Error responses end.  `startResponse` gives up for want of a buffer by rejecting the request, which
starts another response.  That one is short enough for the slot's own output buffer and has no stream,
so that it needs no lease and the recursion goes round once.
-/

namespace Zhtps

open Response

/-! ### The size of a built-in response -/

namespace Response

theorem length_digits_short {n : Nat} (h : n < 100) : (digits 10 n).length ≤ 2 := by
  by_cases hlt : n < 10
  · rw [digits_of_lt hlt, List.length_singleton]
    omega
  · rw [digits_of_le (by omega) (by omega), digits_of_lt (by omega)]
    exact Nat.le_refl 2

theorem length_errorBody (status : Nat) : (errorBody status).length ≤ 81 := by
  unfold errorBody
  split
  all_goals first
    | (rw [ascii_ofList]; decide)
    | exact Nat.zero_le _

theorem length_reason (status : Nat) : (reason status).length ≤ 31 := by
  unfold reason
  split
  all_goals first
    | (rw [ascii_ofList]; decide)
    | exact Nat.zero_le _

theorem length_statusLine {version : Version} {status : Nat} (h : 100 ≤ status) (hle : status ≤ 599) :
    (statusLine version status).length ≤ 52 := by
  have hreason := length_reason status
  have hdigits := length_digits_status h hle
  have htexts : (ascii "HTTP/1.").length = 7 ∧ (ascii " ").length = 1 ∧
      (ascii "\r\nDate: ").length = 8 := by decide
  unfold statusLine
  split_ifs
  · decide
  · decide
  · have hversion : (digits 10 0).length = 1 := by decide
    simp only [List.length_append, hversion, hdigits, htexts]
    omega
  · have hversion : (digits 10 1).length = 1 := by decide
    simp only [List.length_append, hversion, hdigits, htexts]
    omega

theorem length_connectionLine (version : Version) (status : Nat) (closing : Bool) :
    (connectionLine version status closing).length ≤ 24 := by
  unfold connectionLine
  split_ifs <;> decide

end Response

namespace Worker

/-- `small_capacities`. -/
def smallCapacities : Buffer → Nat
  | .head => 1024
  | .trailers => 512
  | .path => 1024
  | .receive => 16384
  | .output => 1024
  | .application => 512

def fullCapacities (config : Zhtps.Config) : Buffer → Nat
  | .head => config.headerBytes
  | .trailers => config.trailerBytes
  | .path => ({} : Limits).maxTargetBytes
  | .receive => config.receiveBytes
  | .output => config.responseBytes
  | .application => config.applicationBytes

/-- The buffers of a worker have the sizes that the configuration asks for. -/
structure Config.Sized (config : Config) (options : Zhtps.Config) : Prop where
  full : config.full = fullCapacities options
  small : config.small = smallCapacities

/-- The fields of a built-in response are valid, and short. -/
def Brief (headers : List Header) : Prop :=
  headers.findSome? checkField = none ∧ (headers.flatMap fieldLine).length ≤ 562

variable {config : Config} {options : Zhtps.Config} {parseOrigin : Config.Origins}

theorem brief_statusHeaders (c : Connection) {status : Nat} {allowed : Bytes}
    (hallowed : status = 405 → Syntax.isField allowed = true ∧ allowed.length ≤ 512) :
    Brief (Cell.statusHeaders c status allowed) := by
  unfold Cell.statusHeaders
  dsimp only
  split_ifs with hmethod hadmin happlication hbody
  · exact ⟨by decide, by decide⟩
  · obtain ⟨hfield, hlength⟩ := hallowed hmethod
    have hallow : checkField ⟨ascii "Allow", allowed⟩ = none := by
      have hname : Syntax.isToken (ascii "Allow") = true ∧
          reservedFields.any (Syntax.eql (ascii "Allow")) = false := by decide
      simp only [checkField, hname, hfield, Bool.not_true, Bool.or_false, Bool.false_eq_true, if_false]
    have htype : checkField ⟨ascii "Content-Type", ascii "text/plain; charset=utf-8"⟩ = none := by
      decide
    have htexts : (fieldLine ⟨ascii "Content-Type", ascii "text/plain; charset=utf-8"⟩).length = 41 ∧
        (ascii "Allow").length = 5 ∧ (ascii ": ").length = 2 ∧ crlf.length = 2 := by decide
    refine ⟨by simp only [List.findSome?_cons, htype, hallow, List.findSome?_nil], ?_⟩
    simp only [List.flatMap_cons, List.flatMap_nil, List.append_nil, List.length_append, htexts]
    simp only [fieldLine, List.length_append, htexts]
    omega
  · exact ⟨by decide, by decide⟩
  · exact ⟨by decide, by decide⟩
  · exact ⟨by decide, by decide⟩

/-- A built-in response fits the smallest output buffer, with its body. -/
theorem begin_brief {response : Response} {request : Request} {date : Bytes} {capacity : Nat}
    (hstatus : 400 ≤ response.status) (hle : response.status ≤ 599) (hheaders : Brief response.headers)
    (hbody : response.body = .bytes (errorBody response.status)) (hdate : date.length = 29)
    (hcapacity : 1024 ≤ capacity) :
    ∃ head encoder, begin response request date capacity = .ok (head, encoder) ∧
      head.length + (errorBody response.status).length ≤ 1024 := by
  obtain ⟨hvalid, hfields⟩ := hheaders
  have hprohibits : prohibitsFraming response.status = false := by
    simp only [prohibitsFraming, Bool.or_eq_false_iff, decide_eq_false_iff_not, beq_eq_false_iff_ne]
    omega
  have hreset : (response.status == 205) = false := by
    rw [beq_eq_false_iff_ne]
    omega
  obtain ⟨plan, hplan, hlength⟩ : ∃ plan, framing response request = .ok plan ∧
      plan.contentLength = some (errorBody response.status).length := by
    refine ⟨⟨some (errorBody response.status).length,
      response.status == 304 || request.method == ascii "HEAD"⟩, ?_, rfl⟩
    unfold framing
    rw [if_neg (by omega), if_neg (by omega), if_neg (by omega), hvalid]
    simp only [hprohibits, hreset, hbody, Body.length, Bool.false_or, Bool.or_false, Bool.false_and,
      Bool.false_eq_true, if_false]
  have hbytes := length_errorBody response.status
  have hdigits : (digits 10 (errorBody response.status).length).length ≤ 2 :=
    length_digits_short (by omega)
  have htotal : (head response request date plan).length + (errorBody response.status).length ≤
      1024 := by
    have hline := @length_statusLine request.version response.status (by omega) hle
    have hconnection := length_connectionLine request.version response.status
      (closes response request plan)
    have htexts : (ascii "Content-Length: ").length = 16 ∧ crlf.length = 2 := by decide
    simp only [head, framingLine, hlength, List.length_append, hdate, htexts]
    omega
  refine ⟨head response request date plan, ⟨mode request plan, closes response request plan⟩, ?_,
    htotal⟩
  simp only [begin, hplan]
  rw [if_pos (by omega)]

theorem capacity_output (hsized : config.Sized options) (hvalid : options.Valid parseOrigin)
    (c : Connection) : 1024 ≤ c.capacity config .output := by
  have hfull : 16384 ≤ config.full .output := by
    rw [hsized.full]
    exact hvalid.unsized.2.2.2.2.2.2.1.2.2.2.1.1
  have hsmall : config.small .output = 1024 := by
    rw [hsized.small]
    rfl
  unfold Connection.capacity
  split_ifs
  · omega
  · omega

/-! ### The recursion -/

/-- The calls that answer a request; `bufferUnavailable` is `reject` with 503. -/
def Call.answers : Call → Bool
  | .startResponse _ | .reject _ | .respondStatus _ _ => true
  | _ => false

/-- Follows the calls that answer a request up to a result that is none of them; nothing where that
takes more calls. -/
def follow (config : Config) (index : Nat) (choices : Nat → Choice) :
    Nat → Cell → Call → Option (Cell × Next)
  | 0, _, _ => none
  | calls + 1, cell, call =>
      match cell.dispatch config (choices calls) index call with
      | (cell, .done) => some (cell, .done)
      | (cell, .call next) =>
          if next.answers then follow config index choices calls cell next
          else some (cell, .call next)

/-- A response is ready and is queued. -/
def Queued (result : Cell × Next) : Prop :=
  result.2 = .call .queueSend ∧ result.1.connection.phase = .writing ∧
    result.1.connection.output ≠ [] ∧ result.1.connection.outputSent = 0

def ForceClosed (index : Nat) (result : Cell × Next) : Prop :=
  ∃ cell : Cell, result = (cell.forceClose index, .done)

/-- The responses batched before are queued, and the connection closes behind them. -/
def Flushed (result : Cell × Next) : Prop :=
  result.2 = .call .queueBatch ∧ result.1.connection.batch.isSome = true ∧
    result.1.connection.permit = some .close

/-- The request may be answered without another permit. -/
def Allowed (c : Connection) : Prop := c.permit ≠ none ∨ c.admin = true

/-- The slot has the permit that it had. -/
def Same (cell next : Cell) : Prop :=
  next.connection.permit = cell.connection.permit ∧ next.connection.admin = cell.connection.admin

theorem lease_same {choice : Choice} {kind : Buffer} {cell next : Cell} {leased : Bool}
    (h : cell.lease config choice kind = (next, leased)) : Same cell next := by
  rcases Cell.ensureBuffer_cases h with rfl | ⟨pool, block, -, -, rfl⟩
  · exact ⟨rfl, rfl⟩
  · exact ⟨rfl, rfl⟩

/-- `startResponse` queues its response, closes the connection, or rejects the request with 503. -/
def Answered (index : Nat) (cell : Cell) (result : Cell × Next) : Prop :=
  Queued result ∨ ForceClosed index result ∨
    result.2 = .call (.reject 503) ∧ Same cell result.1

theorem sendResponse_queued {response : Response} {head : Bytes}
    {encoder : Encoder} {cell : Cell} (hsent : cell.connection.outputSent = 0) (hhead : head ≠ []) :
    Queued (cell.setConnection (Cell.setOutput config response head encoder cell.connection),
      .call .queueSend) := by
  refine ⟨rfl, rfl, ?_, hsent⟩
  dsimp only [Cell.setConnection, Cell.setOutput]
  split_ifs
  · exact List.append_ne_nil_of_left_ne_nil hhead _
  · exact hhead

theorem sendResponse_answered {choice : Choice} {index : Nat} {response : Response} {head : Bytes}
    {encoder : Encoder} {cell : Cell} (hhead : head ≠ []) :
    Answered index cell (cell.sendResponse config choice index response head encoder) := by
  unfold Cell.sendResponse
  dsimp only
  split_ifs
  · exact Or.inr (Or.inl ⟨_, rfl⟩)
  · split
    · rename_i next hnext
      obtain ⟨rfl, -⟩ := Cell.allocateStream_fails hnext
      exact Or.inr (Or.inr ⟨rfl, rfl, rfl⟩)
    · rename_i next hnext
      rcases Cell.allocateStream_takes hnext with rfl | ⟨-, -, rfl⟩
      · exact Or.inl (sendResponse_queued rfl hhead)
      · exact Or.inl (sendResponse_queued rfl hhead)

theorem Answered.same {index : Nat} {cell middle : Cell} {result : Cell × Next}
    (h : Answered index middle result) (hsame : Same cell middle) : Answered index cell result := by
  rcases h with hqueued | hclosed | ⟨hcall, hkept⟩
  · exact Or.inl hqueued
  · exact Or.inr (Or.inl hclosed)
  · exact Or.inr (Or.inr ⟨hcall, hkept.1.trans hsame.1, hkept.2.trans hsame.2⟩)

theorem retryBegin_answered (choice : Choice) (index : Nat) (response : Response) (cell : Cell) :
    Answered index cell (cell.retryBegin config choice index response) := by
  unfold Cell.retryBegin
  split
  · rename_i leased hlease
    exact Or.inr (Or.inr ⟨rfl, lease_same hlease⟩)
  · rename_i leased hlease
    cases hbegin : response.begin leased.connection.parser.request leased.shared.date
          (leased.connection.capacity config .output) with
    | error failure => exact Or.inr (Or.inl ⟨leased, rfl⟩)
    | ok written =>
        exact (sendResponse_answered (begin_ne_nil hbegin)).same (lease_same hlease)

theorem leaseOutput_same {choice : Choice} {response : Response} {cell next : Cell} {leased : Bool}
    (h : Cell.leaseOutput config choice response cell = (next, leased)) : Same cell next := by
  unfold Cell.leaseOutput at h
  split_ifs at h
  · exact lease_same h
  · cases h
    exact ⟨rfl, rfl⟩

theorem startResponse_answered (choice : Choice) (index : Nat) (response : Response) (cell : Cell) :
    Answered index cell (cell.startResponse config choice index response) := by
  unfold Cell.startResponse
  dsimp only
  split_ifs with hstatus
  · exact Or.inr (Or.inl ⟨cell, rfl⟩)
  · split
    · rename_i leased hlease
      have hleased := leaseOutput_same hlease
      exact Or.inr (Or.inr ⟨rfl, hleased⟩)
    · rename_i leased hlease
      have hleased := leaseOutput_same hlease
      have hsame : Same cell leased := hleased
      cases hbegin : (Cell.closingResponse config choice cell response).begin
            leased.connection.parser.request leased.shared.date
            (leased.connection.capacity config .output) with
      | error failure =>
          dsimp only
          split_ifs
          · exact (retryBegin_answered choice index _ leased).same hsame
          · exact Or.inr (Or.inl ⟨leased, rfl⟩)
      | ok written => exact (sendResponse_answered (begin_ne_nil hbegin)).same hsame

/-- A built-in response is queued without a lease. -/
theorem startResponse_brief (hsized : config.Sized options) (hvalid : options.Valid parseOrigin)
    {choice : Choice} (hdate : choice.date.length = 29) (index : Nat) {response : Response}
    (hstatus : 400 ≤ response.status) (hle : response.status ≤ 599) (hheaders : Brief response.headers)
    (hbody : response.body = .bytes (errorBody response.status)) (cell : Cell) :
    Queued (cell.startResponse config choice index response) ∧
      (cell.startResponse config choice index response).1.shared.buffers = cell.shared.buffers := by
  obtain ⟨head, encoder, hbegin, -⟩ := @begin_brief
    (Cell.closingResponse config choice cell response) cell.connection.parser.request choice.date _
    hstatus hle hheaders hbody hdate (capacity_output hsized hvalid cell.connection)
  have hstream : Cell.isStream (Cell.closingResponse config choice cell response).body = false := by
    rw [Cell.closingResponse, hbody]
    rfl
  have hstreamed : Cell.isStreamed config (Cell.closingResponse config choice cell response) encoder =
      false := by
    rw [Cell.isStreamed, hstream, Bool.and_false, Bool.false_and]
  obtain ⟨begun, hsent, hbuffers, hresult⟩ : ∃ begun : Cell, begun.connection.outputSent = 0 ∧
      begun.shared.buffers = cell.shared.buffers ∧
      cell.startResponse config choice index response =
        (begun.setConnection (Cell.setOutput config (Cell.closingResponse config choice cell response)
          head encoder begun.connection), .call .queueSend) := by
    refine ⟨Cell.setConnection { cell with shared := { cell.shared with date := choice.date } }
      (Cell.beginOutput (Cell.closingResponse config choice cell response) encoder
        cell.connection), rfl, rfl, ?_⟩
    unfold Cell.startResponse
    rw [if_neg (by omega)]
    dsimp only
    rw [Cell.leaseOutput, hstream, if_neg Bool.false_ne_true]
    dsimp only
    rw [hbegin]
    dsimp only
    unfold Cell.sendResponse
    dsimp only
    rw [hstreamed, if_neg (fun h => Bool.false_ne_true h.1), Cell.allocateStream,
      hstreamed, if_neg Bool.false_ne_true]
  rw [hresult]
  exact ⟨sendResponse_queued hsent (begin_ne_nil hbegin), hbuffers⟩

/-- The response that `respondStatus` starts. -/
def builtin (c : Connection) (status : Nat) (allowed : Bytes) (close : Bool) : Response :=
  { status := status
    headers := Cell.statusHeaders c status allowed
    body := .bytes (errorBody status)
    close := close }

/-- A built-in error response is queued without a lease. -/
theorem respondStatus_queued (hsized : config.Sized options) (hvalid : options.Valid parseOrigin)
    {choice : Choice} (hdate : choice.date.length = 29) (index : Nat) {status : Nat}
    (hstatus : 400 ≤ status) (hle : status ≤ 599) (allowed : Bytes)
    (hallowed : status = 405 → Syntax.isField allowed = true ∧ allowed.length ≤ 512) (close : Bool)
    (cell : Cell) :
    Queued (cell.startResponse config choice index
      (builtin cell.connection status allowed close)) ∧
    (cell.startResponse config choice index
      (builtin cell.connection status allowed close)).1.shared.buffers = cell.shared.buffers :=
  startResponse_brief hsized hvalid hdate index hstatus hle
    (brief_statusHeaders cell.connection hallowed) rfl cell

theorem reject_allowed (choice : Choice) (index status : Nat) {cell : Cell}
    (h : Allowed cell.connection) :
    cell.reject choice index status = (cell, .call (.respondStatus status true)) := by
  unfold Cell.reject
  refine if_neg fun hnone => ?_
  obtain ⟨hpermit, hadmin⟩ := hnone
  rcases h with hsome | htrue
  · exact hsome (Option.isNone_iff_eq_none.mp hpermit)
  · simp [htrue] at hadmin

/-- A request that gets no permit is not answered. -/
theorem reject_ended (choice : Choice) (index status : Nat) (cell : Cell) :
    (¬Allowed cell.connection ∧ Flushed (cell.reject choice index status)) ∨
    ForceClosed index (cell.reject choice index status) ∨
    ∃ next, cell.reject choice index status = (next, .call (.respondStatus status true)) ∧
      Allowed next.connection := by
  by_cases hallowed : Allowed cell.connection
  · exact Or.inr (Or.inr ⟨cell, reject_allowed choice index status hallowed, hallowed⟩)
  · have hnone : cell.connection.permit.isNone = true ∧ (!cell.connection.admin) = true := by
      refine ⟨?_, ?_⟩
      · exact Option.isNone_iff_eq_none.mpr (not_not.mp fun hsome => hallowed (Or.inl hsome))
      · simpa using fun htrue => hallowed (Or.inr htrue)
    unfold Cell.reject
    rw [if_pos hnone]
    generalize (cell.shared.admission.refill choice.now).acquireRejection = pair
    obtain ⟨admission, decision⟩ := pair
    dsimp only
    split_ifs with hclose hbatch
    · exact Or.inl ⟨hallowed, rfl, hbatch, congrArg some hclose⟩
    · exact Or.inr (Or.inl ⟨_, rfl⟩)
    · exact Or.inr (Or.inr ⟨_, rfl, Or.inl (Option.some_ne_none _)⟩)

section Follow

variable {index calls : Nat} {choices : Nat → Choice} {cell : Cell} {call : Call}

theorem follow_call {next : Cell} {other : Call}
    (h : cell.dispatch config (choices calls) index call = (next, .call other))
    (hanswers : other.answers = true) :
    follow config index choices (calls + 1) cell call = follow config index choices calls next other := by
  rw [follow, h]
  dsimp only
  rw [if_pos hanswers]

theorem follow_end {result : Cell × Next} (h : cell.dispatch config (choices calls) index call = result)
    (hend : ∀ other, result.2 = .call other → other.answers = false) :
    follow config index choices (calls + 1) cell call = some result := by
  obtain ⟨next, last⟩ := result
  rw [follow, h]
  cases last with
  | done => rfl
  | call other =>
      dsimp only
      rw [hend other rfl, if_neg Bool.false_ne_true]

/-- How answering a request ends.  Without a permit, and with no budget for a rejection, the responses
batched before it are queued, and the connection closes behind them. -/
def Concluded (index : Nat) (allowed : Prop) (result : Cell × Next) : Prop :=
  Queued result ∨ ForceClosed index result ∨ ¬allowed ∧ Flushed result

theorem Concluded.last {allowed : Prop} {result : Cell × Next} (h : Concluded index allowed result)
    (other : Call) (hcall : result.2 = .call other) : other.answers = false := by
  rcases h with hqueued | ⟨closed, rfl⟩ | ⟨-, hflushed⟩
  · rw [hqueued.1] at hcall
    obtain rfl := Next.call.inj hcall
    rfl
  · cases hcall
  · rw [hflushed.1] at hcall
    obtain rfl := Next.call.inj hcall
    rfl

theorem Concluded.mono {allowed other : Prop} (h : other → allowed) {result : Cell × Next}
    (hended : Concluded index allowed result) : Concluded index other result :=
  hended.imp_right (Or.imp_right fun hflushed => ⟨mt h hflushed.1, hflushed.2⟩)

variable (hsized : config.Sized options) (hvalid : options.Valid parseOrigin)
  (hdate : ∀ k, (choices k).date.length = 29)

include hsized hvalid hdate

/-- The response to a rejection for want of a buffer is queued, if the request may be answered. -/
theorem follow_unavailable :
    ∃ result, follow config index choices (calls + 3) cell (.reject 503) = some result ∧
      Concluded index (Allowed cell.connection) result := by
  rcases reject_ended (choices (calls + 2)) index 503 cell with
    hflushed | hclosed | ⟨next, hreject, -⟩
  · have hended : Concluded index (Allowed cell.connection)
        (cell.reject (choices (calls + 2)) index 503) := Or.inr (Or.inr hflushed)
    exact ⟨_, follow_end rfl hended.last, hended⟩
  · have hended : Concluded index (Allowed cell.connection)
        (cell.reject (choices (calls + 2)) index 503) := Or.inr (Or.inl hclosed)
    exact ⟨_, follow_end rfl hended.last, hended⟩
  · have hdispatch : cell.dispatch config (choices (calls + 2)) index (.reject 503) =
        (next, .call (.respondStatus 503 true)) := hreject
    obtain ⟨hqueued, -⟩ := respondStatus_queued hsized hvalid (hdate calls) index
      (by decide : 400 ≤ 503) (by decide) (choices (calls + 1)).allowed nofun true next
    have hended : Concluded index (Allowed cell.connection) _ := Or.inl hqueued
    refine ⟨_, ?_, hended⟩
    rw [follow_call hdispatch rfl]
    exact (follow_call rfl rfl).trans (follow_end rfl hended.last)

/-- One rejection for want of a buffer follows at most. -/
theorem follow_startResponse (response : Response) :
    ∃ result, follow config index choices (calls + 4) cell (.startResponse response) = some result ∧
      Concluded index (Allowed cell.connection) result := by
  rcases startResponse_answered (choices (calls + 3)) index response cell with
    hqueued | hclosed | ⟨hcall, hsame⟩
  · have hended : Concluded index (Allowed cell.connection)
        (cell.startResponse config (choices (calls + 3)) index response) := Or.inl hqueued
    exact ⟨_, follow_end rfl hended.last, hended⟩
  · have hended : Concluded index (Allowed cell.connection)
        (cell.startResponse config (choices (calls + 3)) index response) := Or.inr (Or.inl hclosed)
    exact ⟨_, follow_end rfl hended.last, hended⟩
  · obtain ⟨next, hdispatch, hkept⟩ : ∃ next, cell.dispatch config (choices (calls + 3)) index
        (.startResponse response) = (next, .call (.reject 503)) ∧ Same cell next :=
      ⟨_, Prod.ext rfl hcall, hsame⟩
    obtain ⟨result, hfollow, hended⟩ := @follow_unavailable config options parseOrigin index calls
      choices next hsized hvalid hdate
    refine ⟨result, (follow_call hdispatch rfl).trans hfollow, hended.mono ?_⟩
    unfold Allowed
    rw [hkept.1, hkept.2]
    exact id

theorem follow_respondStatus (status : Nat) (close : Bool) :
    ∃ result, follow config index choices (calls + 5) cell (.respondStatus status close) =
        some result ∧ Concluded index (Allowed cell.connection) result := by
  obtain ⟨result, hfollow, hended⟩ := follow_startResponse hsized hvalid hdate
    (builtin cell.connection status (choices (calls + 4)).allowed close)
  exact ⟨result, (follow_call rfl rfl).trans hfollow, hended⟩

theorem follow_reject (status : Nat) :
    ∃ result, follow config index choices (calls + 6) cell (.reject status) = some result ∧
      Concluded index (Allowed cell.connection) result := by
  rcases reject_ended (choices (calls + 5)) index status cell with
    hflushed | hclosed | ⟨next, hreject, hallowed⟩
  · have hended : Concluded index (Allowed cell.connection)
        (cell.reject (choices (calls + 5)) index status) := Or.inr (Or.inr hflushed)
    exact ⟨_, follow_end rfl hended.last, hended⟩
  · have hended : Concluded index (Allowed cell.connection)
        (cell.reject (choices (calls + 5)) index status) := Or.inr (Or.inl hclosed)
    exact ⟨_, follow_end rfl hended.last, hended⟩
  · obtain ⟨result, hfollow, hended⟩ := follow_respondStatus hsized hvalid hdate status true
    have hdispatch : cell.dispatch config (choices (calls + 5)) index (.reject status) =
        (next, .call (.respondStatus status true)) := hreject
    exact ⟨result, (follow_call hdispatch rfl).trans hfollow, hended.mono fun _ => hallowed⟩

end Follow

/-- Answering a request ends after one rejection for want of a buffer at most: in four calls from
`startResponse`, and in two more from `reject`.  Then a response is queued or the connection is closed,
since every built-in error response is queued without a lease. -/
theorem error_responses_end (parseOrigin : Config.Origins) (options : Zhtps.Config) (config : Config)
    (hvalid : options.validate parseOrigin = .ok ()) (hsized : config.Sized options) (index : Nat)
    (choices : Nat → Choice) (hdate : ∀ k, (choices k).date.length = 29) (cell : Cell) :
    (∀ response, ∃ result, follow config index choices 4 cell (.startResponse response) = some result ∧
      Concluded index (Allowed cell.connection) result) ∧
    (∀ status close, ∃ result,
      follow config index choices 5 cell (.respondStatus status close) = some result ∧
      Concluded index (Allowed cell.connection) result) ∧
    (∀ status, ∃ result, follow config index choices 6 cell (.reject status) = some result ∧
      Concluded index (Allowed cell.connection) result) ∧
    ∀ status allowed close, 400 ≤ status → status ≤ 599 →
      (status = 405 → Syntax.isField allowed = true ∧ allowed.length ≤ 512) →
      Queued (cell.startResponse config (choices 0) index
        (builtin cell.connection status allowed close)) ∧
      (cell.startResponse config (choices 0) index
        (builtin cell.connection status allowed close)).1.shared.buffers = cell.shared.buffers := by
  have hok := Config.validate_ok.mp hvalid
  refine ⟨fun response => ?_, fun status close => ?_, fun status => ?_, ?_⟩
  · exact @follow_startResponse config options parseOrigin index 0 choices cell hsized hok hdate response
  · exact @follow_respondStatus config options parseOrigin index 0 choices cell hsized hok hdate status
      close
  · exact @follow_reject config options parseOrigin index 0 choices cell hsized hok hdate status
  · intro status allowed close hstatus hle hallowed
    exact respondStatus_queued hsized hok (hdate 0) index hstatus hle allowed hallowed close cell

/-- A worker without large buffers. -/
def tight : Config where
  limits := {}
  full := fullCapacities {}
  small := smallCapacities
  largeBufferBytes := 0
  maxBodyBytes := 0
  maxRequestsPerConnection := 1000
  batches := 0

/-- An admitted request. -/
def admitted : Cell where
  shared :=
    { admission := .init {} 0
      buffers := { pools := fun kind => { size := fullCapacities {} kind } } }
  connection :=
    { parser := .init [] [] {}
      permit := some .admitted }

theorem error_responses_end_tight :
    ∃ result, follow tight 0 (fun _ => { date := List.replicate 29 48 }) 4 admitted
        (.startResponse { body := .stream none }) = some result ∧
      result.2 = .call .queueSend ∧ result.1.connection.responseStatus = 503 ∧
      Concluded 0 (Allowed admitted.connection) result := by
  obtain ⟨hstart, -⟩ := error_responses_end (fun _ => true) {} tight (by decide) ⟨rfl, rfl⟩ 0
    (fun _ => { date := List.replicate 29 48 }) (fun _ => rfl) admitted
  obtain ⟨result, hfollow, hended⟩ := hstart { body := .stream none }
  have hlast : (follow tight 0 (fun _ => { date := List.replicate 29 48 }) 4 admitted
      (.startResponse { body := .stream none })).map
        (fun result => (result.2, result.1.connection.responseStatus)) =
      some (.call .queueSend, 503) := by
    decide +kernel
  rw [hfollow] at hlast
  obtain ⟨hcall, hstatus⟩ := Prod.mk.inj (Option.some.inj hlast)
  exact ⟨result, hfollow, hcall, hstatus, hended⟩

end Worker

end Zhtps
