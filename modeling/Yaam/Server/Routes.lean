/-
  The endpoints, and what answers them (`yaam-server`, `routes.rs` and `service.rs`).

  * the query types say what a read may ask, each with its refusals: half a window, a
    pair with no `=`, a nearness before its record, a depth or a cap the service will not
    take;
  * `CoreService` narrows every read to the caller's scope;
  * `serve` answers one request: the signature first, then the route, then its handler;
    `Event.run` is the service over requests and maintenance rounds.
-/
import Yaam.Core.Bundle
import Yaam.Core.Sweep
import Yaam.Crypto.Envelope
import Yaam.Server.Auth

namespace Yaam.Server

open Text Contract Contract.Request Crypto Index Eff
open Core (Accepted Pipeline Env Store StoreM EraseReport SweepReport Bundle BundleRequest)

/-- Largest request body the service will buffer. -/
def MAX_BODY_BYTES : ℕ := 2 ^ 20

/-- Deadline a bundle request gets when the caller names none. -/
def DEFAULT_DEADLINE_MS : ℕ := 500

theorem isF32_zero : IsF32 0 := ⟨0, 0, by decide, by decide, by decide, by norm_num⟩

/-- Confidence floor for entity history when the caller names none. -/
def DEFAULT_MIN_CONFIDENCE : Floor := .finite ⟨0, isF32_zero⟩

/-- What erasure does not reach. -/
def RETAINED : String := "frontmatter, attributes, entity references and timelines are retained"

def CORRIDOR_DEGREE : UInt32 := 32
def MAX_DEPTH : UInt32 := 2
def FULL_CONFIDENCE : Floor := .finite fieldConfidence
def HOP_ATTENUATION : ℚ := 1 / 2

/-! ## Query parameters -/

/-- Filters for a record query. -/
structure RecordQuery where
  action : Option Text
  outcome : Option Text
  agent : Option Text
  attr : Option Text
  fromMs : Option ℤ
  toMs : Option ℤ
  limit : Option UInt32

/-- One attribute filter, split at the first `=`. -/
def attrFilter (spec : Option Text) (name : String) : Except Error (Option (Text × Text)) :=
  match spec with
  | none => .ok none
  | some pair => match splitOnce '=' pair with
    | some kv => .ok (some kv)
    | none => .error (.unprocessable s!"`{name}` must be `key=value`, got `{String.ofList pair}`")

/-- Turns query parameters into an index filter. -/
def RecordQuery.intoFilter (q : RecordQuery) : Except Error Filter := do
  let attr ← attrFilter q.attr "attr"
  let window ← match q.fromMs, q.toMs with
    | some fromMs, some toMs => .ok (some ⟨fromMs, toMs⟩)
    | none, none => .ok none
    | _, _ => .error (.unprocessable "a window needs both `from_ms` and `to_ms`")
  return { Filter.default with
    action := q.action, outcome := q.outcome, agent := q.agent, attr, window, limit := q.limit }

/-- The two halves of a correlation, and how near they have to be. -/
structure CorrelateQuery where
  leftAction : Option Text
  leftOutcome : Option Text
  leftAgent : Option Text
  leftAttr : Option Text
  leftFromMs : Option ℤ
  leftToMs : Option ℤ
  rightAction : Option Text
  rightOutcome : Option Text
  rightAgent : Option Text
  rightAttr : Option Text
  withinMs : ℤ
  limit : Option UInt32

/-- Turns query parameters into the two filters and the nearness the join takes. -/
def CorrelateQuery.intoJoin (q : CorrelateQuery) : Except Error (Filter × Filter × ℤ) := do
  let window ← match q.leftFromMs, q.leftToMs with
    | some fromMs, some toMs => Except.ok (⟨fromMs, toMs⟩ : Window)
    | _, _ => .error (.unprocessable ("a correlation needs both `left.from_ms` and `left.to_ms`: " ++
        "the window bounds the side the join is driven from, and there is no implicit `recent`"))
  refuseIf (q.withinMs < 0) (.unprocessable (s!"`within_ms` is {q.withinMs} and the join is " ++
    "directional: a right record is at or after its left one, so ask about what came before by " ++
    "swapping the two sides"))
  let leftAttr ← attrFilter q.leftAttr "left.attr"
  -- the page is a cap on pairs, and stands on the left filter
  let left := { Filter.default with
    action := q.leftAction, outcome := q.leftOutcome, agent := q.leftAgent, attr := leftAttr,
    window := some window, limit := q.limit }
  let rightAttr ← attrFilter q.rightAttr "right.attr"
  let right := { Filter.default with
    action := q.rightAction, outcome := q.rightOutcome, agent := q.rightAgent, attr := rightAttr }
  return (left, right, q.withinMs)

/-- How far a traversal goes, and what it will believe on the way. -/
structure LinkedQuery where
  depth : UInt32
  fromMs : Option ℤ
  toMs : Option ℤ
  minConfidence : Option Floor
  maxDegree : Option UInt32
  limit : Option UInt32

/-- Turns query parameters into a traversal, refusing what this read will not guess at. -/
def LinkedQuery.intoTraversal (q : LinkedQuery) (kind id : Text) : Except Error Traversal := do
  let window ← match q.fromMs, q.toMs with
    | some fromMs, some toMs => Except.ok (⟨fromMs, toMs⟩ : Window)
    | _, _ => .error (.unprocessable ("a traversal needs both `from_ms` and `to_ms`: every hop is " ++
        "taken inside the window, and there is no implicit `recent`"))
  refuseIf (q.depth = 0) (.unprocessable ("`depth` is 0, which is `GET /entities/\x7bkind\x7d/\x7bid\x7d` " ++
    "with more ceremony: a traversal starts at one hop"))
  refuseIf (MAX_DEPTH < q.depth) (.unprocessable (s!"`depth` is {q.depth} and this service traverses " ++
    s!"1 to {MAX_DEPTH} hops: the recursion fills its {MAX_FRONTIER}-edge frontier breadth-first, so " ++
    "the frontier is spent on near hops before far ones — measured, a 30-day depth-3 traversal comes " ++
    "back as 115 hop-1 edges, 85 hop-2 edges and no hop-3 edges at all. Refused rather than answered " ++
    s!"out of the first two hops under a third hop's name: ask for {MAX_DEPTH} and narrow the window " ++
    "rather than raising the page. A per-hop budget is what would lift this, and there is not one yet."))
  let maxDegree := q.maxDegree.getD CORRIDOR_DEGREE
  refuseIf (CORRIDOR_DEGREE < maxDegree) (.unprocessable (s!"`max_degree` is {maxDegree} and this " ++
    "service will not traverse through an entity named by more than " ++
    s!"{CORRIDOR_DEGREE} records inside the window: the cap may be lowered and not raised"))
  return {
    kind, id, depth := q.depth, window, minConfidence := q.minConfidence.getD FULL_CONFIDENCE,
    maxDegree, limit := q.limit, scope := .nothing }

/-- What a full-text read is looking for. -/
structure SearchQuery where
  q : Text
  limit : Option UInt32

/-- Options for entity history. -/
structure EntityQuery where
  minConfidence : Option Floor
  limit : Option UInt32
  fromMs : Option ℤ
  toMs : Option ℤ

/-- The window this asks for, refusing half of one. -/
def EntityQuery.window (q : EntityQuery) : Except Error (Option Window) :=
  match q.fromMs, q.toMs with
  | some fromMs, some toMs => .ok (some ⟨fromMs, toMs⟩)
  | none, none => .ok none
  | _, _ => .error (.unprocessable "a window needs both `from_ms` and `to_ms`")

/-- What a bundle should cover. -/
structure BundleQuery where
  /-- Entities to gather history for, as a comma-separated list of `kind:id`. -/
  entity : Option Text
  actor : Option Text
  deadlineMs : Option ℕ
  limit : Option UInt32

/-- Turns query parameters into a composition request. -/
def BundleQuery.intoRequest (q : BundleQuery) : Except Error BundleRequest := do
  let entities ← (q.entity.toList.flatMap (splitOn ',')).mapM fun pair =>
    match splitOnce ':' pair with
    | some kindId => Except.ok kindId
    | none => .error (.unprocessable s!"`entity` must be `kind:id`, got `{String.ofList pair}`")
  return {
    entities, actor := q.actor, deadlineMs := q.deadlineMs.getD DEFAULT_DEADLINE_MS,
    scope := .nothing, limit := q.limit.map UInt32.toNat }

/-! ## Answers -/

/-- What a write did. -/
inductive WriteStatus where
  | stored
  | duplicate
  | quarantined
deriving DecidableEq

/-- One edge of an answer. -/
structure LinkedEdge where
  from_ : EntityKey
  to_ : EntityKey
  hop : ℕ
  score : ℚ
  confidence : Confidence
  via : ActionRecord

/-- An entity the traversal reached and refused to walk through. -/
structure Corridor where
  entity : EntityKey
  degree : ℕ
deriving DecidableEq

/-- What the service answers with. -/
inductive Answer where
  | written (id : RecordId) (status : WriteStatus)
  | records (records : List ActionRecord) (tokenEstimate : ℕ)
  | correlations (pairs : List (ActionRecord × ActionRecord)) (tokenEstimate : ℕ)
  | links (edges : List LinkedEdge) (hubs : List Corridor) (tokenEstimate : ℕ)
  | bundle (bundle : Bundle)
  | erased (report : EraseReport) (retained : String)

/-- What an edge is worth relative to a hop-1 one. -/
def score {ρ : Type} (l : Link ρ) : ℚ := HOP_ATTENUATION ^ l.hop

/-- Whether the corridor rule stopped the traversal here. -/
def hub {ρ : Type} (asked : Traversal) (l : Link ρ) : Bool :=
  asked.maxDegree.toNat < l.degree ∧ l.hop < asked.depth.toNat

/-- Notes a corridor, in order, over what was noted of it. -/
def noteHub (c : Corridor) : List Corridor → List Corridor
  | [] => [c]
  | d :: ds =>
    if c.entity = d.entity then c :: ds
    else if c.entity.kind < d.entity.kind ∨
      (c.entity.kind = d.entity.kind ∧ c.entity.id < d.entity.id) then c :: d :: ds
    else d :: noteHub c ds

section
variable (wireBytes : ActionRecord → ℕ)

def RecordsResponse.new (records : List ActionRecord) : Answer :=
  .records records (Core.estimateTokens wireBytes records)

def CorrelationsResponse.new (pairs : List (ActionRecord × ActionRecord)) : Answer :=
  .correlations pairs (Core.estimateTokens wireBytes (pairs.flatMap fun p => [p.1, p.2]))

def LinksResponse.new (links : List (Link ActionRecord)) (asked : Traversal) : Answer :=
  let hubs := (links.filter (hub asked)).foldl (fun hubs l => noteHub ⟨l.to_, l.degree⟩ hubs) []
  let edges := links.map fun l => ⟨l.from_, l.to_, l.hop, score l, l.confidence, l.via⟩
  .links edges hubs (Core.estimateTokens wireBytes (links.map (·.via)))

end

/-! ## The service behind the endpoints -/

/-- The write pipeline and the derived index, and the libraries their reads call. -/
structure CoreService where
  pipeline : Pipeline
  fullText : FullText
  /-- How many bytes a structure takes on the wire. -/
  wireBytes : ActionRecord → ℕ

/-- A read's failure as the status it deserves. -/
def readFailure : QueryError → Error
  | .badNeedle needle detail => .unprocessable (s!"full-text needle `{String.ofList needle}` is not " ++
      s!"a match expression: {String.ofList detail}")
  | e => .index e

/-- What one maintenance round got through. -/
structure Maintenance where
  fanoutSettled : ℕ
  sweep : SweepReport

namespace CoreService

variable (S : CoreService)

/-- The canonical form of an identifier, or the client error saying why there is none. -/
def canonical (kind id : Text) : Except Error Text :=
  (S.pipeline.registry.canonicalise kind id).mapError fun e => .unprocessable e.display

def write (env : Env) (record : ActionRecord) (body : Text) : Eff Store Error Accepted :=
  mapError .core (Core.accept S.pipeline env record body)

def query (T : Tables) (caller : Caller) (filter : Filter) : Except Error (List ActionRecord) :=
  (byFilterStructures T { filter with scope := caller.scope }).mapError .index

def search (T : Tables) (caller : Caller) (needle : Text) (limit : Option UInt32) :
    Except Error (List ActionRecord) :=
  (searchStructures S.fullText T needle limit caller.scope).mapError readFailure

def entity (T : Tables) (caller : Caller) (kind id : Text) (minConfidence : Floor)
    (window : Option Window) (limit : Option UInt32) : Except Error (List ActionRecord) := do
  let id ← S.canonical kind id
  (byEntityStructures T kind id minConfidence window limit caller.scope).mapError .index

def correlate (T : Tables) (caller : Caller) (left right : Filter) (withinMs : ℤ) :
    Except Error (List (ActionRecord × ActionRecord)) :=
  (correlateStructures T { left with scope := caller.scope } { right with scope := caller.scope }
    withinMs).mapError .index

def linked (T : Tables) (caller : Caller) (t : Traversal) : Except Error (List (Link ActionRecord)) := do
  let id ← S.canonical t.kind t.id
  (linkedStructures T { t with id, scope := caller.scope }).mapError .index

def bundle (clock : ℕ → ℕ) (T : Tables) (caller : Caller) (request : BundleRequest) :
    Except Error Bundle := do
  let entities ← request.entities.mapM fun e => do
    let id ← S.canonical e.1 e.2
    return (e.1, id)
  (Core.compose S.wireBytes clock T { request with entities, scope := caller.scope }).mapError .index

def erase (env : Env) (subject : SubjectHash) : Eff Store Error EraseReport :=
  mapError .core (Core.eraseSubject S.pipeline env subject)

/-- Runs one round of the maintenance the store needs. -/
def maintain (env : Env) (maxJobs : ℕ) : Eff Store Error Maintenance := mapError .core do
  let fanoutSettled ← Core.drainFanout S.pipeline env maxJobs
  let sweep ← Core.sweep S.pipeline env
  return ⟨fanoutSettled, sweep⟩

end CoreService

/-! ## Handlers -/

/-- A read, with what its extractors made of the request. -/
inductive Read where
  | queryRecords (params : RecordQuery)
  | searchRecords (params : SearchQuery)
  | entityRecords (kind id : Text) (params : EntityQuery)
  | correlateRecords (params : CorrelateQuery)
  | linkedEntities (kind id : Text) (params : LinkedQuery)
  | composeBundle (params : BundleQuery)

/-- The endpoints. -/
inductive Endpoint where
  | writeRecord
  | eraseSubject
  | read (asked : Read)

/-- What every handler needs, and the libraries they call. -/
structure AppState where
  keyring : Keyring
  service : CoreService
  /-- Secret half of the key sidecars seal to. -/
  unsealKey : Option Bytes
  hmac : Bytes → Bytes → Bytes
  exchange : Exchange
  ciphers : Ciphers
  openers : Openers
  /-- The router over a method and a target: an endpoint, or the status of a rejection. -/
  route : Text → Text → Except Status Endpoint
  /-- The reading of a write's JSON, and of an erasure's. -/
  writeRequest : Bytes → Except String WriteRequest
  eraseRequest : Bytes → Except String SubjectHash

/-- What one request takes from its surroundings: the pipeline's, and the clock a bundle
    looks at. -/
structure Surroundings where
  env : Env
  clock : ℕ → ℕ

def contentType : Text := "content-type".toList

namespace AppState

variable (A : AppState)

/-- The request body, opened if it arrived under an envelope's media type. -/
def opened (headers : HeaderMap) (body : Bytes) : Except Error Bytes :=
  if (headerText headers contentType).any (startsWith Envelope.CONTENT_TYPE) then
    match A.unsealKey with
    | none => .error (.unavailable "this service holds no key for sealed bodies")
    | some key => (Envelope.«open» A.exchange A.ciphers A.openers key body).mapError fun e =>
        .unavailable s!"sealed body would not open: {e.display}"
  else .ok body

/-- Authenticates a request, reads included. -/
def authenticate (r : HttpRequest) : Except Error Caller := do
  refuseIf (MAX_BODY_BYTES < r.body.length)
    (.unprocessable s!"body unreadable or larger than {MAX_BODY_BYTES} bytes")
  verify A.hmac A.keyring r.method r.target r.headers r.body

/-- What a write has to pass before the pipeline sees it. -/
def admitted (caller : Caller) (r : HttpRequest) : Except Error WriteRequest := do
  let body ← A.opened r.headers r.body
  let request ← (A.writeRequest body).mapError .unprocessable
  authoriseWrite caller request.record.agent
  authoriseClass caller request.record.dataClass
  request.record.validate.mapError fun e => .unprocessable e.display
  return request

/-- Writes one record, attributed to the caller. -/
def writeRecord (env : Env) (caller : Caller) (r : HttpRequest) :
    Eff Store Error (Status × Answer) := do
  let request ← ofExcept (A.admitted caller r)
  match ← A.service.write env request.record (request.body.getD request.record.summary) with
  | .stored id => return (.created, .written id .stored)
  | .duplicate id => return (.ok, .written id .duplicate)
  | .quarantined id => return (.accepted, .written id .quarantined)

/-- Destroys a subject's keys. -/
def eraseSubject (env : Env) (caller : Caller) (r : HttpRequest) :
    Eff Store Error (Status × Answer) := do
  ofExcept (requireRole caller .operator)
  let subject ← ofExcept ((A.eraseRequest r.body).mapError .unprocessable)
  let report ← A.service.erase env subject
  return (.ok, .erased report RETAINED)

/-- A read's handler, over the index it reads. -/
def read (clock : ℕ → ℕ) (T : Tables) (caller : Caller) : Read → Except Error Answer
  | .queryRecords params => do
    let filter ← params.intoFilter
    let records ← CoreService.query T caller filter
    return RecordsResponse.new A.service.wireBytes records
  | .searchRecords params => do
    let records ← A.service.search T caller params.q params.limit
    return RecordsResponse.new A.service.wireBytes records
  | .entityRecords kind id params => do
    let minConfidence := params.minConfidence.getD DEFAULT_MIN_CONFIDENCE
    let window ← params.window
    let records ← A.service.entity T caller kind id minConfidence window params.limit
    return RecordsResponse.new A.service.wireBytes records
  | .correlateRecords params => do
    let join ← params.intoJoin
    let pairs ← CoreService.correlate T caller join.1 join.2.1 join.2.2
    return CorrelationsResponse.new A.service.wireBytes pairs
  | .linkedEntities kind id params => do
    let asked ← params.intoTraversal kind id
    let links ← A.service.linked T caller asked
    return LinksResponse.new A.service.wireBytes links asked
  | .composeBundle params => do
    let request ← params.intoRequest
    let bundle ← A.service.bundle clock T caller request
    return .bundle bundle

/-- The endpoint's handler. -/
def handle (at_ : Surroundings) (caller : Caller) (r : HttpRequest) :
    Endpoint → Eff Store Error (Status × Answer)
  | .writeRecord => A.writeRecord at_.env caller r
  | .eraseSubject => A.eraseSubject at_.env caller r
  | .read asked => do
    let answer ← ofExcept (A.read at_.clock (← state).index caller asked)
    return (.ok, answer)

end AppState

/-- What goes back: an answer, a failure, or the router's own rejection. -/
inductive Response where
  | answered (status : Status) (answer : Answer)
  | failed (e : Error)
  | rejected (status : Status)

def Response.status : Response → Status
  | .answered status _ => status
  | .failed e => e.status
  | .rejected status => status

/-- Answers one request: the signature, the route, the handler. -/
def serve (A : AppState) (at_ : Surroundings) (r : HttpRequest) (σ : Store) : Response × Store :=
  match A.authenticate r with
  | .error e => (.failed e, σ)
  | .ok caller => match A.route r.method r.target with
    | .error status => (.rejected status, σ)
    | .ok endpoint => match A.handle at_ caller r endpoint σ with
      | (.ok (status, answer), σ') => (.answered status answer, σ')
      | (.error e, σ') => (.failed e, σ')

/-- What happens to a running service. -/
inductive Event where
  | request (at_ : Surroundings) (r : HttpRequest)
  | maintain (env : Env) (maxJobs : ℕ)

def Event.run (A : AppState) (σ : Store) : Event → Store
  | .request at_ r => (serve A at_ r σ).2
  | .maintain env maxJobs => (A.service.maintain env maxJobs σ).2

def Event.runAll (A : AppState) (σ : Store) (events : List Event) : Store :=
  events.foldl (Event.run A) σ

end Yaam.Server
