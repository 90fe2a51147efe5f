/-
  Assembling context for a caller (`yaam-core`, `bundle.rs`).

  * `compose` reads the sources of a request one after another: each entity's history, then
    the actor's;
  * `capSource` trims one source, `take` adds what it has up to the bundle's cap;
  * `Source.rows` are the reference rows a source is read from, `BundleRequest.page` those a
    request keeps of it.
-/
import Yaam.Lib.Gather
import Yaam.Index.Projection
import Yaam.Index.Scoped

namespace Yaam.Core

open Text Contract Index Gather

def MIN_CONFIDENCE : Floor := .finite fieldConfidence
def PER_SOURCE_LIMIT : ℕ := 50
def OVER_SOURCE_CAP : ℕ := PER_SOURCE_LIMIT + 1
def MAX_RECORDS : ℕ := 100
def BYTES_PER_TOKEN : ℕ := 4

/-- A source a bundle gathers from. -/
inductive Source where
  | entity (kind id : Text)
  | actor (agent : Text)
deriving DecidableEq

def Source.text : Source → Text
  | .entity kind id => "entity ".toList ++ kind ++ ':' :: id
  | .actor agent => "actor ".toList ++ agent

/-- What was left out, and why. -/
inductive Omission where
  | deadline (source : Source)
  | longer (source : Source)
  | over (source : Source) (dropped cap : ℕ)
deriving DecidableEq

def Omission.text : Omission → Text
  | .deadline source => source.text ++ ": deadline reached".toList
  | .longer source =>
    source.text ++ ": newest ".toList ++ padNat 0 PER_SOURCE_LIMIT ++ " of a longer history".toList
  | .over source dropped cap => source.text ++ ": ".toList ++ padNat 0 dropped ++
      " record(s) over the bundle cap of ".toList ++ padNat 0 cap

/-- Context assembled for one request; a record's structure is the record without prose. -/
structure Bundle where
  records : List ActionRecord
  degraded : Bool
  omitted : List Omission
  tokenEstimate : ℕ
deriving DecidableEq

def Bundle.default : Bundle := ⟨[], false, [], 0⟩

structure BundleRequest where
  entities : List (Text × Text)
  actor : Option Text
  deadlineMs : ℕ
  scope : Scope
  limit : Option ℕ

namespace BundleRequest

variable (q : BundleRequest)

def cap : ℕ := q.limit.elim MAX_RECORDS fun asked => min asked MAX_RECORDS

def sourceLimit : UInt32 := (min (q.cap + 1) OVER_SOURCE_CAP).toUInt32

/-- What is consulted, in order. -/
def sources : List Source :=
  q.entities.map (fun e => .entity e.1 e.2) ++ q.actor.toList.map .actor

end BundleRequest

/-- Notes a source that did not make it into the bundle, and marks the bundle incomplete. -/
def omit_ (bundle : Bundle) (reason : Omission) : Bundle :=
  { bundle with degraded := true, omitted := bundle.omitted ++ [reason] }

/-- Trims one source, saying so when there was more. -/
def capSource (bundle : Bundle) (found : List ActionRecord) (source : Source) :
    Bundle × List ActionRecord :=
  if OVER_SOURCE_CAP ≤ found.length then (omit_ bundle (.longer source), found.take PER_SOURCE_LIMIT)
  else (bundle, found)

/-- One record of a source: dropped over the cap, skipped when it was seen. -/
def takeOne (cap : ℕ) (s : List ActionRecord × List RecordId × ℕ) (record : ActionRecord) :
    List ActionRecord × List RecordId × ℕ :=
  let (records, seen, dropped) := s
  if cap ≤ records.length then (records, seen, dropped + 1)
  else if record.recordId ∈ seen then (records, seen, dropped)
  else (records ++ [record], record.recordId :: seen, dropped)

/-- Adds a source's records, up to `cap`. -/
def take (bundle : Bundle) (seen : List RecordId) (found : List ActionRecord) (source : Source)
    (cap : ℕ) : Bundle × List RecordId :=
  let (records, seen, dropped) := found.foldl (takeOne cap) (bundle.records, seen, 0)
  let bundle := { bundle with records }
  (if 0 < dropped then omit_ bundle (.over source dropped cap) else bundle, seen)

/-- The filter an actor's recent activity is read with. -/
def actorFilter (agent : Text) (limit : UInt32) (scope : Scope) : Filter :=
  { Filter.default with agent := some agent, limit := some limit, scope }

/-- The read of one source. -/
def Source.read (T : Tables) (scope : Scope) (limit : UInt32) :
    Source → Except QueryError (List ActionRecord)
  | .entity kind id => byEntityStructures T kind id MIN_CONFIDENCE none (some limit) scope
  | .actor agent => byFilterStructures T (actorFilter agent limit scope)

/-- Consults one source, unless the deadline is reached. -/
def consult (T : Tables) (q : BundleRequest) (expired : Bool) (s : Bundle × List RecordId)
    (source : Source) : Except QueryError (Bundle × List RecordId) :=
  if expired then .ok (omit_ s.1 (.deadline source), s.2)
  else do
    let found ← source.read T q.scope q.sourceLimit
    let (bundle, found) := capSource s.1 found source
    return take bundle s.2 found source q.cap

def estimateTokens (wireBytes : ActionRecord → ℕ) (records : List ActionRecord) : ℕ :=
  ((records.map wireBytes).sum + BYTES_PER_TOKEN - 1) / BYTES_PER_TOKEN

/-- Composes a bundle; `clock` is what the clock shows at each look, the first of which
    sets the deadline. -/
def compose (wireBytes : ActionRecord → ℕ) (clock : ℕ → ℕ) (T : Tables) (q : BundleRequest) :
    Except QueryError Bundle := do
  let deadline := clock 0 + q.deadlineMs
  let (bundle, _) ← q.sources.zipIdx.foldlM
    (fun s look => consult T q (deadline ≤ clock (look.2 + 1)) s look.1) (Bundle.default, [])
  return { bundle with tokenEstimate := estimateTokens wireBytes bundle.records }

/-! ## The rows of a source -/

/-- The references to a source, newest first, each with the record that makes it. -/
def Source.rows (T : Tables) (scope : Scope) : Source → List RecordRow
  | .entity kind id =>
    (orderBy (newestReference T) (entityMatches T kind id MIN_CONFIDENCE none scope)).map (·.2)
  | .actor agent => orderBy (newestRecord T) (filterMatches T (actorFilter agent 0 scope))

/-- The rows that a request has read of a source. -/
def BundleRequest.read (q : BundleRequest) (T : Tables) (s : Source) : List RecordRow :=
  (s.rows T q.scope).take q.sourceLimit.toNat

/-- The rows of it that it keeps. -/
def BundleRequest.page (q : BundleRequest) (T : Tables) (s : Source) : List RecordRow :=
  if OVER_SOURCE_CAP ≤ (q.read T s).length then (q.read T s).take PER_SOURCE_LIMIT else q.read T s

end Yaam.Core
