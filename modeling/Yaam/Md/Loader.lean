/-
  From a YAML document to a record (`yaam-md`, `frontmatter.rs`, and what the contract
  derives with serde).

  * `toJson` turns a parsed node into JSON, `fromYaml` a document into a record: only the
    keys of a record, each of its own type;
  * `Floats` is the text of a confidence and its reader, `loaded` the frontmatter reader
    over a YAML loader;
  * `Loads` says of a loader that it reads block mappings and sequences, plain and
    double-quoted scalars as YAML 1.2 specifies.
-/
import Yaam.Lib.BlockYaml
import Yaam.Md.Frontmatter
import Mathlib.Data.List.Sort

namespace Yaam.Md

open Text Contract BlockYaml

/-- The frontmatter keys, in render order. -/
def keys : List Text :=
  ["record_id".toList, "schema_ver".toList, "at".toList, "received_at".toList, "backfilled".toList,
    "agent".toList, "agent_ver".toList, "correlation_id".toList, "action".toList, "outcome".toList,
    "attrs".toList, "entities".toList, "subjects".toList, "visibility".toList, "team".toList,
    "data_class".toList, "redaction_policy".toList, "fields_masked".toList, "tags".toList]

/-! ## JSON -/

/-- A JSON value; a float is kept as it was spelled. -/
inductive Json where
  | null
  | bool (v : Bool)
  | int (v : ℤ)
  | float (spelling : Text)
  | str (v : Text)
  | arr (items : List Json)
  | obj (fields : List (Text × Json))

/-- A mapping key, which must be a string. -/
def keyStr : BlockYaml.Scalar → Except String Text
  | .str k => .ok k
  | _ => .error "mapping keys must be strings"

def yamlScalarToJson : BlockYaml.Scalar → Except String Json
  | .null => .ok .null
  | .bool v => .ok (.bool v)
  | .int v => .ok (.int v)
  | .float t =>
    if isInfinity t || isNan t then .error s!"`{String.ofList t}` is not a finite number"
    else .ok (.float t)
  | .str v => .ok (.str v)

mutual

/-- A parsed node as JSON, so that the contract does the typing. -/
def toJson : Node → Except String Json
  | .scalar v => yamlScalarToJson v
  | .seq items => (toJsons items).map .arr
  | .map entries => (toFields entries).map .obj

def toJsons : List Node → Except String (List Json)
  | [] => .ok []
  | n :: ns => do
    let j ← toJson n
    let js ← toJsons ns
    .ok (j :: js)

def toFields : List (BlockYaml.Scalar × Node) → Except String (List (Text × Json))
  | [] => .ok []
  | (k, n) :: es => do
    let key ← keyStr k
    let j ← toJson n
    let fields ← toFields es
    .ok ((key, j) :: fields)

end

/-! ## Typing -/

/-- The shortest text of an `f32`, and how text is read as one. -/
structure Floats where
  debug : Confidence → Text
  debug_chars : ∀ v, ∀ c ∈ debug v, floatChar c = true
  read : Text → Option Confidence

/-- How a JSON value is named where another was expected. -/
def Json.unexpected : Json → String
  | .null => "null"
  | .bool v => s!"boolean `{v}`"
  | .int v => s!"integer `{v}`"
  | .float t => s!"floating point `{String.ofList t}`"
  | .str v => s!"string \"{String.ofList v}\""
  | .arr _ => "sequence"
  | .obj _ => "map"

def invalidType {α : Type} (j : Json) (expected : String) : Except String α :=
  .error s!"invalid type: {j.unexpected}, expected {expected}"

def asStr : Json → Except String Text
  | .str v => .ok v
  | j => invalidType j "a string"

def asBool : Json → Except String Bool
  | .bool v => .ok v
  | j => invalidType j "a boolean"

def asU32 : Json → Except String UInt32
  | .int v => if 0 ≤ v ∧ v < 2 ^ 32 then .ok (UInt32.ofNat v.toNat)
    else .error s!"invalid value: integer `{v}`, expected u32"
  | j => invalidType j "u32"

def asF32 (F : Floats) : Json → Except String Confidence
  | .float t => (F.read t).elim (invalidType (.float t) "f32") .ok
  | .int v => (F.read (padInt 0 v)).elim (invalidType (.int v) "f32") .ok
  | j => invalidType j "f32"

def asOption {α : Type} (as_ : Json → Except String α) : Json → Except String (Option α)
  | .null => .ok none
  | j => (as_ j).map some

def asList {α : Type} (as_ : Json → Except String α) : Json → Except String (List α)
  | .arr items => items.mapM as_
  | j => invalidType j "a sequence"

/-- The names a message offers. -/
def oneOf (names : List Text) : String :=
  "expected one of " ++ String.intercalate ", " (names.map fun n => s!"`{String.ofList n}`")

/-- The value of an enumeration that has a name. -/
def asName {α : Type} (all : List α) (name : α → Text) : Json → Except String α
  | .str v => match all.find? fun a => name a = v with
    | some a => .ok a
    | none => .error s!"unknown variant `{String.ofList v}`, {oneOf (all.map name)}"
  | j => invalidType j "string or map"

/-- The fields of a struct that denies all others. -/
def asFields (struct_ : String) (names : List Text) : Json → Except String (List (Text × Json))
  | .obj fields => match fields.find? fun f => f.1 ∉ names with
    | some f => .error s!"unknown field `{String.ofList f.1}`, {oneOf names}"
    | none => .ok fields
  | j => invalidType j s!"struct {struct_}"

/-- A field that has to be there. -/
def required {α : Type} (fields : List (Text × Json)) (name : Text) (as_ : Json → Except String α) :
    Except String α :=
  match fields.lookup name with
  | none => .error s!"missing field `{String.ofList name}`"
  | some j => as_ j

/-- A field that may be left out. -/
def optional {α : Type} (fields : List (Text × Json)) (name : Text) (as_ : Json → Except String α) :
    Except String (Option α) :=
  match fields.lookup name with
  | none => .ok none
  | some j => asOption as_ j

/-- An attribute's value: the first of its types that takes the value. -/
def asAttr : Json → Except String AttrValue
  | .str v => .ok (.text v)
  | .int v => if -2 ^ 63 ≤ v ∧ v < 2 ^ 63 then .ok (.int (Int64.ofInt v))
    else .error "data did not match any variant of untagged enum Value"
  | .bool v => .ok (.bool v)
  | _ => .error "data did not match any variant of untagged enum Value"

/-- Attributes in the order of their keys. -/
def asAttrs : Json → Except String AttrMap
  | .obj fields => do
    let attrs ← fields.mapM fun f => (asAttr f.2).map fun v => (f.1, v)
    let sorted := attrs.insertionSort fun a b => a.1 ≤ b.1
    if h : (sorted.map Prod.fst).Pairwise (· < ·) then .ok ⟨sorted, h⟩
    else .error "duplicate key"
  | j => invalidType j "a map"

def asEntity (F : Floats) (j : Json) : Except String EntityRef := do
  let fs ← asFields "EntityRef" ["kind".toList, "id".toList, "role".toList, "confidence".toList] j
  let kind ← required fs "kind".toList asStr
  let id ← required fs "id".toList asStr
  let role ← required fs "role".toList (asName [.primary, .context, .related] entityRoleName)
  let confidence ← required fs "confidence".toList (asF32 F)
  .ok { kind, id, role, confidence }

def asSubject (j : Json) : Except String SubjectRef := do
  let fs ← asFields "SubjectRef" ["hash".toList, "role".toList, "canon_ver".toList] j
  let text ← required fs "hash".toList asStr
  let hash ← (SubjectHash.parse text).mapError (·.display)
  let role ← required fs "role".toList (asName [.principal, .party] subjectRoleName)
  let canonVer ← required fs "canon_ver".toList asU32
  .ok { hash, role, canonVer }

/-- A record from its fields (`serde_json::from_value`). -/
def asRecord (F : Floats) (j : Json) : Except String ActionRecord := do
  let fs ← asFields "ActionRecord" (keys ++ ["summary".toList]) j
  let id ← required fs "record_id".toList asStr
  let recordId ← (RecordId.parse id).mapError (·.display)
  let schemaVer ← required fs "schema_ver".toList asU32
  let at_ ← required fs "at".toList asStr
  let receivedAt ← required fs "received_at".toList asStr
  let backfilled ← required fs "backfilled".toList asBool
  let agent ← required fs "agent".toList asStr
  let agentVer ← optional fs "agent_ver".toList asStr
  let correlationId ← optional fs "correlation_id".toList asStr
  let action ← required fs "action".toList asStr
  let outcome ← required fs "outcome".toList
    (asName [.success, .failure, .partly, .declined] outcomeName)
  let attrs ← required fs "attrs".toList asAttrs
  let entities ← required fs "entities".toList (asList (asEntity F))
  let subjects ← required fs "subjects".toList (asList asSubject)
  let visibility ← required fs "visibility".toList
    (asName [.owner, .team, .org, .operator] visibilityName)
  let team ← optional fs "team".toList asStr
  let dataClass ← required fs "data_class".toList
    (asName [.internal, .subjectDerived] dataClassName)
  let redactionPolicy ← required fs "redaction_policy".toList asStr
  let fieldsMasked ← required fs "fields_masked".toList (asList asStr)
  let tags ← required fs "tags".toList (asList asStr)
  let summary ← required fs "summary".toList asStr
  .ok { recordId, schemaVer, at_, receivedAt, backfilled, agent, agentVer, correlationId, action,
        outcome, attrs, entities, subjects, visibility, team, dataClass, redactionPolicy,
        fieldsMasked, tags, summary }

/-! ## Loading -/

/-- One field of a document: its key, which has to be a record's, and its value. -/
def yamlField (e : BlockYaml.Scalar × Node) : Except String (Text × Json) := do
  let key ← keyStr e.1
  if key ∈ keys then do
    let j ← toJson e.2
    .ok (key, j)
  else .error s!"unexpected frontmatter key `{String.ofList key}`"

/-- The first document as a record without prose. -/
def fromYaml (F : Floats) : List Node → Except String ActionRecord
  | .map entries :: _ => do
    let fields ← entries.mapM yamlField
    asRecord F (.obj (fields ++ [("summary".toList, .str [])]))
  | _ => .error "expected a mapping at the top level"

/-- The frontmatter reader over a YAML loader. -/
def loaded (L : Text → Except String (List Node)) (F : Floats) : Yaml where
  read t := do
    let docs ← L t
    fromYaml F docs
  debug := F.debug
  debug_chars := F.debug_chars

/-- **A loader reads YAML 1.2**: what is a document of block mappings and sequences, plain
    and double-quoted scalars it reads as that document, and it refuses one that is such a
    document but for the length of its implicit keys. -/
structure Loads (L : Text → Except String (List Node)) : Prop where
  accepts : ∀ t n, read implicitKey t = some n → L t = .ok [n]
  refuses : ∀ t n, read (fun _ => true) t = some n → read implicitKey t = none → ∃ e, L t = .error e

/-- Confidences are spelled as floats that read back. -/
structure Floats.Faithful (F : Floats) : Prop where
  spells : ∀ c, Spells (F.debug c) (.float (F.debug c))
  back : ∀ c, F.read (F.debug c) = some c

end Yaam.Md
