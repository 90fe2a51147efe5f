/-
  The JSON the index stores of a record (`yaam-store`, `store.rs`), the JSON of its file
  (`yaam-md`, `frontmatter.rs`), and what is read back of either (`yaam-contract`,
  `structure.rs`).

  * `frontmatterJson` is what serde derives, without the prose; `toCanonicalJson` the
    projection written by hand;
  * `Wire.at` is what stands at a path, `Same` that two values agree at every one;
  * `same_iff`: the two agree exactly when every confidence is the double its shortest
    decimal reads as;
  * `projections_agree_iff`: exactly when no double is nearer to that decimal, and then both
    read back as the record's structure.
-/
import Yaam.Lib.Binary
import Yaam.Md.RoundTrip

namespace Yaam.Index

open Text Contract Md Binary Binary.Format

/-! ## JSON -/

/-- A JSON value, its numbers as the decimals they are written as. -/
inductive Wire where
  | null
  | bool (v : Bool)
  | int (v : ℤ)
  | decimal (v : ℚ)
  | str (v : Text)
  | arr (items : List Wire)
  | obj (fields : List (Text × Wire))

/-- One step into a value. -/
inductive Step where
  | field (name : Text)
  | item (i : ℕ)

/-- What stands at a path. -/
def Wire.at_ : List Step → Wire → Option Wire
  | [], w => some w
  | .field name :: path, .obj fields => (fields.lookup name).bind (Wire.at_ path)
  | .item i :: path, .arr items => items[i]?.bind (Wire.at_ path)
  | _ :: _, _ => none

/-- A value without what stands inside of it. -/
def Wire.outline : Wire → Wire
  | .arr _ => .arr []
  | .obj _ => .obj []
  | w => w

/-- Two values agree at every path. -/
def Same (w w' : Wire) : Prop :=
  ∀ path, (w.at_ path).map Wire.outline = (w'.at_ path).map Wire.outline

/-! ## The index's projection -/

/-- An `f32` as a JSON number: widened, and written as its double is. -/
def widened (c : Confidence) : Wire := .decimal (f64.shortest c.value)

def snakeChar (c : Char) : Text :=
  if 'A' ≤ c ∧ c ≤ 'Z' then '_' :: asciiLower [c] else [c]

/-- serde's `snake_case` of a variant's name. -/
def snakeCase : Text → Text
  | [] => []
  | c :: t => asciiLower [c] ++ t.flatMap snakeChar

def outcomeVariant : Outcome → Text
  | .success => "Success".toList
  | .failure => "Failure".toList
  | .partly => "Partial".toList
  | .declined => "Declined".toList

def visibilityVariant : Visibility → Text
  | .owner => "Owner".toList
  | .team => "Team".toList
  | .org => "Org".toList
  | .operator => "Operator".toList

def dataClassVariant : DataClass → Text
  | .internal => "Internal".toList
  | .subjectDerived => "SubjectDerived".toList

def entityRoleVariant : EntityRole → Text
  | .primary => "Primary".toList
  | .context => "Context".toList
  | .related => "Related".toList

def subjectRoleVariant : Role → Text
  | .principal => "Principal".toList
  | .party => "Party".toList

def optionJson : Option Text → Wire
  | some v => .str v
  | none => .null

def stringsJson (vs : List Text) : Wire := .arr (vs.map .str)

def attrJson : AttrValue → Wire
  | .text v => .str v
  | .int v => .int v.toInt
  | .bool v => .bool v

def entityJson (e : EntityRef) : Wire :=
  .obj [("kind".toList, .str e.kind), ("id".toList, .str e.id),
    ("role".toList, .str (snakeCase (entityRoleVariant e.role))),
    ("confidence".toList, widened e.confidence)]

def subjectJson (s : SubjectRef) : Wire :=
  .obj [("hash".toList, .str s.hash.text), ("role".toList, .str (snakeCase (subjectRoleVariant s.role))),
    ("canon_ver".toList, .int s.canonVer.toNat)]

/-- A record as serde derives it, field by field. -/
def recordFields (r : ActionRecord) : List (Text × Wire) :=
  [("record_id".toList, .str r.recordId.text),
    ("schema_ver".toList, .int r.schemaVer.toNat),
    ("at".toList, .str r.at_),
    ("received_at".toList, .str r.receivedAt),
    ("backfilled".toList, .bool r.backfilled),
    ("agent".toList, .str r.agent),
    ("agent_ver".toList, optionJson r.agentVer),
    ("correlation_id".toList, optionJson r.correlationId),
    ("action".toList, .str r.action),
    ("outcome".toList, .str (snakeCase (outcomeVariant r.outcome))),
    ("attrs".toList, .obj (r.attrs.entries.map fun (k, v) => (k, attrJson v))),
    ("entities".toList, .arr (r.entities.map entityJson)),
    ("subjects".toList, .arr (r.subjects.map subjectJson)),
    ("visibility".toList, .str (snakeCase (visibilityVariant r.visibility))),
    ("team".toList, optionJson r.team),
    ("data_class".toList, .str (snakeCase (dataClassVariant r.dataClass))),
    ("redaction_policy".toList, .str r.redactionPolicy),
    ("fields_masked".toList, stringsJson r.fieldsMasked),
    ("tags".toList, stringsJson r.tags),
    ("summary".toList, .str r.summary)]

/-- Everything but the body. -/
def frontmatterJson (r : ActionRecord) : Wire :=
  .obj ((recordFields r).filter fun f => f.1 ≠ "summary".toList)

/-! ## The file's projection -/

/-- One scalar as JSON: a float's text is read as a double. -/
def jsonScalar : Scalar → Wire
  | .null => .null
  | .bool v => .bool v
  | .int v => .int v
  | .float v => .decimal (f64.shortest (f64.round (f32.shortest v.value)))
  | .str v => .str v

def jsonObject (es : List (Text × Scalar)) : Wire := .obj (es.map fun e => (e.1, jsonScalar e.2))

def jsonValue : Value → Wire
  | .leaf v => jsonScalar v
  | .map es => jsonObject es
  | .list vs => .arr (vs.map jsonScalar)
  | .maps ms => .arr (ms.map jsonObject)

/-- Canonical JSON projection, as stored in the index for structured queries. -/
def toCanonicalJson (r : ActionRecord) : Wire :=
  .obj ((project r).map fun f => (f.1, jsonValue f.2))

/-! ## Agreeing -/

variable {r : ActionRecord}

theorem snakeCase_outcome (o : Outcome) : snakeCase (outcomeVariant o) = outcomeName o := by
  cases o <;> decide

theorem snakeCase_visibility (v : Visibility) : snakeCase (visibilityVariant v) = visibilityName v := by
  cases v <;> decide

theorem snakeCase_dataClass (c : DataClass) : snakeCase (dataClassVariant c) = dataClassName c := by
  cases c <;> decide

theorem snakeCase_entityRole (x : EntityRole) : snakeCase (entityRoleVariant x) = entityRoleName x := by
  cases x <;> decide

theorem snakeCase_subjectRole (x : Role) : snakeCase (subjectRoleVariant x) = subjectRoleName x := by
  cases x <;> decide

theorem optionJson_eq (o : Option Text) : optionJson o = jsonValue (optionalText o) := by
  cases o <;> rfl

theorem stringsJson_eq (vs : List Text) : stringsJson vs = jsonValue (stringList vs) := by
  rw [stringsJson, stringList, jsonValue, List.map_map]
  rfl

theorem attrJson_eq (v : AttrValue) : attrJson v = jsonScalar (attrScalar v) := by
  cases v <;> rfl

theorem subjectJson_eq (s : SubjectRef) : subjectJson s = jsonObject (subjectFields s) := by
  rw [subjectJson, snakeCase_subjectRole]
  rfl

/-- The two write an entity alike but for its confidence. -/
theorem entityJson_eq (e : EntityRef) : entityJson e = .obj [("kind".toList, .str e.kind),
    ("id".toList, .str e.id), ("role".toList, .str (entityRoleName e.role)),
    ("confidence".toList, widened e.confidence)] := by
  rw [entityJson, snakeCase_entityRole]

/-- **What the index stores is the file's projection**, but for the entities. -/
theorem frontmatterJson_eq (r : ActionRecord) : frontmatterJson r = .obj ((project r).map fun f =>
    (f.1, if f.1 = "entities".toList then .arr (r.entities.map entityJson) else jsonValue f.2)) := by
  have hattrs : (r.attrs.entries.map fun (k, v) => (k, attrJson v)) =
      (r.attrs.entries.map fun (k, v) => (k, attrScalar v)).map fun e => (e.1, jsonScalar e.2) := by
    rw [List.map_map]
    exact List.map_congr_left fun a _ => congrArg (Prod.mk a.1) (attrJson_eq a.2)
  have hsubjects : r.subjects.map subjectJson = (r.subjects.map subjectFields).map jsonObject := by
    rw [List.map_map]
    exact List.map_congr_left fun s _ => subjectJson_eq s
  rw [frontmatterJson, recordFields, snakeCase_outcome, snakeCase_visibility, snakeCase_dataClass,
    optionJson_eq, optionJson_eq, optionJson_eq, stringsJson_eq, stringsJson_eq, hattrs, hsubjects]
  rfl

/-! ## Confidences -/

theorem holds_f32 (c : Confidence) : f32.Holds c.value := by
  obtain ⟨m, e, hm, he, -, hq⟩ := c.isF32
  refine ⟨m, e, ?_, he, hq⟩
  rw [Int.abs_eq_natAbs]
  exact_mod_cast hm

/-- A confidence is a double with digits to spare. -/
theorem exists_f64 (c : Confidence) : ∃ m e : ℤ, |m| < 2 ^ (f64.bits - 1) ∧ f64.least < e ∧
    c.value = m * 2 ^ e := by
  obtain ⟨m, e, hm, he, -, hq⟩ := c.isF32
  refine ⟨m, e, ?_, lt_of_lt_of_le (by decide) he, hq⟩
  have habs : |m| < 2 ^ 24 := by
    rw [Int.abs_eq_natAbs]
    exact_mod_cast hm
  exact habs.trans (by decide)

theorem holds_f64 (c : Confidence) : f64.Holds c.value := by
  obtain ⟨m, e, hm, he, hq⟩ := exists_f64 c
  exact ⟨m, e, hm.trans (by decide), he.le, hq⟩

/-- No double is nearer to the shortest decimal of a confidence. -/
def Nearest (c : Confidence) : Prop :=
  ∀ y, f64.Holds y → |f32.shortest c.value - c.value| ≤ |f32.shortest c.value - y|

/-- The decimal of a confidence reads as it exactly when no double is nearer. -/
theorem round_shortest_iff (c : Confidence) :
    f64.round (f32.shortest c.value) = c.value ↔ Nearest c := by
  constructor
  · intro h y hy
    have hnearest := round_nearest (f32.shortest c.value) hy
    rwa [h] at hnearest
  · intro h
    obtain ⟨m, e, hm, he, hq⟩ := exists_f64 c
    rw [hq]
    exact round_eq_of_nearest hm he fun y hy => hq ▸ h y hy

theorem decimal_iff (c : Confidence) :
    widened c = jsonScalar (.float c) ↔ f64.round (f32.shortest c.value) = c.value := by
  constructor
  · intro h
    exact (shortest_injOn (holds_f64 c) (holds_round _) (Wire.decimal.inj h)).symm
  · intro h
    rw [widened, jsonScalar, h]

/-- The confidence of an entity, in either projection. -/
theorem at_confidence {i : ℕ} {e : EntityRef} (h : r.entities[i]? = some e) :
    (frontmatterJson r).at_ [.field "entities".toList, .item i, .field "confidence".toList] =
      some (widened e.confidence) ∧
    (toCanonicalJson r).at_ [.field "entities".toList, .item i, .field "confidence".toList] =
      some (jsonScalar (.float e.confidence)) := by
  constructor
  · show (r.entities.map entityJson)[i]?.bind (Wire.at_ [.field "confidence".toList]) = _
    rw [List.getElem?_map, h]
    rfl
  · show ((r.entities.map entityFields).map jsonObject)[i]?.bind
      (Wire.at_ [.field "confidence".toList]) = _
    rw [List.getElem?_map, List.getElem?_map, h]
    rfl

theorem projections_eq (h : ∀ e ∈ r.entities, widened e.confidence = jsonScalar (.float e.confidence)) :
    frontmatterJson r = toCanonicalJson r := by
  have hentities : r.entities.map entityJson = (r.entities.map entityFields).map jsonObject := by
    rw [List.map_map]
    refine List.map_congr_left fun e he => ?_
    rw [entityJson_eq, h e he]
    rfl
  rw [frontmatterJson_eq, toCanonicalJson, hentities]
  rfl

/-- **The two agree exactly when** every confidence is the double that its shortest decimal
    reads as. -/
theorem same_iff : Same (frontmatterJson r) (toCanonicalJson r) ↔
    ∀ e ∈ r.entities, f64.round (f32.shortest e.confidence.value) = e.confidence.value := by
  constructor
  · intro h e he
    obtain ⟨i, hi⟩ := List.getElem?_of_mem he
    have hat := h [.field "entities".toList, .item i, .field "confidence".toList]
    rw [(at_confidence hi).1, (at_confidence hi).2] at hat
    exact (decimal_iff e.confidence).1 (Option.some.inj hat)
  · intro h path
    rw [projections_eq fun e he => (decimal_iff e.confidence).2 (h e he)]

/-! ## Reading back -/

/-- What serde_json writes for a number, and what it reads of that as an `f32`. -/
structure Numbers where
  spell : ℚ → Text
  spell_chars : ∀ v, ∀ c ∈ spell v, floatChar c = true
  read : Text → Option Confidence

/-- The confidences that it writes and reads. -/
def Numbers.floats (N : Numbers) : Floats where
  debug c := N.spell (f64.shortest c.value)
  debug_chars _ := N.spell_chars _
  read := N.read

mutual

/-- A value as it is written. -/
def Wire.json (N : Numbers) : Wire → Json
  | .null => .null
  | .bool v => .bool v
  | .int v => .int v
  | .decimal v => .float (N.spell v)
  | .str v => .str v
  | .arr items => .arr (Wire.jsons N items)
  | .obj fields => .obj (Wire.jsonFields N fields)

def Wire.jsons (N : Numbers) : List Wire → List Json
  | [] => []
  | w :: ws => w.json N :: Wire.jsons N ws

def Wire.jsonFields (N : Numbers) : List (Text × Wire) → List (Text × Json)
  | [] => []
  | (k, w) :: fs => (k, w.json N) :: Wire.jsonFields N fs

end

/-- A record's structure from its fields: it has no field for prose, and denies unknown
    ones. -/
def asStructure (F : Floats) : Json → Except String ActionRecord
  | .obj fields =>
    if "summary".toList ∈ fields.map Prod.fst then .error s!"unknown field `summary`, {oneOf keys}"
    else asRecord F (.obj (fields ++ [("summary".toList, .str [])]))
  | j => invalidType j "struct RecordStructure"

variable {N : Numbers}

theorem jsons_map {α : Type} {f : α → Wire} {g : α → Json} {xs : List α}
    (h : ∀ x, (f x).json N = g x) : Wire.jsons N (xs.map f) = xs.map g := by
  induction xs with
  | nil => rfl
  | cons x xs ih => rw [List.map_cons, Wire.jsons, h, ih, List.map_cons]

theorem json_attrs (a : AttrMap) : Wire.jsonFields N (a.entries.map fun (k, v) => (k, attrJson v)) =
    (a.entries.map fun (k, v) => (k, attrScalar v)).map (jsonEntry N.floats) := by
  induction a.entries with
  | nil => rfl
  | cons e es ih =>
    obtain ⟨k, v⟩ := e
    rw [List.map_cons, Wire.jsonFields, ih]
    cases v <;> rfl

/-- **What the index stores is written as the file's fields** are, its confidences as
    serde_json writes them. -/
theorem json_frontmatterJson (N : Numbers) (r : ActionRecord) : (frontmatterJson r).json N =
    .obj ((project r).map fun f => (f.1, jsonOf N.floats f.2)) := by
  have hoption : ∀ o, (optionJson o).json N = jsonOf N.floats (optionalText o) := by
    intro o
    cases o <;> rfl
  have hstrings : ∀ vs, (stringsJson vs).json N = jsonOf N.floats (stringList vs) := by
    intro vs
    rw [stringsJson, Wire.json, jsons_map fun _ => rfl, stringList, jsonOf, List.map_map]
    rfl
  have hentities : Wire.jsons N (r.entities.map entityJson) =
      (r.entities.map entityFields).map fun m => .obj (m.map (jsonEntry N.floats)) := by
    rw [List.map_map]
    refine jsons_map fun e => ?_
    rw [entityJson_eq]
    rfl
  have hsubjects : Wire.jsons N (r.subjects.map subjectJson) =
      (r.subjects.map subjectFields).map fun m => .obj (m.map (jsonEntry N.floats)) := by
    rw [List.map_map]
    refine jsons_map fun s => ?_
    rw [subjectJson_eq]
    rfl
  have hfields : (frontmatterJson r).json N = .obj (Wire.jsonFields N
      ((recordFields r).filter fun f => f.1 ≠ "summary".toList)) := by
    rw [frontmatterJson, Wire.json]
  rw [hfields, recordFields, snakeCase_outcome, snakeCase_visibility, snakeCase_dataClass]
  show Json.obj [_, _, _, _, _, _, (_, (optionJson _).json N), (_, (optionJson _).json N), _, _,
    (_, .obj (Wire.jsonFields N _)), (_, .arr (Wire.jsons N _)), (_, .arr (Wire.jsons N _)), _,
    (_, (optionJson _).json N), _, _, (_, (stringsJson _).json N), (_, (stringsJson _).json N)] = _
  rw [hoption, hoption, hoption, hstrings, hstrings, json_attrs, hentities, hsubjects]
  rfl

/-- What the index stores reads back as the record's structure. -/
theorem asStructure_frontmatterJson
    (hN : ∀ e ∈ r.entities, N.read (N.spell (f64.shortest e.confidence.value)) = some e.confidence) :
    asStructure N.floats ((frontmatterJson r).json N) = .ok r.bare := by
  have hkeys : ((project r).map fun f => (f.1, jsonOf N.floats f.2)).map Prod.fst = keys := by
    rw [List.map_map]
    exact keys_eq r
  have hsummary : "summary".toList ∉ keys := by decide
  rw [json_frontmatterJson, asStructure, hkeys, if_neg hsummary]
  exact asRecord_fieldsJson hN

/-- **The index and the file project a record to one JSON**, and both read back as its
    structure, exactly when no double is nearer to a confidence's shortest decimal than the
    confidence is. -/
theorem projections_agree_iff (N : Numbers) (r : ActionRecord)
    (hN : ∀ e ∈ r.entities, N.read (N.spell (f64.shortest e.confidence.value)) = some e.confidence) :
    (Same (frontmatterJson r) (toCanonicalJson r) ∧
      asStructure N.floats ((frontmatterJson r).json N) = .ok r.bare ∧
      asStructure N.floats ((toCanonicalJson r).json N) = .ok r.bare) ↔
    ∀ e ∈ r.entities, Nearest e.confidence := by
  have hnearest : (∀ e ∈ r.entities, Nearest e.confidence) ↔
      ∀ e ∈ r.entities, f64.round (f32.shortest e.confidence.value) = e.confidence.value :=
    forall₂_congr fun e _ => (round_shortest_iff e.confidence).symm
  rw [hnearest]
  refine ⟨fun h => same_iff.1 h.1, fun h => ?_⟩
  have heq := projections_eq fun e he => (decimal_iff e.confidence).2 (h e he)
  exact ⟨same_iff.2 h, asStructure_frontmatterJson hN, heq ▸ asStructure_frontmatterJson hN⟩

/-! ## A stated and an inferred entity -/

open Core in
/-- A record that names a ticket with this confidence. -/
def confident (c : Confidence) : ActionRecord :=
  { plainRecord (ulid 'A' isCrockfordDigit_A) "2026-01-01T00:00:00Z".toList with
    entities := [⟨"ticket".toList, "PROJ-42".toList, .primary, c⟩] }

/-- One, as serde_json writes and reads it. -/
def one : Numbers where
  spell v := if f64.round v = 1 then "1.0".toList else []
  spell_chars v := by
    split_ifs
    · decide
    · exact fun _ hc => absurd hc List.not_mem_nil
  read t := if t = "1.0".toList then some fieldConfidence else none

/-- What is read out of a field has one JSON. -/
theorem projections_agree_field : (confident fieldConfidence).validate = .ok () ∧
    Same (frontmatterJson (confident fieldConfidence)) (toCanonicalJson (confident fieldConfidence)) ∧
    asStructure one.floats ((frontmatterJson (confident fieldConfidence)).json one) =
      .ok (confident fieldConfidence).bare ∧
    asStructure one.floats ((toCanonicalJson (confident fieldConfidence)).json one) =
      .ok (confident fieldConfidence).bare := by
  have hone : f64.round (f64.shortest fieldConfidence.value) = 1 := round_shortest (holds_f64 fieldConfidence)
  have hdecimal : f32.shortest fieldConfidence.value = 1 := by decide +kernel
  refine ⟨Core.ok_of_toOption (by decide +kernel), (projections_agree_iff one _ ?_).2 ?_⟩
  · intro e he
    obtain rfl := List.mem_singleton.1 he
    show one.read (if f64.round (f64.shortest fieldConfidence.value) = 1 then _ else _) = _
    rw [if_pos hone]
    rfl
  · intro e he y _
    obtain rfl := List.mem_singleton.1 he
    have hvalue : fieldConfidence.value = 1 := rfl
    show |f32.shortest fieldConfidence.value - fieldConfidence.value| ≤ _
    rw [hdecimal, hvalue, sub_self, abs_zero]
    exact abs_nonneg _

/-- The `f32` that is written `0.82`. -/
def likely : Confidence :=
  ⟨13757317 / 16777216, 13757317, -24, by decide, by decide, by decide, by norm_num⟩

/-- **What is inferred has two**: `0.82` in the file, `0.8199999928474426` in the index. -/
theorem widened_confidence_differs : (confident likely).validate = .ok () ∧
    f32.shortest likely.value = 82 / 100 ∧
    ¬ Same (frontmatterJson (confident likely)) (toCanonicalJson (confident likely)) := by
  have hdecimal : f32.shortest likely.value = 82 / 100 := by decide +kernel
  have hround : f64.round (82 / 100) ≠ likely.value := by decide +kernel
  have hentity : (⟨"ticket".toList, "PROJ-42".toList, .primary, likely⟩ : EntityRef) ∈
      (confident likely).entities := List.mem_cons_self
  refine ⟨Core.ok_of_toOption (by decide +kernel), hdecimal, ?_⟩
  intro h
  rw [same_iff] at h
  have hsame := h _ hentity
  rw [hdecimal] at hsame
  exact hround hsame

end Yaam.Index
