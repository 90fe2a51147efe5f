/-
  The action record and the values it is made of (`yaam-contract`: `ids.rs`,
  `entity.rs`, `attrs.rs`, `record.rs`).

  * `RecordId` and `SubjectHash` hold only canonical identifiers, `AttrMap` only
    attributes in key order, `Confidence` only finite `f32` values;
  * `ActionRecord.validate` is the contract's own check, `validate_ok_iff` what a
    record that passes it satisfies;
  * `Registry.canonicalise` and `Schema.validateFrontmatter` check a record's
    entities and attributes against a deployment's configuration.
-/
import Yaam.Contract.Timestamp
import Mathlib.Data.Rat.Defs
import Mathlib.Data.List.Sort
import Mathlib.Data.Finset.Attr
import Mathlib.Algebra.Order.Ring.Rat

namespace Yaam.Contract

open Text

/-! ## Errors -/

/-- Contract-level failures. -/
inductive Error where
  | notCanonical (kind : String) (id : Text)
  | unknownEntityKind (kind : Text)
  | undeclaredAttr (action key : Text)
  | sensitiveAttrInFrontmatter (key : Text)
  | invalid (detail : String)

def Error.display : Error → String
  | .notCanonical kind id => s!"entity id `{String.ofList id}` is not canonical for kind `{kind}`"
  | .unknownEntityKind kind => s!"unknown entity kind `{String.ofList kind}`"
  | .undeclaredAttr action key =>
    s!"attribute `{String.ofList key}` is not declared for action `{String.ofList action}`"
  | .sensitiveAttrInFrontmatter key =>
    s!"attribute `{String.ofList key}` is classified sensitive and may not appear in frontmatter"
  | .invalid detail => s!"invalid record: {detail}"

/-- Refuses with an error when a condition holds. -/
def refuseIf {ε : Type} (c : Prop) [Decidable c] (e : ε) : Except ε Unit :=
  if c then .error e else .ok ()

@[simp] theorem refuseIf_ok {ε : Type} {c : Prop} [Decidable c] {e : ε} {u : Unit} :
    refuseIf c e = .ok u ↔ ¬ c := by
  unfold refuseIf
  split_ifs with h <;> simp [h]

theorem bind_ok {ε α β : Type} {x : Except ε α} {f : α → Except ε β} {b : β} :
    (x >>= f) = .ok b ↔ ∃ a, x = .ok a ∧ f a = .ok b := by
  cases x <;> simp [bind, Except.bind]

theorem forM_ok {ε α : Type} {f : α → Except ε Unit} {xs : List α} {u : Unit} :
    forM xs f = .ok u ↔ ∀ x ∈ xs, f x = .ok () := by
  induction xs with
  | nil => simp [pure, Except.pure]
  | cons x xs ih => simp only [List.forM_cons, bind_ok, ih, List.forall_mem_cons]; simp [Unique.exists_iff]

theorem mapM_ok_iff {ε α β : Type} {f : α → Except ε β} {xs : List α} {ys : List β}
    (h : xs.mapM f = .ok ys) (y : β) : y ∈ ys ↔ ∃ x ∈ xs, f x = .ok y := by
  induction xs generalizing ys with
  | nil =>
    cases h
    simp
  | cons x xs ih =>
    rw [List.mapM_cons] at h
    obtain ⟨z, hz, h⟩ := bind_ok.1 h
    obtain ⟨zs, hzs, h⟩ := bind_ok.1 h
    cases h
    have hx : f x = .ok y ↔ y = z := by rw [hz, Except.ok.injEq, eq_comm]
    rw [List.mem_cons, ih hzs, List.exists_mem_cons_iff, hx]

theorem exists_mapM {ε α β : Type} {f : α → Except ε β} {xs : List α}
    (h : ∀ x ∈ xs, ∃ y, f x = .ok y) : ∃ ys, xs.mapM f = .ok ys := by
  induction xs with
  | nil => exact ⟨[], rfl⟩
  | cons x xs ih =>
    obtain ⟨y, hy⟩ := h x (by simp)
    obtain ⟨ys, hys⟩ := ih fun z hz => h z (by simp [hz])
    refine ⟨y :: ys, ?_⟩
    rw [List.mapM_cons, hy, hys]
    rfl

theorem mapM_ok_mem {ε α β : Type} {f : α → Except ε β} {xs : List α} {ys : List β}
    (h : xs.mapM f = .ok ys) : ∀ x ∈ xs, ∃ y, f x = .ok y := by
  induction xs generalizing ys with
  | nil => nofun
  | cons x xs ih =>
    rw [List.mapM_cons] at h
    obtain ⟨z, hz, h⟩ := bind_ok.1 h
    obtain ⟨zs, hzs, -⟩ := bind_ok.1 h
    rintro w hw
    rcases List.mem_cons.1 hw with rfl | hw
    · exact ⟨z, hz⟩
    · exact ih hzs w hw

/-! ## Identifiers -/

/-- Crockford base32 digits as a ULID spells them. -/
def isCrockfordDigit (c : Char) : Bool :=
  isDigit c || ('A' ≤ c && c ≤ 'H') || c == 'J' || c == 'K' || c == 'M' || c == 'N' ||
    ('P' ≤ c && c ≤ 'T') || ('V' ≤ c && c ≤ 'Z')

theorem isCrockfordDigit_A : isCrockfordDigit 'A' = true := by decide

theorem isCrockfordDigit_B : isCrockfordDigit 'B' = true := by decide

/-- A lowercase hex digit. -/
def isLowerHex (c : Char) : Bool := isDigit c || ('a' ≤ c && c ≤ 'f')

/-- What `RecordId::try_from` accepts. -/
def isRecordId (t : Text) : Bool := t.length == 26 && t.all isCrockfordDigit

/-- What `SubjectHash::try_from` accepts: `s_` and 64 lowercase hex digits. -/
def isSubjectHash (t : Text) : Bool :=
  t.length == 66 && (stripPrefix "s_".toList t).any fun d => d.all isLowerHex

theorem isSubjectHash_as : isSubjectHash ("s_".toList ++ List.replicate 64 'a') = true := by decide

/-- A record's ULID, the idempotency key of its write. -/
structure RecordId where
  text : Text
  canonical : isRecordId text = true
deriving DecidableEq

/-- A keyed pseudonym for an erasable data subject. -/
structure SubjectHash where
  text : Text
  canonical : isSubjectHash text = true
deriving DecidableEq

def RecordId.parse (t : Text) : Except Error RecordId :=
  if h : isRecordId t = true then .ok ⟨t, h⟩ else .error (.notCanonical "record" t)

def SubjectHash.parse (t : Text) : Except Error SubjectHash :=
  if h : isSubjectHash t = true then .ok ⟨t, h⟩ else .error (.notCanonical "subject" t)

theorem RecordId.ext_text {i j : RecordId} (h : i.text = j.text) : i = j := by
  cases i
  cases j
  simpa using h

theorem SubjectHash.ext_text {s s' : SubjectHash} (h : s.text = s'.text) : s = s' := by
  cases s
  cases s'
  simpa using h

theorem RecordId.length_text (id : RecordId) : id.text.length = 26 := by
  have h := id.canonical
  simp only [isRecordId, Bool.and_eq_true, beq_iff_eq] at h
  exact h.1

theorem SubjectHash.length_text (s : SubjectHash) : s.text.length = 66 := by
  have h := s.canonical
  simp only [isSubjectHash, Bool.and_eq_true, beq_iff_eq] at h
  exact h.1

@[simp] theorem RecordId.parse_text (i : RecordId) : RecordId.parse i.text = .ok i := by
  simp [RecordId.parse, i.canonical]

@[simp] theorem SubjectHash.parse_text (s : SubjectHash) : SubjectHash.parse s.text = .ok s := by
  simp [SubjectHash.parse, s.canonical]

theorem RecordId.text_ne_nil (id : RecordId) : id.text ≠ [] := by
  intro h
  have := id.canonical
  simp [isRecordId, h] at this

theorem SubjectHash.parse_ok {t : Text} {s : SubjectHash} (h : SubjectHash.parse t = .ok s) :
    s.text = t := by
  unfold SubjectHash.parse at h
  split_ifs at h
  cases h
  rfl

/-- The characters of a subject hash. -/
theorem SubjectHash.mem_text {s : SubjectHash} {c : Char} (h : c ∈ s.text) :
    c = 's' ∨ c = '_' ∨ isLowerHex c = true := by
  have hc := s.canonical
  simp only [isSubjectHash, Bool.and_eq_true, Option.any_eq_true] at hc
  obtain ⟨-, d, hd, hall⟩ := hc
  rw [stripPrefix_eq_some hd] at h
  have : c = 's' ∨ c = '_' ∨ c ∈ d := by simpa using h
  rcases this with h | h | h
  · exact .inl h
  · exact .inr (.inl h)
  · exact .inr (.inr (List.all_eq_true.1 hall c h))

/-! ## Entities -/

/-- A finite `f32` value, exactly. -/
def IsF32 (q : ℚ) : Prop :=
  ∃ m e : ℤ, m.natAbs < 2 ^ 24 ∧ -149 ≤ e ∧ e ≤ 104 ∧ q = m * 2 ^ e

theorem isF32_half : IsF32 (1 / 2) := ⟨1, -1, by decide, by decide, by decide, by norm_num⟩

/-- An extraction confidence: a finite `f32`. -/
structure Confidence where
  value : ℚ
  isF32 : IsF32 value
deriving DecidableEq

/-- `FIELD_CONFIDENCE`: the confidence of a reference read out of a field. -/
def fieldConfidence : Confidence := ⟨1, 1, 0, by decide, by decide, by decide, by simp⟩

/-- The part an entity plays in a record. -/
inductive EntityRole where
  | primary
  | context
  | related
deriving DecidableEq

/-- An entity a record joins on. -/
structure EntityRef where
  kind : Text
  id : Text
  role : EntityRole
  confidence : Confidence
deriving DecidableEq

/-- A step of a kind's canonicalisation. -/
inductive Normalise where
  | trim
  | lowercase
  | uppercasePrefix
  | lowercasePath

/-- Rust's `str::to_lowercase` and `str::to_uppercase`: Unicode's tables. -/
structure Casing where
  lower : Text → Text
  upper : Text → Text

/-- Recases an identifier up to its first separator. -/
def recase (seps : List Char) (f : Text → Text) (id : Text) : Text :=
  f (id.takeWhile (· ∉ seps)) ++ id.dropWhile (· ∉ seps)

def Normalise.apply (K : Casing) (id : Text) : Normalise → Text
  | .trim => Text.trim id
  | .lowercase => K.lower id
  | .uppercasePrefix => recase ['-', '/', ':', '#', '@'] K.upper id
  | .lowercasePath => recase [':', '#', '@'] K.lower id

/-- One configured kind: its normalisation and its anchored pattern. -/
structure KindSpec where
  name : Text
  pattern : Text → Bool
  normalise : List Normalise

/-- The entity kinds a deployment configures. -/
structure Registry where
  casing : Casing
  kinds : List KindSpec

def Registry.canonicalise (R : Registry) (kind id : Text) : Except Error Text :=
  match R.kinds.find? (·.name = kind) with
  | none => .error (.unknownEntityKind kind)
  | some k =>
    let candidate := k.normalise.foldl (Normalise.apply R.casing) id
    if k.pattern candidate then .ok candidate else .error (.notCanonical (String.ofList kind) id)

/-- The escapes of a path segment. -/
def escapes : List (Char × Char) := [('~', '~'), ('/', 's'), (':', 'c'), ('#', 'h'), ('@', 'a')]

/-- An identifier as one path component (`Registry::to_path_segment`). -/
def toPathSegment (id : Text) : Text :=
  id.flatMap fun c => match escapes.find? (·.1 = c) with
    | some (_, code) => ['~', code]
    | none => [c]

/-! ## Attributes -/

/-- A declared attribute value. -/
inductive AttrValue where
  | text (v : Text)
  | int (v : Int64)
  | bool (v : Bool)
deriving DecidableEq

/-- A record's attributes, in key order. -/
structure AttrMap where
  entries : List (Text × AttrValue)
  sorted : (entries.map Prod.fst).Pairwise (· < ·)
deriving DecidableEq

def AttrMap.empty : AttrMap := ⟨[], List.Pairwise.nil⟩

/-- Whether an attribute may sit in plaintext frontmatter. -/
inductive AttrClass where
  | structural
  | sensitive

/-- The attribute types a declaration may use: `string`, `integer` and `boolean`. -/
inductive AttrType where
  | string
  | integer
  | boolean
deriving DecidableEq

/-- The type a value carries. -/
def AttrValue.type : AttrValue → AttrType
  | .text _ => .string
  | .int _ => .integer
  | .bool _ => .boolean

/-- One declared attribute. -/
structure AttrSpec where
  declaredType : AttrType
  class_ : AttrClass

/-- How the outcome of an action is reported. -/
inductive Outcome where
  | success
  | failure
  | partly
  | declined
deriving DecidableEq

/-- One action's outcomes, when it restricts them, and its attributes. -/
structure ActionSpec where
  name : Text
  outcomes : Option (List Outcome)
  attrs : List (Text × AttrSpec)

/-- The attribute surface a deployment declares. -/
structure Schema where
  actions : List ActionSpec

def Schema.action (S : Schema) (action : Text) : Option ActionSpec :=
  S.actions.find? (·.name = action)

def Schema.validateFrontmatter (S : Schema) (action : Text) (attrs : AttrMap) :
    Except Error Unit :=
  forM attrs.entries fun (key, _) =>
    match ((S.action action).bind fun a => a.attrs.lookup key).map AttrSpec.class_ with
    | some .structural => .ok ()
    | some .sensitive => .error (.sensitiveAttrInFrontmatter key)
    | none => .error (.undeclaredAttr action key)

/-- One declared attribute, or what was missing. -/
def Schema.declared (S : Schema) (action key : Text) : Except Error AttrSpec :=
  match (S.action action).bind fun a => a.attrs.lookup key with
  | some attr => .ok attr
  | none => .error (.undeclaredAttr action key)

/-- Classification of one declared key. -/
def Schema.classOf (S : Schema) (action key : Text) : Except Error AttrClass :=
  (S.declared action key).map (·.class_)

/-- Declared type of one key. -/
def Schema.typeOf (S : Schema) (action key : Text) : Except Error AttrType :=
  (S.declared action key).map (·.declaredType)

def Schema.outcomesFor (S : Schema) (action : Text) : Option (List Outcome) :=
  (S.action action).bind (·.outcomes)

/-! ## Records -/

/-- Who may read a record. -/
inductive Visibility where
  | owner
  | team
  | org
  | operator
deriving DecidableEq

/-- Whether a record's body is erasable. -/
inductive DataClass where
  | internal
  | subjectDerived
deriving DecidableEq

/-- The part a subject plays in a record. -/
inductive Role where
  | principal
  | party
deriving DecidableEq

/-- One data subject named by a record. -/
structure SubjectRef where
  hash : SubjectHash
  role : Role
  canonVer : UInt32
deriving DecidableEq

/-- A single thing an agent did. -/
structure ActionRecord where
  recordId : RecordId
  schemaVer : UInt32
  at_ : Text
  receivedAt : Text
  backfilled : Bool
  agent : Text
  agentVer : Option Text
  correlationId : Option Text
  action : Text
  outcome : Outcome
  attrs : AttrMap
  entities : List EntityRef
  subjects : List SubjectRef
  visibility : Visibility
  team : Option Text
  dataClass : DataClass
  redactionPolicy : Text
  fieldsMasked : List Text
  tags : List Text
  summary : Text
deriving DecidableEq

/-- The record without its prose. -/
def ActionRecord.bare (r : ActionRecord) : ActionRecord := { r with summary := [] }

/-- Whether a record names a subject. -/
def ActionRecord.names (r : ActionRecord) (s : SubjectHash) : Prop := ∃ n ∈ r.subjects, n.hash = s

instance (r : ActionRecord) (s : SubjectHash) : Decidable (r.names s) :=
  inferInstanceAs (Decidable (∃ n ∈ r.subjects, n.hash = s))

/-- Checks the invariants of a record that its types do not carry. -/
def ActionRecord.validate (r : ActionRecord) : Except Error Unit := do
  refuseIf (trim r.action = []) (.invalid "action is empty")
  refuseIf (parseMs r.at_ = none)
    (.invalid s!"at `{String.ofList r.at_}` is not a timestamp this can read")
  refuseIf (parseMs r.receivedAt = none)
    (.invalid s!"received_at `{String.ofList r.receivedAt}` is not a timestamp this can read")
  refuseIf (r.dataClass = .internal ∧ r.subjects ≠ [])
    (.invalid s!"internal record names {r.subjects.length} subject(s)")
  refuseIf (1 < r.subjects.length)
    (.invalid (s!"record names {r.subjects.length} subjects; one body sealed under all of them " ++
      "ends for every one of them the moment any one is erased. File one record per subject and " ++
      "relate them with `correlation_id`"))
  refuseIf (r.visibility = .team ∧ ∀ t ∈ r.team, trim t = [])
    (.invalid "team-scoped record names no team")
  forM r.entities fun e => refuseIf (¬(0 ≤ e.confidence.value ∧ e.confidence.value ≤ 1))
    (.invalid (s!"entity `{String.ofList e.id}` of kind `{String.ofList e.kind}` has confidence " ++
      s!"{e.confidence.value} outside 0.0..=1.0"))

/-- What a record that passes its own check satisfies. -/
theorem ActionRecord.validate_ok_iff {r : ActionRecord} :
    r.validate = .ok () ↔ trim r.action ≠ [] ∧ parseMs r.at_ ≠ none ∧ parseMs r.receivedAt ≠ none ∧
      (r.dataClass = .internal → r.subjects = []) ∧ r.subjects.length ≤ 1 ∧
      (r.visibility = .team → ∃ t ∈ r.team, trim t ≠ []) ∧
      ∀ e ∈ r.entities, 0 ≤ e.confidence.value ∧ e.confidence.value ≤ 1 := by
  simp only [validate, bind_ok, refuseIf_ok, forM_ok, exists_const, not_and,
    not_not, not_lt, ne_eq, not_forall, Option.mem_def, exists_prop]

/-- The check does not look at the prose. -/
@[simp] theorem ActionRecord.validate_bare (r : ActionRecord) : r.bare.validate = r.validate := rfl

end Yaam.Contract
