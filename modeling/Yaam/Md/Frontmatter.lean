/-
  Frontmatter, the machine-readable half of a record (`yaam-md`,
  `frontmatter.rs`).

  * `render` writes a record's structure as block-style YAML: `project` lays its
    fields out in order, `emit` writes them line by line;
  * `parse` reads frontmatter back through a YAML reader and validates the record;
  * `Yaml` is what of the YAML and JSON libraries the code uses, `Yaml.Inverts`
    that reading undoes rendering;
  * `render_lines`: no line of rendered frontmatter is a fence.
-/
import Yaam.Crypto.Block

namespace Yaam.Md

open Text Contract

/-- Parse failures. -/
inductive Error where
  | missingFrontmatter
  | malformedFrontmatter (detail : String)
  | contract (e : Contract.Error)
  | crypto (e : Crypto.Error)

def Error.display : Error → String
  | .missingFrontmatter => "missing frontmatter"
  | .malformedFrontmatter detail => s!"malformed frontmatter: {detail}"
  | .contract e => e.display
  | .crypto e => e.display

/-! ## Values -/

/-- A frontmatter leaf value. -/
inductive Scalar where
  | null
  | bool (v : Bool)
  | int (v : ℤ)
  | float (v : Confidence)
  | str (v : Text)

/-- A frontmatter value. -/
inductive Value where
  | leaf (v : Scalar)
  | map (entries : List (Text × Scalar))
  | list (items : List Scalar)
  | maps (items : List (List (Text × Scalar)))

def text (v : Text) : Value := .leaf (.str v)

def optionalText : Option Text → Value
  | some v => text v
  | none => .leaf .null

def stringList (vs : List Text) : Value := .list (vs.map .str)

def outcomeName : Outcome → Text
  | .success => "success".toList
  | .failure => "failure".toList
  | .partly => "partial".toList
  | .declined => "declined".toList

def visibilityName : Visibility → Text
  | .owner => "owner".toList
  | .team => "team".toList
  | .org => "org".toList
  | .operator => "operator".toList

def dataClassName : DataClass → Text
  | .internal => "internal".toList
  | .subjectDerived => "subject_derived".toList

def entityRoleName : EntityRole → Text
  | .primary => "primary".toList
  | .context => "context".toList
  | .related => "related".toList

def subjectRoleName : Role → Text
  | .principal => "principal".toList
  | .party => "party".toList

def entityFields (e : EntityRef) : List (Text × Scalar) :=
  [("kind".toList, .str e.kind), ("id".toList, .str e.id),
    ("role".toList, .str (entityRoleName e.role)), ("confidence".toList, .float e.confidence)]

def subjectFields (s : SubjectRef) : List (Text × Scalar) :=
  [("hash".toList, .str s.hash.text), ("role".toList, .str (subjectRoleName s.role)),
    ("canon_ver".toList, .int s.canonVer.toNat)]

def attrScalar : AttrValue → Scalar
  | .text v => .str v
  | .int v => .int v.toInt
  | .bool v => .bool v

/-- The single ordered projection of a record. -/
def project (r : ActionRecord) : List (Text × Value) :=
  [("record_id".toList, text r.recordId.text),
    ("schema_ver".toList, .leaf (.int r.schemaVer.toNat)),
    ("at".toList, text r.at_),
    ("received_at".toList, text r.receivedAt),
    ("backfilled".toList, .leaf (.bool r.backfilled)),
    ("agent".toList, text r.agent),
    ("agent_ver".toList, optionalText r.agentVer),
    ("correlation_id".toList, optionalText r.correlationId),
    ("action".toList, text r.action),
    ("outcome".toList, text (outcomeName r.outcome)),
    ("attrs".toList, .map (r.attrs.entries.map fun (k, v) => (k, attrScalar v))),
    ("entities".toList, .maps (r.entities.map entityFields)),
    ("subjects".toList, .maps (r.subjects.map subjectFields)),
    ("visibility".toList, text (visibilityName r.visibility)),
    ("team".toList, optionalText r.team),
    ("data_class".toList, text (dataClassName r.dataClass)),
    ("redaction_policy".toList, text r.redactionPolicy),
    ("fields_masked".toList, stringList r.fieldsMasked),
    ("tags".toList, stringList r.tags)]

/-! ## Emission -/

/-- Plain scalars some YAML reader takes for a truth value or null. -/
def reserved : List Text :=
  ["null".toList, "~".toList, "true".toList, "false".toList, "yes".toList, "no".toList,
    "on".toList, "off".toList, "y".toList, "n".toList]

/-- `u8::is_ascii_alphanumeric`. -/
def isAlnum (c : Char) : Bool := isDigit c || ('a' ≤ c && c ≤ 'z') || ('A' ≤ c && c ≤ 'Z')

/-- ASCII lowercasing, for `eq_ignore_ascii_case`. -/
def asciiLower (t : Text) : Text :=
  t.map fun c => if 'A' ≤ c && c ≤ 'Z' then Char.ofNat (c.toNat + 32) else c

/-- A text without its leading sign. -/
def unsigned : Text → Text
  | '+' :: t => t
  | '-' :: t => t
  | t => t

/-- Whether `str::parse::<i64>` accepts a text. -/
def isI64 (t : Text) : Bool :=
  let ds := unsigned t
  let bound := if t.head? = some '-' then 2 ^ 63 else 2 ^ 63 - 1
  ds != [] && ds.all isDigit && number ds ≤ bound

/-- An optional exponent at the end of a float. -/
def isExponent : Text → Bool
  | [] => true
  | c :: t => (c == 'e' || c == 'E') && unsigned t != [] && (unsigned t).all isDigit

/-- Whether `str::parse::<f64>` accepts a text. -/
def isF64 (t : Text) : Bool :=
  let u := unsigned t
  let whole := u.takeWhile isDigit
  let (frac, rest) := match u.dropWhile isDigit with
    | '.' :: r => (r.takeWhile isDigit, r.dropWhile isDigit)
    | r => ([], r)
  asciiLower u ∈ ["inf".toList, "infinity".toList, "nan".toList] ||
    ((whole != [] || frac != []) && isExponent rest)

/-- Whether a string reads back as itself when written as a plain scalar. -/
def plainSafe (v : Text) : Bool :=
  (match v with
    | [] => false
    | c :: _ => isAlnum c || c == '_') &&
  v.all (fun c => isAlnum c || c == '_' || c == '-' || c == '.' || c == '/') &&
  !startsWith "0x".toList v && !startsWith "0o".toList v && !isI64 v && !isF64 v &&
  !(asciiLower v ∈ reserved)

/-- `char::is_control`. -/
def isControl (c : Char) : Bool := c.toNat < 0x20 || (0x7F ≤ c.toNat && c.toNat < 0xA0)

def quoteChar (c : Char) : Text :=
  if c = '"' then ['\\', '"']
  else if c = '\\' then ['\\', '\\']
  else if c = '\n' then ['\\', 'n']
  else if c = '\r' then ['\\', 'r']
  else if c = '\t' then ['\\', 't']
  else if isControl c then
    ['\\', 'x', Crypto.hexDigit (c.toNat / 16), Crypto.hexDigit (c.toNat % 16)]
  else [c]

/-- A string as a double-quoted YAML scalar, on one line. -/
def quote (v : Text) : Text := '"' :: v.flatMap quoteChar ++ ['"']

/-- A string, quoted unless a plain scalar is unambiguous. -/
def yamlString (v : Text) : Text := if plainSafe v then v else quote v

/-- The characters Rust's `Debug` spells a finite float with. -/
def floatChar (c : Char) : Bool := isDigit c || c == '.' || c == '-' || c == 'e'

/-- What of the YAML and JSON libraries, and of Rust's float formatting, the
    frontmatter rests on: the reader of a YAML mapping into a record, and the
    shortest text of an `f32`. -/
structure Yaml where
  read : Text → Except String ActionRecord
  debug : Confidence → Text
  debug_chars : ∀ v, ∀ c ∈ debug v, floatChar c = true

section
variable (Y : Yaml)

def yamlScalar : Scalar → Text
  | .null => "null".toList
  | .bool v => (if v then "true" else "false").toList
  | .int v => padInt 0 v
  | .float v => Y.debug v
  | .str v => yamlString v

def entryText (e : Text × Scalar) : Text := yamlString e.1 ++ ": ".toList ++ yamlScalar Y e.2

/-- The lines of one mapping in a list: the first key shares the dash's line, the
    rest align under it. -/
def mapLines : List (Text × Scalar) → List Text
  | [] => ["  - {}".toList]
  | e :: es => ("  - ".toList ++ entryText Y e) :: es.map fun e => "    ".toList ++ entryText Y e

/-- The lines of one field. -/
def fieldLines (f : Text × Value) : List Text :=
  let key := yamlString f.1 ++ [':']
  match f.2 with
  | .leaf v => [key ++ ' ' :: yamlScalar Y v]
  | .map [] => [key ++ " {}".toList]
  | .map es => key :: es.map fun e => "  ".toList ++ entryText Y e
  | .list [] => [key ++ " []".toList]
  | .list vs => key :: vs.map fun v => "  - ".toList ++ yamlScalar Y v
  | .maps [] => [key ++ " []".toList]
  | .maps ms => key :: ms.flatMap (mapLines Y)

/-- Block-style YAML for an ordered field list. -/
def emit (fields : List (Text × Value)) : Text := unlines (fields.flatMap (fieldLines Y))

/-- A record's frontmatter, without fences. -/
def render (r : ActionRecord) : Text := emit Y (project r)

/-- Frontmatter as a record, validated; its summary is left to the body. -/
def parse (yaml : Text) : Except Error ActionRecord :=
  match Y.read yaml with
  | .error detail => .error (.malformedFrontmatter detail)
  | .ok r => match r.bare.validate with
    | .error e => .error (.contract e)
    | .ok () => .ok r.bare

/-- Reading undoes rendering. -/
def Yaml.Inverts : Prop := ∀ r, Y.read (render Y r) = .ok r.bare

@[simp] theorem bare_bare (r : ActionRecord) : r.bare.bare = r.bare := rfl

variable {Y}

theorem parse_render (hY : Y.Inverts) {r : ActionRecord} (hr : r.validate = .ok ()) :
    parse Y (render Y r) = .ok r.bare := by
  simp only [parse, hY r, bare_bare, ActionRecord.validate_bare, hr]

/-- Frontmatter that parses is a valid record without prose. -/
theorem parse_ok {t : Text} {r : ActionRecord} (h : parse Y t = .ok r) :
    r.validate = .ok () ∧ r.bare = r := by
  unfold parse at h
  split at h
  · cases h
  · split at h
    · cases h
    · rename_i r' _ hv
      cases h
      exact ⟨hv, rfl⟩

/-! ## Lines -/

/-- A line that is not the frontmatter fence and holds no newline. -/
def PlainLine (l : Text) : Prop := '\n' ∉ l ∧ ∃ c t, l = c :: t ∧ c ≠ '-'

theorem PlainLine.trimEnd_ne {l : Text} (h : PlainLine l) : trimEnd l ≠ "---".toList := by
  obtain ⟨-, c, t, rfl, hc⟩ := h
  intro he
  have hpre : trimEnd (c :: t) <+: c :: t := by
    rw [trimEnd, ← List.reverse_suffix, List.reverse_reverse]
    exact List.dropWhile_suffix _
  rw [he] at hpre
  exact hc (List.cons_prefix_cons.1 hpre).1.symm

theorem PlainLine.append {l t : Text} (h : PlainLine l) (ht : '\n' ∉ t) : PlainLine (l ++ t) := by
  obtain ⟨hl, c, u, rfl, hc⟩ := h
  exact ⟨by simp only [List.mem_append, not_or]; exact ⟨hl, ht⟩, c, u ++ t, rfl, hc⟩

theorem newline_notMem_quoteChar (c : Char) : '\n' ∉ quoteChar c := by
  have hhex : ∀ n < 16, Crypto.hexDigit n ≠ '\n' := by decide
  unfold quoteChar
  split_ifs with h1 h2 h3 h4 h5 h6 <;> simp
  · have hc : c.toNat < 256 := by
      simp only [isControl, Bool.or_eq_true, Bool.and_eq_true, decide_eq_true_eq] at h6
      omega
    exact ⟨(hhex _ (by omega)).symm, (hhex _ (by omega)).symm⟩
  · exact fun h => h3 h.symm

theorem PlainLine.yamlString (v : Text) : PlainLine (yamlString v) := by
  unfold Md.yamlString
  split_ifs with h
  · simp only [plainSafe, Bool.and_eq_true] at h
    obtain ⟨⟨⟨⟨⟨⟨hh, hall⟩, -⟩, -⟩, -⟩, -⟩, -⟩ := h
    cases v with
    | nil => simp at hh
    | cons c t =>
      refine ⟨fun hn => absurd (List.all_eq_true.1 hall _ hn) (by decide), c, t, rfl, ?_⟩
      rintro rfl
      simp [isAlnum, isDigit] at hh
  · refine ⟨?_, '"', _, rfl, by decide⟩
    simp only [quote, List.cons_append, List.mem_cons, List.mem_append, List.mem_flatMap,
      List.not_mem_nil, or_false, not_or]
    refine ⟨by decide, ?_, by decide⟩
    rintro ⟨c, -, hc⟩
    exact newline_notMem_quoteChar c hc

theorem newline_notMem_padInt (w : ℕ) (n : ℤ) : '\n' ∉ padInt w n := fun h => by
  rcases mem_padInt h with h | h <;> exact absurd h (by decide)

theorem newline_notMem_yamlScalar (v : Scalar) : '\n' ∉ yamlScalar Y v := by
  cases v with
  | null => exact show '\n' ∉ "null".toList by decide
  | bool v => cases v <;> simp [yamlScalar]
  | int v => exact newline_notMem_padInt 0 v
  | float v => exact fun h => absurd (Y.debug_chars v _ h) (by decide)
  | str v => exact (PlainLine.yamlString v).1

theorem newline_notMem_entryText (e : Text × Scalar) : '\n' ∉ entryText Y e := by
  simp only [entryText, List.mem_append, not_or]
  exact ⟨⟨(PlainLine.yamlString e.1).1, by decide⟩, newline_notMem_yamlScalar e.2⟩

theorem plainLine_dash : PlainLine "  - ".toList := ⟨by decide, ' ', _, rfl, by decide⟩

theorem plainLine_pad : PlainLine "    ".toList := ⟨by decide, ' ', _, rfl, by decide⟩

theorem plainLine_indent : PlainLine "  ".toList := ⟨by decide, ' ', _, rfl, by decide⟩

theorem mapLines_plain (es : List (Text × Scalar)) : ∀ l ∈ mapLines Y es, PlainLine l := by
  cases es with
  | nil =>
    rintro l hl
    rw [List.mem_singleton.1 hl]
    exact plainLine_dash.append (show '\n' ∉ "{}".toList by decide)
  | cons e es =>
    rintro l hl
    rcases List.mem_cons.1 hl with rfl | hl
    · exact plainLine_dash.append (newline_notMem_entryText e)
    · obtain ⟨e, -, rfl⟩ := List.mem_map.1 hl
      exact plainLine_pad.append (newline_notMem_entryText e)

/-- No line of a field is a fence. -/
theorem fieldLines_plain (f : Text × Value) : ∀ l ∈ fieldLines Y f, PlainLine l := by
  obtain ⟨k, v⟩ := f
  have hkey : PlainLine (yamlString k ++ [':']) := (PlainLine.yamlString k).append (by decide)
  have hone : ∀ {t l : Text}, '\n' ∉ t → l ∈ [yamlString k ++ [':'] ++ t] → PlainLine l := by
    intro t l ht hl
    rw [List.mem_singleton.1 hl]
    exact hkey.append ht
  intro l hl
  cases v with
  | leaf v => exact hone (by simpa using newline_notMem_yamlScalar v) hl
  | map es =>
    cases es with
    | nil => exact hone (by decide) hl
    | cons e es =>
      rcases List.mem_cons.1 hl with rfl | hl
      · exact hkey
      · obtain ⟨e, -, rfl⟩ := List.mem_map.1 hl
        exact plainLine_indent.append (newline_notMem_entryText e)
  | list vs =>
    cases vs with
    | nil => exact hone (by decide) hl
    | cons v vs =>
      rcases List.mem_cons.1 hl with rfl | hl
      · exact hkey
      · obtain ⟨v, -, rfl⟩ := List.mem_map.1 hl
        exact plainLine_dash.append (newline_notMem_yamlScalar v)
  | maps ms =>
    cases ms with
    | nil => exact hone (by decide) hl
    | cons m ms =>
      rcases List.mem_cons.1 hl with rfl | hl
      · exact hkey
      · obtain ⟨m, -, hl⟩ := List.mem_flatMap.1 hl
        exact mapLines_plain m l hl

/-- **Rendered frontmatter is lines, none of them a fence.** -/
theorem render_lines (Y : Yaml) (r : ActionRecord) :
    ∃ ls, render Y r = unlines ls ∧ ∀ l ∈ ls, PlainLine l := by
  refine ⟨_, rfl, fun l hl => ?_⟩
  obtain ⟨f, -, hl⟩ := List.mem_flatMap.1 hl
  exact fieldLines_plain f l hl

end

end Yaam.Md
