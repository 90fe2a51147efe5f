/-
  A reader of rendered frontmatter: the part of YAML that `render` writes.

  A rendered field is one line that is not indented and the indented lines under it;
  a string is plain or between quotes.

  * `readRecord` reads the nineteen fields back;
  * `reader` is the reader as a `Yaml`, with a text for each `f32`;
  * `reader_inverts`: reading undoes rendering, for every record.
-/
import Yaam.Lib.Quoted
import Yaam.Md.Frontmatter
import Mathlib.Data.Rat.Lemmas
import Mathlib.Tactic.FieldSimp

namespace Yaam.Md

open Text Contract

/-! ## Scalars -/

/-- The string a scalar spells. -/
def unquote : Text → Text
  | '"' :: t => (readQuoted t).elim [] (·.1)
  | t => t

/-- A key, and the scalar after its colon. -/
def readEntry (l : Text) : Text × Text :=
  match l with
  | '"' :: t => (readQuoted t).elim ([], []) fun p => (p.1, p.2.drop 2)
  | t => (t.takeWhile (· ≠ ':'), (t.dropWhile (· ≠ ':')).drop 2)

def readOptional (t : Text) : Option Text := if t = "null".toList then none else some (unquote t)

def readBool (t : Text) : Bool := t = "true".toList

/-- An attribute's value: a plain scalar that reads as nothing else is a string. -/
def readAttr (t : Text) : AttrValue :=
  if t.head? = some '"' then .text (unquote t)
  else if t = "true".toList then .bool true
  else if t = "false".toList then .bool false
  else if isI64 t then .int (Int64.ofInt (readInt t))
  else .text t

/-- The value of an enumeration that has a name. -/
def readName {α : Type} (all : List α) (name : α → Text) (t : Text) : Option α :=
  all.find? fun a => name a = unquote t

def readUInt32 (t : Text) : UInt32 := UInt32.ofNat (readInt t).toNat

theorem quoteChar_escaping : Escaping quoteChar := by
  intro c t
  unfold quoteChar
  split_ifs with h1 h2 h3 h4 h5 h6
  · rw [h1]
    rfl
  · rw [h2]
    rfl
  · rw [h3]
    rfl
  · rw [h4]
    rfl
  · rw [h5]
    rfl
  · have hc : c.toNat < 256 := by
      simp only [isControl, Bool.or_eq_true, Bool.and_eq_true, decide_eq_true_eq] at h6
      omega
    have hdigit : ∀ n < 16, Crypto.hexDigit n = Nat.digitChar n := by decide
    show (readQuoted t).map (pushChar (hexChar _ _)) = _
    rw [hdigit _ (by omega), hdigit _ (by omega), hexChar_digits hc]
  · exact readQuoted_plain h1 h2 t

theorem readQuoted_quote (v t : Text) : readQuoted (v.flatMap quoteChar ++ '"' :: t) = some (v, t) :=
  readQuoted_escaped quoteChar_escaping v t

/-- What a plain scalar starts with. -/
theorem plainSafe_head {v : Text} (h : plainSafe v = true) :
    ∃ c t, v = c :: t ∧ (isAlnum c || c == '_') = true := by
  simp only [plainSafe, Bool.and_eq_true] at h
  obtain ⟨⟨⟨⟨⟨⟨hh, -⟩, -⟩, -⟩, -⟩, -⟩, -⟩ := h
  cases v with
  | nil => simp at hh
  | cons c t => exact ⟨c, t, rfl, hh⟩

/-- A string starts with a quote or a letter, never with a blank. -/
theorem yamlString_cases (v : Text) :
    (plainSafe v = true ∧ yamlString v = v ∧ ∃ c t, v = c :: t ∧ c ≠ '"' ∧ c ≠ ' ') ∨
      yamlString v = '"' :: (v.flatMap quoteChar ++ ['"']) := by
  unfold yamlString
  split_ifs with h
  · obtain ⟨c, t, rfl, hc⟩ := plainSafe_head h
    refine .inl ⟨h, rfl, c, t, rfl, ?_, ?_⟩
    · rintro rfl
      simp [isAlnum, isDigit] at hc
    · rintro rfl
      simp [isAlnum, isDigit] at hc
  · exact .inr rfl

theorem unquote_of_head {c : Char} {t : Text} (h : c ≠ '"') : unquote (c :: t) = c :: t := by
  unfold unquote
  split
  · rename_i heq
    exact absurd (List.cons.inj heq).1 h
  · rfl

/-- **A string is read back.** -/
theorem unquote_yamlString (v : Text) : unquote (yamlString v) = v := by
  rcases yamlString_cases v with ⟨-, hv, c, t, rfl, hc, -⟩ | hv
  · rw [hv, unquote_of_head hc]
  · rw [hv, unquote, readQuoted_quote]
    rfl

theorem colon_notMem_plainSafe {v : Text} (h : plainSafe v = true) : ':' ∉ v := by
  simp only [plainSafe, Bool.and_eq_true] at h
  obtain ⟨⟨⟨⟨⟨⟨-, hall⟩, -⟩, -⟩, -⟩, -⟩, -⟩ := h
  intro hm
  exact absurd (List.all_eq_true.1 hall _ hm) (by decide)

variable {Y : Yaml}

/-- **An entry is read back**, whatever its key. -/
theorem readEntry_entryText (e : Text × Scalar) :
    readEntry (entryText Y e) = (e.1, yamlScalar Y e.2) := by
  obtain ⟨k, v⟩ := e
  rcases yamlString_cases k with ⟨hp, hk, c, t, rfl, hc, -⟩ | hk
  · have hcolon := colon_notMem_plainSafe hp
    have htake : (c :: t ++ ": ".toList ++ yamlScalar Y v).takeWhile (· ≠ ':') = c :: t := by
      rw [List.append_assoc, List.takeWhile_append_of_pos fun d hd => by
        simpa using fun h : d = ':' => hcolon (h ▸ hd)]
      simp
    have hdrop : (c :: t ++ ": ".toList ++ yamlScalar Y v).dropWhile (· ≠ ':') =
        ": ".toList ++ yamlScalar Y v := by
      rw [List.append_assoc, List.dropWhile_append_of_pos fun d hd => by
        simpa using fun h : d = ':' => hcolon (h ▸ hd)]
      simp
    rw [entryText, hk, readEntry.eq_def]
    split
    · rename_i heq
      exact absurd (List.cons.inj heq).1 hc
    · rw [htake, hdrop]
      rfl
  · have hread : readEntry (entryText Y (k, v)) =
        (readQuoted (k.flatMap quoteChar ++ '"' :: (": ".toList ++ yamlScalar Y v))).elim ([], [])
          fun p => (p.1, p.2.drop 2) := by
      simp only [entryText, hk, List.cons_append, List.append_assoc, List.nil_append]
      rfl
    rw [hread, readQuoted_quote]
    rfl

theorem readOptional_null : readOptional "null".toList = none := rfl

theorem readOptional_yamlString (v : Text) : readOptional (yamlString v) = some v := by
  have hne : yamlString v ≠ "null".toList := by
    intro h
    rcases yamlString_cases v with ⟨hp, hv, -⟩ | hv
    · rw [hv] at h
      subst h
      exact absurd hp (by decide)
    · rw [hv] at h
      exact absurd (List.cons.inj h).1 (by decide)
  simp only [readOptional, if_neg hne, unquote_yamlString]

theorem isDigit_of_isDigit {c : Char} (h : c.isDigit = true) : isDigit c = true := by
  simp only [Char.isDigit, Bool.and_eq_true, decide_eq_true_eq] at h
  simp only [isDigit, Bool.and_eq_true, decide_eq_true_eq]
  exact ⟨h.1, h.2⟩

/-- The decimal text of an `i64` is one. -/
theorem isI64_padInt {n : ℤ} (h1 : -2 ^ 63 ≤ n) (h2 : n < 2 ^ 63) : isI64 (padInt 0 n) = true := by
  have hdigits : ∀ m, (padNat 0 m).all isDigit = true := fun m =>
    List.all_eq_true.2 fun c hc => isDigit_of_isDigit (mem_padNat hc)
  have hne : ∀ m, padNat 0 m ≠ [] := fun m h => by
    simp [padNat, Nat.toDigits_ne_nil] at h
  unfold padInt
  split_ifs with hn
  · have hnum : number (padNat 0 n.natAbs) ≤ 2 ^ 63 := by rw [number_padNat]; omega
    simp only [isI64, unsigned, List.head?_cons, Nat.zero_sub, hdigits, hne, bne_iff_ne, ne_eq,
      not_false_eq_true, Bool.and_true, Bool.and_eq_true, decide_eq_true_eq,
      if_true, hnum, and_self]
  · have hhead : ∀ c t, padNat 0 n.natAbs = c :: t → c ≠ '-' ∧ c ≠ '+' := by
      intro c t ht
      have hc : c.isDigit = true := mem_padNat (by rw [ht]; simp)
      constructor
      · rintro rfl
        exact absurd hc (by decide)
      · rintro rfl
        exact absurd hc (by decide)
    have hunsigned : unsigned (padNat 0 n.natAbs) = padNat 0 n.natAbs := by
      unfold unsigned
      split
      · rename_i heq
        exact absurd rfl (hhead _ _ heq).2
      · rename_i heq
        exact absurd rfl (hhead _ _ heq).1
      · rfl
    have hsign : (padNat 0 n.natAbs).head? ≠ some '-' := by
      intro h
      cases hp : padNat 0 n.natAbs with
      | nil => exact hne _ hp
      | cons c t =>
        rw [hp] at h
        exact (hhead c t hp).1 (Option.some.inj h)
    have hnum : number (padNat 0 n.natAbs) ≤ 2 ^ 63 - 1 := by rw [number_padNat]; omega
    simp only [isI64, hunsigned, hdigits, hsign, hne, bne_iff_ne, ne_eq, not_false_eq_true,
      Bool.and_true, Bool.and_eq_true, decide_eq_true_eq, if_false, hnum, and_self]

/-- **An attribute's value is read back as its own kind.** -/
theorem readAttr_attrScalar (a : AttrValue) : readAttr (yamlScalar Y (attrScalar a)) = a := by
  cases a with
  | text v =>
    show readAttr (yamlString v) = _
    rcases yamlString_cases v with ⟨hp, hv, c, t, rfl, hc, -⟩ | hv
    · have h64 : isI64 (c :: t) = false := by
        simp only [plainSafe, Bool.and_eq_true, Bool.not_eq_true'] at hp
        exact hp.1.1.2
      have hname : ∀ w : Text, plainSafe w = false → c :: t ≠ w := fun w hw h => by
        rw [h, hw] at hp
        cases hp
      simp only [readAttr, hv, List.head?_cons, Option.some.injEq, hc, if_false,
        hname "true".toList (by decide), hname "false".toList (by decide), h64, Bool.false_eq_true]
    · have hhead : (yamlString v).head? = some '"' := by rw [hv]; rfl
      rw [readAttr, if_pos hhead, unquote_yamlString]
  | int v =>
    show readAttr (padInt 0 v.toInt) = _
    have h64 : isI64 (padInt 0 v.toInt) = true := isI64_padInt v.le_toInt v.toInt_lt
    have hmem : ∀ c ∈ padInt 0 v.toInt, c = '-' ∨ c.isDigit = true := fun c hc => mem_padInt hc
    have hhead : (padInt 0 v.toInt).head? ≠ some '"' := fun h => by
      have := hmem _ (List.mem_of_mem_head? h)
      revert this
      decide
    have hname : ∀ w : Text, isI64 w = false → padInt 0 v.toInt ≠ w := fun w hw h => by
      rw [h, hw] at h64
      cases h64
    simp only [readAttr, if_neg hhead, hname "true".toList (by decide),
      hname "false".toList (by decide), h64, if_true, if_false, readInt_padInt, Int64.ofInt_toInt]
  | bool v => cases v <;> rfl

/-! ## Confidences -/

theorem isF32_iff (q : ℚ) : IsF32 q ↔
    ∃ k : ℕ, k < 254 ∧ (q / 2 ^ ((k : ℤ) - 149)).den = 1 ∧
      (q / 2 ^ ((k : ℤ) - 149)).num.natAbs < 2 ^ 24 := by
  constructor
  · rintro ⟨m, e, hm, h1, h2, rfl⟩
    refine ⟨(e + 149).toNat, by omega, ?_⟩
    have he : ((e + 149).toNat : ℤ) - 149 = e := by omega
    have hdiv : (m : ℚ) * 2 ^ e / 2 ^ e = m := by
      field_simp
    rw [he, hdiv]
    exact ⟨Rat.den_intCast m, by simpa using hm⟩
  · rintro ⟨k, hk, hden, hnum⟩
    refine ⟨_, (k : ℤ) - 149, hnum, by omega, by omega, ?_⟩
    rw [Rat.coe_int_num_of_den_eq_one hden]
    field_simp

instance (q : ℚ) : Decidable (IsF32 q) := decidable_of_iff _ (isF32_iff q).symm

/-- A text for every `f32`: `1.0` as `Debug` spells it, the others as a fraction. -/
def confidenceText (c : Confidence) : Text :=
  if c.value = 1 then "1.0".toList else padInt 0 c.value.num ++ 'e' :: padNat 0 c.value.den

def readConfidence (t : Text) : Option Confidence :=
  if t = "1.0".toList then some fieldConfidence
  else (splitOnce 'e' t).bind fun p =>
    let q : ℚ := readInt p.1 / number p.2
    if h : IsF32 q then some ⟨q, h⟩ else none

theorem floatChar_of_isDigit {c : Char} (h : c.isDigit = true) : floatChar c = true := by
  simp [floatChar, isDigit_of_isDigit h]

theorem floatChar_padInt {w : ℕ} {n : ℤ} {c : Char} (h : c ∈ padInt w n) : floatChar c = true := by
  rcases mem_padInt h with rfl | h
  · rfl
  · exact floatChar_of_isDigit h

theorem confidenceText_chars (v : Confidence) : ∀ c ∈ confidenceText v, floatChar c = true := by
  unfold confidenceText
  split_ifs
  · decide
  · intro c hc
    rcases List.mem_append.1 hc with hc | hc
    · exact floatChar_padInt hc
    · rcases List.mem_cons.1 hc with rfl | hc
      · rfl
      · exact floatChar_of_isDigit (mem_padNat hc)

theorem readConfidence_text (c : Confidence) : readConfidence (confidenceText c) = some c := by
  obtain ⟨q, hq⟩ := c
  unfold confidenceText
  split_ifs with h
  · have hone : q = 1 := h
    subst hone
    rfl
  · have he : 'e' ∉ padInt 0 q.num := fun h => by
      rcases mem_padInt h with h | h
      · exact absurd h (by decide)
      · exact absurd h (by decide)
    have hne : padInt 0 q.num ++ 'e' :: padNat 0 q.den ≠ "1.0".toList := fun h => by
      have hmem : 'e' ∈ "1.0".toList := by
        rw [← h]
        simp
      exact absurd hmem (by decide)
    have hval : (q.num : ℚ) / (q.den : ℚ) = q := Rat.num_div_den q
    rw [readConfidence, if_neg hne, splitOnce_append_cons he]
    simp only [Option.bind_some, readInt_padInt, number_padNat, hval, dif_pos hq]

/-! ## Lines -/

/-- A line under another. -/
def indented (l : Text) : Bool := l.head? == some ' '

/-- Adds a line to the lines read after it: those not yet under a field, and the
    fields. -/
def addLine (l : Text) (acc : List Text × List (Text × List Text)) :
    List Text × List (Text × List Text) :=
  if indented l then (l :: acc.1, acc.2) else ([], (l, acc.1) :: acc.2)

/-- Lines as fields: a line that is not indented, with those under it. -/
def fieldsOf (ls : List Text) : List (Text × List Text) := (ls.foldr addLine ([], [])).2

theorem foldr_addLine_body {ls : List Text} (h : ∀ l ∈ ls, indented l = true)
    (acc : List Text × List (Text × List Text)) :
    ls.foldr addLine acc = (ls ++ acc.1, acc.2) := by
  induction ls with
  | nil => rfl
  | cons l ls ih =>
    rw [List.foldr_cons, ih fun k hk => h k (by simp [hk]), addLine, if_pos (h l (by simp))]
    rfl

/-- A field as its first line and the lines under it. -/
def fieldOf (Y : Yaml) (f : Text × Value) : Text × List Text :=
  ((fieldLines Y f).headD [], (fieldLines Y f).tail)

theorem indented_append {l : Text} (h : l ≠ []) (t : Text) : indented (l ++ t) = indented l := by
  cases l with
  | nil => exact absurd rfl h
  | cons c l => rfl

theorem not_indented_yamlString (v t : Text) : indented (yamlString v ++ t) = false := by
  rcases yamlString_cases v with ⟨-, hv, c, u, rfl, -, hc⟩ | hv
  · rw [hv, indented]
    simpa using hc
  · rw [hv]
    rfl

theorem mapLines_indented (es : List (Text × Scalar)) : ∀ l ∈ mapLines Y es, indented l = true := by
  cases es with
  | nil =>
    rintro l hl
    rw [List.mem_singleton.1 hl]
    rfl
  | cons e es =>
    rintro l hl
    rcases List.mem_cons.1 hl with rfl | hl
    · rfl
    · obtain ⟨e, -, rfl⟩ := List.mem_map.1 hl
      rfl

/-- A field is a line that is not indented and lines that are. -/
theorem fieldLines_cases (f : Text × Value) : ∃ l ls, fieldLines Y f = l :: ls ∧
    indented l = false ∧ ∀ k ∈ ls, indented k = true := by
  obtain ⟨k, v⟩ := f
  have hhead : ∀ t, indented (yamlString k ++ [':'] ++ t) = false := fun t => by
    rw [List.append_assoc]
    exact not_indented_yamlString _ _
  have hbare : indented (yamlString k ++ [':']) = false := not_indented_yamlString _ _
  cases v with
  | leaf v => exact ⟨_, _, rfl, hhead _, nofun⟩
  | map es =>
    cases es with
    | nil => exact ⟨_, _, rfl, hhead _, nofun⟩
    | cons e es =>
      refine ⟨_, _, rfl, hbare, fun l hl => ?_⟩
      obtain ⟨e, -, rfl⟩ := List.mem_map.1 hl
      rfl
  | list vs =>
    cases vs with
    | nil => exact ⟨_, _, rfl, hhead _, nofun⟩
    | cons v vs =>
      refine ⟨_, _, rfl, hbare, fun l hl => ?_⟩
      obtain ⟨v, -, rfl⟩ := List.mem_map.1 hl
      rfl
  | maps ms =>
    cases ms with
    | nil => exact ⟨_, _, rfl, hhead _, nofun⟩
    | cons m ms =>
      refine ⟨_, _, rfl, hbare, fun l hl => ?_⟩
      obtain ⟨m, -, hl⟩ := List.mem_flatMap.1 hl
      exact mapLines_indented m l hl

/-- **The lines of fields are those fields again.** -/
theorem fieldsOf_flatMap (fs : List (Text × Value)) :
    fieldsOf (fs.flatMap (fieldLines Y)) = fs.map (fieldOf Y) := by
  have h : (fs.flatMap (fieldLines Y)).foldr addLine ([], []) = ([], fs.map (fieldOf Y)) := by
    induction fs with
    | nil => rfl
    | cons f fs ih =>
      obtain ⟨l, ls, hf, hl, hls⟩ := fieldLines_cases (Y := Y) f
      rw [List.flatMap_cons, List.foldr_append, ih, hf, List.foldr_cons, foldr_addLine_body hls,
        addLine, if_neg (by simp [hl])]
      simp [fieldOf, hf]
  rw [fieldsOf, h]

theorem splitOn_unlines {ls : List Text} (h : ∀ l ∈ ls, '\n' ∉ l) :
    splitOn '\n' (unlines ls) = ls ++ [[]] := by
  induction ls with
  | nil => rfl
  | cons l ls ih =>
    rw [unlines_cons, splitOn_append_cons (h l (by simp)), ih fun k hk => h k (by simp [hk])]
    rfl

/-! ## Records -/

/-- The scalar of a field on one line. -/
def leafOf (f : Text × List Text) : Text := (readEntry f.1).2

/-- The scalars of a list's lines, or of the entries of a list of mappings. -/
def itemsOf (f : Text × List Text) : List Text := f.2.map fun l => l.drop 4

def valuesOf (f : Text × List Text) : List Text := (itemsOf f).map fun l => (readEntry l).2

/-- The entries of a mapping's lines. -/
def entriesOf (f : Text × List Text) : List (Text × Text) := f.2.map fun l => readEntry (l.drop 2)

def readAttrs (es : List (Text × Text)) : Option AttrMap :=
  let attrs := es.map fun e => (e.1, readAttr e.2)
  if h : (attrs.map Prod.fst).Pairwise (· < ·) then some ⟨attrs, h⟩ else none

def readEntities : List Text → Option (List EntityRef)
  | [] => some []
  | kind :: id :: role :: confidence :: rest => do
    let role ← readName [.primary, .context, .related] entityRoleName role
    let confidence ← readConfidence confidence
    let es ← readEntities rest
    return ⟨unquote kind, unquote id, role, confidence⟩ :: es
  | _ => none

def readSubjects : List Text → Option (List SubjectRef)
  | [] => some []
  | hash :: role :: canonVer :: rest => do
    let hash ← (SubjectHash.parse (unquote hash)).toOption
    let role ← readName [.principal, .party] subjectRoleName role
    let ss ← readSubjects rest
    return ⟨hash, role, readUInt32 canonVer⟩ :: ss
  | _ => none

/-- A record from its fields. -/
def readFields : List (Text × List Text) → Option ActionRecord
  | [id, schemaVer, at_, receivedAt, backfilled, agent, agentVer, correlationId, action, outcome,
      attrs, entities, subjects, visibility, team, dataClass, policy, masked, tags] => do
    let recordId ← (RecordId.parse (unquote (leafOf id))).toOption
    let outcome ← readName [.success, .failure, .partly, .declined] outcomeName (leafOf outcome)
    let attrs ← readAttrs (entriesOf attrs)
    let entities ← readEntities (valuesOf entities)
    let subjects ← readSubjects (valuesOf subjects)
    let visibility ← readName [.owner, .team, .org, .operator] visibilityName (leafOf visibility)
    let dataClass ← readName [.internal, .subjectDerived] dataClassName (leafOf dataClass)
    return {
      recordId, schemaVer := readUInt32 (leafOf schemaVer), at_ := unquote (leafOf at_)
      receivedAt := unquote (leafOf receivedAt), backfilled := readBool (leafOf backfilled)
      agent := unquote (leafOf agent), agentVer := readOptional (leafOf agentVer)
      correlationId := readOptional (leafOf correlationId), action := unquote (leafOf action)
      outcome, attrs, entities, subjects, visibility, team := readOptional (leafOf team), dataClass
      redactionPolicy := unquote (leafOf policy), fieldsMasked := (itemsOf masked).map unquote
      tags := (itemsOf tags).map unquote, summary := [] }
  | _ => none

/-- A record from its rendered frontmatter. -/
def readRecord (t : Text) : Option ActionRecord := readFields (fieldsOf (splitOn '\n' t).dropLast)

/-- The reader, with a text for each confidence. -/
def reader : Yaml where
  read t := (readRecord t).elim (.error "not rendered frontmatter") .ok
  debug := confidenceText
  debug_chars := confidenceText_chars

theorem leafOf_fieldOf (k : Text) (v : Scalar) :
    leafOf (fieldOf Y (k, .leaf v)) = yamlScalar Y v := by
  have h : (fieldOf Y (k, .leaf v)).1 = entryText Y (k, v) := by
    simp [fieldOf, fieldLines, entryText]
  rw [leafOf, h, readEntry_entryText]

theorem readOptional_fieldOf (k : Text) (o : Option Text) :
    readOptional (leafOf (fieldOf Y (k, optionalText o))) = o := by
  cases o with
  | none =>
    show readOptional (leafOf (fieldOf Y (k, .leaf .null))) = _
    rw [leafOf_fieldOf]
    exact readOptional_null
  | some v =>
    show readOptional (leafOf (fieldOf Y (k, .leaf (.str v)))) = _
    rw [leafOf_fieldOf]
    exact readOptional_yamlString v

theorem itemsOf_fieldOf (k : Text) (vs : List Scalar) :
    itemsOf (fieldOf Y (k, .list vs)) = vs.map (yamlScalar Y) := by
  cases vs with
  | nil => rfl
  | cons v vs => simp [itemsOf, fieldOf, fieldLines, Function.comp_def]

theorem entriesOf_fieldOf (k : Text) (es : List (Text × Scalar)) :
    entriesOf (fieldOf Y (k, .map es)) = es.map fun e => (e.1, yamlScalar Y e.2) := by
  cases es with
  | nil => rfl
  | cons e es => simp [entriesOf, fieldOf, fieldLines, readEntry_entryText]

theorem mapLines_values {m : List (Text × Scalar)} (hm : m ≠ []) :
    (mapLines Y m).map (fun l => (readEntry (l.drop 4)).2) = m.map fun e => yamlScalar Y e.2 := by
  cases m with
  | nil => exact absurd rfl hm
  | cons e es => simp [mapLines, readEntry_entryText]

theorem valuesOf_fieldOf (k : Text) {ms : List (List (Text × Scalar))} (hms : ∀ m ∈ ms, m ≠ []) :
    valuesOf (fieldOf Y (k, .maps ms)) = ms.flatMap fun m => m.map fun e => yamlScalar Y e.2 := by
  have hlines : (ms.flatMap (mapLines Y)).map (fun l => (readEntry (l.drop 4)).2) =
      ms.flatMap fun m => m.map fun e => yamlScalar Y e.2 := by
    rw [List.map_flatMap]
    exact List.flatMap_congr fun m hm => mapLines_values (hms m hm)
  rw [← hlines]
  cases ms with
  | nil => rfl
  | cons m ms => simp [valuesOf, itemsOf, fieldOf, fieldLines, Function.comp_def]

theorem readName_yamlString {α : Type} {all : List α} {name : α → Text} {a : α}
    (h : all.find? (fun b => name b = name a) = some a) :
    readName all name (yamlString (name a)) = some a := by
  rw [readName, unquote_yamlString]
  exact h

theorem readUInt32_padInt (v : UInt32) : readUInt32 (padInt 0 v.toNat) = v := by
  rw [readUInt32, readInt_padInt]
  simp

theorem readEntities_values (es : List EntityRef) :
    readEntities ((es.map entityFields).flatMap fun m => m.map fun e => yamlScalar reader e.2) =
      some es := by
  induction es with
  | nil => rfl
  | cons e es ih =>
    have hrole : readName [.primary, .context, .related] entityRoleName
        (yamlString (entityRoleName e.role)) = some e.role :=
      readName_yamlString (by cases e.role <;> decide)
    have hconf : readConfidence (confidenceText e.confidence) = some e.confidence :=
      readConfidence_text _
    rw [List.map_cons, List.flatMap_cons]
    show readEntities (yamlString e.kind :: yamlString e.id :: yamlString (entityRoleName e.role) ::
      confidenceText e.confidence :: ((es.map entityFields).flatMap
        fun m => m.map fun e => yamlScalar reader e.2)) = _
    rw [readEntities, hrole, hconf, ih, unquote_yamlString, unquote_yamlString]
    rfl

theorem readSubjects_values (ss : List SubjectRef) :
    readSubjects ((ss.map subjectFields).flatMap fun m => m.map fun e => yamlScalar Y e.2) =
      some ss := by
  induction ss with
  | nil => rfl
  | cons s ss ih =>
    have hhash : (SubjectHash.parse (unquote (yamlString s.hash.text))).toOption = some s.hash := by
      rw [unquote_yamlString, SubjectHash.parse_text]
      rfl
    have hrole : readName [.principal, .party] subjectRoleName
        (yamlString (subjectRoleName s.role)) = some s.role :=
      readName_yamlString (by cases s.role <;> decide)
    rw [List.map_cons, List.flatMap_cons]
    show readSubjects (yamlString s.hash.text :: yamlString (subjectRoleName s.role) ::
      padInt 0 s.canonVer.toNat :: ((ss.map subjectFields).flatMap
        fun m => m.map fun e => yamlScalar Y e.2)) = _
    rw [readSubjects, hhash, hrole, ih, readUInt32_padInt]
    rfl

theorem readAttrs_values (a : AttrMap) :
    readAttrs ((a.entries.map fun (k, v) => (k, attrScalar v)).map
      fun e => (e.1, yamlScalar Y e.2)) = some a := by
  have h : ((a.entries.map fun (k, v) => (k, attrScalar v)).map
      fun e => (e.1, yamlScalar Y e.2)).map (fun e => (e.1, readAttr e.2)) = a.entries := by
    simp [Function.comp_def, readAttr_attrScalar]
  simp only [readAttrs, h, a.sorted, dite_true]

/-- **A rendered record is read back**, without its prose. -/
theorem readRecord_render (r : ActionRecord) : readRecord (render reader r) = some r.bare := by
  have hlines : (splitOn '\n' (render reader r)).dropLast = (project r).flatMap (fieldLines reader) := by
    rw [render, emit, splitOn_unlines, List.dropLast_concat]
    intro l hl
    obtain ⟨f, -, hl⟩ := List.mem_flatMap.1 hl
    exact (fieldLines_plain f l hl).1
  have hentities : ∀ m ∈ r.entities.map entityFields, m ≠ [] := fun m hm => by
    obtain ⟨e, -, rfl⟩ := List.mem_map.1 hm
    nofun
  have hsubjects : ∀ m ∈ r.subjects.map subjectFields, m ≠ [] := fun m hm => by
    obtain ⟨s, -, rfl⟩ := List.mem_map.1 hm
    nofun
  have hname : ∀ {α : Type} (all : List α) (name : α → Text) (a : α),
      all.find? (fun b => name b = name a) = some a →
      readName all name (yamlScalar reader (.str (name a))) = some a := fun _ _ _ h =>
    readName_yamlString h
  have hbool : readBool (yamlScalar reader (.bool r.backfilled)) = r.backfilled := by
    cases r.backfilled <;> rfl
  have h1 := hname [.success, .failure, .partly, .declined] outcomeName r.outcome
    (by cases r.outcome <;> decide)
  have h2 := hname [.owner, .team, .org, .operator] visibilityName r.visibility
    (by cases r.visibility <;> decide)
  have h3 := hname [.internal, .subjectDerived] dataClassName r.dataClass
    (by cases r.dataClass <;> decide)
  have hstrings : ∀ vs : List Text, ((vs.map Scalar.str).map (yamlScalar reader)).map unquote = vs :=
    fun vs => by simp [Function.comp_def, yamlScalar, unquote_yamlString]
  rw [readRecord, hlines, fieldsOf_flatMap]
  simp only [project, List.map_cons, List.map_nil, readFields, text, leafOf_fieldOf, stringList,
    itemsOf_fieldOf, entriesOf_fieldOf, valuesOf_fieldOf _ hentities, valuesOf_fieldOf _ hsubjects,
    readEntities_values, readSubjects_values, readAttrs_values, readOptional_fieldOf, hstrings, h1, h2, h3]
  simp only [hbool]
  simp only [yamlScalar, unquote_yamlString, readUInt32_padInt, RecordId.parse_text]
  rfl

theorem reader_inverts : reader.Inverts := by
  intro r
  show (readRecord (render reader r)).elim _ _ = _
  rw [readRecord_render]
  rfl

end Yaam.Md
