/-
  Which records come back from the frontmatter they are rendered as.

  * `toJson_nodeOf`, `asRecord_fieldsJson`: a record's document types as the record;
  * `frontmatter_round_trips_iff`: a record comes back exactly when no attribute's key is
    too long for an implicit key, `long_key_is_refused` one that does not.
-/
import Yaam.Core.Resolve
import Yaam.Md.Loaded

namespace Yaam.Md

open Text Contract BlockYaml

variable {L : Text → Except String (List Node)} {F : Floats}

/-! ## Typing -/

/-- The JSON of a scalar, and of a value. -/
def jsonScalar (F : Floats) : Scalar → Json
  | .null => .null
  | .bool v => .bool v
  | .int v => .int v
  | .float v => .float (F.debug v)
  | .str v => .str v

def jsonEntry (F : Floats) (e : Text × Scalar) : Text × Json := (e.1, jsonScalar F e.2)

def jsonOf (F : Floats) : Value → Json
  | .leaf v => jsonScalar F v
  | .map es => .obj (es.map (jsonEntry F))
  | .list vs => .arr (vs.map (jsonScalar F))
  | .maps ms => .arr (ms.map fun m => .obj (m.map (jsonEntry F)))

theorem mem_dropSign {c : Char} {t : Text} (h : c ∈ dropSign t) : c ∈ t := by
  unfold dropSign at h
  split at h
  · exact List.mem_cons_of_mem _ h
  · exact List.mem_cons_of_mem _ h
  · exact h

theorem isInfinity_debug (F : Floats) (v : Confidence) : isInfinity (F.debug v) = false := by
  rw [isInfinity, decide_eq_false_iff_not]
  intro h
  have hword : ∀ w ∈ [".inf".toList, ".Inf".toList, ".INF".toList],
      ∃ c ∈ w, floatChar c = false := by
    decide
  obtain ⟨c, hc, hfloat⟩ := hword _ h
  rw [F.debug_chars v c (mem_dropSign hc)] at hfloat
  cases hfloat

theorem isNan_debug (F : Floats) (v : Confidence) : isNan (F.debug v) = false := by
  rw [isNan, decide_eq_false_iff_not]
  intro h
  have hword : ∀ w ∈ [".nan".toList, ".NaN".toList, ".NAN".toList],
      ∃ c ∈ w, floatChar c = false := by
    decide
  obtain ⟨c, hc, hfloat⟩ := hword _ h
  rw [F.debug_chars v c hc] at hfloat
  cases hfloat

theorem toJson_scalar (F : Floats) (v : Scalar) :
    toJson (.scalar (scalarOf F v)) = .ok (jsonScalar F v) := by
  cases v with
  | float v =>
    have hfinite : ¬ (isInfinity (F.debug v) || isNan (F.debug v)) = true := by
      rw [isInfinity_debug, isNan_debug]
      exact Bool.false_ne_true
    rw [scalarOf, toJson, yamlScalarToJson, if_neg hfinite, jsonScalar]
  | _ => rfl

theorem mapM_map_ok {ε α β γ : Type} {f : β → Except ε γ} {h : α → β} {g : α → γ} {xs : List α}
    (hx : ∀ x ∈ xs, f (h x) = .ok (g x)) : (xs.map h).mapM f = .ok (xs.map g) := by
  induction xs with
  | nil => rfl
  | cons x xs ih =>
    obtain ⟨hx, hxs⟩ := List.forall_mem_cons.1 hx
    rw [List.map_cons, List.mapM_cons, hx, ih hxs]
    rfl

theorem toJsons_map {α : Type} {f : α → Node} {g : α → Json} {xs : List α}
    (h : ∀ x ∈ xs, toJson (f x) = .ok (g x)) : toJsons (xs.map f) = .ok (xs.map g) := by
  induction xs with
  | nil => rfl
  | cons x xs ih =>
    obtain ⟨hx, hxs⟩ := List.forall_mem_cons.1 h
    rw [List.map_cons, toJsons, hx, ih hxs]
    rfl

theorem toFields_entries (F : Floats) (es : List (Text × Scalar)) :
    toFields (es.map (entryNode F)) = .ok (es.map (jsonEntry F)) := by
  induction es with
  | nil => rfl
  | cons e es ih =>
    rw [List.map_cons, entryNode, toFields, keyStr, toJson_scalar, ih]
    rfl

theorem toJson_nodeOf (F : Floats) (v : Value) : toJson (nodeOf F v) = .ok (jsonOf F v) := by
  cases v with
  | leaf v => exact toJson_scalar F v
  | map es =>
    rw [nodeOf, toJson, toFields_entries]
    rfl
  | list vs =>
    rw [nodeOf, toJson, toJsons_map fun v _ => toJson_scalar F v]
    rfl
  | maps ms =>
    have hmap : ∀ m ∈ ms,
        toJson (.map (m.map (entryNode F))) = .ok (.obj (m.map (jsonEntry F))) := by
      intro m _
      rw [toJson, toFields_entries]
      rfl
    rw [nodeOf, toJson, toJsons_map hmap]
    rfl

theorem mapM_yamlField (r : ActionRecord) :
    ((project r).map fun f => (BlockYaml.Scalar.str f.1, nodeOf F f.2)).mapM yamlField =
      .ok ((project r).map fun f => (f.1, jsonOf F f.2)) := by
  refine mapM_map_ok fun f hf => ?_
  have hkey : f.1 ∈ keys := keys_eq r ▸ List.mem_map_of_mem hf
  show (if f.1 ∈ keys then toJson (nodeOf F f.2) >>= fun j => .ok (f.1, j) else _) = _
  rw [if_pos hkey, toJson_nodeOf]
  rfl

/-- A record's fields as JSON. -/
def fieldsJson (F : Floats) (r : ActionRecord) : List (Text × Json) :=
  ((project r).map fun f => (f.1, jsonOf F f.2)) ++ [("summary".toList, .str [])]

theorem asName_str {α : Type} {all : List α} {name : α → Text} {a : α}
    (h : all.find? (fun b => name b = name a) = some a) :
    asName all name (.str (name a)) = .ok a := by
  simp only [asName, h]

theorem asU32_toNat (n : UInt32) : asU32 (.int n.toNat) = .ok n := by
  have hn : n.toNat < 2 ^ 32 := n.toNat_lt
  rw [asU32, if_pos ⟨Int.natCast_nonneg _, by exact_mod_cast hn⟩, Int.toNat_natCast,
    UInt32.ofNat_toNat]

theorem asAttr_attrScalar (v : AttrValue) : asAttr (jsonScalar F (attrScalar v)) = .ok v := by
  cases v with
  | text v => rfl
  | int v =>
    show (if _ then _ else _) = _
    rw [if_pos ⟨v.le_toInt, v.toInt_lt⟩, Int64.ofInt_toInt]
  | bool v => rfl

theorem asAttrs_entries (a : AttrMap) :
    asAttrs (.obj ((a.entries.map fun (k, v) => (k, attrScalar v)).map (jsonEntry F))) = .ok a := by
  have hread : ((a.entries.map fun (k, v) => (k, attrScalar v)).map (jsonEntry F)).mapM
      (fun f => (asAttr f.2).map fun v => (f.1, v)) = .ok a.entries := by
    rw [List.map_map, mapM_map_ok (g := id), List.map_id]
    rintro ⟨k, v⟩ -
    show (asAttr (jsonScalar F (attrScalar v))).map _ = _
    rw [asAttr_attrScalar]
    rfl
  have hsorted : a.entries.insertionSort (fun a b => a.1 ≤ b.1) = a.entries := by
    refine List.Pairwise.insertionSort_eq ?_
    exact (List.pairwise_map.1 a.sorted).imp fun h => le_of_lt h
  simp only [asAttrs, hread]
  show (if h : _ then _ else _) = _
  simp only [hsorted]
  exact dif_pos a.sorted

theorem ok_bind_eq {ε α β : Type} (a : α) (f : α → Except ε β) : (Except.ok a >>= f) = f a := rfl

theorem asFields_known {α : Type} {struct_ : String} {names : List Text}
    {fields : List (Text × Json)} (h : ∀ f ∈ fields, f.1 ∈ names) (g : List (Text × Json) → Except String α) :
    (asFields struct_ names (.obj fields) >>= g) = g fields := by
  have hfind : fields.find? (fun f => f.1 ∉ names) = none :=
    List.find?_eq_none.2 fun f hf => by simpa using h f hf
  simp only [asFields, hfind]
  rfl

theorem asEntity_fields {e : EntityRef} (hback : F.read (F.debug e.confidence) = some e.confidence) :
    asEntity F (.obj ((entityFields e).map (jsonEntry F))) = .ok e := by
  have hrole : asName [.primary, .context, .related] entityRoleName (.str (entityRoleName e.role)) =
      .ok e.role := asName_str (by cases e.role <;> decide)
  have hconfidence : asF32 F (.float (F.debug e.confidence)) = .ok e.confidence := by
    rw [asF32, hback]
    rfl
  rw [asEntity, asFields_known]
  · show (Except.ok e.kind >>= fun kind => Except.ok e.id >>= fun id =>
      asName _ entityRoleName (.str (entityRoleName e.role)) >>= fun role =>
        asF32 F (.float (F.debug e.confidence)) >>= fun confidence => _) = _
    rw [hrole, hconfidence]
    rfl
  · rintro f hf
    obtain ⟨g, hg, rfl⟩ := List.mem_map.1 hf
    exact List.mem_map_of_mem (f := Prod.fst) hg

theorem asSubject_fields (s : SubjectRef) :
    asSubject (.obj ((subjectFields s).map (jsonEntry F))) = .ok s := by
  have hrole : asName [.principal, .party] subjectRoleName (.str (subjectRoleName s.role)) =
      .ok s.role := asName_str (by cases s.role <;> decide)
  have hhash : (SubjectHash.parse s.hash.text).mapError (·.display) = .ok s.hash := by
    rw [SubjectHash.parse_text]
    rfl
  rw [asSubject, asFields_known]
  · show (Except.ok s.hash.text >>= fun text =>
      (SubjectHash.parse text).mapError (·.display) >>= fun hash =>
      asName _ subjectRoleName (.str (subjectRoleName s.role)) >>= fun role =>
        asU32 (.int s.canonVer.toNat) >>= fun canonVer => _) = _
    simp only [ok_bind_eq, hhash, hrole, asU32_toNat]
  · rintro f hf
    obtain ⟨g, hg, rfl⟩ := List.mem_map.1 hf
    exact List.mem_map_of_mem (f := Prod.fst) hg

theorem asOption_optionalText (o : Option Text) :
    asOption asStr (jsonOf F (optionalText o)) = .ok o := by
  cases o <;> rfl

theorem asList_strings (vs : List Text) : asList asStr (jsonOf F (stringList vs)) = .ok vs := by
  show ((vs.map Scalar.str).map (jsonScalar F)).mapM asStr = _
  rw [List.map_map]
  exact (mapM_map_ok (h := jsonScalar F ∘ Scalar.str) (g := id) fun v _ => rfl).trans
    (congrArg Except.ok (List.map_id vs))

theorem asList_entities {es : List EntityRef}
    (hback : ∀ e ∈ es, F.read (F.debug e.confidence) = some e.confidence) :
    asList (asEntity F) (jsonOf F (.maps (es.map entityFields))) = .ok es := by
  show ((es.map entityFields).map fun m => Json.obj (m.map (jsonEntry F))).mapM (asEntity F) = _
  rw [List.map_map]
  exact (mapM_map_ok fun e he => asEntity_fields (hback e he)).trans (congrArg Except.ok (List.map_id es))

theorem asList_subjects (ss : List SubjectRef) :
    asList asSubject (jsonOf F (.maps (ss.map subjectFields))) = .ok ss := by
  show ((ss.map subjectFields).map fun m => Json.obj (m.map (jsonEntry F))).mapM asSubject = _
  rw [List.map_map]
  exact (mapM_map_ok fun s _ => asSubject_fields s).trans (congrArg Except.ok (List.map_id ss))

theorem fieldsJson_known (r : ActionRecord) :
    ∀ f ∈ fieldsJson F r, f.1 ∈ keys ++ ["summary".toList] := by
  have hkeys : (fieldsJson F r).map Prod.fst = keys ++ ["summary".toList] := rfl
  exact fun f hf => hkeys ▸ List.mem_map_of_mem hf

theorem required_eq {α : Type} {fields : List (Text × Json)} {name : Text}
    {as_ : Json → Except String α} {j : Json} {a : α} (h : fields.lookup name = some j) (hj : as_ j = .ok a) :
    required fields name as_ = .ok a := by
  rw [required, h]
  exact hj

theorem optional_eq {fields : List (Text × Json)} {name : Text} {o : Option Text}
    (h : fields.lookup name = some (jsonOf F (optionalText o))) :
    optional fields name asStr = .ok o := by
  rw [optional, h]
  exact asOption_optionalText o

/-- **A record's fields type as the record**, without prose, when its confidences read back. -/
theorem asRecord_fieldsJson {r : ActionRecord}
    (hback : ∀ e ∈ r.entities, F.read (F.debug e.confidence) = some e.confidence) :
    asRecord F (.obj (fieldsJson F r)) = .ok r.bare := by
  have hid : (RecordId.parse r.recordId.text).mapError (·.display) = .ok r.recordId := by
    rw [RecordId.parse_text]
    rfl
  have houtcome : asName [.success, .failure, .partly, .declined] outcomeName
      (.str (outcomeName r.outcome)) = .ok r.outcome := asName_str (by cases r.outcome <;> decide)
  have hvisibility : asName [.owner, .team, .org, .operator] visibilityName
      (.str (visibilityName r.visibility)) = .ok r.visibility :=
    asName_str (by cases r.visibility <;> decide)
  have hclass : asName [.internal, .subjectDerived] dataClassName
      (.str (dataClassName r.dataClass)) = .ok r.dataClass := asName_str (by cases r.dataClass <;> decide)
  rw [asRecord, asFields_known (fieldsJson_known r)]
  have h1 : required (fieldsJson F r) "record_id".toList asStr = .ok r.recordId.text :=
    required_eq rfl rfl
  have h2 : required (fieldsJson F r) "schema_ver".toList asU32 = .ok r.schemaVer :=
    required_eq rfl (asU32_toNat _)
  have h3 : required (fieldsJson F r) "at".toList asStr = .ok r.at_ := required_eq rfl rfl
  have h4 : required (fieldsJson F r) "received_at".toList asStr = .ok r.receivedAt :=
    required_eq rfl rfl
  have h5 : required (fieldsJson F r) "backfilled".toList asBool = .ok r.backfilled :=
    required_eq rfl rfl
  have h6 : required (fieldsJson F r) "agent".toList asStr = .ok r.agent := required_eq rfl rfl
  have h7 : optional (fieldsJson F r) "agent_ver".toList asStr = .ok r.agentVer := optional_eq rfl
  have h8 : optional (fieldsJson F r) "correlation_id".toList asStr = .ok r.correlationId :=
    optional_eq rfl
  have h9 : required (fieldsJson F r) "action".toList asStr = .ok r.action := required_eq rfl rfl
  have h10 : required (fieldsJson F r) "outcome".toList
      (asName [.success, .failure, .partly, .declined] outcomeName) = .ok r.outcome :=
    required_eq rfl houtcome
  have h11 : required (fieldsJson F r) "attrs".toList asAttrs = .ok r.attrs :=
    required_eq rfl (asAttrs_entries r.attrs)
  have h12 : required (fieldsJson F r) "entities".toList (asList (asEntity F)) = .ok r.entities :=
    required_eq rfl (asList_entities hback)
  have h13 : required (fieldsJson F r) "subjects".toList (asList asSubject) = .ok r.subjects :=
    required_eq rfl (asList_subjects r.subjects)
  have h14 : required (fieldsJson F r) "visibility".toList
      (asName [.owner, .team, .org, .operator] visibilityName) = .ok r.visibility :=
    required_eq rfl hvisibility
  have h15 : optional (fieldsJson F r) "team".toList asStr = .ok r.team := optional_eq rfl
  have h16 : required (fieldsJson F r) "data_class".toList
      (asName [.internal, .subjectDerived] dataClassName) = .ok r.dataClass :=
    required_eq rfl hclass
  have h17 : required (fieldsJson F r) "redaction_policy".toList asStr = .ok r.redactionPolicy :=
    required_eq rfl rfl
  have h18 : required (fieldsJson F r) "fields_masked".toList (asList asStr) = .ok r.fieldsMasked :=
    required_eq rfl (asList_strings r.fieldsMasked)
  have h19 : required (fieldsJson F r) "tags".toList (asList asStr) = .ok r.tags :=
    required_eq rfl (asList_strings r.tags)
  have h20 : required (fieldsJson F r) "summary".toList asStr = .ok [] := required_eq rfl rfl
  simp only [h1, h2, h3, h4, h5, h6, h7, h8, h9, h10, h11, h12, h13, h14, h15, h16, h17, h18, h19,
    h20, hid, ok_bind_eq]
  rfl

/-! ## Records -/

theorem fromYaml_document (hF : F.Faithful) (r : ActionRecord) :
    fromYaml F [document F r] = .ok r.bare := by
  rw [document, fromYaml, mapM_yamlField]
  exact asRecord_fieldsJson fun e _ => hF.back e.confidence

/-- Frontmatter reads back as the record without its prose, and that renders as before. -/
def RoundTrips (Y : Yaml) (r : ActionRecord) : Prop :=
  ∃ r', parse Y (render Y r) = .ok r' ∧ r' = r.bare ∧ render Y r' = render Y r

/-- A string's text is read as the string; plain text has none of the other forms, and
    quoted text unescapes to the string. -/
structure ReadsAsString (v : Text) : Prop where
  read : readScalar (yamlString v) = some (.str v)
  emitted : (yamlString v = v ∧ nonString v = false) ∨
    (yamlString v = quote v ∧ readDouble (quote v).tail = some (v, []))

theorem readsAsString (v : Text) : ReadsAsString v := by
  refine ⟨(spells_yamlString v).readScalar, ?_⟩
  by_cases hsafe : plainSafe v = true
  · exact .inl ⟨if_pos hsafe, nonString_of_plainSafe hsafe⟩
  · exact .inr ⟨if_neg hsafe, readDouble_quote v []⟩

variable (hL : Loads L) (hF : F.Faithful)
include hL hF

theorem read_short {r : ActionRecord} (h : ∀ a ∈ r.attrs.entries, (yamlString a.1).length ≤ 1024) :
    (loaded L F).read (render (loaded L F) r) = .ok r.bare := by
  have hdoc : BlockYaml.read implicitKey (render (loaded L F) r) = some (document F r) := by
    rw [read_render hF, if_pos]
    · exact fun a ha => decide_eq_true (h a ha)
    · exact fun n hn => decide_eq_true (by omega)
  show (L _ >>= fromYaml F) = _
  rw [hL.accepts _ _ hdoc]
  exact fromYaml_document hF r

/-- A key that is too long is refused. -/
theorem read_long {r : ActionRecord} {a : Text × AttrValue} (ha : a ∈ r.attrs.entries)
    (hlong : 1024 < (yamlString a.1).length) :
    ∃ e, (loaded L F).read (render (loaded L F) r) = .error e := by
  have hany : BlockYaml.read (fun _ => true) (render (loaded L F) r) = some (document F r) := by
    rw [read_render hF fun _ _ => rfl]
    exact if_pos fun _ _ => rfl
  have hnone : BlockYaml.read implicitKey (render (loaded L F) r) = none := by
    rw [read_render hF, if_neg]
    · intro h
      have hshort : (yamlString a.1).length ≤ 1024 := of_decide_eq_true (h a ha)
      omega
    · exact fun n hn => decide_eq_true (by omega)
  obtain ⟨e, he⟩ := hL.refuses _ _ hany hnone
  refine ⟨e, ?_⟩
  show (L _ >>= fromYaml F) = _
  rw [he]
  rfl

/-- **Frontmatter round-trips exactly when every attribute's key is short enough to be an
    implicit key**, and every string's text reads as that string. -/
theorem frontmatter_round_trips_iff : (∀ v, ReadsAsString v) ∧
    ∀ r : ActionRecord, r.validate = .ok () →
      (RoundTrips (loaded L F) r ↔ ∀ a ∈ r.attrs.entries, (yamlString a.1).length ≤ 1024) := by
  refine ⟨readsAsString, fun r hr => ⟨?_, fun h => ?_⟩⟩
  · rintro ⟨r', hparse, -⟩ a ha
    by_contra hlong
    obtain ⟨e, he⟩ := read_long hL hF ha (Nat.not_le.1 hlong)
    rw [parse, he] at hparse
    cases hparse
  · refine ⟨r.bare, ?_, rfl, rfl⟩
    simp only [parse, read_short hL hF h, bare_bare, ActionRecord.validate_bare, hr]

omit hL hF

/-! ## A loader -/

theorem spells_float {t : Text} (hchars : ∀ c ∈ t, floatChar c = true) (hplain : isPlain t = true)
    (hdecimal : isDecimal t = false) (hfloat : isFloat t = true) : Spells t (.float t) := by
  have hword : ∀ ws : List Text, (∀ w ∈ ws, ∃ c ∈ w, floatChar c = false) → t ∉ ws := by
    intro ws hws hm
    obtain ⟨c, hc, hno⟩ := hws t hm
    rw [hchars c hc] at hno
    cases hno
  have hprefix : ∀ pre : Text, (∃ c ∈ pre, floatChar c = false) → startsWith pre t = false := by
    rintro pre ⟨c, hc, hno⟩
    rw [← Bool.not_eq_true]
    intro hpre
    obtain ⟨u, hu⟩ := Option.isSome_iff_exists.1 hpre
    obtain rfl := stripPrefix_eq_some hu
    rw [hchars c (List.mem_append_left _ hc)] at hno
    cases hno
  refine .inl ⟨hplain, ?_⟩
  rw [plainValue, if_neg (hword nulls (by decide)), if_neg (hword trues (by decide)),
    if_neg (hword falses (by decide)), hdecimal, isOctal, hprefix _ (by decide), isHexadecimal,
    hprefix _ (by decide), hfloat]
  rfl

/-- A loader of block mappings and sequences only, and the floats it reads. -/
def blockLoader (t : Text) : Except String (List Node) :=
  match BlockYaml.read implicitKey t with
  | some n => .ok [n]
  | none => .error "not a block document"

def fractions : Floats := ⟨confidenceText, confidenceText_chars, readConfidence⟩

theorem loads_blockLoader : Loads blockLoader where
  accepts t n h := by rw [blockLoader, h]
  refuses t n _ h := ⟨_, by rw [blockLoader, h]⟩

theorem spells_confidenceText (c : Confidence) :
    Spells (confidenceText c) (.float (confidenceText c)) := by
  have hchars := confidenceText_chars c
  unfold confidenceText at hchars ⊢
  split_ifs at hchars ⊢
  · exact .inl (by decide)
  · obtain ⟨d, ds, hd, hds⟩ := exists_digits c.value.num.natAbs
    obtain ⟨n, ns, hn, hns⟩ := exists_digits c.value.den
    have hdrop : dropSign (padInt 0 c.value.num ++ 'e' :: padNat 0 c.value.den) =
        d :: ds ++ 'e' :: n :: ns := by
      rw [padInt, hd, hn]
      split_ifs
      · rfl
      · exact dropSign_digit (hds d List.mem_cons_self) _
    have hdigit : isDigit d = true := hds d List.mem_cons_self
    refine spells_float hchars ?_ ?_ ?_
    · have hword : ∀ c, floatChar c = true →
          (isWordChar c || c == '-' || c == '.' || c == '/') = true := by
        intro c hc
        simp only [floatChar, Bool.or_eq_true, beq_iff_eq] at hc
        rcases hc with ((hc | rfl) | rfl) | rfl
        · simp [isWordChar, hc]
        · rfl
        · rfl
        · rfl
      rw [padInt, hd] at hchars ⊢
      split_ifs at hchars ⊢
      · exact isPlain_minus hdigit fun c hc => hword c (hchars c (List.mem_cons_of_mem _ hc))
      · exact isPlain_digit hdigit fun c hc => hword c (hchars c hc)
    · rw [isDecimal, hdrop, Bool.and_eq_false_iff]
      exact .inr (List.all_eq_false.2 ⟨'e', by simp, by decide⟩)
    · have htake : (d :: ds ++ 'e' :: n :: ns).takeWhile isDigit = d :: ds := by
        rw [List.takeWhile_append_of_pos hds]
        simp [isDigit]
      have hrest : (d :: ds ++ 'e' :: n :: ns).dropWhile isDigit = 'e' :: n :: ns := by
        rw [List.dropWhile_append_of_pos hds]
        simp [isDigit]
      have hexp : BlockYaml.isExponent ('e' :: n :: ns) = true := by
        rw [BlockYaml.isExponent, dropSign_digit (hns n List.mem_cons_self)]
        simpa using hns
      simp only [isFloat, hdrop, htake, hrest]
      exact Bool.and_eq_true_iff.2 ⟨rfl, hexp⟩

theorem faithful_fractions : fractions.Faithful where
  spells := spells_confidenceText
  back := readConfidence_text

/-- A key of 1,025 characters. -/
def longKey : Text := List.replicate 1025 'a'

/-- A record with an attribute under that key. -/
def longKeyRecord : ActionRecord :=
  { Core.plainRecord (Core.ulid 'A' isCrockfordDigit_A) "2026-01-01T00:00:00Z".toList with
    attrs := ⟨[(longKey, .bool true)], List.pairwise_singleton _ _⟩ }

/-- Too long a key does not come back. -/
theorem long_key_is_refused : longKeyRecord.validate = .ok () ∧
    ¬ RoundTrips (loaded blockLoader fractions) longKeyRecord := by
  have hlong : 1024 < (yamlString longKey).length := by decide +kernel
  have ha : (longKey, AttrValue.bool true) ∈ longKeyRecord.attrs.entries := List.mem_cons_self
  refine ⟨Core.ok_of_toOption (by decide +kernel), ?_⟩
  rintro ⟨r', hparse, -⟩
  obtain ⟨e, he⟩ := read_long loads_blockLoader faithful_fractions ha hlong
  rw [parse, he] at hparse
  cases hparse

/-- A record with an attribute, and a tag that some reader takes for a truth value. -/
def taggedRecord : ActionRecord :=
  { Core.plainRecord (Core.ulid 'A' isCrockfordDigit_A) "2026-01-01T00:00:00Z".toList with
    attrs := ⟨[("room no.".toList, .text "0x12".toList)], List.pairwise_singleton _ _⟩
    tags := ["Yes".toList] }

theorem tagged_record_round_trips : RoundTrips (loaded blockLoader fractions) taggedRecord := by
  have hvalid : taggedRecord.validate = .ok () := Core.ok_of_toOption (by decide +kernel)
  have hshort : ∀ a ∈ taggedRecord.attrs.entries, (yamlString a.1).length ≤ 1024 := by
    decide +kernel
  exact ((frontmatter_round_trips_iff loads_blockLoader faithful_fractions).2 _ hvalid).2 hshort

end Yaam.Md
