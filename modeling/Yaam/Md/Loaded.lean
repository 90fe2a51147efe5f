/-
  What rendered frontmatter is read as.

  * `spells_yamlString`: a string's text spells that string, `spells_scalar` every
    scalar's text that scalar;
  * `readEntry_fieldOf`: a field is the entry of its key and its value, whatever its shape;
  * `read_render`: rendered frontmatter is the record's document, when the keys of its
    attributes are short enough.
-/
import Yaam.Md.Reader
import Yaam.Md.Loader

namespace Yaam.Md

open Text Contract BlockYaml

/-! ## Strings -/

theorem dropSign_eq (t : Text) : dropSign t = unsigned t := by
  unfold dropSign
  split
  · rfl
  · rfl
  · rename_i hplus hminus
    exact (unsigned.eq_3 t hplus hminus).symm

theorem isExponent_eq (t : Text) : BlockYaml.isExponent t = isExponent t := by
  cases t with
  | nil => rfl
  | cons c t => simp only [BlockYaml.isExponent, isExponent, dropSign_eq]

/-- What the core schema takes for a float, Rust takes for one. -/
theorem isF64_of_isFloat {t : Text} (h : isFloat t = true) : isF64 t = true := by
  rw [isF64, Bool.or_eq_true]
  refine .inr ?_
  simp only [isFloat, dropSign_eq, isExponent_eq] at h
  exact h

theorem isFloat_of_isDecimal {t : Text} (h : isDecimal t = true) : isFloat t = true := by
  rw [isDecimal, Bool.and_eq_true, bne_iff_ne] at h
  obtain ⟨hne, hall⟩ := h
  have hwhole : (dropSign t).takeWhile isDigit = dropSign t :=
    List.takeWhile_eq_self_iff.2 fun c hc => List.all_eq_true.1 hall c hc
  have hrest : (dropSign t).dropWhile isDigit = [] :=
    List.dropWhile_eq_nil_iff.2 fun c hc => List.all_eq_true.1 hall c hc
  simp only [isFloat, hwhole, hrest, BlockYaml.isExponent, Bool.and_true, Bool.or_eq_true,
    bne_iff_ne]
  exact .inl hne

/-- What the core schema would not read as a string, whatever the case of its letters. -/
def nonString (v : Text) : Bool :=
  asciiLower v ∈ ["null".toList, "~".toList, "true".toList, "false".toList] || isDecimal v ||
    isOctal v || isHexadecimal v || isFloat v || isInfinity v || isNan v

/-- **Text that is emitted plain has none of the core schema's other forms.** -/
theorem nonString_of_plainSafe {v : Text} (h : plainSafe v = true) : nonString v = false := by
  obtain ⟨c, t, rfl, hc⟩ := plainSafe_head h
  simp only [plainSafe, Bool.and_eq_true, Bool.not_eq_true', decide_eq_false_iff_not] at h
  obtain ⟨⟨⟨⟨⟨⟨-, -⟩, h0x⟩, h0o⟩, -⟩, hf64⟩, hres⟩ := h
  have hfloat : isFloat (c :: t) = false := by
    rw [← Bool.not_eq_true]
    intro hf
    rw [isF64_of_isFloat hf] at hf64
    cases hf64
  have hdecimal : isDecimal (c :: t) = false := by
    rw [← Bool.not_eq_true]
    intro hd
    rw [isFloat_of_isDecimal hd] at hfloat
    cases hfloat
  have hsign : dropSign (c :: t) = c :: t := by
    unfold dropSign
    split
    · rename_i heq
      obtain ⟨rfl, -⟩ := List.cons.inj heq
      exact absurd hc (by decide)
    · rename_i heq
      obtain ⟨rfl, -⟩ := List.cons.inj heq
      exact absurd hc (by decide)
    · rfl
  have hdot : ∀ w, '.' :: w ≠ c :: t := by
    intro w heq
    obtain ⟨rfl, -⟩ := List.cons.inj heq
    exact absurd hc (by decide)
  have hinf : isInfinity (c :: t) = false := by
    rw [isInfinity, hsign, decide_eq_false_iff_not]
    intro hm
    simp only [List.mem_cons, List.not_mem_nil, or_false] at hm
    rcases hm with hm | hm | hm
    · exact hdot _ hm.symm
    · exact hdot _ hm.symm
    · exact hdot _ hm.symm
  have hnan : isNan (c :: t) = false := by
    rw [isNan, decide_eq_false_iff_not]
    intro hm
    simp only [List.mem_cons, List.not_mem_nil, or_false] at hm
    rcases hm with hm | hm | hm
    · exact hdot _ hm.symm
    · exact hdot _ hm.symm
    · exact hdot _ hm.symm
  have hlow : asciiLower (c :: t) ∉ ["null".toList, "~".toList, "true".toList, "false".toList] := by
    intro hm
    refine hres (List.Subset.trans ?_ (List.Subset.refl reserved) hm)
    decide
  rw [nonString, hdecimal, isOctal, h0o, isHexadecimal, h0x, hfloat, hinf, hnan,
    decide_eq_false hlow]
  rfl

/-- A text without a leading capital or other form is no null and no truth value. -/
theorem plainValue_of_not_nonString {v : Text} (h : nonString v = false) : plainValue v = .str v := by
  simp only [nonString, Bool.or_eq_false_iff, decide_eq_false_iff_not] at h
  obtain ⟨⟨⟨⟨⟨⟨hlow, hdec⟩, hoct⟩, hhex⟩, hfl⟩, hinf⟩, hnan⟩ := h
  have hnot : ∀ ws : List Text, ws.map asciiLower ⊆ ["null".toList, "~".toList, "true".toList,
      "false".toList] → v ∉ ws := fun ws hws hm => hlow (hws (List.mem_map_of_mem hm))
  rw [plainValue, if_neg (hnot nulls (by decide)), if_neg (hnot trues (by decide)),
    if_neg (hnot falses (by decide)), hdec, hoct, hhex, hfl, hinf, hnan]
  rfl

theorem isPlain_of_plainSafe {v : Text} (h : plainSafe v = true) : isPlain v = true := by
  obtain ⟨c, t, rfl, hc⟩ := plainSafe_head h
  simp only [plainSafe, Bool.and_eq_true] at h
  obtain ⟨⟨⟨⟨⟨⟨-, hall⟩, -⟩, -⟩, -⟩, -⟩, -⟩ := h
  rw [isPlain.eq_def, Bool.and_eq_true]
  refine ⟨?_, hall⟩
  split
  · rename_i heq
    obtain ⟨rfl, -⟩ := List.cons.inj heq
    exact absurd hc (by decide)
  · rename_i heq
    obtain ⟨rfl, -⟩ := List.cons.inj heq
    exact hc
  · rename_i heq
    cases heq

/-- Every character's escape is undone. -/
theorem readDouble_quoteChar (c : Char) (t : Text) :
    readDouble (quoteChar c ++ t) = (readDouble t).map (push c) := by
  unfold quoteChar
  split_ifs with h1 h2 h3 h4 h5 h6
  · rw [h1]
    rfl
  · rw [h2]
    rfl
  · rw [h3]
    rfl
  · rw [h4]
    rfl
  · rw [h5]
    rfl
  · have hc : c.toNat < 256 := by
      simp only [isControl, Bool.or_eq_true, Bool.and_eq_true, decide_eq_true_eq] at h6
      omega
    have hdigit : ∀ n < 16, hexVal? (Crypto.hexDigit n) = some n := by decide
    have hback : Char.ofNat (16 * (c.toNat / 16) + c.toNat % 16) = c := by
      rw [Nat.div_add_mod, Char.ofNat_toNat]
    show readDouble ('\\' :: 'x' :: Crypto.hexDigit _ :: Crypto.hexDigit _ :: t) = _
    rw [readDouble, hdigit _ (by omega), hdigit _ (by omega)]
    simp only [hback]
  · have hc : 0x20 ≤ c.toNat := by
      simp only [isControl, Bool.or_eq_true, decide_eq_true_eq, not_or] at h6
      omega
    exact readDouble_plain h1 h2 hc t

/-- **A string's text unescapes to the string.** -/
theorem readDouble_quote (v rest : Text) :
    readDouble (v.flatMap quoteChar ++ '"' :: rest) = some (v, rest) :=
  readDouble_escaped readDouble_quoteChar v rest

/-- **A string's text spells that string.** -/
theorem spells_yamlString (v : Text) : Spells (yamlString v) (.str v) := by
  unfold yamlString
  split_ifs with h
  · exact .inl ⟨isPlain_of_plainSafe h, plainValue_of_not_nonString (nonString_of_plainSafe h)⟩
  · refine .inr ⟨v.flatMap quoteChar ++ ['"'], v, rfl, rfl, fun rest => ?_⟩
    rw [List.append_assoc]
    exact readDouble_quote v rest

/-! ## Scalars -/

theorem exists_digits (n : ℕ) :
    ∃ d ds, padNat 0 n = d :: ds ∧ ∀ c ∈ d :: ds, isDigit c = true := by
  obtain ⟨d, ds, hd⟩ : ∃ d ds, padNat 0 n = d :: ds :=
    List.exists_cons_of_ne_nil (by simp [padNat, Nat.toDigits_ne_nil])
  exact ⟨d, ds, hd, fun c hc => isDigit_of_isDigit (mem_padNat (hd ▸ hc))⟩

theorem dropSign_digit {d : Char} (hd : isDigit d = true) (t : Text) :
    dropSign (d :: t) = d :: t := by
  unfold dropSign
  split
  · rename_i heq
    obtain ⟨rfl, -⟩ := List.cons.inj heq
    exact absurd hd (by decide)
  · rename_i heq
    obtain ⟨rfl, -⟩ := List.cons.inj heq
    exact absurd hd (by decide)
  · rfl

theorem isPlain_digit {d : Char} {t : Text} (hd : isDigit d = true)
    (h : ∀ c ∈ d :: t, (isWordChar c || c == '-' || c == '.' || c == '/') = true) :
    isPlain (d :: t) = true := by
  rw [isPlain.eq_def, Bool.and_eq_true, List.all_eq_true]
  refine ⟨?_, h⟩
  split
  · rename_i heq
    obtain ⟨rfl, -⟩ := List.cons.inj heq
    exact absurd hd (by decide)
  · rename_i heq
    obtain ⟨rfl, -⟩ := List.cons.inj heq
    simp [isWordChar, hd]
  · rename_i heq
    cases heq

theorem isPlain_minus {d : Char} {t : Text} (hd : isDigit d = true)
    (h : ∀ c ∈ d :: t, (isWordChar c || c == '-' || c == '.' || c == '/') = true) :
    isPlain ('-' :: d :: t) = true := by
  rw [isPlain, Bool.and_eq_true, List.all_cons, Bool.and_eq_true, List.all_eq_true]
  exact ⟨by simp [isWordChar, hd], by decide, h⟩

theorem spells_int (z : ℤ) : Spells (padInt 0 z) (.int z) := by
  have hnum : number (padNat 0 z.natAbs) = z.natAbs := number_padNat 0 _
  obtain ⟨d, ds, hd, hdigits⟩ := exists_digits z.natAbs
  rw [hd] at hnum
  have hword : isDigit d = true := hdigits d List.mem_cons_self
  have hchars : ∀ c ∈ d :: ds, (isWordChar c || c == '-' || c == '.' || c == '/') = true := by
    intro c hc
    simp [isWordChar, hdigits c hc]
  have hne : ∀ c, isDigit c = false → c ≠ d := by
    rintro c hc rfl
    rw [hword] at hc
    cases hc
  have hdrop : dropSign (d :: ds) = d :: ds := dropSign_digit hword ds
  have hresolve : ∀ t, isDecimal t = true → (∀ c ∈ t, c = '-' ∨ isDigit c = true) →
      plainValue t = .int (decimal t) := by
    intro t hdec hall
    have hnot : ∀ ws : List Text, (∀ w ∈ ws, ∃ c ∈ w, c ≠ '-' ∧ isDigit c = false) → t ∉ ws := by
      intro ws hws hm
      obtain ⟨c, hc, hsign, hdigit⟩ := hws t hm
      rcases hall c hc with h | h
      · exact hsign h
      · rw [h] at hdigit
        cases hdigit
    rw [plainValue, if_neg (hnot nulls (by decide)), if_neg (hnot trues (by decide)),
      if_neg (hnot falses (by decide)), if_pos hdec]
  unfold padInt
  split_ifs with hz
  · have hdec : isDecimal ('-' :: d :: ds) = true := by
      simpa [isDecimal, dropSign] using hdigits
    have hval : decimal ('-' :: d :: ds) = z := by
      have hneg : decimal ('-' :: d :: ds) = -(number (d :: ds) : ℤ) := if_pos rfl
      rw [hneg, hnum]
      omega
    rw [Nat.zero_sub, hd]
    refine .inl ⟨isPlain_minus hword hchars, ?_⟩
    rw [hresolve _ hdec, hval]
    · intro c hc
      exact (List.mem_cons.1 hc).imp id (hdigits c)
  · have hdec : isDecimal (d :: ds) = true := by
      rw [isDecimal, hdrop, Bool.and_eq_true, List.all_eq_true]
      exact ⟨by simp, hdigits⟩
    have hval : decimal (d :: ds) = z := by
      rw [decimal, if_neg, hdrop, hnum]
      · omega
      · intro h
        exact absurd (Option.some.inj h).symm (hne '-' (by decide))
    rw [hd]
    refine .inl ⟨isPlain_digit hword hchars, ?_⟩
    rw [hresolve _ hdec fun c hc => .inr (hdigits c hc), hval]

variable {L : Text → Except String (List Node)} {F : Floats}

/-- The scalar that is read back. -/
def scalarOf (F : Floats) : Scalar → BlockYaml.Scalar
  | .null => .null
  | .bool v => .bool v
  | .int v => .int v
  | .float v => .float (F.debug v)
  | .str v => .str v

theorem word_null : isPlain "null".toList = true ∧ plainValue "null".toList = .null := by decide

theorem word_true : isPlain "true".toList = true ∧ plainValue "true".toList = .bool true := by decide

theorem word_false : isPlain "false".toList = true ∧ plainValue "false".toList = .bool false := by
  decide

/-- **A scalar's text spells that scalar.** -/
theorem spells_scalar (hF : F.Faithful) (v : Scalar) :
    Spells (yamlScalar (loaded L F) v) (scalarOf F v) := by
  cases v with
  | null => exact .inl word_null
  | bool v =>
    cases v
    · exact .inl word_false
    · exact .inl word_true
  | int v => exact spells_int v
  | float v => exact hF.spells v
  | str v => exact spells_yamlString v

/-! ## Fields -/

/-- The node of an entry. -/
def entryNode (F : Floats) (e : Text × Scalar) : BlockYaml.Scalar × Node :=
  (.str e.1, .scalar (scalarOf F e.2))

/-- The node of a value. -/
def nodeOf (F : Floats) : Value → Node
  | .leaf v => .scalar (scalarOf F v)
  | .map es => .map (es.map (entryNode F))
  | .list vs => .seq (vs.map fun v => .scalar (scalarOf F v))
  | .maps ms => .seq (ms.map fun m => .map (m.map (entryNode F)))

/-- The keys under a value's own. -/
def innerKeys : Value → List Text
  | .leaf _ | .list _ => []
  | .map es => es.map Prod.fst
  | .maps ms => ms.flatMap fun m => m.map Prod.fst

/-- A value whose mappings repeat no key, and that lists no mapping of less than two. -/
def Proper : Value → Prop
  | .leaf _ | .list _ => True
  | .map es => (es.map Prod.fst).Nodup
  | .maps ms => ∀ m ∈ ms, 2 ≤ m.length ∧ (m.map Prod.fst).Nodup

variable {fits : ℕ → Bool} {block : List Text → Option Node}

/-- Whether a key is short enough. -/
def Short (fits : ℕ → Bool) (k : Text) : Prop := fits (yamlString k).length = true

instance : DecidablePred (Short fits) := fun _ => inferInstanceAs (Decidable (_ = true))

theorem mapM_guarded {α β : Type} {f : α → Option β} {p : α → Prop} [DecidablePred p] {g : α → β}
    {xs : List α} (h : ∀ x ∈ xs, f x = if p x then some (g x) else none) :
    xs.mapM f = if ∀ x ∈ xs, p x then some (xs.map g) else none := by
  induction xs with
  | nil => simp
  | cons x xs ih =>
    obtain ⟨hfx, hfxs⟩ := List.forall_mem_cons.1 h
    rw [List.mapM_cons, hfx, ih hfxs]
    by_cases hx : p x
    · rw [if_pos hx]
      by_cases hxs : ∀ y ∈ xs, p y
      · rw [if_pos hxs, if_pos (List.forall_mem_cons.2 ⟨hx, hxs⟩)]
        rfl
      · rw [if_neg hxs, if_neg fun h => hxs (List.forall_mem_cons.1 h).2]
        rfl
    · rw [if_neg hx, if_neg fun h => hx (List.forall_mem_cons.1 h).1]
      rfl

theorem entryText_eq (e : Text × Scalar) :
    entryText (loaded L F) e = yamlString e.1 ++ ':' :: ' ' :: yamlScalar (loaded L F) e.2 := by
  rw [entryText, List.append_assoc]
  rfl

theorem readEntry_loaded (hF : F.Faithful) (e : Text × Scalar) :
    BlockYaml.readEntry fits block (entryText (loaded L F) e, []) =
      if Short fits e.1 then some (entryNode F e) else none := by
  rw [entryText_eq]
  exact readEntry_inline (spells_yamlString e.1) (spells_scalar hF e.2).readInline

theorem flatMap_entryText (es : List (Text × Scalar)) :
    ((es.map fun e => (entryText (loaded L F) e, ([] : List Text))).flatMap fun f => f.1 :: f.2) =
      es.map (entryText (loaded L F)) := by
  rw [List.flatMap_map]
  exact List.map_eq_flatMap.symm

theorem entryNode_nodup (es : List (Text × Scalar)) :
    ((es.map (entryNode F)).map Prod.fst).Nodup ↔ (es.map Prod.fst).Nodup := by
  rw [List.map_map, show Prod.fst ∘ entryNode F = BlockYaml.Scalar.str ∘ Prod.fst from rfl,
    ← List.map_map]
  exact List.nodup_map_iff fun _ _ h => BlockYaml.Scalar.str.inj h

/-- **A block of entries is the mapping of them.** -/
theorem readBlock_entries (hF : F.Faithful) {es : List (Text × Scalar)} (hne : es ≠ [])
    (hkeys : (es.map Prod.fst).Nodup) (depth : ℕ) :
    readBlock fits (depth + 1) (es.map (entryText (loaded L F))) =
      if ∀ e ∈ es, Short fits e.1 then some (.map (es.map (entryNode F))) else none := by
  have hread : (es.map fun e => (entryText (loaded L F) e, ([] : List Text))).mapM
      (BlockYaml.readEntry fits (readBlock fits depth)) =
        if ∀ e ∈ es, Short fits e.1 then some (es.map (entryNode F)) else none := by
    rw [List.mapM_map]
    exact mapM_guarded fun e _ => readEntry_loaded hF e
  rw [← flatMap_entryText, readBlock_map (by simpa using hne), hread]
  · split_ifs with h
    · exact if_pos ((entryNode_nodup es).2 hkeys)
    · rfl
  · rintro f hf
    obtain ⟨e, -, rfl⟩ := List.mem_map.1 hf
    refine ⟨?_, nofun⟩
    rw [entryText_eq]
    exact (spells_yamlString e.1).not_indented _
  · rintro f hf
    obtain ⟨e, -, rfl⟩ := List.mem_map.1 hf
    rw [entryText_eq]
    exact (spells_yamlString e.1).not_item _

/-- The line of a list's scalar, under its dash. -/
def itemText (Y : Yaml) (v : Scalar) : Text := "- ".toList ++ yamlScalar Y v

/-- A mapping in a list, as its first line and those under it. -/
def itemOf (Y : Yaml) (m : List (Text × Scalar)) : Text × List Text :=
  ("- ".toList ++ (m.map (entryText Y)).headD [],
    (m.map (entryText Y)).tail.map fun l => "  ".toList ++ l)

theorem starts_dash (t : Text) : startsWith "- ".toList ("- ".toList ++ t) = true := by
  rw [startsWith, stripPrefix_append]
  rfl

theorem readBlock_items (hF : F.Faithful) {vs : List Scalar} (hne : vs ≠ []) (depth : ℕ) :
    readBlock fits (depth + 1) (vs.map (itemText (loaded L F))) =
      some (.seq (vs.map fun v => .scalar (scalarOf F v))) := by
  have hlines : vs.map (itemText (loaded L F)) =
      (vs.map fun v => (itemText (loaded L F) v, ([] : List Text))).flatMap
        fun f => f.1 :: f.2 := by
    rw [List.flatMap_map]
    exact List.map_eq_flatMap
  have hread : (vs.map fun v => (itemText (loaded L F) v, ([] : List Text))).mapM
      (readItem (readBlock fits depth)) = some (vs.map fun v => .scalar (scalarOf F v)) := by
    rw [List.mapM_map]
    refine (congrArg (List.mapM · vs) (funext fun v => ?_)).trans List.mapM_pure
    exact readItem_inline (spells_scalar hF v).readInline
  rw [hlines, readBlock_seq (by simpa using hne), hread]
  · rfl
  · rintro f hf
    obtain ⟨v, -, rfl⟩ := List.mem_map.1 hf
    exact ⟨rfl, nofun⟩
  · rintro f hf
    obtain ⟨v, -, rfl⟩ := List.mem_map.1 hf
    exact starts_dash _

/-- **An item that is a mapping is the mapping of its entries.** -/
theorem readItem_itemOf (hF : F.Faithful) {m : List (Text × Scalar)} (hlen : 2 ≤ m.length)
    (hkeys : (m.map Prod.fst).Nodup) (depth : ℕ) :
    readItem (readBlock fits (depth + 1)) (itemOf (loaded L F) m) =
      if ∀ e ∈ m, Short fits e.1 then some (.map (m.map (entryNode F))) else none := by
  match m, hlen with
  | e :: e' :: es, _ =>
    rw [itemOf, readItem_block (by simp)]
    exact readBlock_entries hF (List.cons_ne_nil _ _) hkeys depth

theorem readBlock_maps (hF : F.Faithful) {ms : List (List (Text × Scalar))} (hne : ms ≠ [])
    (hms : Proper (.maps ms)) (depth : ℕ) :
    readBlock fits (depth + 1 + 1) ((ms.map (itemOf (loaded L F))).flatMap fun f => f.1 :: f.2) =
      if ∀ m ∈ ms, ∀ e ∈ m, Short fits e.1 then
        some (.seq (ms.map fun m => .map (m.map (entryNode F)))) else none := by
  have hread : (ms.map (itemOf (loaded L F))).mapM (readItem (readBlock fits (depth + 1))) =
      if ∀ m ∈ ms, ∀ e ∈ m, Short fits e.1 then some (ms.map fun m => .map (m.map (entryNode F)))
      else none := by
    rw [List.mapM_map]
    exact mapM_guarded fun m hm => readItem_itemOf hF (hms m hm).1 (hms m hm).2 depth
  rw [readBlock_seq (by simpa using hne), hread]
  · split_ifs <;> rfl
  · rintro f hf
    obtain ⟨m, -, rfl⟩ := List.mem_map.1 hf
    refine ⟨rfl, fun l hl => ?_⟩
    obtain ⟨k, -, rfl⟩ := List.mem_map.1 hl
    rfl
  · rintro f hf
    obtain ⟨m, -, rfl⟩ := List.mem_map.1 hf
    exact starts_dash _

theorem fieldOf_leaf (k : Text) (v : Scalar) :
    fieldOf (loaded L F) (k, .leaf v) = (entryText (loaded L F) (k, v), []) := by
  simp [fieldOf, fieldLines, entryText]

theorem fieldOf_map {es : List (Text × Scalar)} (hne : es ≠ []) (k : Text) :
    fieldOf (loaded L F) (k, .map es) =
      (yamlString k ++ [':'], (es.map (entryText (loaded L F))).map fun l => "  ".toList ++ l) := by
  cases es with
  | nil => exact absurd rfl hne
  | cons e es => simp [fieldOf, fieldLines, Function.comp_def]

theorem fieldOf_list {vs : List Scalar} (hne : vs ≠ []) (k : Text) :
    fieldOf (loaded L F) (k, .list vs) =
      (yamlString k ++ [':'], (vs.map (itemText (loaded L F))).map fun l => "  ".toList ++ l) := by
  cases vs with
  | nil => exact absurd rfl hne
  | cons v vs => simp [fieldOf, fieldLines, itemText, Function.comp_def]

theorem mapLines_eq {m : List (Text × Scalar)} (hm : m ≠ []) :
    mapLines (loaded L F) m =
      ((itemOf (loaded L F) m).1 :: (itemOf (loaded L F) m).2).map fun l => "  ".toList ++ l := by
  cases m with
  | nil => exact absurd rfl hm
  | cons e es => simp [mapLines, itemOf, Function.comp_def]

theorem fieldOf_maps {ms : List (List (Text × Scalar))} (hne : ms ≠ []) (hms : ∀ m ∈ ms, m ≠ [])
    (k : Text) : fieldOf (loaded L F) (k, .maps ms) = (yamlString k ++ [':'],
      ((ms.map (itemOf (loaded L F))).flatMap fun f => f.1 :: f.2).map
        fun l => "  ".toList ++ l) := by
  have hlines : ms.flatMap (mapLines (loaded L F)) =
      ((ms.map (itemOf (loaded L F))).flatMap fun f => f.1 :: f.2).map
        fun l => "  ".toList ++ l := by
    rw [List.flatMap_map, List.map_flatMap]
    exact List.flatMap_congr fun m hm => mapLines_eq (hms m hm)
  rw [← hlines]
  cases ms with
  | nil => exact absurd rfl hne
  | cons m ms => rfl

theorem readInline_braces : readInline "\x7b\x7d".toList = some (.map []) := rfl

theorem readInline_brackets : readInline "[]".toList = some (.seq []) := rfl

/-- **A field is the entry of its key and its value**, when its keys are short enough. -/
theorem readEntry_fieldOf (hF : F.Faithful) {f : Text × Value} (hf : Proper f.2) (depth : ℕ) :
    BlockYaml.readEntry fits (readBlock fits (depth + 1 + 1)) (fieldOf (loaded L F) f) =
      if Short fits f.1 ∧ ∀ k ∈ innerKeys f.2, Short fits k then some (.str f.1, nodeOf F f.2)
      else none := by
  obtain ⟨k, v⟩ := f
  have hkey := spells_yamlString k
  have hblock : ∀ {ls : List Text} (hls : ls ≠ []) {n : Node} {q : Prop} [Decidable q],
      readBlock fits (depth + 1 + 1) ls = (if q then some n else none) →
      BlockYaml.readEntry fits (readBlock fits (depth + 1 + 1))
        (yamlString k ++ [':'], ls.map fun l => "  ".toList ++ l) =
          if Short fits k ∧ q then some (.str k, n) else none := by
    intro ls hls n q _ hread
    rw [readEntry_block hkey hls, hread, ite_and]
    refine if_congr Iff.rfl ?_ rfl
    split_ifs <;> rfl
  have hempty : ∀ {t : Text} {n : Node}, readInline t = some n →
      BlockYaml.readEntry fits (readBlock fits (depth + 1 + 1))
        ((yamlString k ++ [':']) ++ ' ' :: t, []) =
          if Short fits k ∧ ∀ j ∈ ([] : List Text), Short fits j then some (.str k, n)
          else none := by
    intro t n hread
    rw [List.append_assoc]
    exact (readEntry_inline hkey hread).trans (if_congr (by simp [Short]) rfl rfl)
  cases v with
  | leaf v =>
    rw [fieldOf_leaf, readEntry_loaded hF]
    exact if_congr (by simp [innerKeys]) rfl rfl
  | map es =>
    by_cases hne : es = []
    · subst hne
      exact hempty readInline_braces
    · rw [fieldOf_map hne, hblock (by simpa using hne) (readBlock_entries hF hne hf (depth + 1))]
      exact if_congr (by simp [innerKeys]) rfl rfl
  | list vs =>
    by_cases hne : vs = []
    · subst hne
      exact hempty readInline_brackets
    · have hread : readBlock fits (depth + 1 + 1) (vs.map (itemText (loaded L F))) =
          some (.seq (vs.map fun v => .scalar (scalarOf F v))) := readBlock_items hF hne (depth + 1)
      rw [fieldOf_list hne, hblock (by simpa using hne) (hread.trans (if_pos trivial).symm)]
      exact if_congr (by simp [innerKeys]) rfl rfl
  | maps ms =>
    by_cases hne : ms = []
    · subst hne
      exact hempty readInline_brackets
    · have hms : ∀ m ∈ ms, m ≠ [] := fun m hm h => by
        have := (hf m hm).1
        rw [h] at this
        exact absurd this (by decide)
      rw [fieldOf_maps hne hms, hblock ?_ (readBlock_maps hF hne hf depth)]
      · refine if_congr (and_congr_right fun _ => ?_) rfl rfl
        simp only [innerKeys, List.mem_flatMap, List.mem_map]
        constructor
        · rintro h _ ⟨m, hm, e, he, rfl⟩
          exact h m hm e he
        · intro h m hm e he
          exact h _ ⟨m, hm, e, he, rfl⟩
      · obtain ⟨m, ms, rfl⟩ := List.exists_cons_of_ne_nil hne
        exact List.cons_ne_nil _ _

/-! ## Documents -/

/-- A record's document. -/
def document (F : Floats) (r : ActionRecord) : Node :=
  .map ((project r).map fun f => (.str f.1, nodeOf F f.2))

/-- The keys of an entity reference, and of a subject reference. -/
def entityKeys : List Text := ["kind".toList, "id".toList, "role".toList, "confidence".toList]

def subjectKeys : List Text := ["hash".toList, "role".toList, "canon_ver".toList]

theorem entityKeys_nodup : entityKeys.Nodup := by decide

theorem subjectKeys_nodup : subjectKeys.Nodup := by decide

theorem entityKeys_short : ∀ k ∈ entityKeys, (yamlString k).length ≤ 32 := by decide

theorem subjectKeys_short : ∀ k ∈ subjectKeys, (yamlString k).length ≤ 32 := by decide

/-- What a record's fields hold. -/
inductive FieldOf (r : ActionRecord) : Value → Prop
  | leaf (v : Scalar) : FieldOf r (.leaf v)
  | list (vs : List Scalar) : FieldOf r (.list vs)
  | attrs : FieldOf r (.map (r.attrs.entries.map fun (k, v) => (k, attrScalar v)))
  | entities : FieldOf r (.maps (r.entities.map entityFields))
  | subjects : FieldOf r (.maps (r.subjects.map subjectFields))

theorem FieldOf.optional (r : ActionRecord) (o : Option Text) : FieldOf r (optionalText o) := by
  cases o with
  | none => exact .leaf .null
  | some v => exact .leaf (.str v)

theorem project_fields {r : ActionRecord} {k : Text} {v : Value} (h : (k, v) ∈ project r) :
    FieldOf r v := by
  have hall : ∀ f ∈ project r, FieldOf r f.2 := by
    simp only [project, List.forall_mem_cons]
    exact ⟨.leaf _, .leaf _, .leaf _, .leaf _, .leaf _, .leaf _, .optional r _, .optional r _,
      .leaf _, .leaf _, .attrs, .entities, .subjects, .leaf _, .optional r _, .leaf _, .leaf _,
      .list _, .list _, fun _ h => absurd h List.not_mem_nil⟩
  exact hall _ h

theorem project_proper (r : ActionRecord) : ∀ f ∈ project r, Proper f.2 := by
  rintro ⟨k, v⟩ hf
  cases project_fields hf with
  | leaf v => trivial
  | list vs => trivial
  | attrs =>
    rw [Proper, List.map_map]
    exact r.attrs.sorted.imp fun h => ne_of_lt h
  | entities =>
    rintro m hm
    obtain ⟨e, -, rfl⟩ := List.mem_map.1 hm
    exact ⟨Nat.le_add_left 2 2, entityKeys_nodup⟩
  | subjects =>
    rintro m hm
    obtain ⟨s, -, rfl⟩ := List.mem_map.1 hm
    exact ⟨Nat.le_add_left 2 1, subjectKeys_nodup⟩

theorem keys_eq (r : ActionRecord) : (project r).map Prod.fst = keys := rfl

theorem keys_short : ∀ k ∈ keys, (yamlString k).length ≤ 32 := by decide

/-- Only an attribute's key can be too long. -/
theorem short_project (hfits : ∀ n ≤ 32, fits n = true) (r : ActionRecord) :
    (∀ f ∈ project r, Short fits f.1 ∧ ∀ k ∈ innerKeys f.2, Short fits k) ↔
      ∀ a ∈ r.attrs.entries, Short fits a.1 := by
  constructor
  · intro h a ha
    have hattrs : 10 < (project r).length := by
      rw [← List.length_map (Prod.fst), keys_eq]
      decide
    refine (h _ (List.getElem_mem hattrs)).2 a.1 ?_
    simp only [project, List.getElem_cons_succ, List.getElem_cons_zero, innerKeys, List.map_map]
    exact List.mem_map.2 ⟨a, ha, rfl⟩
  · rintro h ⟨k, v⟩ hf
    have hkey : k ∈ keys := keys_eq r ▸ List.mem_map_of_mem hf
    refine ⟨hfits _ (keys_short _ hkey), fun k hk => ?_⟩
    revert hk
    cases project_fields hf with
    | leaf v => exact fun hk => absurd hk List.not_mem_nil
    | list vs => exact fun hk => absurd hk List.not_mem_nil
    | attrs =>
      intro hk
      simp only [innerKeys, List.map_map] at hk
      obtain ⟨a, ha, rfl⟩ := List.mem_map.1 hk
      exact h a ha
    | entities =>
      intro hk
      simp only [innerKeys, List.mem_flatMap, List.mem_map] at hk
      obtain ⟨_, ⟨e, -, rfl⟩, hk⟩ := hk
      exact hfits _ (entityKeys_short k (List.mem_map.2 hk))
    | subjects =>
      intro hk
      simp only [innerKeys, List.mem_flatMap, List.mem_map] at hk
      obtain ⟨_, ⟨s, -, rfl⟩, hk⟩ := hk
      exact hfits _ (subjectKeys_short k (List.mem_map.2 hk))

theorem fieldLines_eq (f : Text × Value) :
    fieldLines (loaded L F) f = (fieldOf (loaded L F) f).1 :: (fieldOf (loaded L F) f).2 := by
  obtain ⟨l, ls, hf, -⟩ := fieldLines_cases (Y := loaded L F) f
  simp [fieldOf, hf]

theorem fieldOf_not_item (f : Text × Value) :
    startsWith "- ".toList (fieldOf (loaded L F) f).1 = false := by
  obtain ⟨k, v⟩ := f
  have hkey : ∀ rest, startsWith "- ".toList (yamlString k ++ ':' :: rest) = false :=
    (spells_yamlString k).not_item
  have hline : ∃ rest, (fieldOf (loaded L F) (k, v)).1 = yamlString k ++ ':' :: rest := by
    cases v with
    | leaf v => exact ⟨_, List.append_assoc _ _ _⟩
    | map es => cases es with
      | nil => exact ⟨_, List.append_assoc _ _ _⟩
      | cons e es => exact ⟨[], rfl⟩
    | list vs => cases vs with
      | nil => exact ⟨_, List.append_assoc _ _ _⟩
      | cons v vs => exact ⟨[], rfl⟩
    | maps ms => cases ms with
      | nil => exact ⟨_, List.append_assoc _ _ _⟩
      | cons m ms => exact ⟨[], rfl⟩
  obtain ⟨rest, hrest⟩ := hline
  rw [hrest]
  exact hkey rest

theorem getLast?_unlines {ls : List Text} (h : ls ≠ []) : (unlines ls).getLast? = some '\n' := by
  obtain ⟨ks, l, rfl⟩ := (List.eq_nil_or_concat ls).resolve_left h
  rw [List.concat_eq_append, unlines_append, unlines_cons, unlines_nil, ← List.append_assoc]
  exact List.getLast?_concat

/-- **Rendered frontmatter is the record's document**, when its attributes' keys are
    short enough. -/
theorem read_render (hF : F.Faithful) (hfits : ∀ n ≤ 32, fits n = true) (r : ActionRecord) :
    BlockYaml.read fits (render (loaded L F) r) =
      if ∀ a ∈ r.attrs.entries, Short fits a.1 then some (document F r) else none := by
  have hlines : (project r).flatMap (fieldLines (loaded L F)) =
      ((project r).map (fieldOf (loaded L F))).flatMap fun f => f.1 :: f.2 := by
    rw [List.flatMap_map]
    exact List.flatMap_congr fun f _ => fieldLines_eq f
  have hsplit : (splitOn '\n' (render (loaded L F) r)).dropLast =
      ((project r).map (fieldOf (loaded L F))).flatMap fun f => f.1 :: f.2 := by
    rw [render, emit, splitOn_unlines, List.dropLast_concat, hlines]
    intro l hl
    obtain ⟨f, -, hl⟩ := List.mem_flatMap.1 hl
    exact (fieldLines_plain f l hl).1
  have hproject : (project r).flatMap (fieldLines (loaded L F)) =
      (yamlString "record_id".toList ++ [':'] ++ ' ' :: yamlString r.recordId.text) ::
        (project r).tail.flatMap (fieldLines (loaded L F)) := rfl
  have hlast : (render (loaded L F) r).getLast? = some '\n' := by
    rw [render, emit, hproject]
    exact getLast?_unlines (List.cons_ne_nil _ _)
  obtain ⟨depth, hdepth⟩ : ∃ depth, (render (loaded L F) r).length = depth + 1 + 1 + 1 := by
    refine ⟨(render (loaded L F) r).length - 3, ?_⟩
    have hlen : 9 ≤ (render (loaded L F) r).length := by
      have hkey : (yamlString "record_id".toList).length = 9 := by decide
      rw [render, emit, hproject, unlines_cons]
      simp only [List.length_append, hkey]
      omega
    omega
  have hnodup : (((project r).map fun f =>
      (BlockYaml.Scalar.str f.1, nodeOf F f.2)).map Prod.fst).Nodup := by
    have hkeys : ((project r).map fun f => (BlockYaml.Scalar.str f.1, nodeOf F f.2)).map Prod.fst =
        keys.map .str := by
      rw [← keys_eq r, List.map_map, List.map_map]
      rfl
    rw [hkeys]
    decide
  have hread : ((project r).map (fieldOf (loaded L F))).mapM
      (BlockYaml.readEntry fits (readBlock fits (depth + 1 + 1))) =
        if ∀ f ∈ project r, Short fits f.1 ∧ ∀ k ∈ innerKeys f.2, Short fits k then
          some ((project r).map fun f => (.str f.1, nodeOf F f.2)) else none := by
    rw [List.mapM_map]
    exact mapM_guarded fun f hf => readEntry_fieldOf hF (project_proper r f hf) depth
  rw [BlockYaml.read, if_pos hlast, hsplit, hdepth, readBlock_map, hread]
  · rw [if_congr (short_project hfits r) rfl rfl]
    split_ifs with h
    · rw [Option.bind_some, if_pos hnodup, document]
    · rfl
  · exact List.cons_ne_nil _ _
  · rintro g hg
    obtain ⟨f, -, rfl⟩ := List.mem_map.1 hg
    obtain ⟨l, ls, hf, hl, hls⟩ := fieldLines_cases (Y := loaded L F) f
    simp only [fieldOf, hf]
    exact ⟨hl, hls⟩
  · rintro g hg
    obtain ⟨f, -, rfl⟩ := List.mem_map.1 hg
    exact fieldOf_not_item f

end Yaam.Md
