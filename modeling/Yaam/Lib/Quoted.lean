/-
  Double-quoted strings with backslash escapes, as JSON and YAML write them.

  * `readQuoted` reads a string up to its closing quote;
  * `Escaping` is what a way to escape characters promises, and `readQuoted_escaped`
    the round trip of every such way;
  * `jsonChar` escapes what would end a string, nest an object or break a line;
  * `readInt` reads an integer back.
-/
import Yaam.Lib.Text

namespace Yaam.Text

/-! ## Reading -/

/-- The value of a hexadecimal digit. -/
def hexValue (c : Char) : ℕ :=
  if isDigit c then digitVal c else c.toNat - 'a'.toNat + 10

/-- The character two hexadecimal digits spell. -/
def hexChar (a b : Char) : Char := Char.ofNat (16 * hexValue a + hexValue b)

/-- What a one-letter escape stands for. -/
def unescapeChar (c : Char) : Char :=
  if c = 'n' then '\n' else if c = 'r' then '\r' else if c = 't' then '\t' else c

/-- A character in front of what else was read. -/
def pushChar (c : Char) (p : Text × Text) : Text × Text := (c :: p.1, p.2)

/-- Reads a string whose opening quote is read already: its text, and what follows
    the closing quote. -/
def readQuoted : Text → Option (Text × Text)
  | [] => none
  | '"' :: t => some ([], t)
  | '\\' :: 'u' :: '0' :: '0' :: a :: b :: t => (readQuoted t).map (pushChar (hexChar a b))
  | '\\' :: 'x' :: a :: b :: t => (readQuoted t).map (pushChar (hexChar a b))
  | '\\' :: c :: t => (readQuoted t).map (pushChar (unescapeChar c))
  | ['\\'] => none
  | c :: t => (readQuoted t).map (pushChar c)

/-- A way to escape characters that the reader undoes. -/
def Escaping (esc : Char → Text) : Prop :=
  ∀ c t, readQuoted (esc c ++ t) = (readQuoted t).map (pushChar c)

theorem readQuoted_plain {c : Char} (hq : c ≠ '"') (hb : c ≠ '\\') (t : Text) :
    readQuoted (c :: t) = (readQuoted t).map (pushChar c) := by
  rw [readQuoted.eq_def]
  split
  · rename_i h; cases h
  · rename_i h; exact absurd (List.cons.inj h).1 hq
  · rename_i h; exact absurd (List.cons.inj h).1 hb
  · rename_i h; exact absurd (List.cons.inj h).1 hb
  · rename_i h; exact absurd (List.cons.inj h).1 hb
  · rename_i h; exact absurd (List.cons.inj h).1 hb
  · rename_i h
    obtain ⟨rfl, rfl⟩ := List.cons.inj h
    rfl

/-- **A string is read back**, whatever follows it. -/
theorem readQuoted_escaped {esc : Char → Text} (h : Escaping esc) (v t : Text) :
    readQuoted (v.flatMap esc ++ '"' :: t) = some (v, t) := by
  induction v with
  | nil => rfl
  | cons c v ih =>
    rw [List.flatMap_cons, List.append_assoc, h, ih]
    rfl

theorem hexValue_digitChar : ∀ n < 16, hexValue (Nat.digitChar n) = n := by decide

theorem hexChar_digits {c : Char} (h : c.toNat < 256) :
    hexChar (Nat.digitChar (c.toNat / 16)) (Nat.digitChar (c.toNat % 16)) = c := by
  rw [hexChar, hexValue_digitChar _ (by omega), hexValue_digitChar _ (by omega),
    Nat.div_add_mod, Char.ofNat_toNat]

/-! ## JSON strings -/

/-- What would end a string, nest an object or break a line. -/
def jsonSpecial (c : Char) : Bool :=
  c == '"' || c == '\\' || c == '\x7b' || c == '\x7d' || decide (c.toNat < 0x20)

def jsonChar (c : Char) : Text :=
  if jsonSpecial c then
    ['\\', 'u', '0', '0', Nat.digitChar (c.toNat / 16), Nat.digitChar (c.toNat % 16)]
  else [c]

/-- The inside of a JSON string. -/
def jsonEscape (v : Text) : Text := v.flatMap jsonChar

/-- A JSON string read back from its inside. -/
def jsonUnescape (t : Text) : Text := (readQuoted (t ++ ['"'])).elim [] (·.1)

theorem jsonChar_escaping : Escaping jsonChar := by
  intro c t
  unfold jsonChar
  split_ifs with h
  · have hc : c.toNat < 256 := by
      simp only [jsonSpecial, Bool.or_eq_true, beq_iff_eq, decide_eq_true_eq] at h
      rcases h with (((rfl | rfl) | rfl) | rfl) | h
      · decide
      · decide
      · decide
      · decide
      · omega
    show (readQuoted t).map (pushChar (hexChar _ _)) = _
    rw [hexChar_digits hc]
  · refine readQuoted_plain ?_ ?_ t
    · rintro rfl
      exact h (by decide)
    · rintro rfl
      exact h (by decide)

theorem jsonUnescape_escape (v : Text) : jsonUnescape (jsonEscape v) = v := by
  rw [jsonUnescape, jsonEscape, readQuoted_escaped jsonChar_escaping]
  rfl

theorem digitChar_plain : ∀ n < 16, jsonSpecial (Nat.digitChar n) = false := by decide

/-- Nothing special is left inside a JSON string but its backslashes. -/
theorem notMem_jsonEscape {c : Char} (hc : jsonSpecial c = true) (hb : c ≠ '\\') (v : Text) :
    c ∉ jsonEscape v := by
  intro h
  obtain ⟨d, -, hd⟩ := List.mem_flatMap.1 h
  unfold jsonChar at hd
  split_ifs at hd with hs
  · have hlt : d.toNat / 16 < 16 := by
      simp only [jsonSpecial, Bool.or_eq_true, beq_iff_eq, decide_eq_true_eq] at hs
      rcases hs with (((rfl | rfl) | rfl) | rfl) | hs
      · decide
      · decide
      · decide
      · decide
      · omega
    have h1 := digitChar_plain _ hlt
    have h2 := digitChar_plain (d.toNat % 16) (by omega)
    simp only [List.mem_cons, List.not_mem_nil, or_false] at hd
    rcases hd with rfl | rfl | rfl | rfl | rfl | rfl
    · exact hb rfl
    · exact absurd hc (by decide)
    · exact absurd hc (by decide)
    · exact absurd hc (by decide)
    · rw [h1] at hc
      cases hc
    · rw [h2] at hc
      cases hc
  · rw [List.mem_singleton] at hd
    subst hd
    exact hs hc

/-! ## Integers -/

/-- An integer read from its decimal text. -/
def readInt : Text → ℤ
  | '-' :: ds => -(number ds : ℤ)
  | ds => number ds

theorem number_eq_ofDigitChars (t : Text) : number t = Nat.ofDigitChars 10 t 0 := by
  rw [Nat.ofDigitChars_eq_foldl]
  rfl

/-- A natural number is read back, whatever its padding. -/
theorem number_padNat (w n : ℕ) : number (padNat w n) = n := by
  rw [number_eq_ofDigitChars, padNat, Nat.ofDigitChars_append, Nat.ofDigitChars_replicate_zero,
    Nat.mul_zero, Nat.ofDigitChars_ten_toDigits]

theorem readInt_padInt (w : ℕ) (n : ℤ) : readInt (padInt w n) = n := by
  unfold padInt
  split_ifs with h
  · rw [readInt, number_padNat]
    omega
  · have hne : ∀ ds, padNat w n.natAbs ≠ '-' :: ds := by
      intro ds hds
      have := mem_padNat (w := w) (n := n.natAbs) (c := '-') (by rw [hds]; simp)
      exact absurd this (by decide)
    rw [readInt.eq_def]
    split
    · rename_i heq
      exact absurd heq (hne _)
    · rw [number_padNat]
      omega

end Yaam.Text
