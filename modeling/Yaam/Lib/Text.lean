/-
  Texts as lists of characters, with the operations of Rust's `str` that the
  development needs.

  A text is the list of its Unicode scalar values.  Where the Rust code works
  on byte offsets, the accepted texts are ASCII up to the last offset, so the
  two readings agree.

  * `slice`, `stripPrefix`, `splitOn`, `lines`, `trimStart`, ...: the `str`
    operations of the same names;
  * `splitOn_joinWith`: pieces joined by a separator split again.
-/
import Mathlib.Data.List.Basic
import Mathlib.Data.List.TakeWhile
import Mathlib.Data.List.Lex
import Mathlib.Data.List.Induction
import Mathlib.Data.Char
import Mathlib.Tactic.Ring

namespace Yaam

/-- A text, as the list of its characters. -/
abbrev Text := List Char

namespace Text

-- a bounded quantifier looks at the text's characters, not at every character there is
instance decidableForall (t : Text) (p : Char → Prop) [DecidablePred p] : Decidable (∀ c ∈ t, p c) :=
  List.decidableBAll p t

instance decidableExists (t : Text) (p : Char → Prop) [DecidablePred p] : Decidable (∃ c ∈ t, p c) :=
  List.decidableBEx p t

/-- Texts compare by equality. -/
instance lawfulBEq : LawfulBEq Text := inferInstance

/-! ## Characters -/

/-- `u8::is_ascii_digit`. -/
def isDigit (c : Char) : Bool := '0' ≤ c && c ≤ '9'

/-- The value of an ASCII digit (`byte - b'0'`). -/
def digitVal (c : Char) : ℕ := c.toNat - '0'.toNat

/-- `char::is_whitespace`: the Unicode property `White_Space`. -/
def isWhite (c : Char) : Bool :=
  let n := c.toNat
  (9 ≤ n && n ≤ 13) || n == 0x20 || n == 0x85 || n == 0xA0 || n == 0x1680 ||
    (0x2000 ≤ n && n ≤ 0x200A) || n == 0x2028 || n == 0x2029 || n == 0x202F || n == 0x205F ||
    n == 0x3000

theorem digitVal_le {c : Char} (h : isDigit c = true) : digitVal c ≤ 9 := by
  simp only [isDigit, Bool.and_eq_true, decide_eq_true_eq] at h
  have h1 : c.toNat ≤ '9'.toNat := h.2
  simp only [digitVal]
  have h2 : '0'.toNat = 48 := rfl
  have h3 : '9'.toNat = 57 := rfl
  omega

/-! ## Slices and numbers -/

/-- `text.get(from..to)`, without the range check. -/
def slice (t : Text) (i j : ℕ) : Text := (t.drop i).take (j - i)

/-- The number a run of ASCII digits spells (`str::parse`). -/
def number (t : Text) : ℕ := t.foldl (fun n c => 10 * n + digitVal c) 0

theorem foldl_digits (t : Text) (k : ℕ) :
    t.foldl (fun n c => 10 * n + digitVal c) k = k * 10 ^ t.length + number t := by
  induction t generalizing k with
  | nil => simp [number]
  | cons c t ih =>
    simp only [number, List.foldl_cons, List.length_cons, ih (10 * k + digitVal c),
      ih (10 * 0 + digitVal c)]
    ring

theorem number_cons (c : Char) (t : Text) :
    number (c :: t) = digitVal c * 10 ^ t.length + number t := by
  rw [number, List.foldl_cons, foldl_digits]; simp

theorem number_lt {t : Text} (h : t.all isDigit = true) : number t < 10 ^ t.length := by
  induction t with
  | nil => simp [number]
  | cons c t ih =>
    simp only [List.all_cons, Bool.and_eq_true] at h
    have h1 := digitVal_le h.1
    have h2 := ih h.2
    rw [number_cons, List.length_cons, Nat.pow_succ]
    have h3 : digitVal c * 10 ^ t.length ≤ 9 * 10 ^ t.length := Nat.mul_le_mul_right _ h1
    omega

/-! ## Decimal rendering -/

/-- `{:0w}` of a natural number. -/
def padNat (w n : ℕ) : Text :=
  List.replicate (w - (Nat.toDigits 10 n).length) '0' ++ Nat.toDigits 10 n

/-- `{:0w}` of an integer, the sign counted in the width. -/
def padInt (w : ℕ) (n : ℤ) : Text :=
  if n < 0 then '-' :: padNat (w - 1) n.natAbs else padNat w n.natAbs

theorem mem_padNat {w n : ℕ} {c : Char} (h : c ∈ padNat w n) : c.isDigit := by
  rcases List.mem_append.1 h with h | h
  · rw [List.eq_of_mem_replicate h]
    rfl
  · exact Nat.isDigit_of_mem_toDigits (by decide) (by decide) h

theorem mem_padInt {w : ℕ} {n : ℤ} {c : Char} (h : c ∈ padInt w n) : c = '-' ∨ c.isDigit := by
  unfold padInt at h
  split_ifs at h
  · rcases List.mem_cons.1 h with h | h
    · exact .inl h
    · exact .inr (mem_padNat h)
  · exact .inr (mem_padNat h)

/-! ## Prefixes and trimming -/

/-- `str::strip_prefix`. -/
def stripPrefix (pre : Text) (t : Text) : Option Text :=
  match pre, t with
  | [], t => some t
  | _ :: _, [] => none
  | p :: pre, c :: t => if p = c then stripPrefix pre t else none

theorem stripPrefix_nil (t : Text) : stripPrefix [] t = some t := rfl

theorem stripPrefix_cons_nil (p : Char) (pre : Text) : stripPrefix (p :: pre) [] = none := rfl

theorem stripPrefix_cons_cons (p c : Char) (pre t : Text) :
    stripPrefix (p :: pre) (c :: t) = if p = c then stripPrefix pre t else none := rfl

/-- `str::strip_suffix`. -/
def stripSuffix (suf : Text) (t : Text) : Option Text :=
  (stripPrefix suf.reverse t.reverse).map List.reverse

/-- `str::starts_with`. -/
def startsWith (pre : Text) (t : Text) : Bool := (stripPrefix pre t).isSome

/-- `str::trim_start`. -/
def trimStart (t : Text) : Text := t.dropWhile isWhite

/-- `str::trim_end`. -/
def trimEnd (t : Text) : Text := (t.reverse.dropWhile isWhite).reverse

/-- `str::trim`. -/
def trim (t : Text) : Text := trimEnd (trimStart t)

/-- `str::split_once` at a character. -/
def splitOnce (sep : Char) : Text → Option (Text × Text)
  | [] => none
  | c :: t => if c = sep then some ([], t) else (splitOnce sep t).map fun p => (c :: p.1, p.2)

/-- `str::split` at a character: the pieces between its occurrences. -/
def splitOn (sep : Char) : Text → List Text
  | [] => [[]]
  | c :: t =>
    if c = sep then [] :: splitOn sep t
    else match splitOn sep t with
      | [] => [[c]]
      | l :: ls => (c :: l) :: ls

theorem splitOnce_cons (sep c : Char) (t : Text) : splitOnce sep (c :: t) =
    if c = sep then some ([], t) else (splitOnce sep t).map fun p => (c :: p.1, p.2) := rfl

theorem splitOn_nil (sep : Char) : splitOn sep [] = [[]] := rfl

theorem splitOn_cons (sep c : Char) (t : Text) : splitOn sep (c :: t) =
    if c = sep then [] :: splitOn sep t
    else match splitOn sep t with
      | [] => [[c]]
      | l :: ls => (c :: l) :: ls := rfl

/-- Pieces joined by a character. -/
def joinWith (sep : Char) : List Text → Text
  | [] => []
  | [l] => l
  | l :: ls => l ++ sep :: joinWith sep ls

theorem joinWith_nil (sep : Char) : joinWith sep [] = [] := rfl

theorem joinWith_singleton (sep : Char) (l : Text) : joinWith sep [l] = l := rfl

theorem joinWith_cons_cons (sep : Char) (l m : Text) (ls : List Text) :
    joinWith sep (l :: m :: ls) = l ++ sep :: joinWith sep (m :: ls) := rfl

theorem dropWhile_of_forall {p : Char → Bool} {t : Text} (h : ∀ c ∈ t, p c = false) :
    t.dropWhile p = t := by
  cases t with
  | nil => rfl
  | cons c t => simp [h c (by simp)]

theorem mem_dropWhile {p : Char → Bool} {t : Text} {c : Char} (h : c ∈ t) (hc : p c = false) :
    c ∈ t.dropWhile p := by
  rw [← List.takeWhile_append_dropWhile (p := p) (l := t), List.mem_append] at h
  refine h.resolve_left fun hm => ?_
  rw [List.mem_takeWhile_imp hm] at hc
  cases hc

/-- Trimming leaves what is not blank. -/
theorem mem_trim {t : Text} {c : Char} (h : c ∈ t) (hc : isWhite c = false) : c ∈ trim t := by
  rw [trim, trimEnd, List.mem_reverse]
  exact mem_dropWhile (List.mem_reverse.2 (mem_dropWhile h hc)) hc

theorem trim_of_forall {t : Text} (h : ∀ c ∈ t, isWhite c = false) : trim t = t := by
  rw [trim, trimStart, dropWhile_of_forall h, trimEnd,
    dropWhile_of_forall fun c hc => h c (List.mem_reverse.1 hc), List.reverse_reverse]

/-- A text whose ends are not whitespace is its own trimming. -/
theorem trim_of_ends {t : Text} (h1 : ∀ c ∈ t.head?, isWhite c = false)
    (h2 : ∀ c ∈ t.getLast?, isWhite c = false) : trim t = t := by
  have hd : ∀ {u : Text}, (∀ c ∈ u.head?, isWhite c = false) → u.dropWhile isWhite = u := by
    intro u hu
    cases u with
    | nil => rfl
    | cons c u => simp [hu c (by simp)]
  rw [trim, trimStart, hd h1, trimEnd, hd (by simpa using h2), List.reverse_reverse]

theorem stripPrefix_append (pre t : Text) : stripPrefix pre (pre ++ t) = some t := by
  induction pre with
  | nil => cases t <;> rfl
  | cons c pre ih => simp [stripPrefix_cons_cons, ih]

theorem stripPrefix_eq_some {pre t s : Text} (h : stripPrefix pre t = some s) : t = pre ++ s := by
  induction pre generalizing t with
  | nil => simpa [stripPrefix_nil] using h
  | cons p pre ih =>
    cases t with
    | nil => simp [stripPrefix_cons_nil] at h
    | cons c t =>
      simp only [stripPrefix_cons_cons, Option.ite_none_right_eq_some] at h
      rw [h.1, ih h.2, List.cons_append]

theorem stripSuffix_append (t suf : Text) : stripSuffix suf (t ++ suf) = some t := by
  simp [stripSuffix, stripPrefix_append]

theorem stripSuffix_eq_some {suf t s : Text} (h : stripSuffix suf t = some s) : t = s ++ suf := by
  simp only [stripSuffix, Option.map_eq_some_iff] at h
  obtain ⟨u, hu, rfl⟩ := h
  rw [← List.reverse_inj, stripPrefix_eq_some hu]
  simp

theorem splitOn_ne_nil (sep : Char) (t : Text) : splitOn sep t ≠ [] := by
  cases t with
  | nil => simp [splitOn_nil]
  | cons c t =>
    simp only [splitOn_cons]
    split_ifs
    · simp
    · split <;> simp

theorem splitOn_of_notMem {sep : Char} {t : Text} (h : sep ∉ t) : splitOn sep t = [t] := by
  induction t with
  | nil => rfl
  | cons c t ih =>
    simp only [List.mem_cons, not_or] at h
    simp [splitOn_cons, Ne.symm h.1, ih h.2]

theorem splitOn_append_cons {sep : Char} {l : Text} (h : sep ∉ l) (t : Text) :
    splitOn sep (l ++ sep :: t) = l :: splitOn sep t := by
  induction l with
  | nil => simp [splitOn_cons]
  | cons c l ih =>
    simp only [List.mem_cons, not_or] at h
    simp [splitOn_cons, Ne.symm h.1, ih h.2]

/-- Pieces without the separator, joined and split again. -/
theorem splitOn_joinWith {sep : Char} :
    ∀ {ls : List Text}, ls ≠ [] → (∀ l ∈ ls, sep ∉ l) → splitOn sep (joinWith sep ls) = ls
  | [l], _, h => by simpa [joinWith_singleton] using splitOn_of_notMem (h l (by simp))
  | l :: m :: ls, _, h => by
    rw [joinWith_cons_cons, splitOn_append_cons (h l (by simp)) _,
      splitOn_joinWith (by simp) (fun x hx => h x (List.mem_cons_of_mem _ hx))]

/-- A separator splits a text whatever stands before it. -/
theorem splitOn_append (sep : Char) (a b : Text) :
    splitOn sep (a ++ sep :: b) = splitOn sep a ++ splitOn sep b := by
  induction a with
  | nil => simp [splitOn_cons, splitOn_nil]
  | cons c a ih =>
    by_cases hc : c = sep
    · simp [splitOn_cons, hc, ih]
    · simp only [List.cons_append, splitOn_cons, hc, if_false, ih]
      cases ha : splitOn sep a with
      | nil => exact absurd ha (splitOn_ne_nil sep a)
      | cons l ls => simp

theorem joinWith_concat (sep : Char) :
    ∀ {ls : List Text} (l : Text), ls ≠ [] → joinWith sep (ls ++ [l]) = joinWith sep ls ++ sep :: l
  | [_], _, _ => rfl
  | k :: m :: ls, l, _ => by
    have ih : joinWith sep (m :: (ls ++ [l])) = joinWith sep (m :: ls) ++ sep :: l :=
      joinWith_concat sep l (List.cons_ne_nil m ls)
    rw [List.cons_append, List.cons_append, joinWith_cons_cons, ih, joinWith_cons_cons]
    simp

theorem mem_joinWith {sep c : Char} :
    ∀ {ls : List Text}, c ∈ joinWith sep ls → c = sep ∨ ∃ l ∈ ls, c ∈ l
  | [], h => by simp [joinWith_nil] at h
  | [l], h => .inr ⟨l, by simp, by simpa [joinWith_singleton] using h⟩
  | l :: m :: ls, h => by
    simp only [joinWith_cons_cons, List.mem_append, List.mem_cons] at h
    rcases h with h | h | h
    · exact .inr ⟨l, by simp, h⟩
    · exact .inl h
    · rcases mem_joinWith h with h | ⟨k, hk, hc⟩
      · exact .inl h
      · exact .inr ⟨k, by simp at hk ⊢; tauto, hc⟩

theorem splitOnce_append_cons {sep : Char} {l : Text} (h : sep ∉ l) (t : Text) :
    splitOnce sep (l ++ sep :: t) = some (l, t) := by
  induction l with
  | nil => simp [splitOnce_cons]
  | cons c l ih =>
    simp only [List.mem_cons, not_or] at h
    simp [splitOnce_cons, Ne.symm h.1, ih h.2]

theorem splitOnce_eq_some {sep : Char} {t l r : Text} (h : splitOnce sep t = some (l, r)) :
    t = l ++ sep :: r ∧ sep ∉ l := by
  induction t generalizing l with
  | nil => cases h
  | cons c t ih =>
    rw [splitOnce_cons] at h
    split_ifs at h with hc
    · obtain ⟨rfl, rfl⟩ := Prod.mk.inj (Option.some.inj h)
      exact ⟨by rw [hc]; rfl, List.not_mem_nil⟩
    · obtain ⟨⟨l', r'⟩, hp, heq⟩ := Option.map_eq_some_iff.1 h
      obtain ⟨rfl, rfl⟩ := Prod.mk.inj heq
      obtain ⟨rfl, hno⟩ := ih hp
      refine ⟨rfl, fun hmem => ?_⟩
      rcases List.mem_cons.1 hmem with rfl | hmem
      · exact hc rfl
      · exact hno hmem

/-! ## Lines -/

/-- A line without the `\r` of a `\r\n` end. -/
def chompCr (l : Text) : Text := (stripSuffix ['\r'] l).getD l

/-- `str::lines`: the pieces between newlines, without their `\r`, and without
    the empty piece after a last newline. -/
def lines (t : Text) : List Text :=
  let ps := splitOn '\n' t
  (if ps.getLast? = some [] then ps.dropLast else ps).map chompCr

/-- Lines, each ended by a newline. -/
def unlines (ls : List Text) : Text := ls.flatMap fun l => l ++ ['\n']

theorem chompCr_of_getLast? {l : Text} (h : l.getLast? ≠ some '\r') : chompCr l = l := by
  unfold chompCr
  cases hs : stripSuffix ['\r'] l with
  | none => rfl
  | some s =>
    rw [stripSuffix_eq_some hs] at h
    simp at h

@[simp] theorem unlines_nil : unlines [] = [] := rfl

@[simp] theorem unlines_cons (l : Text) (ls : List Text) :
    unlines (l :: ls) = l ++ '\n' :: unlines ls := by
  simp [unlines]

/-- A text that ends at a line end, or is empty. -/
def AtLineStart (t : Text) : Prop := t = [] ∨ t.getLast? = some '\n'

instance (t : Text) : Decidable (AtLineStart t) := inferInstanceAs (Decidable (_ ∨ _))

/-- Lines after a line end are the lines of both parts. -/
theorem lines_append {a : Text} (ha : AtLineStart a) (b : Text) :
    lines (a ++ b) = lines a ++ lines b := by
  rcases ha with rfl | ha
  · simp [lines, splitOn_nil]
  · obtain ⟨a, rfl⟩ := List.getLast?_eq_some_iff.1 ha
    have hb : splitOn '\n' b ≠ [] := splitOn_ne_nil _ _
    have h1 : splitOn '\n' (a ++ ['\n']) = splitOn '\n' a ++ [[]] := splitOn_append '\n' a []
    have h2 : splitOn '\n' (a ++ ['\n'] ++ b) = splitOn '\n' a ++ splitOn '\n' b := by
      rw [List.append_assoc]
      exact splitOn_append '\n' a b
    simp only [lines, h1, h2, List.getLast?_append, List.getLast?_singleton, Option.some_or,
      if_true, List.dropLast_concat]
    rw [List.getLast?_eq_some_getLast hb]
    simp only [Option.some_or, Option.some.injEq]
    split_ifs
    · rw [List.dropLast_append_of_ne_nil hb, List.map_append]
    · rw [List.map_append]

/-- One line, written with its newline. -/
theorem lines_line {l : Text} (h : '\n' ∉ l) : lines (l ++ ['\n']) = [chompCr l] := by
  have : splitOn '\n' (l ++ ['\n']) = [l, []] := splitOn_append_cons h []
  simp [lines, this]

/-- Every text is whole lines and a last one that no newline ends. -/
theorem exists_lineStart (u : Text) : ∃ t v, u = t ++ v ∧ AtLineStart t ∧ '\n' ∉ v := by
  induction u using List.reverseRecOn with
  | nil => exact ⟨[], [], rfl, .inl rfl, by simp⟩
  | append_singleton u c ih =>
    by_cases hc : c = '\n'
    · exact ⟨u ++ [c], [], by simp, .inr (by simp [hc]), by simp⟩
    · obtain ⟨t, v, rfl, ht, hv⟩ := ih
      refine ⟨t, v ++ [c], by simp, ht, ?_⟩
      simp only [List.mem_append, List.mem_singleton, not_or]
      exact ⟨hv, Ne.symm hc⟩

theorem atLineStart_append_newline (t : Text) : AtLineStart (t ++ ['\n']) := .inr (by simp)

theorem unlines_append (ls ms : List Text) : unlines (ls ++ ms) = unlines ls ++ unlines ms := by
  simp [unlines]

end Text

end Yaam
