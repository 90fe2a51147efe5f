/-
  A part of YAML 1.2: block mappings and sequences, and scalars of one line, plain or
  between double quotes.

  * `plainValue` is the core schema's reading of a plain scalar;
  * `readDouble` reads up to a closing double quote, and undoes any way to escape
    characters that it undoes one at a time (`readDouble_escaped`);
  * `read` reads a document, whose implicit keys have to be short enough
    (`implicitKey`); `readBlock_map` and `readBlock_seq` take a block apart.
-/
import Yaam.Lib.Text

namespace Yaam.BlockYaml

open Text

/-- A scalar as the core schema resolves it; a float is kept as it is spelled. -/
inductive Scalar where
  | null
  | bool (v : Bool)
  | int (v : ℤ)
  | float (spelling : Text)
  | str (v : Text)
deriving DecidableEq

/-- A YAML node. -/
inductive Node where
  | scalar (v : Scalar)
  | seq (items : List Node)
  | map (entries : List (Scalar × Node))

/-! ## The core schema -/

def nulls : List Text := ["null".toList, "Null".toList, "NULL".toList, "~".toList]
def trues : List Text := ["true".toList, "True".toList, "TRUE".toList]
def falses : List Text := ["false".toList, "False".toList, "FALSE".toList]

/-- A text without its leading sign. -/
def dropSign : Text → Text
  | '+' :: t => t
  | '-' :: t => t
  | t => t

def isDecimal (t : Text) : Bool := dropSign t != [] && (dropSign t).all isDigit

/-- The value of a hexadecimal digit. -/
def hexVal? (c : Char) : Option ℕ :=
  if isDigit c then some (c.toNat - '0'.toNat)
  else if 'a' ≤ c ∧ c ≤ 'f' then some (c.toNat - 'a'.toNat + 10)
  else if 'A' ≤ c ∧ c ≤ 'F' then some (c.toNat - 'A'.toNat + 10)
  else none

def isOctal (t : Text) : Bool :=
  startsWith "0o".toList t && t.drop 2 != [] && (t.drop 2).all fun c => isDigit c && c ≤ '7'

def isHexadecimal (t : Text) : Bool :=
  startsWith "0x".toList t && t.drop 2 != [] && (t.drop 2).all fun c => (hexVal? c).isSome

/-- An optional exponent. -/
def isExponent : Text → Bool
  | [] => true
  | c :: t => (c == 'e' || c == 'E') && dropSign t != [] && (dropSign t).all isDigit

/-- A number with an optional fraction and an optional exponent. -/
def isFloat (t : Text) : Bool :=
  let u := dropSign t
  let whole := u.takeWhile isDigit
  let (frac, rest) := match u.dropWhile isDigit with
    | '.' :: r => (r.takeWhile isDigit, r.dropWhile isDigit)
    | r => ([], r)
  (whole != [] || frac != []) && isExponent rest

def isInfinity (t : Text) : Bool := dropSign t ∈ [".inf".toList, ".Inf".toList, ".INF".toList]
def isNan (t : Text) : Bool := t ∈ [".nan".toList, ".NaN".toList, ".NAN".toList]

def decimal (t : Text) : ℤ :=
  if t.head? = some '-' then -(number (dropSign t) : ℤ) else number (dropSign t)

def radix (base : ℕ) (ds : Text) : ℕ := ds.foldl (fun n c => n * base + (hexVal? c).getD 0) 0

/-- What a plain scalar stands for. -/
def plainValue (t : Text) : Scalar :=
  if t ∈ nulls then .null
  else if t ∈ trues then .bool true
  else if t ∈ falses then .bool false
  else if isDecimal t then .int (decimal t)
  else if isOctal t then .int (radix 8 (t.drop 2))
  else if isHexadecimal t then .int (radix 16 (t.drop 2))
  else if isFloat t || isInfinity t || isNan t then .float t
  else .str t

/-! ## Scalars -/

/-- What a backslash and one character stand for. -/
def escapes : List (Char × Char) :=
  [('0', '\x00'), ('a', '\x07'), ('b', '\x08'), ('t', '\t'), ('\t', '\t'), ('n', '\n'), ('v', '\x0b'),
    ('f', '\x0c'), ('r', '\r'), ('e', '\x1b'), (' ', ' '), ('"', '"'), ('/', '/'), ('\\', '\\'),
    ('N', '\u0085'), ('_', '\u00a0'), ('L', '\u2028'), ('P', '\u2029')]

/-- A character in front of what else was read. -/
def push (c : Char) (p : Text × Text) : Text × Text := (c :: p.1, p.2)

/-- Reads up to the closing quote: the text, and what follows it. -/
def readDouble : Text → Option (Text × Text)
  | [] => none
  | '"' :: t => some ([], t)
  | '\\' :: 'x' :: a :: b :: t =>
    match hexVal? a, hexVal? b with
    | some n, some m => (readDouble t).map (push (Char.ofNat (16 * n + m)))
    | _, _ => none
  | '\\' :: c :: t =>
    match escapes.lookup c with
    | some d => (readDouble t).map (push d)
    | none => none
  | c :: t => if c = '\\' ∨ c.toNat < 0x20 ∧ c ≠ '\t' then none else (readDouble t).map (push c)

def isWordChar (c : Char) : Bool :=
  isDigit c || ('a' ≤ c && c ≤ 'z') || ('A' ≤ c && c ≤ 'Z') || c == '_'

/-- A plain scalar of letters, digits and `_-./`, that starts with a letter, a digit or
    `_`, perhaps after a `-`. -/
def isPlain (t : Text) : Bool :=
  (match t with
    | '-' :: c :: _ => isWordChar c
    | c :: _ => isWordChar c
    | [] => false) && t.all fun c => isWordChar c || c == '-' || c == '.' || c == '/'

/-- A scalar of one line. -/
def readScalar : Text → Option Scalar
  | '"' :: u => match readDouble u with
    | some (v, []) => some (.str v)
    | _ => none
  | t => if isPlain t then some (plainValue t) else none

/-! ## Blocks -/

/-- How far the colon may stand from the start of an implicit key. -/
def implicitKey (n : ℕ) : Bool := n ≤ 1024

/-- A line under another. -/
def indented (l : Text) : Bool := l.head? == some ' '

/-- Adds a line to those read after it: what stands under no line yet, and the lines with
    what stands under them. -/
def addLine (l : Text) (acc : List Text × List (Text × List Text)) :
    List Text × List (Text × List Text) :=
  if indented l then (l :: acc.1, acc.2) else ([], (l, acc.1) :: acc.2)

/-- Lines, each with those under it, after the lines under none. -/
def grouped (ls : List Text) : List Text × List (Text × List Text) := ls.foldr addLine ([], [])

def dedent (ls : List Text) : Option (List Text) := ls.mapM (stripPrefix "  ".toList)

/-- A value on its key's line. -/
def readInline (t : Text) : Option Node :=
  if t = "\x7b\x7d".toList then some (.map [])
  else if t = "[]".toList then some (.seq [])
  else (readScalar t).map .scalar

section
variable (fits : ℕ → Bool)

/-- A key, and what follows its colon; `fits` says which keys are short enough. -/
def readKey : Text → Option (Scalar × Text)
  | '"' :: u => match readDouble u with
    | some (v, ':' :: rest) =>
      if fits (('"' :: u).length - (':' :: rest).length) then some (.str v, rest) else none
    | _ => none
  | l => match l.dropWhile (· ≠ ':') with
    | [] => none
    | _ :: rest =>
      let k := l.takeWhile (· ≠ ':')
      if isPlain k && fits k.length then some (plainValue k, rest) else none

/-- An entry of a mapping; a block under the key is read by `block`. -/
def readEntry (block : List Text → Option Node) (f : Text × List Text) : Option (Scalar × Node) :=
  (readKey fits f.1).bind fun (key, rest) =>
    if f.2 = [] then ((stripPrefix [' '] rest).bind readInline).map fun node => (key, node)
    else if rest = [] then ((dedent f.2).bind block).map fun node => (key, node)
    else none

/-- An item of a sequence: a scalar, or a block that starts on the dash's line. -/
def readItem (block : List Text → Option Node) (f : Text × List Text) : Option Node :=
  (stripPrefix "- ".toList f.1).bind fun first => (dedent f.2).bind fun under =>
    match under, readInline first with
    | [], some node => some node
    | _, _ => block (first :: under)

/-- A block of lines, nested at most this deep. -/
def readBlock : ℕ → List Text → Option Node
  | 0, _ => none
  | depth + 1, ls =>
    match grouped ls with
    | ([], (l, under) :: groups) =>
      if startsWith "- ".toList l then
        (((l, under) :: groups).mapM (readItem (readBlock depth))).map .seq
      else do
        let entries ← ((l, under) :: groups).mapM (readEntry fits (readBlock depth))
        if (entries.map Prod.fst).Nodup then return .map entries else none
    | _ => none

/-- A document. -/
def read (t : Text) : Option Node :=
  if t.getLast? = some '\n' then readBlock fits t.length (splitOn '\n' t).dropLast else none

end

/-! ## Reading what is spelled -/

/-- **Escaped text is read back**, when the escape of every character is. -/
theorem readDouble_escaped {esc : Char → Text}
    (h : ∀ c t, readDouble (esc c ++ t) = (readDouble t).map (push c)) (v t : Text) :
    readDouble (v.flatMap esc ++ '"' :: t) = some (v, t) := by
  induction v with
  | nil => rfl
  | cons c v ih =>
    rw [List.flatMap_cons, List.append_assoc, h, ih]
    rfl

theorem readDouble_plain {c : Char} (hq : c ≠ '"') (hb : c ≠ '\\') (hc : 0x20 ≤ c.toNat) (t : Text) :
    readDouble (c :: t) = (readDouble t).map (push c) := by
  rw [readDouble.eq_def]
  split
  · rename_i h
    cases h
  · rename_i h
    exact absurd (List.cons.inj h).1 hq
  · rename_i h
    exact absurd (List.cons.inj h).1 hb
  · rename_i h
    exact absurd (List.cons.inj h).1 hb
  · rename_i h
    obtain ⟨rfl, rfl⟩ := List.cons.inj h
    refine if_neg ?_
    rintro (h1 | ⟨h1, -⟩)
    · exact hb h1
    · omega

/-- A text of one line that spells a scalar: a plain one, or a string between quotes. -/
def Spells (t : Text) (s : Scalar) : Prop :=
  (isPlain t = true ∧ plainValue t = s) ∨
    ∃ u v, t = '"' :: u ∧ s = .str v ∧ ∀ rest, readDouble (u ++ rest) = some (v, rest)

theorem isPlain_cases {t : Text} (h : isPlain t = true) :
    (∃ c u, t = c :: u ∧ c ≠ '"' ∧ c ≠ ' ') ∧ ':' ∉ t := by
  rw [isPlain.eq_def, Bool.and_eq_true, List.all_eq_true] at h
  obtain ⟨hhead, hall⟩ := h
  refine ⟨?_, fun hm => absurd (hall _ hm) (by decide)⟩
  cases t with
  | nil => cases hhead
  | cons c u =>
    refine ⟨c, u, rfl, ?_, ?_⟩
    · rintro rfl
      exact absurd (hall '"' List.mem_cons_self) (by decide)
    · rintro rfl
      exact absurd (hall ' ' List.mem_cons_self) (by decide)

variable {t v : Text} {s : Scalar} {fits : ℕ → Bool} {block : List Text → Option Node} {node : Node}

theorem readScalar_of_head {c : Char} {u : Text} (hc : c ≠ '"') : readScalar (c :: u) =
    if isPlain (c :: u) then some (plainValue (c :: u)) else none := by
  rw [readScalar.eq_def]
  split
  · rename_i h
    exact absurd (List.cons.inj h).1 hc
  · rfl

/-- **A scalar is read as what it spells.** -/
theorem Spells.readScalar (h : Spells t s) : readScalar t = some s := by
  rcases h with ⟨hp, rfl⟩ | ⟨u, v, rfl, rfl, hu⟩
  · obtain ⟨⟨c, u, rfl, hc, -⟩, -⟩ := isPlain_cases hp
    rw [readScalar_of_head hc, if_pos hp]
  · have := hu []
    rw [List.append_nil] at this
    rw [BlockYaml.readScalar, this]

theorem Spells.readInline (h : Spells t s) : readInline t = some (.scalar s) := by
  have hread := h.readScalar
  rw [BlockYaml.readInline, if_neg, if_neg, hread]
  · rfl
  · rintro rfl
    exact absurd hread (by simp [BlockYaml.readScalar, isPlain, isWordChar, isDigit])
  · rintro rfl
    exact absurd hread (by simp [BlockYaml.readScalar, isPlain, isWordChar, isDigit])

theorem readKey_of_head {c : Char} {u : Text} (hc : c ≠ '"') : readKey fits (c :: u) =
    match (c :: u).dropWhile (· ≠ ':') with
    | [] => none
    | _ :: rest =>
      let k := (c :: u).takeWhile (· ≠ ':')
      if isPlain k && fits k.length then some (plainValue k, rest) else none := by
  rw [readKey.eq_def]
  split
  · rename_i h
    exact absurd (List.cons.inj h).1 hc
  · rfl

/-- **A key is read as what it spells**, when it is short enough. -/
theorem Spells.readKey (h : Spells t s) (rest : Text) :
    readKey fits (t ++ ':' :: rest) = if fits t.length then some (s, rest) else none := by
  rcases h with ⟨hp, rfl⟩ | ⟨u, v, rfl, rfl, hu⟩
  · obtain ⟨⟨c, u, rfl, hc, -⟩, hcolon⟩ := isPlain_cases hp
    have htake : (c :: u ++ ':' :: rest).takeWhile (· ≠ ':') = c :: u := by
      rw [List.takeWhile_append_of_pos fun d hd => by simpa using fun h : d = ':' => hcolon (h ▸ hd)]
      simp
    have hdrop : (c :: u ++ ':' :: rest).dropWhile (· ≠ ':') = ':' :: rest := by
      rw [List.dropWhile_append_of_pos fun d hd => by simpa using fun h : d = ':' => hcolon (h ▸ hd)]
      simp
    rw [List.cons_append] at htake hdrop ⊢
    rw [readKey_of_head hc, htake, hdrop]
    simp only [hp, Bool.true_and]
  · have hlen : (('"' :: (u ++ ':' :: rest)).length - (':' :: rest).length) = ('"' :: u).length := by
      simp only [List.length_cons, List.length_append]
      omega
    rw [List.cons_append, BlockYaml.readKey, hu (':' :: rest)]
    simp only [hlen]

theorem Spells.not_indented (h : Spells t s) (rest : Text) : indented (t ++ rest) = false := by
  rcases h with ⟨hp, -⟩ | ⟨u, v, rfl, -, -⟩
  · obtain ⟨⟨c, u, rfl, -, hc⟩, -⟩ := isPlain_cases hp
    simpa [indented] using hc
  · rfl

/-- What spells a key starts no item of a sequence. -/
theorem Spells.not_item (h : Spells t s) (rest : Text) :
    startsWith "- ".toList (t ++ ':' :: rest) = false := by
  rcases h with ⟨hp, -⟩ | ⟨u, v, rfl, -, -⟩
  · rw [isPlain.eq_def, Bool.and_eq_true, List.all_eq_true] at hp
    obtain ⟨hhead, hall⟩ := hp
    match t with
    | [] => cases hhead
    | c :: d :: u =>
      by_cases hc : c = '-'
      · subst hc
        have hword : isWordChar d = true := hhead
        have hd : ' ' ≠ d := by
          rintro rfl
          exact absurd hword (by decide)
        simp [startsWith, stripPrefix_cons_cons, hd]
      · simp [startsWith, stripPrefix_cons_cons, Ne.symm hc]
    | [c] =>
      by_cases hc : c = '-'
      · subst hc
        exact absurd hhead (by decide)
      · simp [startsWith, stripPrefix_cons_cons, Ne.symm hc]
  · rfl

/-! ## Reading blocks -/

theorem foldr_addLine_under {ls : List Text} (h : ∀ l ∈ ls, indented l = true)
    (acc : List Text × List (Text × List Text)) : ls.foldr addLine acc = (ls ++ acc.1, acc.2) := by
  induction ls with
  | nil => rfl
  | cons l ls ih =>
    rw [List.foldr_cons, ih fun k hk => h k (List.mem_cons_of_mem _ hk), addLine,
      if_pos (h l List.mem_cons_self)]
    rfl

/-- **Lines with what stands under them are grouped again.** -/
theorem grouped_flatMap {fs : List (Text × List Text)}
    (h : ∀ f ∈ fs, indented f.1 = false ∧ ∀ l ∈ f.2, indented l = true) :
    grouped (fs.flatMap fun f => f.1 :: f.2) = ([], fs) := by
  rw [grouped]
  induction fs with
  | nil => rfl
  | cons f fs ih =>
    obtain ⟨hf, hfs⟩ := List.forall_mem_cons.1 h
    rw [List.flatMap_cons, List.foldr_append, ih hfs, List.foldr_cons, foldr_addLine_under hf.2,
      addLine, if_neg (by rw [hf.1]; exact Bool.false_ne_true), List.append_nil]

theorem dedent_map (ls : List Text) : dedent (ls.map fun l => "  ".toList ++ l) = some ls := by
  induction ls with
  | nil => rfl
  | cons l ls ih =>
    rw [dedent] at ih
    rw [List.map_cons, dedent, List.mapM_cons, stripPrefix_append, ih]
    rfl

/-- A block of entries is a mapping. -/
theorem readBlock_map {fs : List (Text × List Text)} (hne : fs ≠ []) (depth : ℕ)
    (h : ∀ f ∈ fs, indented f.1 = false ∧ ∀ l ∈ f.2, indented l = true)
    (hkey : ∀ f ∈ fs, startsWith "- ".toList f.1 = false) :
    readBlock fits (depth + 1) (fs.flatMap fun f => f.1 :: f.2) =
      (fs.mapM (readEntry fits (readBlock fits depth))).bind fun es =>
        if (es.map Prod.fst).Nodup then some (.map es) else none := by
  rw [readBlock, grouped_flatMap h]
  match fs with
  | [] => exact absurd rfl hne
  | (l, under) :: fs =>
    have hl := hkey _ List.mem_cons_self
    simp only [hl, Bool.false_eq_true, if_false]
    rfl

/-- A block of items is a sequence. -/
theorem readBlock_seq {fs : List (Text × List Text)} (hne : fs ≠ []) (depth : ℕ)
    (h : ∀ f ∈ fs, indented f.1 = false ∧ ∀ l ∈ f.2, indented l = true)
    (hitem : ∀ f ∈ fs, startsWith "- ".toList f.1 = true) :
    readBlock fits (depth + 1) (fs.flatMap fun f => f.1 :: f.2) =
      (fs.mapM (readItem (readBlock fits depth))).map .seq := by
  rw [readBlock, grouped_flatMap h]
  match fs with
  | [] => exact absurd rfl hne
  | (l, under) :: fs =>
    have hl := hitem _ List.mem_cons_self
    simp only [hl, if_true]

theorem readEntry_inline (h : Spells t s) (hv : readInline v = some node) :
    readEntry fits block (t ++ ':' :: ' ' :: v, []) = if fits t.length then some (s, node) else none := by
  have hstrip : stripPrefix [' '] (' ' :: v) = some v := stripPrefix_append [' '] v
  rw [readEntry, h.readKey]
  cases fits t.length with
  | true => simp [hstrip, hv]
  | false => rfl

theorem readEntry_block (h : Spells t s) {ls : List Text} (hne : ls ≠ []) :
    readEntry fits block (t ++ [':'], ls.map fun l => "  ".toList ++ l) =
      if fits t.length then (block ls).map fun node => (s, node) else none := by
  have hls : (ls.map fun l => "  ".toList ++ l) ≠ [] := fun h => hne (List.map_eq_nil_iff.1 h)
  rw [readEntry, h.readKey]
  cases fits t.length with
  | true =>
    show (if (ls.map fun l => "  ".toList ++ l) = [] then _ else _) = _
    rw [if_neg hls, if_pos rfl, dedent_map]
    rfl
  | false => rfl

theorem readItem_inline (hv : readInline v = some node) :
    readItem block ("- ".toList ++ v, []) = some node := by
  have hdedent : dedent [] = some [] := rfl
  rw [readItem, stripPrefix_append, Option.bind_some, hdedent, Option.bind_some, hv]

theorem readItem_block {first : Text} {under : List Text} (hne : under ≠ []) :
    readItem block ("- ".toList ++ first, under.map fun l => "  ".toList ++ l) =
      block (first :: under) := by
  rw [readItem, stripPrefix_append, Option.bind_some, dedent_map, Option.bind_some]
  cases under with
  | nil => exact absurd rfl hne
  | cons l ls => rfl

end Yaam.BlockYaml
