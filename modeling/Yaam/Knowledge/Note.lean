/-
  One entity's note: the file knowledge is kept in, and the way back out of it
  (`yaam-knowledge`, `note.rs`).

  * `collate` groups observations into notes, `Note.render` and `Note.parse` write and
    read a note's file;
  * `renderFact_ok`: the line of a fact, in its parts.
-/
import Yaam.Knowledge.Fact
import Yaam.Lib.Quoted
import Yaam.Lib.Tree
import Yaam.Md.Wikilink

namespace Yaam.Knowledge

open Text Contract Md

/-- What can go wrong deriving, writing or reading knowledge. -/
inductive Error where
  | unrenderable (value : Text)
  | unreadable (detail : String)
  | contract (e : Contract.Error)
  | io (e : IoError)

def Error.display : Error → String
  | .unrenderable v => s!"`{String.ofList v}` cannot be written into a note unambiguously"
  | .unreadable detail => s!"unreadable note: {detail}"
  | .contract e => e.display
  | .io e => s!"io: {e.display}"

/-- Source records listed per fact. -/
def maxSourcesPerFact : ℕ := 20

/-- What separates the fields of a fact's line. -/
def fieldSep : Text := " · ".toList

/-- What separates a fact's first and last observation. -/
def spanSep : Text := " … ".toList

/-- What one note says about one fact. -/
structure Held where
  fact : Fact
  observations : ℕ
  first : Text
  last : Text
  sources : List RecordId
deriving DecidableEq

/-- Everything knowledge holds about one entity. -/
structure Note where
  entity : EntityKey
  facts : List Held
deriving DecidableEq

/-! ## Collating -/

/-- A server stamp as milliseconds, for ordering only. -/
def stampMs (t : Text) : ℤ := (parseMs t).getD (-2 ^ 63)

/-- Newest first, then by identifier. -/
def newerFirst (a b : Observation) : Prop :=
  stampMs b.at_ < stampMs a.at_ ∨ (stampMs b.at_ = stampMs a.at_ ∧ b.source.text ≤ a.source.text)

instance : DecidableRel newerFirst := fun _ _ => inferInstanceAs (Decidable (_ ∨ _))

/-- Every observation of one fact as the line a note carries. -/
def held (fact : Fact) (seen : List Observation) : Held :=
  let sorted := seen.insertionSort newerFirst
  { fact
    observations := seen.length
    first := (sorted.getLast?.map (·.at_)).getD []
    last := (sorted.head?.map (·.at_)).getD []
    sources := (sorted.take maxSourcesPerFact).map (·.source) }

/-- Groups observations into the notes they belong in, in the order of their keys. -/
def collate (os : List Observation) : List Note :=
  let entities := (os.map (·.fact.entity)).dedup.insertionSort fun a b => [a.kind, a.id] ≤ [b.kind, b.id]
  entities.map fun e =>
    let facts := ((os.map (·.fact)).filter (·.entity = e)).dedup.insertionSort
      fun f g => f.words ≤ g.words
    ⟨e, facts.map fun f => held f (os.filter (·.fact = f))⟩

/-! ## Rendering -/

/-- A scalar inside backticks. -/
def tick (v : Text) : Text := '`' :: v ++ ['`']

/-- A scalar inside backticks, or a refusal. -/
def quoted (v : Text) : Except Error Text :=
  if '`' ∈ v ∨ '\n' ∈ v ∨ '\r' ∈ v then .error (.unrenderable v) else .ok (tick v)

/-- What moves the boundary of a reference. -/
def unlinkable (part : Text) : Prop := part = [] ∨ '[' ∈ part ∨ ']' ∈ part ∨ '\n' ∈ part ∨ '\r' ∈ part

instance (part : Text) : Decidable (unlinkable part) := inferInstanceAs (Decidable (_ ∨ _))

/-- An entity as a wikilink, or a refusal. -/
def link (e : EntityKey) : Except Error Text :=
  if unlinkable e.kind then .error (.unrenderable e.kind)
  else if unlinkable e.id then .error (.unrenderable e.id)
  else if ':' ∈ e.kind then .error (.unrenderable e.kind)
  else .ok (renderLink e.kind e.id)

/-- The part of a fact's line that says what was observed. -/
def renderStatement : Fact → Except Error Text
  | .attribute _ key value => do
    let key ← quoted key
    let value ← quoted value
    .ok ("attr ".toList ++ key ++ " = ".toList ++ value)
  | .actor _ agent => do
    let agent ← quoted agent
    .ok ("actor ".toList ++ agent)
  | .association _ other => do
    let other ← link other
    .ok ("link ".toList ++ other)

def sourceLinks (sources : List RecordId) : Text :=
  sources.flatMap fun s => fieldSep ++ renderLink "record".toList s.text

/-- One fact as its line. -/
def renderFact (h : Held) : Except Error Text := do
  let statement ← renderStatement h.fact
  let seen ← quoted (padNat 0 h.observations)
  let first ← quoted h.first
  let last ← quoted h.last
  .ok ("- ".toList ++ statement ++ fieldSep ++ "seen ".toList ++ seen ++ fieldSep ++ first ++
    spanSep ++ last ++ sourceLinks h.sources)

/-- What stands between a note's heading and its facts. -/
def preamble : Text :=
  ("Derived from the record tree. Rebuilt wholesale, so nothing here is authoritative: " ++
    "delete it and rebuild.").toList

/-- The complete note file. -/
def Note.render (n : Note) : Except Error Text := do
  let heading ← link n.entity
  let lines ← n.facts.mapM renderFact
  .ok ("# ".toList ++ heading ++ "\n\n".toList ++ preamble ++ "\n\n".toList ++ unlines lines)

/-! ## Parsing -/

/-- Every other entry of a list. -/
def everyOther {α : Type} : List α → List α
  | [] => []
  | [a] => [a]
  | a :: _ :: as => a :: everyOther as

/-- Every backtick-quoted span of a line, in order; a last span that nothing closes is
    dropped. -/
def quotes (line : Text) : List Text :=
  let parts := splitOn '`' line
  let complete := if parts.length % 2 = 0 then parts.length - 1 else parts.length
  everyOther ((parts.take complete).drop 1)

/-- A `usize`, as Rust parses one; a count is a list's length, so that no bound is
    checked. -/
def parseCount (t : Text) : Option ℕ :=
  let ds := (stripPrefix ['+'] t).getD t
  if ds ≠ [] ∧ ds.all isDigit then some (number ds) else none

/-- The quoted fields and the entities a line of this kind has. -/
def fieldCounts (kind : Text) : Option (ℕ × ℕ) :=
  if kind = "attr".toList then some (5, 0)
  else if kind = "actor".toList then some (4, 0)
  else if kind = "link".toList then some (3, 1)
  else none

/-- One source of a fact. -/
def parseSource (body : Text) (l : Text × Text) : Except Error RecordId :=
  if l.1 ≠ "record".toList then .error (.unreadable
    s!"fact line `{String.ofList body}` links a `{String.ofList l.1}` where a record belongs")
  else (RecordId.parse l.2).mapError .contract

/-- The fact of a line, from its quoted fields and its links. -/
def parseStatement (entity : EntityKey) (kind : Text) (qs : List Text) (links : List (Text × Text)) :
    Fact :=
  if kind = "attr".toList then .attribute entity (qs.getD 0 []) (qs.getD 1 [])
  else if kind = "actor".toList then .actor entity (qs.getD 0 [])
  else .association entity ⟨(links.getD 0 ([], [])).1, (links.getD 0 ([], [])).2⟩

/-- One fact line, in the entity whose note it was found in. -/
def parseFact (entity : EntityKey) (body : Text) : Except Error Held :=
  match splitOnce ' ' body with
  | none => .error (.unreadable s!"fact line `{String.ofList body}` has no kind")
  | some (kind, rest) =>
    let qs := quotes rest
    let links := extract rest
    match fieldCounts kind with
    | none => .error (.unreadable s!"unknown fact kind `{String.ofList kind}`")
    | some (wanted, entities) =>
      if qs.length ≠ wanted ∨ links.length < entities then .error (.unreadable
        (s!"fact line `{String.ofList body}` holds {qs.length} quoted field(s) and " ++
          s!"{links.length} link(s)"))
      else
        let counted := qs.getD (wanted - 3) []
        match parseCount counted with
        | none => .error (.unreadable s!"`{String.ofList counted}` is not an observation count")
        | some observations => do
          let sources ← (links.drop entities).mapM (parseSource body)
          .ok ⟨parseStatement entity kind qs links, observations, qs.getD (wanted - 2) [],
            qs.getD (wanted - 1) [], sources⟩

/-- The one entity a heading names. -/
def soleEntity (heading : Text) : Except Error EntityKey :=
  match extract heading with
  | [(kind, id)] => .ok ⟨kind, id⟩
  | found => .error (.unreadable
      s!"heading `{String.ofList heading}` names {found.length} entities")

/-- The facts of the lines that hold one. -/
def parseFacts (entity : EntityKey) (ls : List Text) : Except Error (List Held) :=
  (ls.filterMap (stripPrefix "- ".toList)).mapM (parseFact entity)

/-- A note file. -/
def Note.parse (text : Text) : Except Error Note :=
  match lines text with
  | [] => .error (.unreadable "no entity heading")
  | line :: ls => match stripPrefix "# ".toList line with
    | none => .error (.unreadable "no entity heading")
    | some heading => do
      let entity ← soleEntity heading
      let facts ← parseFacts entity ls
      .ok ⟨entity, facts⟩

end Yaam.Knowledge
