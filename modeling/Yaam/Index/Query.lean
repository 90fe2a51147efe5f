/-
  The reads a caller can make of the index (`yaam-store`, `query.rs`).

  A statement is what it answers: the rows its joins and predicates select, in the order
  it asks for, cut to its page.  Where SQL leaves rows unordered they stand in insertion
  order.

  * `Scope.admits` is the predicate spliced into every statement, and `admits_iff` what
    a caller's entitlements amount to;
  * `byEntity`, `byFilter`, `correlate`, `linked` and `search` are the reads, each with
    its projection onto stored structure;
  * `reached` is the recursive part of a traversal.
-/
import Yaam.Lib.Recurse
import Yaam.Index.Tables
import Yaam.Md.Frontmatter

namespace Yaam.Index

open Text Contract

/-! ## Page sizes and bounds -/

def DEFAULT_LIMIT : ℕ := 1000
def DEFAULT_STRUCTURE_LIMIT : ℕ := 200
def DEFAULT_PAIR_LIMIT : ℕ := 100
def DEFAULT_LINK_LIMIT : ℕ := 100
def MAX_FRONTIER : ℕ := 200
def SCOPE_HEADROOM : ℕ := 20
def MAX_CANDIDATES : ℕ := 5000

def u32Max : ℕ := 2 ^ 32 - 1

/-- A count read back as a `u32`. -/
def toU32 (n : ℕ) : ℕ := min n u32Max

/-- `saturating_add(1)` on a `u32`. -/
def saturatingSucc (n : UInt32) : ℕ := min (n.toNat + 1) u32Max

/-- What a read pulls out of every row it matched. -/
inductive Select where
  | id
  | structure_
deriving DecidableEq

def Select.defaultLimit : Select → ℕ
  | .id => DEFAULT_LIMIT
  | .structure_ => DEFAULT_STRUCTURE_LIMIT

/-- The page of a read: the size the caller named, or the projection's own. -/
def Select.page (select : Select) (limit : Option UInt32) : ℕ :=
  (limit.map UInt32.toNat).getD select.defaultLimit

/-! ## Scope -/

/-- Which records a read may return. -/
inductive Scope where
  | nothing
  | unrestricted
  | caller (visibility : List Visibility) (agent : Text) (teams : List Text)

/-- The clauses one level contributes: none, when the caller cannot satisfy it. -/
def levelClauses (agent : Text) (teams : List Text) : Visibility → List (RecordRow → Bool)
  | .owner => [fun rec => rec.frontmatter.visibility = .owner ∧ rec.frontmatter.agent = agent]
  | .team =>
    if teams = [] then []
    else [fun rec => rec.frontmatter.visibility = .team ∧ ∃ t ∈ teams, rec.frontmatter.team = some t]
  | .org => [fun rec => rec.frontmatter.visibility = .org]
  | .operator => [fun rec => rec.frontmatter.visibility = .operator]

/-- The scope test, or `none` when nothing is excluded. -/
def scopePredicate : Scope → Option (RecordRow → Bool)
  | .unrestricted => none
  | .nothing => some fun _ => false
  | .caller visibility agent teams =>
    let allowed := visibility.flatMap (levelClauses agent teams)
    some fun rec => allowed.any (· rec)

def Scope.admits (scope : Scope) (rec : RecordRow) : Bool := (scopePredicate scope).all (· rec)

theorem any_levelClauses {agent : Text} {teams : List Text} {level : Visibility} {rec : RecordRow} :
    (levelClauses agent teams level).any (· rec) = true ↔
      rec.frontmatter.visibility = level ∧ (level = .owner → rec.frontmatter.agent = agent) ∧
        (level = .team → ∃ t ∈ teams, rec.frontmatter.team = some t) := by
  cases level with
  | owner => simp [levelClauses]
  | team =>
    by_cases hteams : teams = []
    · simp [levelClauses, hteams]
    · simp [levelClauses, hteams]
  | org => simp [levelClauses]
  | operator => simp [levelClauses]

/-- **What a caller may read**: a level it is entitled to, and at the narrow levels the
    identity that goes with it. -/
theorem Scope.admits_caller {visibility : List Visibility} {agent : Text} {teams : List Text}
    {rec : RecordRow} :
    (Scope.caller visibility agent teams).admits rec = true ↔
      rec.frontmatter.visibility ∈ visibility ∧
        (rec.frontmatter.visibility = .owner → rec.frontmatter.agent = agent) ∧
        (rec.frontmatter.visibility = .team → ∃ t ∈ teams, rec.frontmatter.team = some t) := by
  simp only [Scope.admits, scopePredicate, Option.all_some, List.any_flatMap, List.any_eq_true (l := visibility),
    any_levelClauses]
  constructor
  · rintro ⟨level, hlevel, rfl, h⟩
    exact ⟨hlevel, h⟩
  · rintro ⟨hlevel, h⟩
    exact ⟨_, hlevel, rfl, h⟩

@[simp] theorem Scope.admits_unrestricted (rec : RecordRow) : Scope.unrestricted.admits rec = true := rfl

@[simp] theorem Scope.admits_nothing (rec : RecordRow) : Scope.nothing.admits rec = false := rfl

/-! ## Windows, floors and rows -/

/-- A half-open window of server time, in milliseconds. -/
structure Window where
  fromMs : ℤ
  toMs : ℤ

def Window.contains (w : Window) (ms : ℤ) : Bool := w.fromMs ≤ ms ∧ ms < w.toMs

/-- `min_confidence`, any `f32`. -/
inductive Floor where
  | nan
  | negInfinite
  | infinite
  | finite (c : Confidence)

/-- `confidence >= ?`: a NaN is bound as NULL, which nothing is at or above. -/
def Floor.met : Floor → Confidence → Bool
  | .nan, _ => false
  | .negInfinite, _ => true
  | .infinite, _ => false
  | .finite floor, c => floor.value ≤ c.value

/-- `FULL_CONFIDENCE`. -/
def full (c : Confidence) : Bool := 1 ≤ c.value

/-- SQL's two-argument `min`. -/
def weaker (a b : Confidence) : Confidence := if a.value ≤ b.value then a else b

@[simp] theorem full_weaker (a b : Confidence) : full (weaker a b) = (full a && full b) := by
  unfold weaker
  split_ifs with h
  · by_cases ha : 1 ≤ a.value
    · simp [full, ha, ha.trans h]
    · simp [full, ha]
  · by_cases hb : 1 ≤ b.value
    · simp [full, hb, hb.trans (le_of_not_ge h)]
    · simp [full, hb]

/-- The references one record makes. -/
def Tables.refsOf (T : Tables) (rec : RecordRow) : List EntityRow :=
  T.entityRefs.filter fun r => r.record = rec.recordId

/-- A record's integer key: its place in insertion order. -/
def Tables.pk (T : Tables) (rec : RecordRow) : ℕ := T.records.idxOf rec

/-- Rows in the order of a comparison, ties as they come. -/
def orderBy {α : Type} (cmp : α → α → Ordering) (rows : List α) : List α :=
  rows.mergeSort fun x y => (cmp x y).isLE

@[simp] theorem mem_orderBy {α : Type} {cmp : α → α → Ordering} {rows : List α} {x : α} :
    x ∈ orderBy cmp rows ↔ x ∈ rows := by
  simp [orderBy]

/-- `ORDER BY key DESC`. -/
def descending {α κ : Type} [Ord κ] (key : α → κ) (x y : α) : Ordering := compare (key y) (key x)

/-! ## Projections -/

/-- What a read can report. -/
inductive QueryError where
  | badNeedle (needle detail : Text)
  | drift (record : RecordId)
  | sqlite (detail : Text)
deriving DecidableEq

/-- Reads a row's stored structure, which has no prose. -/
def storedStructure (rec : RecordRow) : Except QueryError ActionRecord :=
  if rec.frontmatter.recordId = rec.recordId then .ok rec.frontmatter.bare
  else .error (.drift rec.recordId)

/-! ## One entity's history -/

/-- How much of an entity's history one read may take. -/
inductive Extent where
  | page (limit : Option UInt32)
  | everything

def Extent.cut {α : Type} (select : Select) (rows : List α) : Extent → List α
  | .page limit => rows.take (select.page limit)
  | .everything => rows

/-- `ORDER BY er.received_ms DESC, er.record_pk DESC`. -/
def newestReference (T : Tables) : EntityRow × RecordRow → EntityRow × RecordRow → Ordering :=
  compareLex (descending (·.1.receivedMs)) (descending fun r => T.pk r.2)

/-- The references of admitted records to an entity. -/
def entityMatches (T : Tables) (kind id : Text) (floor : Floor) (window : Option Window)
    (scope : Scope) : List (EntityRow × RecordRow) :=
  T.records.flatMap fun rec =>
    (T.refsOf rec).filter (fun er => er.kind = kind ∧ er.entityId = id ∧ floor.met er.confidence ∧
      window.all (·.contains er.receivedMs) ∧ scope.admits rec) |>.map (·, rec)

def byEntityRows (T : Tables) (kind id : Text) (floor : Floor) (window : Option Window)
    (extent : Extent) (scope : Scope) (select : Select) : List RecordRow :=
  (extent.cut select (orderBy (newestReference T) (entityMatches T kind id floor window scope))).map
    (·.2)

def byEntity (T : Tables) (kind id : Text) (floor : Floor) (window : Option Window)
    (limit : Option UInt32) (scope : Scope) : List RecordId :=
  (byEntityRows T kind id floor window (.page limit) scope .id).map (·.recordId)

def byEntityStructures (T : Tables) (kind id : Text) (floor : Floor) (window : Option Window)
    (limit : Option UInt32) (scope : Scope) : Except QueryError (List ActionRecord) :=
  (byEntityRows T kind id floor window (.page limit) scope .structure_).mapM storedStructure

/-- Every record touching one entity, with no page and no scope. -/
def byEntityUnbounded (T : Tables) (kind id : Text) (floor : Floor) : List RecordId :=
  (byEntityRows T kind id floor none .everything .unrestricted .id).map (·.recordId)

/-- Whether one record is in the index. -/
def «exists» (T : Tables) (id : Text) (scope : Scope) : Bool :=
  T.records.any fun rec => rec.recordId.text = id ∧ scope.admits rec

/-! ## Filters -/

/-- Filters for a record query. -/
structure Filter where
  action : Option Text
  outcome : Option Text
  agent : Option Text
  attr : Option (Text × Text)
  window : Option Window
  limit : Option UInt32
  scope : Scope

/-- The filter that excludes nothing but what its scope does, which is everything. -/
def Filter.default : Filter := ⟨none, none, none, none, none, none, .nothing⟩

/-- The predicates over a record's own columns, the scope test last. -/
def Filter.recordPredicates (filter : Filter) (rec : RecordRow) : Bool :=
  filter.action.all (rec.frontmatter.action = ·) &&
  filter.outcome.all (Md.outcomeName rec.frontmatter.outcome = ·) &&
  filter.agent.all (rec.frontmatter.agent = ·) &&
  filter.window.all (·.contains rec.receivedMs) &&
  filter.scope.admits rec

/-- The rows of `record_attrs` that spell an attribute of a record. -/
def attrMatches (T : Tables) (rec : RecordRow) (attr : Text × Text) : List AttrRow :=
  T.attrs.filter fun ra => ra.record = rec.recordId ∧ ra.key = attr.1 ∧ ra.value = attr.2

/-- `ORDER BY rec.received_ms DESC, rec.id DESC`. -/
def newestRecord (T : Tables) : RecordRow → RecordRow → Ordering :=
  compareLex (descending (·.receivedMs)) (descending T.pk)

/-- The driving rows: one for each matching attribute, or each record when none is asked for. -/
def filterSource (T : Tables) (filter : Filter) : List RecordRow :=
  match filter.attr with
  | some attr => T.records.flatMap fun rec => (attrMatches T rec attr).map fun _ => rec
  | none => T.records

def filterMatches (T : Tables) (filter : Filter) : List RecordRow :=
  (filterSource T filter).filter filter.recordPredicates

def filterRows (T : Tables) (filter : Filter) (select : Select) : List RecordRow :=
  (orderBy (newestRecord T) (filterMatches T filter)).take (select.page filter.limit)

def byFilter (T : Tables) (filter : Filter) : List RecordId :=
  (filterRows T filter .id).map (·.recordId)

def byFilterStructures (T : Tables) (filter : Filter) : Except QueryError (List ActionRecord) :=
  (filterRows T filter .structure_).mapM storedStructure

/-! ## Correlation -/

/-- The record predicates, and the attribute as a semi-join. -/
def Filter.correlatePredicates (T : Tables) (filter : Filter) (rec : RecordRow) : Bool :=
  filter.recordPredicates rec && filter.attr.all fun attr => attrMatches T rec attr ≠ []

/-- `ORDER BY l.received_ms DESC, r.received_ms ASC, l.id DESC, r.id ASC`. -/
def pairOrder (T : Tables) : RecordRow × RecordRow → RecordRow × RecordRow → Ordering :=
  compareLex (descending (·.1.receivedMs)) <| compareLex (compareOn (·.2.receivedMs)) <|
    compareLex (descending fun p => T.pk p.1) (compareOn fun p => T.pk p.2)

/-- A pair's page: a pair of structures costs twice what one does. -/
def pairPage (select : Select) (limit : Option UInt32) : ℕ :=
  match select with
  | .id => select.page limit
  | .structure_ => (limit.map UInt32.toNat).getD DEFAULT_PAIR_LIMIT

/-- The pairs in range of each other whose sides both match. -/
def pairMatches (T : Tables) (left right : Filter) (withinMs : ℤ) : List (RecordRow × RecordRow) :=
  T.records.flatMap fun l =>
    T.records.filter (fun r => l.receivedMs ≤ r.receivedMs ∧ r.receivedMs ≤ l.receivedMs + withinMs ∧
      T.pk l ≠ T.pk r ∧ left.correlatePredicates T l ∧ right.correlatePredicates T r) |>.map (l, ·)

def correlateRows (T : Tables) (left right : Filter) (withinMs : ℤ) (select : Select) :
    List (RecordRow × RecordRow) :=
  (orderBy (pairOrder T) (pairMatches T left right withinMs)).take (pairPage select left.limit)

def correlate (T : Tables) (left right : Filter) (withinMs : ℤ) : List (RecordId × RecordId) :=
  (correlateRows T left right withinMs .id).map fun p => (p.1.recordId, p.2.recordId)

def correlateStructures (T : Tables) (left right : Filter) (withinMs : ℤ) :
    Except QueryError (List (ActionRecord × ActionRecord)) :=
  (correlateRows T left right withinMs .structure_).mapM fun p => do
    let l ← storedStructure p.1
    let r ← storedStructure p.2
    return (l, r)

/-! ## Traversal -/

/-- One entity, as a traversal names it. -/
structure EntityKey where
  kind : Text
  id : Text
deriving DecidableEq


/-- One edge: two entities, and the record that names both. -/
structure Link (ρ : Type) where
  from_ : EntityKey
  to_ : EntityKey
  hop : ℕ
  confidence : Confidence
  degree : ℕ
  via : ρ
deriving DecidableEq

/-- What a traversal asks. -/
structure Traversal where
  kind : Text
  id : Text
  depth : UInt32
  window : Window
  minConfidence : Floor
  maxDegree : UInt32
  limit : Option UInt32
  scope : Scope

def Traversal.seed (t : Traversal) : EntityKey := ⟨t.kind, t.id⟩

def EntityRow.entity (r : EntityRow) : EntityKey := ⟨r.kind, r.entityId⟩

/-- The references to an entity inside the traversal's window, whoever may read them. -/
def inWindow (T : Tables) (t : Traversal) (x : EntityKey) : ℕ :=
  T.entityRefs.countP fun d => d.entity = x ∧ t.window.contains d.receivedMs

/-- `push_degree`: the count of those, which stops one past the cap. -/
def degree (T : Tables) (t : Traversal) (x : EntityKey) : ℕ :=
  min (inWindow T t x) (saturatingSucc t.maxDegree)

/-- One hop from an entity: two references of an admitted record, the first to the entity
    and inside the window.  `arrive` and `leave` are the tests on the two. -/
def edges (T : Tables) (t : Traversal) (hop : ℕ) (x : EntityKey) (arrive leave : EntityRow → Bool) :
    List (Link RecordRow) :=
  T.records.flatMap fun rec =>
    (T.refsOf rec).filter (fun a => a.entity = x ∧ t.window.contains a.receivedMs ∧ arrive a ∧
      t.scope.admits rec) |>.flatMap fun a =>
        (T.refsOf rec).filter leave |>.map fun b =>
          { from_ := x, to_ := b.entity, hop, confidence := weaker a.confidence b.confidence,
            degree := degree T t b.entity, via := rec }

/-- The first select: the seed is held to the floor, as what it reaches is. -/
def firstHop (T : Tables) (t : Traversal) : List (Link RecordRow) :=
  edges T t 1 t.seed (fun a => t.minConfidence.met a.confidence)
    fun b => t.minConfidence.met b.confidence ∧ b.entity ≠ t.seed

/-- The recursive select, over one row of the queue. -/
def nextHop (T : Tables) (t : Traversal) (h : Link RecordRow) : List (Link RecordRow) :=
  -- the corridor rule, then the second confidence tier
  if h.hop < t.depth.toNat ∧ h.degree ≤ t.maxDegree.toNat ∧ full h.confidence then
    edges T t (h.hop + 1) h.to_ (fun a => full a.confidence)
      fun b => t.minConfidence.met b.confidence ∧ b.entity ≠ h.to_ ∧ b.entity ≠ t.seed
  else []

/-- The recursive table. -/
def reached (T : Tables) (t : Traversal) : List (Link RecordRow) :=
  Recurse.recurse (nextHop T t) (firstHop T t) MAX_FRONTIER

/-- `ORDER BY reached.hop ASC, rec.received_ms DESC, rec.id DESC, reached.to_kind ASC, …`. -/
def linkOrder (T : Tables) : Link RecordRow → Link RecordRow → Ordering :=
  compareLex (compareOn (·.hop)) <| compareLex (descending (·.via.receivedMs)) <|
    compareLex (descending fun l => T.pk l.via) <|
      compareLex (compareOn (·.to_.kind)) <| compareLex (compareOn (·.to_.id)) <|
        compareLex (compareOn (·.from_.kind)) (compareOn (·.from_.id))

def linkPage (t : Traversal) : ℕ := (t.limit.map UInt32.toNat).getD DEFAULT_LINK_LIMIT

def linkedRows (T : Tables) (t : Traversal) : List (Link RecordRow) :=
  (orderBy (linkOrder T) (reached T t)).take (linkPage t)

/-- `edge_of`, and the evidence beside it. -/
def Link.withVia {ρ : Type} (l : Link RecordRow) (via : ρ) : Link ρ :=
  { l with hop := toU32 l.hop, degree := toU32 l.degree, via := via }

def linked (T : Tables) (t : Traversal) : List (Link RecordId) :=
  (linkedRows T t).map fun l => l.withVia l.via.recordId

def linkedStructures (T : Tables) (t : Traversal) : Except QueryError (List (Link ActionRecord)) :=
  (linkedRows T t).mapM fun l => do
    let via ← storedStructure l.via
    return l.withVia via

/-! ## Search -/

/-- A failure of the full-text extension: of the expression it was given, or of its own. -/
inductive FullTextError where
  | unknown (detail : Text)
  | other (detail : Text)

/-- The full-text index: what matches an expression, latest row first, and how well. -/
abbrev FullText := Tables → Text → Except FullTextError (List (RecordId × ℚ))

/-- `refused_needle`. -/
def refusedNeedle (needle : Text) : FullTextError → QueryError
  | .unknown detail =>
    .badNeedle needle (trim ((stripPrefix "fts5:".toList detail).getD detail))
  | .other detail => .sqlite detail

/-- `candidate_ceiling`. -/
def candidateCeiling (limit : UInt32) : ℕ :=
  max (min (min (limit.toNat * SCOPE_HEADROOM) u32Max) MAX_CANDIDATES) limit.toNat

/-- The generated column `sealed`. -/
def RecordRow.sealed (rec : RecordRow) : Bool := rec.frontmatter.dataClass = .subjectDerived

/-- `ORDER BY candidates.relevance, rec.received_ms DESC, rec.id DESC`. -/
def relevanceOrder (T : Tables) : ℚ × RecordRow → ℚ × RecordRow → Ordering :=
  compareLex (compareOn (·.1)) <| compareLex (descending (·.2.receivedMs)) (descending fun r => T.pk r.2)

def searchRows (F : FullText) (T : Tables) (needle : Text) (limit : UInt32) (scope : Scope) :
    Except QueryError (List RecordRow) := do
  let found ← (F T needle).mapError (refusedNeedle needle)
  let candidates := found.take (candidateCeiling limit)
  let rows := candidates.flatMap fun c =>
    T.records.filter (fun rec => rec.recordId = c.1 ∧ ¬ rec.sealed ∧ scope.admits rec) |>.map (c.2, ·)
  return ((orderBy (relevanceOrder T) rows).take limit.toNat).map (·.2)

def search (F : FullText) (T : Tables) (needle : Text) (limit : UInt32) (scope : Scope) :
    Except QueryError (List RecordId) :=
  (searchRows F T needle limit scope).map (·.map (·.recordId))

def searchStructures (F : FullText) (T : Tables) (needle : Text) (limit : Option UInt32)
    (scope : Scope) : Except QueryError (List ActionRecord) := do
  let rows ← searchRows F T needle (limit.getD (.ofNat DEFAULT_STRUCTURE_LIMIT)) scope
  rows.mapM storedStructure

end Yaam.Index
