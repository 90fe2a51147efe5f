/-
  What knowledge holds, and which records may contribute to it (`yaam-knowledge`,
  `fact.rs`).

  * `Fact` is one statement about an entity, `Observation` a fact and the record it was
    read out of;
  * `derivable` is the gate, `observations` everything an admitted record says;
  * `observe_spec`: an observation carries its record's identifier and a readable time.
-/
import Yaam.Contract.Record

namespace Yaam.Knowledge

open Text Contract

/-- An entity as knowledge keys it. -/
structure EntityKey where
  kind : Text
  id : Text
deriving DecidableEq

/-- One statement knowledge holds about an entity. -/
inductive Fact where
  /-- The entity was recorded alongside a structural attribute. -/
  | attribute (entity : EntityKey) (key value : Text)
  /-- An agent acted on the entity. -/
  | actor (entity : EntityKey) (agent : Text)
  /-- The entity was named by the same record as another. -/
  | association (entity other : EntityKey)
deriving DecidableEq

/-- The entity whose note a fact belongs in. -/
def Fact.entity : Fact → EntityKey
  | .attribute e _ _ => e
  | .actor e _ => e
  | .association e _ => e

/-- What the derived order of facts compares: the variant, then its fields. -/
def Fact.words : Fact → List Text
  | .attribute e key value => ["0".toList, e.kind, e.id, key, value]
  | .actor e agent => ["1".toList, e.kind, e.id, agent]
  | .association e other => ["2".toList, e.kind, e.id, other.kind, other.id]

/-- One fact, and the record it was read out of. -/
structure Observation where
  fact : Fact
  source : RecordId
  at_ : Text
deriving DecidableEq

/-- Why a record contributes nothing. -/
inductive Ineligible where
  | erasable
  | scoped
  | untimed
deriving DecidableEq

/-- Admits a record's structure, or says why it contributes nothing
    (`Derivable::of`). -/
def derivable (r : ActionRecord) : Except Ineligible ActionRecord :=
  if r.dataClass ≠ .internal ∨ r.subjects ≠ [] then .error .erasable
  else if r.visibility ≠ .org then .error .scoped
  else if parseMs r.receivedAt = none then .error .untimed
  else .ok r

/-- An attribute's value as the text a note carries. -/
def valueText : AttrValue → Text
  | .text v => v
  | .int v => padInt 0 v.toInt
  | .bool v => (if v then "true" else "false").toList

/-- The entities a record names with a field's confidence. -/
def certain (r : ActionRecord) : List EntityKey :=
  (r.entities.filter fun e => fieldConfidence.value ≤ e.confidence.value).map fun e => ⟨e.kind, e.id⟩

/-- What a record says about one of its entities. -/
def factsOf (r : ActionRecord) (e : EntityKey) : List Fact :=
  (r.attrs.entries.map fun a => .attribute e a.1 (valueText a.2)) ++
    .actor e r.agent :: ((certain r).filter (· ≠ e)).map fun other => .association e other

/-- Everything a record says. -/
def observations (r : ActionRecord) : List Observation :=
  ((certain r).flatMap (factsOf r)).map fun fact => ⟨fact, r.recordId, r.receivedAt⟩

/-- Everything said by the records that may contribute. -/
def observe (rs : List ActionRecord) : List Observation :=
  rs.flatMap fun r => match derivable r with
    | .ok r => observations r
    | .error _ => []

theorem derivable_ok {r r' : ActionRecord} (h : derivable r = .ok r') :
    r' = r ∧ r.dataClass = .internal ∧ r.subjects = [] ∧ r.visibility = .org ∧
      parseMs r.receivedAt ≠ none := by
  unfold derivable at h
  split_ifs at h with h1 h2 h3
  push Not at h1 h2
  exact ⟨(Except.ok.inj h).symm, h1.1, h1.2, h2, h3⟩

/-- An observation comes from a record that may contribute, at its own time. -/
theorem observe_spec {rs : List ActionRecord} {o : Observation} (h : o ∈ observe rs) :
    ∃ r ∈ rs, derivable r = .ok r ∧ o.source = r.recordId ∧ o.at_ = r.receivedAt ∧
      parseMs o.at_ ≠ none ∧ ∃ e ∈ certain r, o.fact ∈ factsOf r e := by
  obtain ⟨r, hr, ho⟩ := List.mem_flatMap.1 h
  cases hd : derivable r with
  | error why =>
    rw [hd] at ho
    exact absurd ho List.not_mem_nil
  | ok r' =>
    rw [hd] at ho
    obtain ⟨rfl, -, -, -, htime⟩ := derivable_ok hd
    obtain ⟨fact, hfact, rfl⟩ := List.mem_map.1 ho
    obtain ⟨e, he, hfact⟩ := List.mem_flatMap.1 hfact
    exact ⟨r', hr, hd, rfl, rfl, htime, e, he, hfact⟩

/-- A fact is about the entity it is said of. -/
theorem entity_of_mem_factsOf {r : ActionRecord} {e : EntityKey} {f : Fact} (h : f ∈ factsOf r e) :
    f.entity = e := by
  simp only [factsOf, List.mem_append, List.mem_map, List.mem_cons] at h
  rcases h with ⟨a, -, rfl⟩ | rfl | ⟨other, -, rfl⟩
  · rfl
  · rfl
  · rfl

end Yaam.Knowledge
