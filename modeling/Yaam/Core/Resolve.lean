/-
  Who a record is about (`yaam-core`, `resolve.rs`), and a small deployment.

  * `declaredSubjects` trusts the record; `ReferenceSubjects.resolve` derives the
    subject from an entity reference;
  * `deployment` is a store's configuration that runs: the reader of rendered
    frontmatter, the codecs of the logs, and stand-ins for the ciphers.
-/
import Yaam.Core.LogLines
import Yaam.Crypto.MintRace
import Yaam.Md.Reader

namespace Yaam.Core

open Text Contract

/-! ## Resolvers -/

/-- Trusts the subjects on the record. -/
def declaredSubjects (r : ActionRecord) : Resolution := .resolved r.subjects

/-- Derives a record's subject from an entity reference it states: the kinds to try,
    in order, and the keyed derivation of a pseudonym with its version. -/
structure ReferenceSubjects where
  kinds : List Text
  derive : Text → Except String (SubjectHash × UInt32)

/-- The identifiers of one kind that a record states with a field's confidence, each
    once, in order. -/
def statedIds (r : ActionRecord) (kind : Text) : List Text :=
  let ids := r.entities.filter fun e => e.kind = kind ∧ fieldConfidence.value ≤ e.confidence.value
  ((ids.map (·.id)).insertionSort fun a b => a ≤ b).dedup

/-- The first kind that the record states a reference of decides. -/
def ReferenceSubjects.tryKinds (R : ReferenceSubjects) (r : ActionRecord) : List Text → Resolution
  | [] =>
    let kinds := String.intercalate ", " (R.kinds.map String.ofList)
    .refused ("record states no reference of a kind this store keys erasure on " ++
      s!"({kinds}), so its body would be sealed under a key no erasure request could reach")
  | kind :: kinds => match statedIds r kind with
    | [] => R.tryKinds r kinds
    | [id] => match R.derive (kind ++ ':' :: id) with
      | .ok (hash, canonVer) => .resolved [⟨hash, .principal, canonVer⟩]
      | .error e => .refused
          s!"reference `{String.ofList kind}:{String.ofList id}` has no pseudonym: {e}"
    | ids => .refused (s!"record states {ids.length} `{String.ofList kind}` references of equal " ++
        "standing; a subject-derived record names one erasure unit, and there is no rule here " ++
        "to choose between them")

def ReferenceSubjects.resolve (R : ReferenceSubjects) (r : ActionRecord) : Resolution :=
  if r.dataClass = .internal then .resolved [] else R.tryKinds r R.kinds

/-! ## A deployment -/

section
open Crypto

/-- Stand-ins for the primitives, each of the right shape. -/
def plainCiphers : Ciphers where
  sha256 b := b
  hkdf _ _ _ := someKey
  gcm _ _ _ p := p
  keyWrap _ b := b

def plainDraws : Draws where
  root := someKey
  pad _ := someKey
  nonce := ⟨List.replicate 12 0, length_zeroNonce⟩
  fresh _ := someKey

/-- A result computed to a value is that value. -/
theorem ok_of_toOption {ε α : Type} {x : Except ε α} {a : α} (h : x.toOption = some a) :
    x = .ok a := by
  cases x with
  | error e => cases h
  | ok b => exact congrArg Except.ok (Option.some.inj h)

theorem ne_ok_of_toOption {ε α : Type} {x : Except ε α} (h : x.toOption = none) (a : α) :
    x ≠ .ok a := by
  rintro rfl
  cases h

/-- A deployment without entity kinds, attributes or redaction patterns. -/
def deployment (resolver : ActionRecord → Resolution) : Pipeline where
  root := ["memory".toList]
  registry := ⟨⟨id, id⟩, []⟩
  attrs := ⟨[]⟩
  redaction := ⟨"none".toList, fun _ => none⟩
  subjectWrites := .enabled
  resolver
  keyWrapper := ⟨.ok, .ok⟩
  ciphers := plainCiphers
  yaml := Md.reader
  tombstoneLine := tombstoneCodec
  holdLine := holdCodec
  manifestJson _ := .error "no manifest"

/-- A ULID that ends in a letter. -/
def ulid (c : Char) (h : isCrockfordDigit c = true) : RecordId :=
  ⟨List.replicate 25 '0' ++ [c], by
    simp only [isRecordId, List.length_append, List.length_replicate, List.length_singleton,
      List.all_append, List.all_replicate, List.all_cons, List.all_nil, h]
    decide⟩

/-- Surroundings in which every file operation on keys succeeds. -/
def quietEnv (now : ℤ) : Env := ⟨now, fun _ _ => none, plainDraws, plainDraws, ulid 'Z' (by decide)⟩

/-- A store with nothing in it. -/
def emptyStore : Store := ⟨∅, ∅, ∅, ∅, ∅, ∅, ∅, none, none, ∅, .empty⟩

/-- An internal record without attributes, entities or subjects. -/
def plainRecord (id : RecordId) (t : Text) : ActionRecord where
  recordId := id
  schemaVer := 1
  at_ := t
  receivedAt := t
  backfilled := false
  agent := "agent".toList
  agentVer := none
  correlationId := none
  action := "note".toList
  outcome := .success
  attrs := .empty
  entities := []
  subjects := []
  visibility := .org
  team := none
  dataClass := .internal
  redactionPolicy := "none".toList
  fieldsMasked := []
  tags := []
  summary := []

/-- A record of one subject. -/
def subjectRecord (id : RecordId) (t : Text) (s : SubjectHash) : ActionRecord :=
  { plainRecord id t with subjects := [⟨s, .principal, 1⟩], dataClass := .subjectDerived }

end

end Yaam.Core
