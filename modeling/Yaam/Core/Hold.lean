/-
  Legal holds: an append-only log of holds placed and released over subjects
  (`yaam-core`, `hold.rs`).

  * `place`, `placeOverRecord` and `release` append to the log;
  * `standing` is the holds in force, `refuseIfHeld` the refusal a destruction asks
    for;
  * `foldlM_line_released` and `foldlM_line_placed`: what the log says, line by line.
-/
import Yaam.Core.Erase

namespace Yaam.Core

open Text Contract Md Eff

def holdPrefix : Text := "hold-".toList

/-- What the log says: the holds placed, and the identifiers released with when. -/
structure HoldState where
  placed : List (Text × Hold)
  released : List (Text × ℤ)

def HoldState.empty : HoldState := ⟨[], []⟩

/-- The log with one more line read. -/
def HoldState.line (h : HoldState) (l : HoldLine) : Except Error HoldState :=
  match l.event with
  | .placed => do
    let subject ← liftContract (SubjectHash.parse l.subject)
    let hold : Hold := ⟨l.id, subject, l.atMs, l.reason, l.operator, l.records⟩
    .ok { h with placed := upsert (·.1) (fun _ new => new) (l.id, hold) h.placed }
  | .released => .ok { h with released := upsert (·.1) (fun _ new => new) (l.id, l.atMs) h.released }

def HoldState.isReleased (h : HoldState) (id : Text) : Bool := h.released.any fun r => r.1 = id

section
variable (P : Pipeline)

/-- The hold log, split into what was placed and what was released. -/
def readHolds : StoreM HoldState := do
  match LineLog.entries P.holdLine (← state).holdLog with
  | .error e => fail (.io e)
  | .ok ls => ofExcept (ls.foldlM HoldState.line HoldState.empty)

/-- Appends one line to the hold log. -/
def appendHold (l : HoldLine) : StoreM Unit :=
  change fun s => { s with holdLog := LineLog.append P.holdLine s.holdLog l }

/-- A field refused empty, with the sentence saying what is missing. -/
def stated (value : Text) (missing : String) : Except Error Text :=
  if trim value = [] then .error (invalid missing) else .ok (trim value)

/-- The log line that places a hold. -/
def placement (h : Hold) : HoldLine :=
  ⟨h.id, .placed, h.subject.text, h.atMs, h.reason, h.operator, h.records⟩

/-- Places a hold over one subject's keys, under the ULID given. -/
def placeHold (now : ℤ) (ulid : RecordId) (s : SubjectHash) (reason operator : Text)
    (records : List RecordId) : StoreM Hold := do
  let reason ← ofExcept (stated reason
    "a hold has to say why: a hold nobody can account for is a hold nobody dares lift")
  let operator ← ofExcept (stated operator "a hold has to name who placed it")
  let hold : Hold := ⟨holdPrefix ++ ulid.text, s, now, reason, operator, records.map (·.text)⟩
  appendHold P (placement hold)
  return hold

/-- The subjects a record names, each once, in order. -/
def namedSubjects (r : ActionRecord) : List SubjectHash :=
  ((r.subjects.map (·.hash)).insertionSort fun a b => a.text ≤ b.text).dedup

/-- Places one hold for each subject, under the ULIDs given. -/
def placeEach (now : ℤ) (ulids : ℕ → RecordId) (reason operator : Text) (record : RecordId) :
    ℕ → List SubjectHash → StoreM (List Hold)
  | _, [] => return []
  | i, s :: ss => do
    let hold ← placeHold P now (ulids i) s reason operator [record]
    let holds ← placeEach now ulids reason operator record (i + 1) ss
    return hold :: holds

/-- Places a hold over every subject one record names. -/
def placeOverRecord (now : ℤ) (ulids : ℕ → RecordId) (record : RecordId) (reason operator : Text) :
    StoreM (List Hold) := do
  match (locateRecords (← state).records).lookup record.text with
  | none => fail (invalid (s!"no record `{String.ofList record.text}` is in this tree, so nothing " ++
      "can be read out of it to hold"))
  | some path => do
    let text ← readFile Store.records path
    let d ← liftMd (Document.parse P.yaml text)
    let subjects := namedSubjects d.record
    if subjects = [] then
      fail (invalid (s!"record `{String.ofList record.text}` names no subject, so no key gates " ++
        "its body and no hold here would preserve anything"))
    else placeEach P now ulids reason operator record 0 subjects

/-- Lifts one hold, by its identifier. -/
def releaseHold (now : ℤ) (id reason operator : Text) : StoreM Hold := do
  let reason ← ofExcept (stated reason
    ("a release has to say why: the log is what an auditor reads to see who lifted an " ++
      "obligation, and on what grounds"))
  let operator ← ofExcept (stated operator "a release has to name who lifted it")
  let holds ← readHolds P
  match holds.placed.lookup id with
  | none => fail (invalid (s!"no hold `{String.ofList id}` is on record, so nothing here is " ++
      "holding anything"))
  | some hold =>
    if holds.isReleased id then
      fail (invalid (s!"hold `{String.ofList id}` was already released, and releasing it again " ++
        "would attribute a lift to somebody who lifted nothing"))
    else do
      appendHold P ⟨hold.id, .released, hold.subject.text, now, reason, operator, []⟩
      return hold

/-- Every hold standing over anything, oldest first. -/
def standing : StoreM (List Hold) := do
  let holds ← readHolds P
  let inForce := (holds.placed.map (·.2)).filter fun h => holds.isReleased h.id = false
  return inForce.insertionSort fun a b => a.atMs < b.atMs ∨ a.atMs = b.atMs ∧ a.id ≤ b.id

/-- The holds standing over one subject, oldest first. -/
def standingFor (s : SubjectHash) : StoreM (List Hold) := do
  return (← standing P).filter fun h => h.subject = s

/-- Refuses a destruction while anything holds the subject. -/
def refuseIfHeld (s : SubjectHash) : StoreM Unit := do
  let holds ← standingFor P s
  if holds = [] then return () else fail (.held s holds)

end

/-! ## What the log says -/

/-- A line that names a subject by its pseudonym. -/
def HoldLine.Named (l : HoldLine) : Prop := ∃ s : SubjectHash, s.text = l.subject

/-- A line places a hold. -/
def HoldLine.Places (l : HoldLine) (h : Hold) : Prop := l = placement h

theorem HoldLine.Places.unique {l : HoldLine} {h k : Hold} (hl : l.Places h) (hk : l.Places k) :
    h = k := by
  obtain ⟨i, s, t, r, o, rs⟩ := h
  obtain ⟨i', s', t', r', o', rs'⟩ := k
  have heq : placement ⟨i, s, t, r, o, rs⟩ = placement ⟨i', s', t', r', o', rs'⟩ := hl.symm.trans hk
  simp only [placement, HoldLine.mk.injEq] at heq
  obtain ⟨rfl, -, hs, rfl, rfl, rfl, rfl⟩ := heq
  obtain rfl : s = s' := by
    cases s
    cases s'
    simpa using hs
  rfl

theorem HoldState.line_placed {h : HoldState} {l : HoldLine} {k : Hold} (hl : l.Places k) :
    h.line l = .ok { h with placed := upsert (·.1) (fun _ new => new) (l.id, k) h.placed } := by
  obtain rfl := hl
  simp [HoldState.line, placement, liftContract, Except.mapError, bind, Except.bind]

theorem HoldState.line_released {h : HoldState} {l : HoldLine} (hl : l.event = .released) :
    h.line l =
      .ok { h with released := upsert (·.1) (fun _ new => new) (l.id, l.atMs) h.released } := by
  simp [HoldState.line, hl]

/-- A line of the log is a release, or the placement of a hold, or not read. -/
theorem HoldState.line_cases {h h' : HoldState} {l : HoldLine} (hl : h.line l = .ok h') :
    l.event = .released ∨ ∃ k, l.Places k := by
  cases he : l.event with
  | released => exact .inl rfl
  | placed =>
    simp only [HoldState.line, he] at hl
    obtain ⟨s, hs, -⟩ := Contract.bind_ok.1 hl
    have hs' : SubjectHash.parse l.subject = .ok s := by
      cases hp : SubjectHash.parse l.subject with
      | error e =>
        rw [hp] at hs
        cases hs
      | ok s' =>
        rw [hp] at hs
        rw [show s' = s from Except.ok.inj hs]
    refine .inr ⟨⟨l.id, s, l.atMs, l.reason, l.operator, l.records⟩, ?_⟩
    simp only [HoldLine.Places, placement, SubjectHash.parse_ok hs', ← he]

/-- Named lines are read. -/
theorem foldlM_line_ok {ls : List HoldLine} (h : ∀ l ∈ ls, l.Named) (h₀ : HoldState) :
    ∃ h', ls.foldlM HoldState.line h₀ = .ok h' := by
  induction ls generalizing h₀ with
  | nil => exact ⟨h₀, rfl⟩
  | cons l ls ih =>
    have hline : ∃ h₁, h₀.line l = .ok h₁ := by
      cases he : l.event with
      | released => exact ⟨_, HoldState.line_released he⟩
      | placed =>
        obtain ⟨s, hs⟩ := h l (by simp)
        have hl : l.Places ⟨l.id, s, l.atMs, l.reason, l.operator, l.records⟩ := by
          simp only [HoldLine.Places, placement, hs, ← he]
        exact ⟨_, HoldState.line_placed hl⟩
    obtain ⟨h₁, h1⟩ := hline
    obtain ⟨h', h2⟩ := ih (fun k hk => h k (by simp [hk])) h₁
    refine ⟨h', ?_⟩
    rw [List.foldlM_cons, h1]
    exact h2

theorem isReleased_upsert (h : HoldState) (i : Text) (t : ℤ) (id : Text) :
    HoldState.isReleased { h with released := upsert (·.1) (fun _ new => new) (i, t) h.released } id =
      true ↔ id = i ∨ h.isReleased id = true := by
  have hkey : (∃ y ∈ upsert (·.1) (fun _ new => new) (i, t) h.released, y.1 = id) ↔
      id = i ∨ ∃ y ∈ h.released, y.1 = id := exists_key_upsert (fun y hy => hy.symm) id
  simpa [HoldState.isReleased] using hkey

/-- **An identifier is released when a line releases it.** -/
theorem foldlM_line_released {ls : List HoldLine} {h₀ h' : HoldState}
    (h : ls.foldlM HoldState.line h₀ = .ok h') (id : Text) :
    h'.isReleased id = true ↔
      h₀.isReleased id = true ∨ ∃ l ∈ ls, l.event = .released ∧ l.id = id := by
  induction ls generalizing h₀ with
  | nil =>
    obtain rfl : h₀ = h' := Except.ok.inj h
    simp
  | cons l ls ih =>
    rw [List.foldlM_cons] at h
    obtain ⟨h₁, h1, h2⟩ := Contract.bind_ok.1 h
    rw [ih h2]
    rcases HoldState.line_cases h1 with he | ⟨k, hk⟩
    · rw [HoldState.line_released he] at h1
      rw [← Except.ok.inj h1, isReleased_upsert]
      simp only [List.exists_mem_cons_iff, he, true_and, eq_comm]
      tauto
    · have he : l.event ≠ .released := by
        obtain rfl := hk
        nofun
      rw [HoldState.line_placed hk] at h1
      rw [← Except.ok.inj h1]
      simp only [List.exists_mem_cons_iff, he, false_and, false_or]
      rfl

/-- An identifier whose lines all place one hold keeps it. -/
theorem foldlM_line_keeps {ls : List HoldLine} {h₀ h' : HoldState} {id : Text} {k : Hold}
    (h : ls.foldlM HoldState.line h₀ = .ok h')
    (hls : ∀ l ∈ ls, l.event = .placed → l.id = id → l.Places k)
    (h₀k : h₀.placed.lookup id = some k) : h'.placed.lookup id = some k := by
  induction ls generalizing h₀ with
  | nil =>
    obtain rfl : h₀ = h' := Except.ok.inj h
    exact h₀k
  | cons l ls ih =>
    rw [List.foldlM_cons] at h
    obtain ⟨h₁, h1, h2⟩ := Contract.bind_ok.1 h
    refine ih h2 (fun m hm => hls m (by simp [hm])) ?_
    rcases HoldState.line_cases h1 with he | ⟨j, hj⟩
    · rw [HoldState.line_released he] at h1
      rw [← Except.ok.inj h1]
      exact h₀k
    · rw [HoldState.line_placed hj] at h1
      rw [← Except.ok.inj h1]
      show List.lookup id (upsert _ _ _ _) = _
      rw [lookup_upsert]
      split_ifs with hid
      · have he : l.event = .placed := by
          obtain rfl := hj
          rfl
        rw [(hls l (by simp) he hid.symm).unique hj]
      · exact h₀k

/-- **A hold placed by a line of the log is what its identifier stands for**, when no
    other line places another under it. -/
theorem foldlM_line_placed {ls : List HoldLine} {h₀ h' : HoldState} {l : HoldLine}
    (h : ls.foldlM HoldState.line h₀ = .ok h') (hl : l ∈ ls) (he : l.event = .placed)
    (hls : ∀ m ∈ ls, m.event = .placed → m.id = l.id → m = l) :
    ∃ k, h'.placed.lookup l.id = some k ∧ l.Places k := by
  induction ls generalizing h₀ with
  | nil => cases hl
  | cons m ls ih =>
    rw [List.foldlM_cons] at h
    obtain ⟨h₁, h1, h2⟩ := Contract.bind_ok.1 h
    rcases List.mem_cons.1 hl with rfl | hl
    · rcases HoldState.line_cases h1 with he' | ⟨k, hk⟩
      · rw [he] at he'
        cases he'
      · refine ⟨k, foldlM_line_keeps h2 (fun m hm hem hid => ?_) ?_, hk⟩
        · rw [hls m (by simp [hm]) hem hid]
          exact hk
        · rw [HoldState.line_placed hk] at h1
          rw [← Except.ok.inj h1]
          show List.lookup l.id (upsert _ _ _ _) = _
          rw [lookup_upsert, if_pos rfl]
    · exact ih h2 hl fun m hm => hls m (by simp [hm])

end Yaam.Core
