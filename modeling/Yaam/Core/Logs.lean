/-
  The two logs across crashes.

  * `LogAppend` is one append to either log, `logRun` the store after a run of them;
  * `acknowledged_entries_survive`: in every run whose torn writes end between
    characters and whose acknowledged appends start at a line start, both logs are
    read, with every acknowledged entry.
-/
import Yaam.Core.Resolve
import Yaam.Core.Reindex

namespace Yaam.Core

open Text Contract Eff

/-! ## Runs of appends -/

/-- One append to either log: acknowledged, or cut short by a crash. -/
inductive LogAppend where
  | tombstone (ev : LineLog.Event Tombstone)
  | hold (ev : LineLog.Event HoldLine)

section
variable (P : Pipeline)

/-- The store after one append.  A crash leaves the first bytes of the line. -/
def logAppend (σ : Store) : LogAppend → Store
  | .tombstone (.ok e) => (appendTombstone P e σ).2
  | .tombstone (.torn e k) =>
    { σ with tombstoneLog := LineLog.appendTorn P.tombstoneLine σ.tombstoneLog e k }
  | .hold (.ok l) => (appendHold P l σ).2
  | .hold (.torn l k) => { σ with holdLog := LineLog.appendTorn P.holdLine σ.holdLog l k }

/-- The store after a run of appends. -/
def logRun : Store → List LogAppend → Store
  | σ, [] => σ
  | σ, ev :: evs => logRun (logAppend P σ ev) evs

end

def tombstoneAppends : List LogAppend → List (LineLog.Event Tombstone)
  | [] => []
  | .tombstone ev :: evs => ev :: tombstoneAppends evs
  | .hold _ :: evs => tombstoneAppends evs

def holdAppends : List LogAppend → List (LineLog.Event HoldLine)
  | [] => []
  | .tombstone _ :: evs => holdAppends evs
  | .hold ev :: evs => ev :: holdAppends evs

variable {P : Pipeline}

theorem logRun_tombstoneLog (σ : Store) (evs : List LogAppend) :
    (logRun P σ evs).tombstoneLog =
      LineLog.replay P.tombstoneLine σ.tombstoneLog (tombstoneAppends evs) := by
  induction evs generalizing σ with
  | nil => rfl
  | cons ev evs ih =>
    rw [logRun, ih]
    rcases ev with (e | ⟨e, k⟩) | (l | ⟨l, k⟩) <;> rfl

theorem logRun_holdLog (σ : Store) (evs : List LogAppend) :
    (logRun P σ evs).holdLog = LineLog.replay P.holdLine σ.holdLog (holdAppends evs) := by
  induction evs generalizing σ with
  | nil => rfl
  | cons ev evs ih =>
    rw [logRun, ih]
    rcases ev with (e | ⟨e, k⟩) | (l | ⟨l, k⟩) <;> rfl

/-! ## What is read of a line -/

/-- What the hold log says includes this line. -/
def HoldState.Says (h : HoldState) (l : HoldLine) : Prop :=
  match l.event with
  | .placed => ∃ k, h.placed.lookup l.id = some k ∧ l.Places k
  | .released => h.isReleased l.id = true

/-- Lines a store writes to its hold log: each names a subject, and no two place a hold
    under one identifier. -/
structure HoldLines (ls : List HoldLine) : Prop where
  named : ∀ l ∈ ls, l.Named
  oneEach : ∀ l ∈ ls, ∀ m ∈ ls, l.event = .placed → m.event = .placed → m.id = l.id → m = l

/-- Every line read is what the state says. -/
theorem foldlM_line_says {ls as : List HoldLine} (has : HoldLines as) (hsub : ∀ l ∈ ls, l ∈ as) :
    ∃ h, ls.foldlM HoldState.line HoldState.empty = .ok h ∧ ∀ l ∈ ls, h.Says l := by
  obtain ⟨h, hh⟩ := foldlM_line_ok (fun l hl => has.named l (hsub l hl)) HoldState.empty
  refine ⟨h, hh, fun l hl => ?_⟩
  unfold HoldState.Says
  split
  · rename_i he
    exact foldlM_line_placed hh hl he fun m hm hem hid =>
      has.oneEach l (hsub l hl) m (hsub m hm) he hem hid
  · rename_i he
    exact (foldlM_line_released hh l.id).2 (.inr ⟨l, hl, he, rfl⟩)

/-- **In every run of appends whose torn writes end between characters and whose
    acknowledged appends start at a line start**, both logs are read, the erasure log
    with every acknowledged entry and the hold log with what every acknowledged line
    says. -/
theorem acknowledged_entries_survive (P : Pipeline) (hT : P.tombstoneLine.Lawful)
    (hH : P.holdLine.Lawful) (hG : P.holdLine.NoGlue) (σ : Store)
    (ht : σ.tombstoneLog = none) (hh : σ.holdLog = none) (evs : List LogAppend)
    (hts : LineLog.HarmlessRun P.tombstoneLine none (tombstoneAppends evs))
    (hhs : LineLog.HarmlessRun P.holdLine none (holdAppends evs))
    (hlines : HoldLines (LineLog.attempted (holdAppends evs))) :
    (∃ es, readLog P (logRun P σ evs) = (.ok es, logRun P σ evs) ∧
      ∀ e ∈ LineLog.acknowledged (tombstoneAppends evs), e ∈ es) ∧
    ∃ h, readHolds P (logRun P σ evs) = (.ok h, logRun P σ evs) ∧
      ∀ l ∈ LineLog.acknowledged (holdAppends evs), h.Says l := by
  constructor
  · have hkeeps : LineLog.Keeps P.tombstoneLine none [] :=
      ⟨[], [], rfl, .inl rfl, nofun⟩
    obtain ⟨es, hes, hmem⟩ := LineLog.survives hT hkeeps hts
    refine ⟨es, ?_, fun e he => hmem e (by simpa using he)⟩
    rw [readLog, state_bind, logRun_tombstoneLog, ht, hes]
    rfl
  · have hkeeps : LineLog.Keeps P.holdLine none [] := ⟨[], [], rfl, .inl rfl, nofun⟩
    have hmade : LineLog.MadeOf P.holdLine none [] := ⟨[], [], rfl, .inl rfl, nofun, nofun⟩
    obtain ⟨ls, hls, hmem⟩ := LineLog.survives hH hkeeps hhs
    have hsub : ∀ l ∈ ls, l ∈ LineLog.attempted (holdAppends evs) := fun l hl => by
      simpa using LineLog.mem_attempted hH hG hmade hhs hls hl
    obtain ⟨h, hread, hsays⟩ := foldlM_line_says hlines hsub
    refine ⟨h, ?_, fun l hl => hsays l (hmem l (by simpa using hl))⟩
    rw [readHolds, state_bind, logRun_holdLog, hh, hls]
    show ofExcept (ls.foldlM HoldState.line HoldState.empty) (logRun P σ evs) = _
    rw [hread]
    rfl

/-! ## Two runs -/

section

/-- An erasure of the subject, with nothing found. -/
def someTombstone (c : Text) : Tombstone :=
  ⟨tombPrefix ++ c, Crypto.someSubject.text, 0, false, []⟩

/-- A hold over the subject. -/
def someHold : Hold :=
  ⟨holdPrefix ++ "A".toList, Crypto.someSubject, 0, "order".toList, "op".toList, []⟩

theorem harmless_ok_none {α : Type} (C : LineCodec α) (a : α) :
    LineLog.Harmless C none (.ok a) := ⟨[], rfl, .inl rfl⟩

/-- An erasure, then a hold placed. -/
theorem acknowledged_entries_survive_two :
    ∃ es h, readLog (deployment declaredSubjects)
        (logRun (deployment declaredSubjects) emptyStore
          [.tombstone (.ok (someTombstone [])), .hold (.ok (placement someHold))]) =
        (.ok es, logRun (deployment declaredSubjects) emptyStore
          [.tombstone (.ok (someTombstone [])), .hold (.ok (placement someHold))]) ∧
      someTombstone [] ∈ es ∧ HoldState.Says h (placement someHold) := by
  obtain ⟨⟨es, hread, hes⟩, h, -, hh⟩ := acknowledged_entries_survive (deployment declaredSubjects)
    tombstoneCodec_lawful holdCodec_lawful holdCodec_noGlue emptyStore rfl rfl
    [.tombstone (.ok (someTombstone [])), .hold (.ok (placement someHold))]
    ⟨harmless_ok_none _ _, trivial⟩ ⟨harmless_ok_none _ _, trivial⟩
    ⟨fun l hl => by
      rw [List.mem_singleton.1 hl]
      exact ⟨Crypto.someSubject, rfl⟩,
    fun l hl m hm _ _ _ => by
      rw [List.mem_singleton.1 hl, List.mem_singleton.1 hm]⟩
  exact ⟨es, h, hread, hes _ (by simp [LineLog.acknowledged, tombstoneAppends]),
    hh _ (by simp [LineLog.acknowledged, holdAppends])⟩

set_option maxRecDepth 10000 in
/-- An append after one cut short behind its first byte is glued to what that left, and
    its entry is not read. -/
theorem torn_line_swallows_next : ¬ ∀ (P : Pipeline), P.tombstoneLine.Lawful → P.holdLine.Lawful →
    P.holdLine.NoGlue → ∀ (σ : Store) (evs : List LogAppend), σ.tombstoneLog = none →
      σ.holdLog = none → HoldLines (LineLog.attempted (holdAppends evs)) →
      ∃ es, readLog P (logRun P σ evs) = (.ok es, logRun P σ evs) ∧
        ∀ e ∈ LineLog.acknowledged (tombstoneAppends evs), e ∈ es := by
  intro h
  obtain ⟨es, hes, hmem⟩ := h (deployment declaredSubjects) tombstoneCodec_lawful holdCodec_lawful
    holdCodec_noGlue emptyStore
    [.tombstone (.torn (someTombstone []) 1), .tombstone (.ok (someTombstone []))] rfl rfl
    ⟨nofun, nofun⟩
  have hread : (readLog (deployment declaredSubjects) (logRun (deployment declaredSubjects) emptyStore
      [.tombstone (.torn (someTombstone []) 1),
        .tombstone (.ok (someTombstone []))])).1.toOption = some [] := by
    decide +kernel
  rw [hes] at hread
  obtain rfl : es = [] := Option.some.inj hread
  exact absurd (hmem (someTombstone []) (by simp [LineLog.acknowledged, tombstoneAppends])) (by simp)

end

end Yaam.Core
