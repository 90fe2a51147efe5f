/-
  What an erasure would reach (`yaam-core`, `erase.rs`), and what it reaches.

  * `Erase.preview` counts what an erasure would destroy;
  * `foldlM_countP`: a loop that counts what it changes counts what it found;
  * `previewRecords_eq`, `dropBodies_eq`, `sweepQuarantine_eq`: the preview and the erasure
    count the same files;
  * `preview_is_truthful`: what the preview says of the erasure that follows it, and of the
    store that erasure leaves.
-/
import Yaam.Core.Lasting

namespace Yaam.Core

open Text Contract Crypto Md Eff

/-! ## The preview -/

/-- What an erasure would reach, without reaching it. -/
structure ErasePreview where
  /-- Live records naming this subject. -/
  records : ℕ
  /-- Of those, the ones whose bodies are still readable and would stop being. -/
  bodiesReadable : ℕ
  /-- Keys that would be destroyed, across all epochs. -/
  keys : ℕ
  /-- Records held in quarantine for this subject, which the erasure settles. -/
  quarantined : ℕ
  alreadyTombstoned : Bool
  /-- Legal holds standing over this subject, which refuse the erasure outright. -/
  holds : List Hold

section
variable (P : Pipeline) (env : Env)

/-- Counts one live record, and its body if that is still readable. -/
def previewRecord (s : SubjectHash) (n : ℕ × ℕ) (p : Path) : StoreM (ℕ × ℕ) := do
  let text ← readFile Store.records p
  match Document.parse P.yaml text with
  | .error _ => return n
  | .ok d =>
    if ¬ d.record.names s then return n
    else if isPlain d then return (n.1 + 1, n.2)
    else return (n.1 + 1, n.2 + 1)

/-- Counts one record held back. -/
def previewHeld (s : SubjectHash) (n : ℕ) (p : Path) : StoreM ℕ := do
  let text ← readFile Store.quarantine p
  match Document.parse P.yaml text with
  | .error _ => return n
  | .ok d => if d.record.names s then return n + 1 else return n

/-- Counts what an erasure of a subject would destroy. -/
def Erase.preview (s : SubjectHash) : StoreM ErasePreview := do
  let live := (← state).records.walkFiles recordExt
  let counts ← live.foldlM (previewRecord P s) (0, 0)
  let spool := (← state).quarantine.walkFiles recordExt
  let quarantined ← spool.foldlM (previewHeld P s) 0
  let keys := keyFilesFor (← state).keys s
  let alreadyTombstoned ← keyed (isTombstoned s)
  let holds ← standingFor P s
  return ⟨counts.1, counts.2, keys, quarantined, alreadyTombstoned, holds⟩

/-! ## What it counts -/

/-- The file reads as a record that names the subject, and as this test asks. -/
def readsAs (s : SubjectHash) (test : Document → Bool) (t : Tree) (p : Path) : Bool :=
  match t.readToString p with
  | .error _ => false
  | .ok text =>
    match Document.parse P.yaml text with
    | .error _ => false
    | .ok d => decide (d.record.names s) && test d

end

/-- **A loop that counts what it changes counts what it found**, when a step changes nothing
    that a later one counts. -/
theorem foldlM_countP {σ ε α β : Type} {f : β → α → Eff σ ε β} (μ : β → ℕ) (hit : σ → α → Bool)
    (I : α → Prop) (hstep : ∀ b x s c s', I x → f b x s = (.ok c, s') →
      μ c = μ b + (hit s x).toNat ∧ ∀ y, I y → y ≠ x → hit s' y = hit s y)
    {xs : List α} (hnodup : xs.Nodup) (hI : ∀ x ∈ xs, I x) {b c : β} {s s' : σ}
    (h : xs.foldlM f b s = (.ok c, s')) : μ c = μ b + xs.countP (hit s) := by
  induction xs generalizing b s with
  | nil =>
    obtain ⟨rfl, -⟩ := pure_eq_ok.1 h
    simp
  | cons x xs ih =>
    rw [List.foldlM_cons] at h
    obtain ⟨b₁, s₁, hx, hxs⟩ := bind_eq_ok.1 h
    obtain ⟨hμ, hsame⟩ := hstep b x s b₁ s₁ (hI x List.mem_cons_self) hx
    obtain ⟨hnotin, hnodup⟩ := List.nodup_cons.1 hnodup
    have hrest : xs.countP (hit s₁) = xs.countP (hit s) := by
      refine List.countP_congr fun y hy => ?_
      rw [hsame y (hI y (List.mem_cons_of_mem _ hy)) (ne_of_mem_of_not_mem hy hnotin)]
    rw [ih hnodup (fun y hy => hI y (List.mem_cons_of_mem _ hy)) hxs, hμ, hrest, List.countP_cons]
    cases hit s x
    · simp
    · simp
      omega

section
variable {P : Pipeline} {env : Env} {s : SubjectHash} {σ σ' : Store} {p : Path} {u : Unit}

/-- Whether a record's body is still readable. -/
def isSealed (d : Document) : Bool := !isPlain d

theorem readsAs_congr {t t' : Tree} {test : Document → Bool} (h : t.lookup p = t'.lookup p) :
    readsAs P s test t p = readsAs P s test t' p := by
  rw [readsAs, readsAs, Tree.readToString_congr h]

/-- What reading one file comes to, and what is counted then. -/
theorem readFile_bind_ok {β : Type} {dir : Store → Tree} {f : Text → StoreM β} {b : β}
    (h : (readFile dir p >>= f) σ = (.ok b, σ')) :
    ∃ text, (dir σ).readToString p = .ok text ∧ f text σ = (.ok b, σ') := by
  obtain ⟨text, σ₁, hread, hf⟩ := bind_eq_ok.1 h
  cases htext : (dir σ).readToString p with
  | error e =>
    rw [readFile, state_bind, htext] at hread
    exact absurd hread fail_ne_ok
  | ok text' =>
    rw [readFile_ok htext] at hread
    obtain ⟨h1, rfl⟩ := Prod.mk.inj hread
    obtain rfl := Except.ok.inj h1
    exact ⟨text', rfl, hf⟩

theorem previewRecord_eq {n m : ℕ × ℕ} (h : previewRecord P s n p σ = (.ok m, σ')) :
    σ' = σ ∧ m.1 = n.1 + (readsAs P s (fun _ => true) σ.records p).toNat ∧
      m.2 = n.2 + (readsAs P s isSealed σ.records p).toNat := by
  obtain ⟨text, htext, h⟩ := readFile_bind_ok h
  simp only [readsAs, htext]
  cases hparse : Document.parse P.yaml text with
  | error e =>
    simp only [hparse] at h
    obtain ⟨rfl, rfl⟩ := pure_eq_ok.1 h
    simp
  | ok d =>
    simp only [hparse] at h
    split_ifs at h with hnames hplain <;> obtain ⟨rfl, rfl⟩ := pure_eq_ok.1 h <;>
      simp_all [isSealed]

theorem previewHeld_eq {n m : ℕ} (h : previewHeld P s n p σ = (.ok m, σ')) :
    σ' = σ ∧ m = n + (readsAs P s (fun _ => true) σ.quarantine p).toNat := by
  obtain ⟨text, htext, h⟩ := readFile_bind_ok h
  simp only [readsAs, htext]
  cases hparse : Document.parse P.yaml text with
  | error e =>
    simp only [hparse] at h
    obtain ⟨rfl, rfl⟩ := pure_eq_ok.1 h
    simp
  | ok d =>
    simp only [hparse] at h
    split_ifs at h with hnames <;> obtain ⟨rfl, rfl⟩ := pure_eq_ok.1 h <;> simp_all

theorem dropBody_eq {n m : ℕ} (hp : extension p = some recordExt)
    (h : dropBody P env s n p σ = (.ok m, σ')) :
    m = n + (readsAs P s isSealed σ.records p).toNat ∧
      (∀ q, extension q = some recordExt → q ≠ p →
        readsAs P s isSealed σ'.records q = readsAs P s isSealed σ.records q) := by
  obtain ⟨text, htext, h⟩ := readFile_bind_ok h
  simp only [readsAs.eq_def P s isSealed σ.records p, htext]
  cases hparse : Document.parse P.yaml text with
  | error e =>
    simp only [hparse] at h
    obtain ⟨rfl, rfl⟩ := pure_eq_ok.1 h
    exact ⟨by simp, fun _ _ _ => rfl⟩
  | ok d =>
    simp only [hparse] at h
    split_ifs at h with hkeep
    · obtain ⟨rfl, rfl⟩ := pure_eq_ok.1 h
      refine ⟨?_, fun _ _ _ => rfl⟩
      rcases hkeep with hnames | hplain
      · simp [hnames]
      · simp [isSealed, hplain]
    · rw [change_bind] at h
      obtain ⟨rfl, rfl⟩ := pure_eq_ok.1 h
      obtain ⟨hnames, hplain⟩ := not_or.1 hkeep
      refine ⟨by simp [not_not.1 hnames, isSealed, hplain], fun q hq hne => readsAs_congr ?_⟩
      refine Tree.lookup_replaceAtomically_of_ne _ _ _ hne ?_
      rintro rfl
      rw [extension_temporary hp] at hq
      exact absurd (Option.some.inj hq) (by decide)

/-- What settling one copy comes to: it is left, and does not name the subject, or it is gone. -/
theorem settleHeld_cases {n m : ℕ} (h : settleHeld P env s n p σ = (.ok m, σ')) :
    m = n ∧ σ'.quarantine = σ.quarantine ∧
        readsAs P s (fun _ => true) σ.quarantine p = false ∨
      m = n + 1 ∧ σ'.quarantine = σ.quarantine.erase p ∧
        readsAs P s (fun _ => true) σ.quarantine p = true := by
  obtain ⟨text, htext, h⟩ := readFile_bind_ok h
  simp only [readsAs, htext]
  cases hparse : Document.parse P.yaml text with
  | error e =>
    simp only [hparse] at h
    obtain ⟨rfl, rfl⟩ := pure_eq_ok.1 h
    exact .inl ⟨rfl, rfl, rfl⟩
  | ok d =>
    simp only [hparse] at h
    split_ifs at h with hnames
    · obtain ⟨u, σ₁, hpublish, h⟩ := bind_eq_ok.1 h
      rw [change_bind] at h
      obtain ⟨rfl, rfl⟩ := pure_eq_ok.1 h
      obtain ⟨dest, -, -, -, hspool⟩ := publishStructureOnly_ok hpublish
      exact .inr ⟨rfl, by rw [← hspool], by simp [hnames]⟩
    · obtain ⟨rfl, rfl⟩ := pure_eq_ok.1 h
      exact .inl ⟨rfl, rfl, by simp [hnames]⟩

theorem settleHeld_eq {n m : ℕ} (h : settleHeld P env s n p σ = (.ok m, σ')) :
    m = n + (readsAs P s (fun _ => true) σ.quarantine p).toNat ∧
      (∀ q, q ≠ p → readsAs P s (fun _ => true) σ'.quarantine q =
        readsAs P s (fun _ => true) σ.quarantine q) := by
  rcases settleHeld_cases h with ⟨rfl, hspool, hread⟩ | ⟨rfl, hspool, hread⟩
  · exact ⟨by simp [hread], fun _ _ => by rw [hspool]⟩
  · refine ⟨by simp [hread], fun q hne => readsAs_congr ?_⟩
    rw [hspool]
    exact AList.lookup_erase_ne hne

/-- How many of the record files of a tree read so. -/
def countAs (P : Pipeline) (s : SubjectHash) (test : Document → Bool) (t : Tree) : ℕ :=
  (t.walkFiles recordExt).countP (readsAs P s test t)

theorem walkFiles_ext (t : Tree) : ∀ q ∈ t.walkFiles recordExt, extension q = some recordExt :=
  fun _ hq => (Tree.mem_walkFiles.1 hq).2

theorem dropBodies_eq {n : ℕ} (h : dropBodies P env s σ = (.ok n, σ')) :
    n = countAs P s isSealed σ.records := by
  rw [dropBodies, state_bind] at h
  have hcount := foldlM_countP (fun n : ℕ => n)
    (fun (τ : Store) q => readsAs P s isSealed τ.records q)
    (fun q => extension q = some recordExt) (fun b x τ c τ' hx hf => dropBody_eq hx hf)
    (Tree.nodup_walkFiles _ _) (walkFiles_ext σ.records) h
  simpa [countAs] using hcount

theorem sweepQuarantine_eq {n : ℕ} (h : sweepQuarantine P env s σ = (.ok n, σ')) :
    n = countAs P s (fun _ => true) σ.quarantine := by
  rw [sweepQuarantine, state_bind] at h
  have hcount := foldlM_countP (fun n : ℕ => n)
    (fun (τ : Store) q => readsAs P s (fun _ => true) τ.quarantine q) (fun _ => True)
    (fun b x τ c τ' _ hf => ⟨(settleHeld_eq hf).1, fun q _ => (settleHeld_eq hf).2 q⟩)
    (Tree.nodup_walkFiles _ _) (fun _ _ => trivial) h
  simpa [countAs] using hcount

theorem previewRecords_keeps {I : Store → Prop} (n : ℕ × ℕ) (paths : List Path) :
    Keeps I (paths.foldlM (previewRecord P s) n) := by
  refine Keeps.foldlM (fun m q _ => (readFile_keeps _ _).bind fun text => ?_) n
  cases Document.parse P.yaml text with
  | error e => exact Keeps.pure _
  | ok d =>
    dsimp only
    split_ifs <;> exact Keeps.pure _

theorem previewHeld_keeps {I : Store → Prop} (n : ℕ) (paths : List Path) :
    Keeps I (paths.foldlM (previewHeld P s) n) := by
  refine Keeps.foldlM (fun m q _ => (readFile_keeps _ _).bind fun text => ?_) n
  cases Document.parse P.yaml text with
  | error e => exact Keeps.pure _
  | ok d =>
    dsimp only
    split_ifs <;> exact Keeps.pure _

theorem standingFor_keeps {I : Store → Prop} (s : SubjectHash) : Keeps I (standingFor P s) :=
  standing_keeps.bind fun _ => Keeps.pure _

/-- **What a preview counts.** -/
theorem erasePreview_eq {v : ErasePreview} (h : Erase.preview P s σ = (.ok v, σ')) :
    σ' = σ ∧ v.records = countAs P s (fun _ => true) σ.records ∧
      v.bodiesReadable = countAs P s isSealed σ.records ∧ v.keys = keyFilesFor σ.keys s ∧
      v.quarantined = countAs P s (fun _ => true) σ.quarantine ∧
      v.alreadyTombstoned = decide (tombstonePath s ∈ σ.keys) ∧
      standingFor P s σ = (.ok v.holds, σ) := by
  rw [Erase.preview, state_bind] at h
  obtain ⟨counts, σ₁, hlive, h1⟩ := bind_eq_ok.1 h
  obtain rfl : σ₁ = σ := (previewRecords_keeps (I := (· = σ)) _ _).apply rfl hlive
  rw [state_bind] at h1
  obtain ⟨held, σ₂, hspool, h2⟩ := bind_eq_ok.1 h1
  obtain rfl : σ₂ = σ₁ := (previewHeld_keeps (I := (· = σ₁)) _ _).apply rfl hspool
  rw [state_bind, bind_of_ok (keyed_isTombstoned s σ₂)] at h2
  obtain ⟨holds, σ₃, hholds, h3⟩ := bind_eq_ok.1 h2
  obtain rfl : σ₃ = σ₂ := (standingFor_keeps (I := (· = σ₂)) s).apply rfl hholds
  obtain ⟨rfl, rfl⟩ := pure_eq_ok.1 h3
  have hrecords := foldlM_countP Prod.fst
    (fun (τ : Store) q => readsAs P s (fun _ => true) τ.records q) (fun _ => True)
    (fun b x τ c τ' _ hf => by
      obtain ⟨rfl, hfst, -⟩ := previewRecord_eq hf
      exact ⟨hfst, fun _ _ _ => rfl⟩) (Tree.nodup_walkFiles _ _) (fun _ _ => trivial) hlive
  have hbodies := foldlM_countP Prod.snd
    (fun (τ : Store) q => readsAs P s isSealed τ.records q) (fun _ => True)
    (fun b x τ c τ' _ hf => by
      obtain ⟨rfl, -, hsnd⟩ := previewRecord_eq hf
      exact ⟨hsnd, fun _ _ _ => rfl⟩) (Tree.nodup_walkFiles _ _) (fun _ _ => trivial) hlive
  have hheld := foldlM_countP (fun n : ℕ => n)
    (fun (τ : Store) q => readsAs P s (fun _ => true) τ.quarantine q) (fun _ => True)
    (fun b x τ c τ' _ hf => by
      obtain ⟨rfl, hn⟩ := previewHeld_eq hf
      exact ⟨hn, fun _ _ _ => rfl⟩) (Tree.nodup_walkFiles _ _) (fun _ _ => trivial) hspool
  exact ⟨rfl, by simpa [countAs] using hrecords, by simpa [countAs] using hbodies, rfl,
    by simpa [countAs] using hheld, rfl, hholds⟩

/-! ## What an erasure leaves -/

theorem forM_verifyFile_ok {paths : List Path} (h : paths.forM (verifyFile P s) σ = (.ok u, σ')) :
    ∀ q ∈ paths, readsAs P s isSealed σ.records q = false := by
  induction paths with
  | nil => exact fun _ hq => absurd hq List.not_mem_nil
  | cons q qs ih =>
    obtain ⟨u, σ₁, hq, hqs⟩ := bind_eq_ok.1 h
    obtain ⟨text, htext, hq⟩ := readFile_bind_ok hq
    have hone : readsAs P s isSealed σ.records q = false ∧ σ₁ = σ := by
      simp only [readsAs, htext]
      cases hparse : Document.parse P.yaml text with
      | error e =>
        simp only [hparse] at hq
        exact ⟨rfl, (pure_eq_ok.1 hq).2.symm⟩
      | ok d =>
        simp only [hparse] at hq
        split_ifs at hq with hbad
        · exact absurd hq fail_ne_ok
        · refine ⟨?_, (pure_eq_ok.1 hq).2.symm⟩
          rcases hplain : isPlain d with - | -
          · have hnames : ¬ d.record.names s := fun hn => hbad ⟨hn, hplain⟩
            simp [hnames]
          · simp [isSealed, hplain]
    obtain ⟨hread, rfl⟩ := hone
    intro x hx
    rcases List.mem_cons.1 hx with rfl | hx
    · exact hread
    · exact ih hqs x hx

/-- What a verified erasure has left. -/
theorem verifyLive_ok (h : verifyLive P s σ = (.ok u, σ')) :
    tombstonePath s ∈ σ.keys ∧ keyFilesFor σ.keys s = 0 ∧ countAs P s isSealed σ.records = 0 := by
  rw [verifyLive, bind_of_ok (keyed_isTombstoned s σ)] at h
  split_ifs at h with hmark
  · exact absurd h fail_ne_ok
  rw [state_bind] at h
  split_ifs at h with hkeys
  · exact absurd h fail_ne_ok
  rw [state_bind] at h
  exact ⟨by simpa using hmark, by omega, List.countP_eq_zero.2 fun q hq =>
    Bool.eq_false_iff.1 (forM_verifyFile_ok h q hq)⟩

/-- No copy held back names the subject. -/
def NoneHeld (P : Pipeline) (s : SubjectHash) (σ : Store) : Prop :=
  ∀ q, extension q = some recordExt → readsAs P s (fun _ => true) σ.quarantine q = false

theorem NoneHeld.count (h : NoneHeld P s σ) : countAs P s (fun _ => true) σ.quarantine = 0 :=
  List.countP_eq_zero.2 fun q hq => Bool.eq_false_iff.1 (h q (walkFiles_ext _ q hq))

theorem NoneHeld.congr (h : NoneHeld P s σ) (hspool : σ'.quarantine = σ.quarantine) :
    NoneHeld P s σ' := by
  intro q hq
  rw [hspool]
  exact h q hq

theorem noneHeld_derived : DerivedFrame (NoneHeld P s) :=
  ⟨fun _ _ h => h.congr rfl, fun _ _ h => h.congr rfl⟩

theorem readsAs_erase {test : Document → Bool} (t : Tree) (p : Path) :
    readsAs P s test (t.erase p) p = false := by
  have hread : Tree.readToString (t.erase p) p = .error (.notFound p) := by
    rw [Tree.readToString, AList.lookup_erase]
  simp only [readsAs, hread]

theorem settleHeld_noneHeld (s' : SubjectHash) (n : ℕ) (p : Path) :
    Triple (NoneHeld P s) (settleHeld P env s' n p) (fun _ => NoneHeld P s) Undone := by
  refine Triple.of_cases (fun τ τ' m hτ h => ?_) fun _ _ _ _ _ => trivial
  rcases settleHeld_cases h with ⟨-, hspool, -⟩ | ⟨-, hspool, -⟩
  · exact hτ.congr hspool
  · intro q hq
    rw [hspool]
    by_cases hqp : q = p
    · subst hqp
      exact readsAs_erase τ.quarantine q
    · rw [readsAs_congr (AList.lookup_erase_ne hqp)]
      exact hτ q hq

/-- **A sweep leaves no copy that names the subject.** -/
theorem sweepQuarantine_noneHeld : Triple (fun _ => True) (sweepQuarantine P env s)
    (fun _ => NoneHeld P s) Undone := by
  refine Triple.state_bind fun σ₀ => ?_
  have hloop := Triple.foldlM_rest (F := Undone) (f := settleHeld P env s)
    (I := fun (_ : ℕ) rest (τ : Store) => ∀ q, extension q = some recordExt →
      readsAs P s (fun _ => true) τ.quarantine q = true → q ∈ rest)
    (fun n x xs => Triple.of_cases (fun τ τ' m hτ h q hq hread => ?_) fun _ _ _ _ _ => trivial)
    0 (σ₀.quarantine.walkFiles recordExt)
  · refine hloop.conseq ?_ (fun n τ hτ q hq => ?_) fun _ _ _ => trivial
    · rintro τ ⟨-, rfl⟩ q hq hread
      refine Tree.mem_walkFiles.2 ⟨Tree.mem_iff_lookup.2 ?_, hq⟩
      cases hlookup : τ.quarantine.lookup q with
      | some f => exact ⟨f, rfl⟩
      | none =>
        have hnone : τ.quarantine.readToString q = .error (.notFound q) := by
          rw [Tree.readToString, hlookup]
        simp [readsAs, hnone] at hread
    · exact Bool.eq_false_iff.2 fun hread => absurd (hτ q hq hread) List.not_mem_nil
  · rcases settleHeld_cases h with ⟨-, hspool, hno⟩ | ⟨-, hspool, -⟩
    · rw [hspool] at hread
      refine (List.mem_cons.1 (hτ q hq hread)).resolve_left ?_
      rintro rfl
      rw [hno] at hread
      cases hread
    · rw [hspool] at hread
      have hqx : q ≠ x := by
        rintro rfl
        rw [readsAs_erase] at hread
        cases hread
      rw [readsAs_congr (AList.lookup_erase_ne hqx)] at hread
      exact (List.mem_cons.1 (hτ q hq hread)).resolve_left hqx

theorem dropBodies_spool (s' : SubjectHash) (σ : Store) :
    Keeps (fun τ : Store => τ.quarantine = σ.quarantine) (dropBodies P env s') := by
  have hfile : ∀ n q,
      Keeps (fun τ : Store => τ.quarantine = σ.quarantine) (dropBody P env s' n q) := by
    intro n q
    refine (readFile_keeps _ _).bind fun text => ?_
    cases Document.parse P.yaml text with
    | error e => exact Keeps.pure _
    | ok d =>
      dsimp only
      split_ifs
      · exact Keeps.pure _
      · exact Keeps.bind (Keeps.change fun τ hτ => hτ) fun _ => Keeps.pure _
  exact Keeps.state.bind fun _ => Keeps.foldlM (fun n q _ => hfile n q) 0

theorem dropBodies_noneHeld (s' : SubjectHash) : Keeps (NoneHeld P s) (dropBodies P env s') :=
  fun τ hτ => hτ.congr (dropBodies_spool s' τ τ rfl)

/-- **A rebuild holds nothing back that was not.** -/
theorem reindexAll_noneHeld :
    Triple (NoneHeld P s) (reindexAll P env) (fun _ => NoneHeld P s) Undone := by
  have hkeeps : ∀ {α : Type} {x : StoreM α}, Keeps (NoneHeld P s) x →
      Triple (NoneHeld P s) x (fun _ => NoneHeld P s) Undone := fun h =>
    h.triple.conseq (fun _ h => h) (fun _ _ h => h) fun _ _ _ => trivial
  have hkeyed : ∀ x : Eff Tree Crypto.Error Unit, Keeps (NoneHeld P s) (keyed x) := fun _ _ h =>
    h.congr rfl
  have hsweep : ∀ s',
      Triple (NoneHeld P s) (sweepQuarantine P env s') (fun _ => NoneHeld P s) Undone := fun s' =>
    (hkeeps Keeps.state).bind fun τ =>
      Triple.foldlM (fun n q _ => settleHeld_noneHeld s' n q) 0
  have hone : ∀ t, Triple (NoneHeld P s) (replayTombstone P env t) (fun _ => NoneHeld P s) Undone :=
    fun t => (hkeeps (Keeps.ofExcept _)).bind fun s' => (hkeeps (hkeyed _)).bind fun _ =>
      (hkeeps (hkeyed _)).bind fun _ => (hkeeps (dropBodies_noneHeld s')).bind fun _ =>
        (hsweep s').bind fun _ => Triple.pure fun _ h => h
  have hreplay : Triple (NoneHeld P s) (replayTombstones P env) (fun _ => NoneHeld P s) Undone :=
    (hkeeps readLog_keeps).bind fun log =>
      (Triple.forM fun t _ => hone t).bind fun _ => Triple.pure fun _ h => h
  exact hreplay.bind fun n => (hkeeps Keeps.state).bind fun τ =>
    hkeeps (rebuild_keeps noneHeld_derived _ _)

end

/-! ## The preview, and the erasure after it -/

section
variable {P : Pipeline} {env : Env} {s : SubjectHash} {σ τ : Store} {rep : EraseReport}

theorem eraseSubject_held {holds : List Hold} (hholds : standingFor P s σ = (.ok holds, σ))
    (h : holds ≠ []) : eraseSubject P env s σ = (.error (.held s holds), σ) := by
  have hrefuse : refuseIfHeld P s σ = (.error (.held s holds), σ) := by
    rw [refuseIfHeld, bind_of_ok hholds, if_neg h]
    rfl
  rw [eraseSubject, bind_of_error hrefuse]

/-- **What an erasure reports, and what it leaves.** -/
theorem eraseSubject_reports (h : eraseSubject P env s σ = (.ok rep, τ)) :
    rep.bodiesSealedOff = countAs P s isSealed σ.records ∧
      rep.keysDestroyed = keyFilesFor σ.keys s ∧
      rep.quarantineSettled = countAs P s (fun _ => true) σ.quarantine ∧
      tombstonePath s ∈ τ.keys ∧ keyFilesFor τ.keys s = 0 ∧ countAs P s isSealed τ.records = 0 ∧
      NoneHeld P s τ := by
  rw [eraseSubject_eq] at h
  obtain ⟨u, σ₁, h1, hrest⟩ := bind_eq_ok.1 h
  obtain rfl : σ₁ = σ := (refuseIfHeld_keeps (I := (· = σ)) s).apply rfl h1
  obtain ⟨found, σ₂, h2, hwrites⟩ := bind_eq_ok.1 hrest
  obtain rfl : σ₂ = σ₁ := (affected_keeps (I := (· = σ₁)) s).apply rfl h2
  obtain ⟨u, τ₁, hline, hwrites⟩ := bind_eq_ok.1 hwrites
  obtain rfl := change_eq_ok.1 hline
  obtain ⟨u, τ₂, hmark, hwrites⟩ := bind_eq_ok.1 hwrites
  obtain ⟨hrecords₂, hspool₂, hkeys₂⟩ : τ₂.records = σ₂.records ∧ τ₂.quarantine = σ₂.quarantine ∧
      τ₂.keys = markKeys env.now σ₂.keys s := by
    obtain rfl := (Prod.mk.inj hmark).2
    exact ⟨rfl, rfl, rfl⟩
  rw [state_bind] at hwrites
  obtain ⟨u, τ₃, hdestroy, hwrites⟩ := bind_eq_ok.1 hwrites
  obtain ⟨hrecords₃, hspool₃⟩ : τ₃.records = τ₂.records ∧ τ₃.quarantine = τ₂.quarantine := by
    obtain rfl := (Prod.mk.inj hdestroy).2
    exact ⟨rfl, rfl⟩
  obtain ⟨bodies, τ₄, hbodies, hwrites⟩ := bind_eq_ok.1 hwrites
  have hspool₄ : τ₄.quarantine = τ₃.quarantine := (dropBodies_spool s τ₃).apply rfl hbodies
  obtain ⟨settled, τ₅, hsettled, hwrites⟩ := bind_eq_ok.1 hwrites
  obtain ⟨rep', τ₆, hrebuild, hwrites⟩ := bind_eq_ok.1 hwrites
  obtain ⟨u, τ₇, hverify, hreturn⟩ := bind_eq_ok.1 hwrites
  obtain rfl : τ₇ = τ₆ := (verifyLive_keeps (I := (· = τ₆)) s).apply rfl hverify
  obtain ⟨rfl, rfl⟩ := pure_eq_ok.1 hreturn
  obtain ⟨htomb, hkeys, hcount⟩ := verifyLive_ok hverify
  refine ⟨?_, ?_, ?_, htomb, hkeys, hcount, ?_⟩
  · rw [dropBodies_eq hbodies, hrecords₃, hrecords₂]
  · rw [hkeys₂, keyFilesFor_markKeys]
  · rw [sweepQuarantine_eq hsettled, hspool₄, hspool₃, hspool₂]
  · exact reindexAll_noneHeld.ok (sweepQuarantine_noneHeld.ok trivial hsettled) hrebuild

end

/-- **A preview is truthful.**  It changes nothing.  An erasure that follows it is refused
    when the preview lists a hold, in the name of the holds it lists, and nothing is written;
    one that goes through reports the bodies, keys and held copies that the preview counted;
    and a preview after it finds the marker, and nothing left to erase. -/
theorem preview_is_truthful (P : Pipeline) (env : Env) (s : SubjectHash) (σ σ' : Store)
    (v : ErasePreview) (h : Erase.preview P s σ = (.ok v, σ')) :
    σ' = σ ∧
    (v.holds ≠ [] → eraseSubject P env s σ = (.error (.held s v.holds), σ)) ∧
    ∀ rep τ, eraseSubject P env s σ = (.ok rep, τ) →
      v.holds = [] ∧ rep.bodiesSealedOff = v.bodiesReadable ∧ rep.keysDestroyed = v.keys ∧
      rep.quarantineSettled = v.quarantined ∧
      ∀ after τ', Erase.preview P s τ = (.ok after, τ') →
        after.bodiesReadable = 0 ∧ after.keys = 0 ∧ after.quarantined = 0 ∧
          after.alreadyTombstoned = true := by
  obtain ⟨rfl, -, hbodies, hkeys, hspool, -, hholds⟩ := erasePreview_eq h
  refine ⟨rfl, eraseSubject_held hholds, fun rep τ herase => ?_⟩
  have hnone : v.holds = [] := by
    by_contra hne
    rw [eraseSubject_held hholds hne] at herase
    cases herase
  obtain ⟨hrep, hrepkeys, hrepspool, hmark, hgone, hempty, hheld⟩ := eraseSubject_reports herase
  refine ⟨hnone, hrep.trans hbodies.symm, hrepkeys.trans hkeys.symm,
    hrepspool.trans hspool.symm, ?_⟩
  intro after τ' hafter
  obtain ⟨-, -, hbodies', hkeys', hspool', htomb', -⟩ := erasePreview_eq hafter
  exact ⟨hbodies'.trans hempty, hkeys'.trans hgone, hspool'.trans hheld.count,
    htomb'.trans (decide_eq_true hmark)⟩

section
set_option maxRecDepth 4000

theorem preview_is_truthful_settled : ∃ v,
    (Erase.preview (deployment declaredSubjects) someSubject (storeAt .settled)).1 = .ok v ∧
    v.bodiesReadable = 1 ∧ ∀ rep τ,
      eraseSubject (deployment declaredSubjects) (quietEnv 1) someSubject (storeAt .settled) =
        (.ok rep, τ) → rep.bodiesSealedOff = 1 := by
  have hv : ((Erase.preview (deployment declaredSubjects) someSubject
      (storeAt .settled)).1.toOption.map ErasePreview.bodiesReadable) = some 1 := by decide +kernel
  generalize storeAt .settled = σ at hv ⊢
  obtain ⟨v, hv, hone⟩ := Option.map_eq_some_iff.1 hv
  have htrue := preview_is_truthful (deployment declaredSubjects) (quietEnv 1) someSubject σ _ v
    (Prod.ext (ok_of_toOption hv) rfl)
  exact ⟨v, ok_of_toOption hv, hone, fun rep τ herase => (htrue.2.2 rep τ herase).2.1.trans hone⟩

end

end Yaam.Core
