/-
  Which keys retention takes.

  * `AgesItsOwn` is the promise about one label, `agesItsOwn_iff` exactly which labels it
    holds of;
  * `Retention` is the promise about one run: what is destroyed, what is counted, and the
    window it names; `retention_iff` says it is kept when the window's arithmetic is;
  * `survey_eq` and `destroyExpired_eq` give the pass over a store that is well kept.
-/
import Yaam.Core.Resolve
import Yaam.Core.Retain
import Yaam.Crypto.Quarter

namespace Yaam.Core

open Text Contract Crypto Eff

/-! ## Labels -/

/-- A label this build writes for an instant of an earlier quarter. -/
def Minted (e : Epoch) (cutoff : ℤ) : Prop :=
  ∃ r, Fits r ∧ e = Epoch.containing r ∧ quarterOf r < cutoff

/-- The arithmetic that places a label stays within an `i64`. -/
def IndexFits (e : Epoch) : Prop :=
  ∀ y q, e.quarter = some (y, q) → Fits y ∧ Fits (y * 4) ∧ Fits (y * 4 + q) ∧ Fits (y * 4 + q - 1)

/-- **Retention only ages labels that were minted**, without overflow. -/
structure AgesItsOwn (keepQuarters : UInt32) (asOfMs : ℤ) (e : Epoch) : Prop where
  minted : ∀ cutoff, (Epoch.containing asOfMs).quartersBefore keepQuarters.toNat = some cutoff →
    e.precedes cutoff = some true → Minted e (quarterOf asOfMs - keepQuarters.toNat)
  kept : ∀ cutoff, (Epoch.containing asOfMs).quartersBefore keepQuarters.toNat = some cutoff →
    ¬ Minted e (quarterOf asOfMs - keepQuarters.toNat) → ∀ holds s,
      verdictOn cutoff holds s e = .keep ∨ verdictOn cutoff holds s e = .unreadable
  clock : IndexFits (Epoch.containing asOfMs) ∧ Fits (quarterOf asOfMs - keepQuarters.toNat)
  placed : ∀ cutoff, (Epoch.containing asOfMs).quartersBefore keepQuarters.toNat = some cutoff →
    IndexFits cutoff ∧ IndexFits e

/-- A label that is read as an earlier quarter is spelled as it is written, and one that is
    read at all is small enough to place. -/
def PlainlySpelled (keepQuarters : UInt32) (asOfMs : ℤ) (e : Epoch) : Prop :=
  ∀ year quarter, Spelled e.text year quarter → number year < 2 ^ 63 →
    1 ≤ number quarter → number quarter ≤ 4 → 4 ≤ quarterOf asOfMs - keepQuarters.toNat →
      number year * 4 + number quarter < 2 ^ 63 ∧
        ((number year * 4 + number quarter - 1 : ℤ) < quarterOf asOfMs - keepQuarters.toNat →
          year = padNat 4 (number year) ∧ quarter = padNat 0 (number quarter))

section

variable {keepQuarters : UInt32} {asOfMs : ℤ} {e cutoff : Epoch}

theorem precedes_eq_some {e o : Epoch} {b : Bool} :
    e.precedes o = some b ↔ ∃ i j, e.index = some i ∧ o.index = some j ∧ decide (i < j) = b := by
  simp [Epoch.precedes, Option.bind_eq_some_iff]

theorem verdictOn_of_precedes {holds : List Hold} {s : SubjectHash} (h : e.precedes cutoff ≠ some true) :
    verdictOn cutoff holds s e = .keep ∨ verdictOn cutoff holds s e = .unreadable := by
  unfold verdictOn
  cases hp : e.precedes cutoff with
  | none => exact .inr rfl
  | some b =>
    cases b with
    | false => exact .inl rfl
    | true => exact absurd hp h

theorem indexFits_of_place {i : ℤ} (h0 : 0 ≤ i) (h1 : i < 2 ^ 62)
    (he : e.text = quarterLabel (i / 4) (i % 4 + 1)) : IndexFits e := by
  intro y q hq
  rw [quarter_quarterLabel h0 (by omega) he] at hq
  obtain ⟨rfl, rfl⟩ := Prod.mk.inj (Option.some.inj hq)
  simp only [Fits]
  omega

/-- The label of an instant, in digits, is the one written for its quarter. -/
theorem spelled_containing {r : ℤ} {year quarter : Text}
    (h : Spelled (Epoch.containing r).text year quarter) :
    year = padNat 4 (number year) ∧ quarter = padNat 0 (number quarter) := by
  rw [containing_text] at h
  obtain ⟨q, hq⟩ : ∃ q : ℕ, (q : ℤ) = quarterOf r % 4 + 1 := ⟨(quarterOf r % 4 + 1).toNat, by omega⟩
  rw [← hq] at h
  rcases lt_or_ge (quarterOf r / 4) 0 with hneg | hpos
  · have hhead := h.text
    rw [quarterLabel, padInt, if_pos hneg] at hhead
    obtain ⟨c, cs, rfl⟩ := List.exists_cons_of_ne_nil h.someYear
    obtain ⟨rfl, -⟩ := List.cons.inj hhead
    have := List.all_eq_true.1 h.yearDigits '-' (by simp)
    exact absurd this (by decide)
  · obtain ⟨y, hy⟩ : ∃ y : ℕ, (y : ℤ) = quarterOf r / 4 := ⟨(quarterOf r / 4).toNat, by omega⟩
    rw [← hy] at h
    obtain ⟨rfl, rfl⟩ := h.unique (spelled_quarterLabel y q)
    rw [number_padNat, number_padNat]
    exact ⟨rfl, rfl⟩

/-- **Retention only ages labels it minted exactly when they are plainly spelled.** -/
theorem agesItsOwn_iff (keepQuarters : UInt32) (asOfMs : ℤ) (e : Epoch) (h0 : 1 ≤ yearOf asOfMs)
    (h1 : yearOf asOfMs ≤ 9999) :
    AgesItsOwn keepQuarters asOfMs e ↔ PlainlySpelled keepQuarters asOfMs e := by
  have hdiv := quarterOf_div asOfMs
  have hback := keepQuarters.toNat_lt
  have hcalendar := quartersBefore_containing asOfMs (by omega) h1 keepQuarters
  constructor
  · intro h year quarter hspelled hlt hq1 hq4 hcut
    rcases hcalendar with ⟨-, cutoff, hcutoff, htext⟩ | ⟨hno, -⟩
    · have hindex := index_quarterLabel (by omega) (by omega) htext
      have hq : e.quarter = some ((number year : ℤ), (number quarter : ℤ)) :=
        quarter_eq_some.2 ⟨year, quarter, hspelled, hlt, hq1, hq4, rfl, rfl⟩
      obtain ⟨-, -, hfits, -⟩ := (h.placed cutoff hcutoff).2 _ _ hq
      refine ⟨by have := hfits.2; omega, fun hbefore => ?_⟩
      have hplace := index_of_quarter hq (by omega) (by omega) hfits
      have hprecedes : e.precedes cutoff = some true :=
        precedes_eq_some.2 ⟨_, _, hplace, hindex, decide_eq_true hbefore⟩
      obtain ⟨r, -, rfl, -⟩ := h.minted cutoff hcutoff hprecedes
      exact spelled_containing hspelled
    · omega
  · intro h
    have hminted : ∀ cutoff, (Epoch.containing asOfMs).quartersBefore keepQuarters.toNat = some cutoff →
        e.precedes cutoff = some true → Minted e (quarterOf asOfMs - keepQuarters.toNat) := by
      intro cutoff hcutoff hprecedes
      rcases hcalendar with ⟨hcut, cutoff', hcutoff', htext⟩ | ⟨-, hnone⟩
      · obtain rfl := Option.some.inj (hcutoff.symm.trans hcutoff')
        have hindex := index_quarterLabel (by omega) (by omega) htext
        obtain ⟨i, j, hi, hj, hij⟩ := precedes_eq_some.1 hprecedes
        obtain rfl := Option.some.inj (hindex.symm.trans hj)
        obtain ⟨⟨y, q⟩, hq, -⟩ := Option.map_eq_some_iff.1 hi
        obtain ⟨year, quarter, hspelled, hlt, hq1, hq4, rfl, rfl⟩ := quarter_eq_some.1 hq
        obtain ⟨hfits, hplain⟩ := h year quarter hspelled hlt hq1 hq4 hcut
        have hplace := index_of_quarter hq (by omega) (by omega) ⟨by omega, by omega⟩
        obtain rfl := Option.some.inj (hplace.symm.trans hi)
        have hbefore := of_decide_eq_true hij
        obtain ⟨hyear, hquarter⟩ := hplain hbefore
        obtain ⟨r, hr, hplaceOf, -⟩ := exists_quarterOf (i := number year * 4 + number quarter - 1)
          (by omega) (by omega)
        refine ⟨r, hr, ?_, by rw [hplaceOf]; exact hbefore⟩
        refine Epoch.ext_text ?_
        have hyear4 : (number year * 4 + number quarter - 1 : ℤ) / 4 = number year := by omega
        have hquarter4 : (number year * 4 + number quarter - 1 : ℤ) % 4 + 1 = number quarter := by omega
        rw [containing_text, hplaceOf, hyear4, hquarter4, quarterLabel, padInt_natCast, padInt_natCast,
          ← hyear, ← hquarter]
        exact hspelled.text
      · cases hcutoff.symm.trans hnone
    refine ⟨hminted, ?_, ⟨?_, by omega, by omega⟩, ?_⟩
    · intro cutoff hcutoff hnot holds s
      exact verdictOn_of_precedes fun hprecedes => hnot (hminted cutoff hcutoff hprecedes)
    · exact indexFits_of_place (by omega) (by omega) (containing_text asOfMs)
    · intro cutoff hcutoff
      rcases hcalendar with ⟨hcut, cutoff', hcutoff', htext⟩ | ⟨-, hnone⟩
      · obtain rfl := Option.some.inj (hcutoff.symm.trans hcutoff')
        refine ⟨indexFits_of_place (by omega) (by omega) htext, ?_⟩
        · intro y q hq
          obtain ⟨year, quarter, hspelled, hlt, hq1, hq4, rfl, rfl⟩ := quarter_eq_some.1 hq
          obtain ⟨hfits, -⟩ := h year quarter hspelled hlt hq1 hq4 hcut
          simp only [Fits]
          omega
      · cases hcutoff.symm.trans hnone

/-- The last instant before 2027. -/
def endOf2026 : ℤ := 1798761599999

/-- A label of the year before is aged, and is one that was minted. -/
theorem containing_agesItsOwn : AgesItsOwn 1 endOf2026 (Epoch.containing 1735689600000) := by
  refine (agesItsOwn_iff 1 endOf2026 _ (by decide) (by decide)).2 fun year quarter h _ _ _ _ => ?_
  have hplain := spelled_containing h
  obtain ⟨rfl, rfl⟩ := h.unique (spelled_quarterLabel 2025 1)
  refine ⟨?_, fun _ => hplain⟩
  rw [number_padNat, number_padNat]
  decide

/-- A zero in front of a year's digits is read as that year and aged, though no label has
    it; a year too large to place wraps round to the past. -/
theorem padded_label_aged :
    ¬ AgesItsOwn 1 endOf2026 ⟨"02025-Q1".toList, by decide⟩ ∧
      ¬ AgesItsOwn 1 endOf2026 ⟨"2305843009213693952-Q1".toList, by decide⟩ := by
  refine ⟨fun h => ?_, fun h => ?_⟩
  · obtain ⟨r, -, he, -⟩ := h.minted ⟨"2026-Q3".toList, by decide⟩ (by decide +kernel) (by decide +kernel)
    have hspelled : Spelled "02025-Q1".toList "02025".toList "1".toList :=
      ⟨rfl, by decide, by decide, by decide, by decide⟩
    have htext := congrArg Epoch.text he
    dsimp only at htext
    rw [htext] at hspelled
    exact absurd (spelled_containing hspelled).1 (by decide +kernel)
  · obtain ⟨-, hfits⟩ := h.placed ⟨"2026-Q3".toList, by decide⟩ (by decide +kernel)
    obtain ⟨-, hfits, -⟩ := hfits 2305843009213693952 1 (by decide +kernel)
    exact absurd hfits (by decide)

end

/-! ## The store a pass walks -/

/-- Everything under the key directory is a key. -/
def WellKept (t : Tree) : Prop :=
  ∀ p ∈ t, [keysDir] <+: p → ∃ (s : SubjectHash) (e : Epoch), p = subjectDir s ++ [e.text]

section

variable {t : Tree} {s : SubjectHash} {e : Epoch}

theorem newKeys_wellKept : NewKeys WellKept := by
  intro t s e bytes now _ h p hp hkeys
  rcases (AList.mem_insert _).1 hp with rfl | hp
  · exact ⟨s, e, rfl⟩
  · exact h p hp hkeys

theorem WellKept.mint (h : WellKept t) (K : FsKeyStore) (fresh : Key) (s : SubjectHash) (e : Epoch) :
    WellKept (K.mint fresh s e t).2 :=
  K.mint_keeps newKeys_wellKept fresh s e t h

theorem WellKept.tombstone (h : WellKept t) (K : FsKeyStore) (s : SubjectHash) :
    WellKept (K.tombstone s t).2 := by
  intro p hp hkeys
  rw [FsKeyStore.tombstone, change_apply] at hp
  dsimp only at hp
  split_ifs at hp with hm
  · exact h p hp hkeys
  · rcases (AList.mem_insert _).1 hp with rfl | hp
    · exact absurd (List.cons_prefix_cons.1 hkeys).1 (by decide)
    · exact h p hp hkeys

theorem WellKept.destroySubject (h : WellKept t) (s : SubjectHash) : WellKept (destroySubject s t).2 :=
  fun p hp => h p (Tree.mem_removeDirAll.1 hp).1

theorem WellKept.erase (h : WellKept t) (p : Path) : WellKept (t.erase p) :=
  fun q hq => h q (AList.mem_erase.1 hq).2

theorem WellKept.mem_entryNames_keys (h : WellKept t) {dir : Text} (hd : dir ∈ t.entryNames [keysDir]) :
    ∃ s : SubjectHash, s.text = dir := by
  obtain ⟨p, hp, hunder, hname⟩ := Tree.mem_entryNames.1 hd
  obtain ⟨s, e, rfl⟩ := h p hp hunder.1
  exact ⟨s, by simpa [subjectDir] using hname⟩

theorem WellKept.mem_entryNames_subject (h : WellKept t) (s : SubjectHash) {label : Text} :
    label ∈ t.entryNames (subjectDir s) ↔ ∃ e : Epoch, e.text = label ∧ subjectDir s ++ [e.text] ∈ t := by
  rw [Tree.mem_entryNames]
  constructor
  · rintro ⟨p, hp, hunder, hname⟩
    obtain ⟨s', e, rfl⟩ := h p hp ((List.prefix_append [keysDir] [s.text]).trans hunder.1)
    obtain rfl : s = s' := SubjectHash.ext_text (by simpa [subjectDir] using hunder.1)
    exact ⟨e, by simpa [subjectDir] using hname, hp⟩
  · rintro ⟨e, rfl, hp⟩
    exact ⟨_, hp, Tree.under_concat _ _, by simp [subjectDir]⟩

theorem epochsOf_wellKept (h : WellKept t) (s : SubjectHash) :
    ∃ ks, epochsOf t s.text = .ok ks ∧
      ∀ k, k ∈ ks ↔ k.1 = s ∧ subjectDir s ++ [k.2.text] ∈ t := by
  have hlabel : ∀ label ∈ t.entryNames (subjectDir s), ∃ e : Epoch, e.text = label ∧
      Epoch.fromStored label = .ok e := by
    intro label hl
    obtain ⟨e, rfl, -⟩ := (h.mem_entryNames_subject s).1 hl
    exact ⟨e, rfl, by simp [Epoch.fromStored, e.label]⟩
  have hread : ∃ ks, epochsOf t s.text = .ok ks := by
    rw [epochsOf, subjectNamed, SubjectHash.parse_text]
    refine exists_mapM fun label hl => ?_
    obtain ⟨e, -, he⟩ := hlabel label hl
    exact ⟨(s, e), by rw [he]⟩
  obtain ⟨ks, hks⟩ := hread
  refine ⟨ks, hks, ?_⟩
  rintro ⟨s', e⟩
  rw [epochsOf, subjectNamed, SubjectHash.parse_text] at hks
  rw [mapM_ok_iff hks]
  constructor
  · rintro ⟨label, hl, he⟩
    obtain ⟨e', rfl, he'⟩ := hlabel label hl
    rw [he'] at he
    obtain ⟨rfl, rfl⟩ := Prod.mk.inj (Except.ok.inj he)
    obtain ⟨e, heq, hmem⟩ := (h.mem_entryNames_subject s).1 hl
    exact ⟨rfl, heq ▸ hmem⟩
  · rintro ⟨rfl, hmem⟩
    refine ⟨e.text, (h.mem_entryNames_subject s').2 ⟨e, rfl, hmem⟩, ?_⟩
    simp [Epoch.fromStored, e.label]

/-- **The walk of a well-kept store finds its keys.** -/
theorem keyEpochs_wellKept (h : WellKept t) :
    ∃ ks, keyEpochs t = (.ok ks, t) ∧ ∀ k, k ∈ ks ↔ subjectDir k.1 ++ [k.2.text] ∈ t := by
  obtain ⟨dirs, hdirs⟩ : ∃ dirs, dirs =
    (t.entryNames [keysDir]).filter fun name => t.entryNames [keysDir, name] ≠ [] := ⟨_, rfl⟩
  have hdir : ∀ dir ∈ dirs, ∃ s : SubjectHash, s.text = dir := by
    intro dir hd
    rw [hdirs] at hd
    exact h.mem_entryNames_keys (List.mem_filter.1 hd).1
  obtain ⟨kss, hkss⟩ : ∃ kss, dirs.mapM (epochsOf t) = .ok kss := by
    refine exists_mapM fun dir hd => ?_
    obtain ⟨s, rfl⟩ := hdir dir hd
    obtain ⟨ks, hks, -⟩ := epochsOf_wellKept h s
    exact ⟨ks, hks⟩
  refine ⟨kss.flatten, ?_, ?_⟩
  · rw [keyEpochs, state_bind, ← hdirs, hkss]
    rfl
  · rintro ⟨s, e⟩
    rw [List.mem_flatten]
    constructor
    · rintro ⟨ks, hks, hmem⟩
      obtain ⟨dir, hd, hread⟩ := (mapM_ok_iff hkss ks).1 hks
      obtain ⟨s', rfl⟩ := hdir dir hd
      obtain ⟨ks', hks', hiff⟩ := epochsOf_wellKept h s'
      obtain rfl := Except.ok.inj (hread.symm.trans hks')
      obtain ⟨rfl, hfile⟩ := (hiff _).1 hmem
      exact hfile
    · intro hfile
      obtain ⟨ks, hks, hiff⟩ := epochsOf_wellKept h s
      refine ⟨ks, (mapM_ok_iff hkss ks).2 ⟨s.text, ?_, hks⟩, (hiff _).2 ⟨rfl, hfile⟩⟩
      rw [hdirs, List.mem_filter, decide_eq_true_eq]
      refine ⟨Tree.mem_entryNames.2 ⟨_, hfile, ?_, by simp [subjectDir]⟩, ?_⟩
      · exact ⟨⟨[s.text, e.text], rfl⟩, by simp [subjectDir]⟩
      · have hname := (h.mem_entryNames_subject s).2 ⟨e, rfl, hfile⟩
        exact List.ne_nil_of_mem hname

end

/-! ## The pass -/

section

variable {P : Pipeline} {σ : Store} {holds : List Hold} {keepQuarters : ℕ} {asOfMs : ℤ} {cutoff : Epoch}

/-- The holds in force are read off the hold log alone. -/
theorem standing_of_holdLog {τ : Store} (hlog : τ.holdLog = σ.holdLog)
    (h : standing P σ = (.ok holds, σ)) : standing P τ = (.ok holds, τ) := by
  obtain ⟨held, σ', hread, h⟩ := bind_eq_ok.1 h
  obtain ⟨rfl, -⟩ := pure_eq_ok.1 h
  rw [readHolds, state_bind] at hread
  have hread' : readHolds P τ = (.ok held, τ) := by
    rw [readHolds, state_bind, hlog]
    cases hentries : LineLog.entries P.holdLine σ.holdLog with
    | error err => simp [hentries] at hread
    | ok ls =>
      rw [hentries] at hread
      dsimp only at hread ⊢
      rw [(ofExcept_eq_ok.1 hread).1]
      rfl
  rw [standing, bind_of_ok hread']
  rfl

/-- What a pass decides about each key it walks. -/
def candidatesOf (cutoff : Epoch) (holds : List Hold) (ks : List (SubjectHash × Epoch)) : List Candidate :=
  ks.map fun k => ⟨k.1, k.2, verdictOn cutoff holds k.1 k.2⟩

theorem survey_eq (hkept : WellKept σ.keys) (hholds : standing P σ = (.ok holds, σ))
    (hcut : (Epoch.containing asOfMs).quartersBefore keepQuarters = some cutoff) :
    ∃ ks, survey P keepQuarters asOfMs σ = (.ok (cutoff, candidatesOf cutoff holds ks), σ) ∧
      ∀ k, k ∈ ks ↔ subjectDir k.1 ++ [k.2.text] ∈ σ.keys := by
  obtain ⟨ks, hks, hiff⟩ := keyEpochs_wellKept hkept
  refine ⟨ks, ?_, hiff⟩
  have hkeyed : keyed keyEpochs σ = (.ok ks, σ) := by simp [keyed, zoom, mapError, hks]
  unfold survey
  simp only [hcut]
  rw [bind_of_ok hholds, bind_of_ok hkeyed]
  rfl

theorem survey_none (hcut : (Epoch.containing asOfMs).quartersBefore keepQuarters = none) :
    ∃ err, survey P keepQuarters asOfMs σ = (.error err, σ) := by
  unfold survey
  simp only [hcut]
  exact ⟨_, rfl⟩

theorem verdictOn_eq_destroy {s : SubjectHash} {e : Epoch} : verdictOn cutoff holds s e = .destroy ↔
    e.precedes cutoff = some true ∧ ∀ h ∈ holds, h.subject ≠ s := by
  unfold verdictOn
  cases hp : e.precedes cutoff with
  | none => simp
  | some b =>
    cases b with
    | false => simp
    | true =>
      by_cases hheld : (holds.filter fun h => h.subject = s).map (·.id) = []
      · simp only [hheld, if_true, true_and]
        simpa [List.filter_eq_nil_iff] using hheld
      · simp only [hheld, if_false, true_and]
        simpa [List.filter_eq_nil_iff] using hheld

/-- A label that is read as a quarter names a key file. -/
theorem keyPath_of_precedes {s : SubjectHash} {e o : Epoch} (h : e.precedes o = some true) :
    keyPath s e = .ok (subjectDir s ++ [e.text]) := by
  obtain ⟨i, -, hi, -⟩ := precedes_eq_some.1 h
  obtain ⟨⟨y, q⟩, hq, -⟩ := Option.map_eq_some_iff.1 hi
  obtain ⟨year, quarter, hspelled, -⟩ := quarter_eq_some.1 hq
  have hl := e.label
  simp only [isEpochLabel, Bool.and_eq_true, bne_iff_ne, ne_eq, decide_eq_true_eq,
    Bool.not_eq_true'] at hl
  obtain ⟨⟨⟨hne, hs⟩, hb⟩, hd⟩ := hl
  have hz : Char.ofNat 0 ∉ e.text := by
    rw [hspelled.text, List.mem_append, List.mem_cons, List.mem_cons]
    rintro (hm | hm | hm | hm)
    · exact notMem_digits hspelled.yearDigits (by decide) hm
    · exact absurd hm (by decide)
    · exact absurd hm (by decide)
    · exact notMem_digits hspelled.quarterDigits (by decide) hm
  rw [keyPath, safeComponent, if_neg (by simp [hne, hs, hb, hz, hd])]
  rfl

/-- The file of a candidate's key. -/
def Candidate.path (c : Candidate) : Path := subjectDir c.subject ++ [c.epoch.text]

theorem mem_foldl_erase {p : Path} (cs : List Candidate) (t : Tree) :
    p ∈ cs.foldl (fun t c => t.erase c.path) t ↔ p ∈ t ∧ ∀ c ∈ cs, c.path ≠ p := by
  induction cs generalizing t with
  | nil => simp
  | cons c cs ih =>
    rw [List.foldl_cons, ih, AList.mem_erase, List.forall_mem_cons, ne_comm (a := c.path)]
    tauto

/-- Destroying keys one after another takes exactly their files. -/
theorem forM_destroyEpoch {cs : List Candidate}
    (h : ∀ c ∈ cs, keyPath c.subject c.epoch = .ok c.path) (σ : Store) :
    (forM cs fun c => keyed (destroyEpoch c.subject c.epoch) : StoreM PUnit) σ =
      (.ok (), { σ with keys := cs.foldl (fun t c => t.erase c.path) σ.keys }) := by
  induction cs generalizing σ with
  | nil => rfl
  | cons c cs ih =>
    obtain ⟨hc, hcs⟩ := List.forall_mem_cons.1 h
    have hone : keyed (destroyEpoch c.subject c.epoch) σ =
        (.ok (), { σ with keys := σ.keys.erase c.path }) := by
      simp [keyed, zoom, mapError, destroyEpoch, hc]
    rw [List.forM_cons, bind_of_ok hone, ih hcs]
    rfl

/-- The keys a pass destroys. -/
def destroyedBy (cutoff : Epoch) (holds : List Hold) (ks : List (SubjectHash × Epoch)) : List Candidate :=
  (candidatesOf cutoff holds ks).filter fun c => c.verdict = .destroy

theorem mem_destroyedBy {ks : List (SubjectHash × Epoch)} {c : Candidate} (h : c ∈ destroyedBy cutoff holds ks) :
    (c.subject, c.epoch) ∈ ks ∧ c.epoch.precedes cutoff = some true ∧ ∀ h ∈ holds, h.subject ≠ c.subject := by
  obtain ⟨hc, hv⟩ := List.mem_filter.1 h
  obtain ⟨k, hk, rfl⟩ := List.mem_map.1 hc
  exact ⟨hk, verdictOn_eq_destroy.1 (of_decide_eq_true hv)⟩

/-- **What a pass over a well-kept store does.** -/
theorem destroyExpired_eq (hkept : WellKept σ.keys) (hholds : standing P σ = (.ok holds, σ))
    (hcut : (Epoch.containing asOfMs).quartersBefore keepQuarters = some cutoff) :
    ∃ ks, (∀ k, k ∈ ks ↔ subjectDir k.1 ++ [k.2.text] ∈ σ.keys) ∧
      preview P keepQuarters asOfMs σ = (.ok (tally cutoff (candidatesOf cutoff holds ks)), σ) ∧
      destroyExpired P keepQuarters asOfMs σ = (.ok (tally cutoff (candidatesOf cutoff holds ks)),
        { σ with keys := (destroyedBy cutoff holds ks).foldl (fun t c => t.erase c.path) σ.keys }) := by
  obtain ⟨ks, hsurvey, hiff⟩ := survey_eq hkept hholds hcut
  refine ⟨ks, hiff, ?_, ?_⟩
  · rw [preview, bind_of_ok hsurvey]
    rfl
  · have hpaths : ∀ c ∈ destroyedBy cutoff holds ks, keyPath c.subject c.epoch = .ok c.path :=
      fun c hc => keyPath_of_precedes (mem_destroyedBy hc).2.1
    have hforM := forM_destroyEpoch hpaths σ
    rw [destroyExpired, bind_of_ok hsurvey]
    dsimp only
    rw [← destroyedBy, bind_of_ok hforM]
    rfl

/-- A key file stays unless its key is due and not held. -/
theorem mem_after {ks : List (SubjectHash × Epoch)} {s : SubjectHash} {e : Epoch}
    (hiff : ∀ k, k ∈ ks ↔ subjectDir k.1 ++ [k.2.text] ∈ σ.keys)
    (hfile : subjectDir s ++ [e.text] ∈ σ.keys) :
    subjectDir s ++ [e.text] ∉ (destroyedBy cutoff holds ks).foldl (fun t c => t.erase c.path) σ.keys ↔
      e.precedes cutoff = some true ∧ ∀ h ∈ holds, h.subject ≠ s := by
  rw [mem_foldl_erase, not_and]
  constructor
  · intro h
    have := h hfile
    push Not at this
    obtain ⟨c, hc, hpath⟩ := this
    obtain ⟨hs, he⟩ : c.subject.text = s.text ∧ c.epoch.text = e.text := by
      simpa [Candidate.path, subjectDir] using hpath
    obtain ⟨-, hdue⟩ := mem_destroyedBy hc
    rwa [SubjectHash.ext_text hs, Epoch.ext_text he] at hdue
  · rintro hdue - hnone
    refine hnone ⟨s, e, .destroy⟩ (List.mem_filter.2 ⟨List.mem_map.2 ⟨(s, e), (hiff _).2 hfile, ?_⟩, ?_⟩) rfl
    · rw [verdictOn_eq_destroy.2 hdue]
    · simp

end

/-! ## Its report -/

/-- Each key walked is counted once. -/
theorem tally_walked (cutoff : Epoch) (cs : List Candidate) :
    let report := tally cutoff cs
    report.keysWalked = report.keysKept + report.keysDestroyed + report.keysHeld + report.keysUnreadable := by
  simp only [tally]
  induction cs with
  | nil => rfl
  | cons c cs ih =>
    obtain ⟨s, e, v⟩ := c
    cases v <;> simp <;> omega

/-- Counting a list class by class counts all of it. -/
theorem sum_filter_length {α β : Type} [DecidableEq β] (label : α → β) (xs : List α) :
    ((xs.map label).dedup.map fun k => (xs.filter fun x => label x = k).length).sum = xs.length := by
  have hcount : ∀ k, (xs.filter fun x => label x = k).length = (xs.map label).count k := by
    intro k
    rw [List.count, List.countP_map, List.countP_eq_length_filter]
    rfl
  simp only [hcount]
  rw [List.sum_map_count_dedup_eq_length, List.length_map]

theorem destroyExpired_report {P : Pipeline} {σ : Store} {keepQuarters : ℕ} {asOfMs : ℤ} {report : RetainReport}
    (h : (destroyExpired P keepQuarters asOfMs σ).1 = .ok report) : ∃ cutoff cs, report = tally cutoff cs := by
  obtain ⟨found, σ', -, h⟩ := bind_eq_ok.1 (Prod.ext h rfl)
  obtain ⟨_, σ'', -, h⟩ := bind_eq_ok.1 h
  exact ⟨found.1, found.2, (pure_eq_ok.1 h).1.symm⟩

theorem tally_destroyed (cutoff : Epoch) (cs : List Candidate) :
    ((tally cutoff cs).destroyedByEpoch.map (·.2)).sum = (tally cutoff cs).keysDestroyed := by
  simp only [tally, List.map_map]
  rw [((List.perm_insertionSort (· ≤ ·) _).map _).sum_eq]
  exact sum_filter_length (fun c : Candidate => c.epoch.text) _

/-! ## The promise -/

/-- Months since year zero. -/
def monthOf (ms : ℤ) : ℤ := yearOf ms * 12 + (civilFromMillis ms).2 - 1

/-- How far into its month an instant lies. -/
def intoMonth (ms : ℤ) : ℤ := ((civilFromMs ms).2.2 - 1) * msPerDay + ms % msPerDay

/-- The calendar months that have passed between two instants. -/
def ageMonths (receivedMs asOfMs : ℤ) : ℤ :=
  monthOf asOfMs - monthOf receivedMs - if intoMonth asOfMs < intoMonth receivedMs then 1 else 0

/-- The file of the key a record received at an instant is sealed under. -/
def keyFile (s : SubjectHash) (receivedMs : ℤ) : Path :=
  subjectDir s ++ [(Epoch.containing receivedMs).text]

/-- **What retention promises of one pass.** -/
structure Retention (P : Pipeline) (keepQuarters : UInt32) (asOfMs : ℤ) (holds : List Hold) (σ : Store) :
    Prop where
  /-- A key is destroyed exactly when its quarter is more than so many back, and not held. -/
  due : ∀ s r, 1 ≤ yearOf r → yearOf r ≤ 9999 → keyFile s r ∈ σ.keys →
    (keyFile s r ∉ (destroyExpired P keepQuarters.toNat asOfMs σ).2.keys ↔
      keepQuarters.toNat < quarterOf asOfMs - quarterOf r ∧ ∀ h ∈ holds, h.subject ≠ s)
  /-- No record younger than the window's near end loses its key. -/
  young : ∀ s r, 1 ≤ yearOf r → yearOf r ≤ 9999 → keyFile s r ∈ σ.keys →
    ageMonths r asOfMs < (windowMonths keepQuarters).1.toNat →
      keyFile s r ∈ (destroyExpired P keepQuarters.toNat asOfMs σ).2.keys
  /-- Every record as old as its far end does, unless it is held. -/
  old : ∀ s r, 1 ≤ yearOf r → yearOf r ≤ 9999 → keyFile s r ∈ σ.keys →
    (windowMonths keepQuarters).2.toNat ≤ ageMonths r asOfMs → (∀ h ∈ holds, h.subject ≠ s) →
      keyFile s r ∉ (destroyExpired P keepQuarters.toNat asOfMs σ).2.keys
  window : (windowMonths keepQuarters).1.toNat = 3 * keepQuarters.toNat ∧
    (windowMonths keepQuarters).2.toNat = 3 * keepQuarters.toNat + 3
  /-- The report's counts add up. -/
  counts : ∀ report, (destroyExpired P keepQuarters.toNat asOfMs σ).1 = .ok report →
    report.keysWalked =
        report.keysKept + report.keysDestroyed + report.keysHeld + report.keysUnreadable ∧
      (report.destroyedByEpoch.map (·.2)).sum = report.keysDestroyed
  /-- The preview is the report. -/
  foreseen : preview P keepQuarters.toNat asOfMs σ =
    ((destroyExpired P keepQuarters.toNat asOfMs σ).1, σ)
  /-- A second pass destroys nothing. -/
  again : ∀ report σ', destroyExpired P keepQuarters.toNat asOfMs σ = (.ok report, σ') →
    ∃ second, destroyExpired P keepQuarters.toNat asOfMs σ' = (.ok second, σ') ∧ second.keysDestroyed = 0

section

variable {P : Pipeline} {σ : Store} {holds : List Hold} {keepQuarters : UInt32} {asOfMs : ℤ}

theorem monthOf_div (ms : ℤ) : monthOf ms / 3 = quarterOf ms := by
  have := month_bounds ms
  simp only [monthOf, quarterOf]
  omega

/-- A key as young as a pass keeps is not due. -/
theorem quarters_of_young {r : ℤ} {n : ℕ} (h : ageMonths r asOfMs < 3 * n) :
    quarterOf asOfMs - quarterOf r ≤ n := by
  rw [← monthOf_div, ← monthOf_div]
  rw [ageMonths] at h
  split_ifs at h <;> omega

theorem quarters_of_old {r : ℤ} {n : ℕ} (h : 3 * n + 3 ≤ ageMonths r asOfMs) :
    (n : ℤ) < quarterOf asOfMs - quarterOf r := by
  rw [← monthOf_div, ← monthOf_div]
  rw [ageMonths] at h
  split_ifs at h <;> omega

theorem windowMonths_of_lt (h : 3 * keepQuarters.toNat + 3 < 2 ^ 32) :
    (windowMonths keepQuarters).1.toNat = 3 * keepQuarters.toNat ∧
      (windowMonths keepQuarters).2.toNat = 3 * keepQuarters.toNat + 3 := by
  have h3 : (3 : UInt32).toNat = 3 := rfl
  simp only [windowMonths, UInt32.toNat_add, UInt32.toNat_mul, h3]
  omega

variable (hkept : WellKept σ.keys) (hholds : standing P σ = (.ok holds, σ)) (h0 : 1 ≤ yearOf asOfMs)
  (h1 : yearOf asOfMs ≤ 9999)

include hkept hholds h0 h1

theorem due_iff {s : SubjectHash} {r : ℤ} (hr0 : 1 ≤ yearOf r) (hr1 : yearOf r ≤ 9999)
    (hfile : keyFile s r ∈ σ.keys) :
    keyFile s r ∉ (destroyExpired P keepQuarters.toNat asOfMs σ).2.keys ↔
      keepQuarters.toNat < quarterOf asOfMs - quarterOf r ∧ ∀ h ∈ holds, h.subject ≠ s := by
  have hplace := index_containing r (by omega) hr1
  have hdiv := quarterOf_div r
  have hdivAs := quarterOf_div asOfMs
  rcases quartersBefore_containing asOfMs (by omega) h1 keepQuarters with
    ⟨hcal, cutoff, hcut, htext⟩ | ⟨hcal, hnone⟩
  · obtain ⟨ks, hiff, -, hrun⟩ := destroyExpired_eq hkept hholds hcut
    have hback := keepQuarters.toNat_lt
    have hindex := index_quarterLabel (by omega) (by omega) htext
    rw [hrun]
    refine (mem_after hiff hfile).trans (and_congr_left fun _ => ?_)
    rw [precedes_eq_some]
    constructor
    · rintro ⟨i, j, hi, hj, hij⟩
      obtain rfl := Option.some.inj (hplace.symm.trans hi)
      obtain rfl := Option.some.inj (hindex.symm.trans hj)
      have := of_decide_eq_true hij
      omega
    · intro hlt
      exact ⟨_, _, hplace, hindex, decide_eq_true (by omega)⟩
  · obtain ⟨err, hsurvey⟩ := survey_none (P := P) (σ := σ) hnone
    have hrun : destroyExpired P keepQuarters.toNat asOfMs σ = (.error err, σ) := by
      rw [destroyExpired, bind_of_error hsurvey]
    rw [hrun]
    refine iff_of_false (fun hno => hno hfile) ?_
    rintro ⟨hlt, -⟩
    omega

/-- A pass that found what is due leaves nothing due. -/
theorem destroyExpired_again {report : RetainReport} {σ' : Store}
    (hrun : destroyExpired P keepQuarters.toNat asOfMs σ = (.ok report, σ')) :
    ∃ second, destroyExpired P keepQuarters.toNat asOfMs σ' = (.ok second, σ') ∧ second.keysDestroyed = 0 := by
  rcases quartersBefore_containing asOfMs (by omega) h1 keepQuarters with
    ⟨hcal, cutoff, hcut, htext⟩ | ⟨hcal, hnone⟩
  · obtain ⟨ks, hiff, -, hrun'⟩ := destroyExpired_eq hkept hholds hcut
    obtain ⟨-, rfl⟩ := Prod.mk.inj (hrun'.symm.trans hrun)
    have hkept' : WellKept ((destroyedBy cutoff holds ks).foldl (fun t c => t.erase c.path) σ.keys) :=
      fun p hp => hkept p ((mem_foldl_erase _ _).1 hp).1
    obtain ⟨ks', hiff', -, hrun''⟩ := destroyExpired_eq (P := P)
      (σ := { σ with keys := (destroyedBy cutoff holds ks).foldl (fun t c => t.erase c.path) σ.keys })
      hkept' (standing_of_holdLog (P := P) (σ := σ) rfl hholds) hcut
    have hnothing : destroyedBy cutoff holds ks' = [] := by
      refine List.eq_nil_iff_forall_not_mem.2 fun c hc => ?_
      obtain ⟨hmem, hdue⟩ := mem_destroyedBy hc
      obtain ⟨hbefore, -⟩ := (mem_foldl_erase _ _).1 ((hiff' _).1 hmem)
      exact (mem_after hiff hbefore).2 hdue ((hiff' _).1 hmem)
    rw [hnothing] at hrun''
    refine ⟨_, hrun'', ?_⟩
    have : ((candidatesOf cutoff holds ks').filter fun c => c.verdict = .destroy) = [] := hnothing
    simp only [tally, this, List.length_nil]
  · obtain ⟨err, hsurvey⟩ := survey_none (P := P) (σ := σ) hnone
    rw [destroyExpired, bind_of_error hsurvey] at hrun
    cases hrun

theorem preview_eq : preview P keepQuarters.toNat asOfMs σ =
    ((destroyExpired P keepQuarters.toNat asOfMs σ).1, σ) := by
  rcases quartersBefore_containing asOfMs (by omega) h1 keepQuarters with
    ⟨hcal, cutoff, hcut, htext⟩ | ⟨hcal, hnone⟩
  · obtain ⟨ks, -, hpreview, hrun⟩ := destroyExpired_eq hkept hholds hcut
    rw [hpreview, hrun]
  · obtain ⟨err, hsurvey⟩ := survey_none (P := P) (σ := σ) hnone
    rw [preview, destroyExpired, bind_of_error hsurvey, bind_of_error hsurvey]

/-- **Retention keeps its promise exactly when its window does not overflow.** -/
theorem retention_iff : Retention P keepQuarters asOfMs holds σ ↔ 3 * keepQuarters.toNat + 3 < 2 ^ 32 := by
  constructor
  · intro h
    rw [← h.window.2]
    exact (windowMonths keepQuarters).2.toNat_lt
  · intro hlt
    have hwindow := windowMonths_of_lt hlt
    constructor
    case due => exact fun s r hr0 hr1 hfile => due_iff hkept hholds h0 h1 hr0 hr1 hfile
    case young =>
      intro s r hr0 hr1 hfile hage
      by_contra hgone
      have hdue := ((due_iff hkept hholds h0 h1 hr0 hr1 hfile).1 hgone).1
      rw [hwindow.1] at hage
      have := quarters_of_young (n := keepQuarters.toNat) (by push_cast at hage; exact hage)
      omega
    case old =>
      intro s r hr0 hr1 hfile hage hfree
      rw [hwindow.2] at hage
      exact (due_iff hkept hholds h0 h1 hr0 hr1 hfile).2
        ⟨quarters_of_old (by push_cast at hage; exact hage), hfree⟩
    case window => exact hwindow
    case counts =>
      intro report hreport
      obtain ⟨cutoff, cs, rfl⟩ := destroyExpired_report hreport
      exact ⟨tally_walked cutoff cs, tally_destroyed cutoff cs⟩
    case foreseen => exact preview_eq hkept hholds h0 h1
    case again => exact fun report σ' hrun => destroyExpired_again hkept hholds h0 h1 hrun

end

/-! ## A store with one old key -/

/-- The first instant of 2025. -/
def startOf2025 : ℤ := 1735689600000

/-- The key of one subject's records of the first quarter of 2025. -/
def oneOldKey : Store :=
  { emptyStore with keys := (∅ : Tree).write (keyFile someSubject startOf2025) [] 0 }

theorem wellKept_oneOldKey : WellKept oneOldKey.keys := by
  intro p hp _
  rcases (AList.mem_insert _).1 hp with rfl | hp
  · exact ⟨_, _, rfl⟩
  · exact absurd hp (AList.notMem_empty p)

theorem standing_oneOldKey : standing (deployment declaredSubjects) oneOldKey = (.ok [], oneOldKey) := rfl

theorem retention_of_oneOldKey :
    Retention (deployment declaredSubjects) 4 endOf2026 [] oneOldKey ∧
      keyFile someSubject startOf2025 ∈ oneOldKey.keys :=
  ⟨(retention_iff wellKept_oneOldKey standing_oneOldKey (by decide) (by decide)).2 (by decide),
    (AList.mem_insert _).2 (.inl rfl)⟩

/-- A window counted in a `u32` wraps round: it ends before it begins. -/
theorem wide_window_wraps :
    ¬ Retention (deployment declaredSubjects) 1431655765 endOf2026 [] oneOldKey :=
  fun h => absurd h.window.2 (by decide)

end Yaam.Core
