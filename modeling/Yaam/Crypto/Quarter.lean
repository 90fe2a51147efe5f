/-
  The quarters that labels name (`yaam-crypto`, `seal.rs`).

  * `yearOf` and `quarterOf` are the calendar's own account of an instant;
  * `quarter_eq_some`: a label is read when it is two runs of digits around `-Q`;
  * `index_containing`: the label of an instant has that instant's place in the calendar,
    `calendars_agree`: which is that of the date it is filed under;
  * `exists_quarterOf`: each quarter up to the year 9999 has an instant.
-/
import Yaam.Crypto.Block
import Yaam.Contract.Calendar

namespace Yaam.Crypto

open Text Contract

/-! ## Instants -/

def yearOf (ms : ℤ) : ℤ := (civilFromMillis ms).1

/-- Quarters since year zero. -/
def quarterOf (ms : ℤ) : ℤ := yearOf ms * 4 + ((civilFromMillis ms).2 - 1) / 3

/-- The two calendars of the source agree on the month of an instant. -/
theorem civilFromMillis_eq (ms : ℤ) :
    civilFromMillis ms = ((civilFromMs ms).1, (civilFromMs ms).2.1) := Prod.ext rfl rfl

theorem month_bounds (ms : ℤ) : 1 ≤ (civilFromMillis ms).2 ∧ (civilFromMillis ms).2 ≤ 12 := by
  rw [civilFromMillis_eq]
  exact (civilFromDays_mem (ms / msPerDay)).1

theorem quarterOf_eq (ms : ℤ) : quarterOf ms = quarterOfDay (ms / msPerDay) := by
  rw [quarterOf, yearOf, civilFromMillis_eq]
  rfl

theorem quarterOf_div (ms : ℤ) : quarterOf ms / 4 = yearOf ms := by
  have := month_bounds ms
  simp only [quarterOf]
  omega

theorem quarterOf_mod (ms : ℤ) : quarterOf ms % 4 = ((civilFromMillis ms).2 - 1) / 3 := by
  have := month_bounds ms
  simp only [quarterOf]
  omega

/-- An instant's label spells its quarter. -/
theorem containing_text (ms : ℤ) :
    (Epoch.containing ms).text = quarterLabel (quarterOf ms / 4) (quarterOf ms % 4 + 1) := by
  rw [quarterOf_div, quarterOf_mod]
  rfl

/-! ## Labels -/

/-- A label as two runs of digits around `-Q`. -/
structure Spelled (t year quarter : Text) : Prop where
  text : t = year ++ '-' :: 'Q' :: quarter
  someYear : year ≠ []
  someQuarter : quarter ≠ []
  yearDigits : year.all isDigit = true
  quarterDigits : quarter.all isDigit = true

theorem notMem_digits {t : Text} (h : t.all isDigit = true) {c : Char} (hc : isDigit c = false) :
    c ∉ t := by
  intro hm
  rw [List.all_eq_true] at h
  rw [h c hm] at hc
  cases hc

/-- **A label is read when it is two runs of digits around `-Q` that spell a quarter.** -/
theorem quarter_eq_some {e : Epoch} {y q : ℤ} : e.quarter = some (y, q) ↔
    ∃ year quarter, Spelled e.text year quarter ∧ number year < 2 ^ 63 ∧ 1 ≤ number quarter ∧
      number quarter ≤ 4 ∧ y = number year ∧ q = number quarter := by
  constructor
  · intro h
    obtain ⟨⟨q', y'⟩, hsplit, h⟩ := Option.bind_eq_some_iff.1 h
    have htext := congrArg List.reverse (splitOnce_eq_some hsplit).1
    rw [List.reverse_reverse] at htext
    dsimp only at h
    split at h
    · rename_i year
      simp only [Option.bind_eq_bind, Option.bind_some] at h
      split_ifs at h with hc
      obtain ⟨hy0, hq0, hyd, hqd, hlt, h1, h4⟩ := hc
      obtain ⟨rfl, rfl⟩ := Prod.mk.inj (Option.some.inj h)
      refine ⟨year.reverse, q'.reverse, ⟨?_, hy0, hq0, hyd, hqd⟩, hlt, h1, h4, rfl, rfl⟩
      rw [htext]
      simp
    · cases h
  · rintro ⟨year, quarter, ⟨htext, hy0, hq0, hyd, hqd⟩, hlt, h1, h4, rfl, rfl⟩
    have hQ : 'Q' ∉ quarter.reverse := by
      rw [List.mem_reverse]
      exact notMem_digits hqd (by decide)
    have hrev : e.text.reverse = quarter.reverse ++ 'Q' :: '-' :: year.reverse := by
      rw [htext]
      simp
    simp only [Epoch.quarter, hrev, splitOnce_append_cons hQ, Option.bind_eq_bind, Option.bind_some,
      List.reverse_reverse]
    rw [if_pos ⟨hy0, hq0, hyd, hqd, hlt, h1, h4⟩]

theorem Epoch.ext_text {e o : Epoch} (h : e.text = o.text) : e = o := by
  cases e
  cases o
  simpa using h

/-- A label is read one way. -/
theorem Spelled.unique {t y q y' q' : Text} (h : Spelled t y q) (h' : Spelled t y' q') :
    y = y' ∧ q = q' := by
  have hrev : q.reverse ++ 'Q' :: '-' :: y.reverse = q'.reverse ++ 'Q' :: '-' :: y'.reverse := by
    have := congrArg List.reverse (h.text.symm.trans h'.text)
    simpa using this
  have hQ : 'Q' ∉ q.reverse := fun hm =>
    notMem_digits h.quarterDigits (by decide) (List.mem_reverse.1 hm)
  have hQ' : 'Q' ∉ q'.reverse := fun hm =>
    notMem_digits h'.quarterDigits (by decide) (List.mem_reverse.1 hm)
  have hsplit := splitOnce_append_cons hQ ('-' :: y.reverse)
  rw [hrev, splitOnce_append_cons hQ'] at hsplit
  obtain ⟨hq, hy⟩ := Prod.mk.inj (Option.some.inj hsplit)
  exact ⟨(List.reverse_inj.1 (List.cons.inj hy).2).symm, (List.reverse_inj.1 hq).symm⟩

theorem padNat_ne_nil (w n : ℕ) : padNat w n ≠ [] := by
  simp [padNat, Nat.toDigits_ne_nil]

theorem all_padNat (w n : ℕ) : (padNat w n).all isDigit = true := by
  rw [List.all_eq_true]
  intro c hc
  have := mem_padNat hc
  simp only [Char.isDigit, Bool.and_eq_true, decide_eq_true_eq] at this
  simp only [isDigit, Bool.and_eq_true, decide_eq_true_eq]
  exact this

theorem padInt_natCast (w n : ℕ) : padInt w (n : ℤ) = padNat w n := by
  rw [padInt, if_neg (by omega), Int.natAbs_natCast]

/-- What a build writes for a quarter is read back. -/
theorem spelled_quarterLabel (y q : ℕ) :
    Spelled (quarterLabel y q) (padNat 4 y) (padNat 0 q) where
  text := by rw [quarterLabel, padInt_natCast, padInt_natCast]
  someYear := padNat_ne_nil _ _
  someQuarter := padNat_ne_nil _ _
  yearDigits := all_padNat _ _
  quarterDigits := all_padNat _ _

theorem quarterLabel_inj {y q y' q' : ℕ} (h : quarterLabel y q = quarterLabel y' q') :
    y = y' ∧ q = q' := by
  obtain ⟨hy, hq⟩ := (spelled_quarterLabel y q).unique (h ▸ spelled_quarterLabel y' q')
  have hy' := congrArg number hy
  have hq' := congrArg number hq
  rw [number_padNat, number_padNat] at hy' hq'
  exact ⟨hy', hq'⟩

/-! ## Places in the calendar -/

/-- A number an `i64` holds. -/
def Fits (i : ℤ) : Prop := -2 ^ 63 ≤ i ∧ i < 2 ^ 63

instance (i : ℤ) : Decidable (Fits i) := inferInstanceAs (Decidable (_ ∧ _))

theorem wrap64_of_fits {i : ℤ} (h : Fits i) : wrap64 i = i := by
  obtain ⟨h1, h2⟩ := h
  rw [wrap64, Int.bmod_def]
  split_ifs <;> omega

/-- The index of a label that is read, when its arithmetic stays in range. -/
theorem index_of_quarter {e : Epoch} {y q : ℤ} (h : e.quarter = some (y, q)) (hy : 0 ≤ y)
    (hq : 1 ≤ q) (hfits : Fits (y * 4 + q)) : e.index = some (y * 4 + q - 1) := by
  obtain ⟨h1, h2⟩ := hfits
  rw [Epoch.index, h, Option.map_some, wrap64_of_fits (i := y * 4) ⟨by omega, by omega⟩,
    wrap64_of_fits ⟨h1, h2⟩, wrap64_of_fits ⟨by omega, by omega⟩]

theorem quarter_quarterLabel {e : Epoch} {i : ℤ} (h0 : 0 ≤ i) (h1 : i / 4 < 2 ^ 63)
    (he : e.text = quarterLabel (i / 4) (i % 4 + 1)) : e.quarter = some (i / 4, i % 4 + 1) := by
  obtain ⟨y, hy⟩ : ∃ y : ℕ, (y : ℤ) = i / 4 := ⟨(i / 4).toNat, by omega⟩
  obtain ⟨q, hq⟩ : ∃ q : ℕ, (q : ℤ) = i % 4 + 1 := ⟨(i % 4 + 1).toNat, by omega⟩
  rw [← hy, ← hq] at he ⊢
  refine quarter_eq_some.2 ⟨padNat 4 y, padNat 0 q, he ▸ spelled_quarterLabel y q, ?_, ?_, ?_, ?_, ?_⟩
  all_goals rw [number_padNat]
  all_goals omega

/-- A label written for a place in the calendar is read as that place. -/
theorem index_quarterLabel {e : Epoch} {i : ℤ} (h0 : 0 ≤ i) (h1 : i < 2 ^ 62)
    (he : e.text = quarterLabel (i / 4) (i % 4 + 1)) : e.index = some i := by
  rw [index_of_quarter (quarter_quarterLabel h0 (by omega) he) (by omega) (by omega)
    ⟨by omega, by omega⟩]
  congr 1
  omega

theorem quarterOf_lt {ms : ℤ} (h : Fits ms) : quarterOf ms < 2 ^ 62 := by
  obtain ⟨-, h1⟩ := h
  rw [quarterOf_eq, msPerDay]
  by_contra hlarge
  have hstep := quarterDay_mono (i := 0) (j := quarterOfDay (ms / 86400000)) (by omega)
  have hlow := (quarterOfDay_bounds (ms / 86400000)).1
  have hzero : quarterDay 0 = -719528 := by decide
  omega

/-- The label of an instant has its place in the calendar. -/
theorem index_of_fits {ms : ℤ} (h : Fits ms) (h0 : 0 ≤ yearOf ms) :
    (Epoch.containing ms).index = some (quarterOf ms) := by
  have hdiv := quarterOf_div ms
  exact index_quarterLabel (by omega) (quarterOf_lt h) (containing_text ms)

/-- **The key's quarter and the directory's date agree**; quarters follow the instants, and
    one day on is at most one quarter on. -/
theorem calendars_agree :
    (∀ ms, Fits ms → 1 ≤ (civilFromMs ms).2.1 ∧ (civilFromMs ms).2.1 ≤ 12 ∧
      (Epoch.containing ms).text =
        quarterLabel (civilFromMs ms).1 (((civilFromMs ms).2.1 - 1) / 3 + 1)) ∧
    (∀ a b, Fits a → Fits b → a ≤ b → 0 ≤ (civilFromMs a).1 →
      ∃ i j, (Epoch.containing a).index = some i ∧ (Epoch.containing b).index = some j ∧ i ≤ j) ∧
    ∀ a b, Fits a → Fits b → b / msPerDay = a / msPerDay + 1 → 0 ≤ (civilFromMs a).1 →
      ∃ i j, (Epoch.containing a).index = some i ∧ (Epoch.containing b).index = some j ∧
        j ≤ i + 1 := by
  have hyear : ∀ ms, yearOf ms = (civilFromMs ms).1 := fun ms => by rw [yearOf, civilFromMillis_eq]
  have hmono : ∀ a b, Fits a → Fits b → a / msPerDay ≤ b / msPerDay → 0 ≤ (civilFromMs a).1 →
      quarterOf a ≤ quarterOf b ∧ (Epoch.containing a).index = some (quarterOf a) ∧
        (Epoch.containing b).index = some (quarterOf b) := by
    intro a b ha hb hab h0
    have hle : quarterOf a ≤ quarterOf b := by
      rw [quarterOf_eq, quarterOf_eq]
      exact quarterOfDay_mono hab
    have hdiva := quarterOf_div a
    have hdivb := quarterOf_div b
    rw [← hyear] at h0
    exact ⟨hle, index_of_fits ha h0, index_of_fits hb (by omega)⟩
  refine ⟨fun ms _ => ?_, fun a b ha hb hab h0 => ?_, fun a b ha hb hab h0 => ?_⟩
  · obtain ⟨⟨hm1, hm12⟩, -⟩ := civilFromDays_mem (ms / msPerDay)
    refine ⟨hm1, hm12, ?_⟩
    rw [containing_text, quarterOf_div, quarterOf_mod, civilFromMillis_eq, hyear]
  · have hday : a / msPerDay ≤ b / msPerDay := Int.ediv_le_ediv (by decide) hab
    obtain ⟨hle, hi, hj⟩ := hmono a b ha hb hday h0
    exact ⟨_, _, hi, hj, hle⟩
  · obtain ⟨-, hi, hj⟩ := hmono a b ha hb (by omega) h0
    refine ⟨_, _, hi, hj, ?_⟩
    rw [quarterOf_eq b, hab, quarterOf_eq a]
    exact quarterOfDay_succ _

/-- The end of 2023 and the start of 2024. -/
theorem calendars_agree_new_year : ∃ i j, (Epoch.containing 1704067199999).index = some i ∧
    (Epoch.containing 1704067200000).index = some j ∧ i ≤ j :=
  calendars_agree.2.1 _ _ (by decide) (by decide) (by decide) (by decide)

theorem index_containing (ms : ℤ) (h0 : 0 ≤ yearOf ms) (h1 : yearOf ms ≤ 9999) :
    (Epoch.containing ms).index = some (quarterOf ms) := by
  have := quarterOf_div ms
  exact index_quarterLabel (by omega) (by omega) (containing_text ms)

/-- Quarters, some number of them back: the label, and when there is none. -/
theorem quartersBefore_containing (ms : ℤ) (h0 : 0 ≤ yearOf ms) (h1 : yearOf ms ≤ 9999) (back : UInt32) :
    (4 ≤ quarterOf ms - back.toNat ∧ ∃ cutoff, (Epoch.containing ms).quartersBefore back.toNat = some cutoff ∧
        cutoff.text = quarterLabel ((quarterOf ms - back.toNat) / 4) ((quarterOf ms - back.toNat) % 4 + 1)) ∨
      quarterOf ms - back.toNat < 4 ∧ (Epoch.containing ms).quartersBefore back.toNat = none := by
  have hdiv := quarterOf_div ms
  have hback := back.toNat_lt
  have hwrap : wrap64 (quarterOf ms - back.toNat) = quarterOf ms - back.toNat :=
    wrap64_of_fits ⟨by omega, by omega⟩
  simp only [Epoch.quartersBefore, index_containing ms h0 h1, Option.bind_eq_bind, Option.bind_some, hwrap]
  by_cases hcut : 4 ≤ quarterOf ms - back.toNat
  · rw [if_pos ⟨by omega, by omega⟩]
    exact .inl ⟨hcut, _, rfl, rfl⟩
  · rw [if_neg (by omega)]
    exact .inr ⟨by omega, rfl⟩

/-! ## Every quarter has an instant -/

/-- The first instant of a quarter. -/
def quarterStart (i : ℤ) : ℤ := daysFromCivil (i / 4) (i % 4 * 3 + 1) 1 * msPerDay

theorem quarterOf_quarterStart (i : ℤ) : quarterOf (quarterStart i) = i := by
  rw [quarterOf_eq, quarterStart, Int.mul_ediv_cancel _ (by decide)]
  have hstep := quarterDay_step i
  exact quarterOfDay_eq ⟨le_rfl, lt_of_lt_of_le (Int.lt_add_of_pos_right _ (by decide)) hstep⟩

/-- Each quarter up to the year 9999 has an instant an `i64` holds. -/
theorem exists_quarterOf {i : ℤ} (h0 : 0 ≤ i) (h1 : i / 4 ≤ 9999) :
    ∃ ms, Fits ms ∧ quarterOf ms = i ∧ yearOf ms = i / 4 := by
  have hquarter := quarterOf_quarterStart i
  refine ⟨quarterStart i, ?_, hquarter, ?_⟩
  · simp only [Fits, quarterStart, daysFromCivil, msPerDay]
    split_ifs <;> omega
  · rw [← quarterOf_div, hquarter]

end Yaam.Crypto
