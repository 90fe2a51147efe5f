/-
  The index's reading of a timestamp: `CAST(ROUND(unixepoch(t, 'subsec') * 1000)
  AS INTEGER)`, as `insert_record` converts both stamps of a record
  (`yaam-store`, `store.rs`).

  The grammar is SQLite's: `YYYY-MM-DD`, `T` or a space, `HH` up to 24, `MM` and
  `SS` up to 59, a decimal fraction kept to the nearest millisecond, and a zone
  `Z`, `z` or `±HH:MM` with `HH` up to 14.  The date goes through the Julian day,
  as SQLite's `computeJD` does.

  * `julianDay_eq`: the Julian-day formula and `daysFromCivil` count the same
    days;
  * `nearestMs_eq`: rounding and truncating a fraction agree unless the fourth
    digit is 5 or more;
  * `unixepochMs_of_parseMs`: what the index makes of a timestamp the contract
    reads, and `sameReading_iff` exactly when that is the contract's instant.
-/
import Yaam.Contract.Timestamp
import Mathlib.Tactic.Positivity

namespace Yaam.Index

open Text Contract

/-! ## SQLite's date grammar -/

/-- `getDigits`: a run of ASCII digits whose value lies in a range. -/
def getDigits (t : Text) (i j : ℕ) (lo hi : ℤ) : Option ℤ :=
  (digits t i j).filter fun n => lo ≤ n ∧ n ≤ hi

/-- A run of fraction digits to the nearest millisecond. -/
def nearestMs (ds : Text) : ℕ := (2000 * number ds + 10 ^ ds.length) / (2 * 10 ^ ds.length)

/-- The optional fraction after the seconds, in milliseconds, and what follows
    it.  A dot that no digit follows is left for the zone to refuse. -/
def subsec (rest : Text) : ℤ × Text :=
  match rest with
  | '.' :: afterDot =>
    if afterDot.takeWhile isDigit = [] then (0, rest)
    else (nearestMs (afterDot.takeWhile isDigit), afterDot.dropWhile isDigit)
  | _ => (0, rest)

/-- `parseTimezone`: the zone suffix in minutes east of UTC, absent for UTC. -/
def parseTimezone (rest : Text) : Option ℤ :=
  if rest = [] ∨ rest = ['Z'] ∨ rest = ['z'] then some 0
  else do
    let sgn ← zoneSign rest
    let nHr ← getDigits rest 1 3 0 14
    let nMn ← getDigits rest 4 6 0 59
    if rest[3]? = some ':' ∧ rest.length = 6 then some (sgn * (nMn + nHr * 60)) else none

/-- `computeJD`: the Julian day at noon of a date, plus one half. -/
def julianDay (year month day : ℤ) : ℤ :=
  let y := if month ≤ 2 then year - 1 else year
  let m := if month ≤ 2 then month + 12 else month
  let a := (y + 4800) / 100
  let b := 38 - a + a / 4
  36525 * (y + 4716) / 100 + 306001 * (m + 1) / 10000 + day + b

/-- `CAST(ROUND(unixepoch(t, 'subsec') * 1000) AS INTEGER)`: `none` is NULL. -/
def unixepochMs (t : Text) : Option ℤ :=
  if t[4]? ≠ some '-' ∨ t[7]? ≠ some '-' then none
  else if (t[10]? ≠ some 'T' ∧ t[10]? ≠ some ' ') ∨ t[13]? ≠ some ':' ∨ t[16]? ≠ some ':' then none
  else do
    let y ← getDigits t 0 4 0 9999
    let m ← getDigits t 5 7 1 12
    let d ← getDigits t 8 10 1 31
    let hh ← getDigits t 11 13 0 24
    let mm ← getDigits t 14 16 0 59
    let ss ← getDigits t 17 19 0 59
    let tz ← parseTimezone (subsec (t.drop 19)).2
    -- the Julian day counts from noon: 1524.5 days back to its origin, 2440587.5 to the epoch
    let iJD := julianDay y m d * 86400000 - 131716800000 + hh * 3600000 + mm * 60000 +
      (ss * 1000 + (subsec (t.drop 19)).1) - tz * 60000
    some (iJD - 210866760000000)

/-! ## The calendar -/

/-- The Julian-day formula and Hinnant's count the same days. -/
theorem julianDay_eq {year month day : ℤ} (hm : 1 ≤ month ∧ month ≤ 12) :
    julianDay year month day - 2442112 = daysFromCivil year month day := by
  obtain ⟨hm1, hm12⟩ := hm
  have hmonth : (306001 * ((if month ≤ 2 then month + 12 else month) + 1) / 10000 : ℤ) =
      (153 * ((month + 9) % 12) + 2) / 5 + 122 := by
    interval_cases month <;> rfl
  simp only [julianDay, daysFromCivil, hmonth]
  generalize (if month ≤ 2 then year - 1 else year) = y
  -- the year splits into its 400-year era and the year of the era
  obtain ⟨q, r, hq, hr⟩ : ∃ q r : ℤ, y = 400 * q + r ∧ (0 ≤ r ∧ r < 400) :=
    ⟨y / 400, y % 400, by omega, by omega⟩
  have h1 : (y + 4800) / 100 = 4 * q + 48 + r / 100 := by omega
  have h2 : (4 * q + 48 + r / 100) / 4 = q + 12 := by omega
  have h3 : 36525 * (y + 4716) / 100 = 146100 * q + 365 * r + 1722519 + r / 4 := by omega
  have h4 : y / 400 = q := by omega
  have h5 : y - q * 400 = r := by omega
  rw [h1, h2, h3, h4, h5]
  omega

/-! ## The fraction -/

/-- A fraction the index rounds up: its fourth digit is 5 or more. -/
def roundsUp (ds : Text) : Bool := (ds[3]?).any fun c => 5 ≤ digitVal c

/-- Past the third digit, a run of digits rounds by its next digit alone. -/
theorem tail_half {r : Text} (h : r.all isDigit = true) :
    (2 * number r + 10 ^ r.length) / (2 * 10 ^ r.length) =
      if (r[0]?).any (fun c => 5 ≤ digitVal c) then 1 else 0 := by
  cases r with
  | nil => simp [number]
  | cons c r =>
    simp only [List.all_cons, Bool.and_eq_true] at h
    have h1 := digitVal_le h.1
    have h2 := number_lt h.2
    rw [number_cons, List.length_cons, Nat.pow_succ]
    generalize 10 ^ r.length = p at h2 ⊢
    simp only [List.getElem?_cons_zero, Option.any_some, decide_eq_true_eq]
    split_ifs with h5
    · have : 5 * p ≤ digitVal c * p := Nat.mul_le_mul_right _ h5
      have : digitVal c * p ≤ 9 * p := Nat.mul_le_mul_right _ h1
      rw [Nat.div_eq_iff (by omega)]
      omega
    · have : digitVal c * p ≤ 4 * p := Nat.mul_le_mul_right _ (by omega)
      rw [Nat.div_eq_iff (by omega)]
      omega

theorem nearestMs_eq {ds : Text} (h : ds.all isDigit = true) :
    (nearestMs ds : ℤ) = truncMs ds + if roundsUp ds then 1 else 0 := by
  rcases ds with - | ⟨a, - | ⟨b, - | ⟨c, r⟩⟩⟩
  · simp [nearestMs, truncMs, roundsUp, number]
  · simp [nearestMs, truncMs, roundsUp, number]; omega
  · simp [nearestMs, truncMs, roundsUp, number]; omega
  · simp only [List.all_cons, Bool.and_eq_true] at h
    have htail := tail_half h.2.2.2
    have hp : 0 < 10 ^ r.length := by positivity
    have hsum : 2000 * number (a :: b :: c :: r) + 10 ^ (a :: b :: c :: r).length =
        1000 * (2 * number r + 10 ^ r.length) + 1000 * (2 * 10 ^ r.length) *
          (100 * digitVal a + 10 * digitVal b + digitVal c) := by
      simp only [number_cons, List.length_cons]
      ring
    have hden : 2 * 10 ^ (a :: b :: c :: r).length = 1000 * (2 * 10 ^ r.length) := by
      simp only [List.length_cons]
      ring
    have hn : nearestMs (a :: b :: c :: r) = (if roundsUp (a :: b :: c :: r) then 1 else 0) +
        (100 * digitVal a + 10 * digitVal b + digitVal c) := by
      rw [nearestMs, hsum, hden, Nat.add_mul_div_left _ _ (by omega),
        Nat.mul_div_mul_left _ _ (by omega), htail]
      rfl
    rw [hn]
    simp only [truncMs, List.take_succ_cons, List.take_zero, List.zipWith_cons_cons,
      List.zipWith_nil_left, List.sum_cons, List.sum_nil]
    push_cast
    ring

/-! ## Where the two readings agree -/

/-- A timestamp the contract reads and the index does too: no lowercase `t`,
    no leap second, no zone beyond 14 hours. -/
structure Indexable (t : Text) : Prop where
  separator : t[10]? ≠ some 't'
  seconds : digits t 17 19 ≠ some 60
  zone : ∀ hours ∈ (fraction (t.drop 19)).bind (fun f => digits f.2 1 3), hours ≤ 14

/-- The digits of the fraction after the seconds. -/
def fractionDigits (t : Text) : Text :=
  match t.drop 19 with
  | '.' :: afterDot => afterDot.takeWhile isDigit
  | _ => []

theorem getDigits_of {t : Text} {i j : ℕ} {n lo hi : ℤ} (h : digits t i j = some n) :
    getDigits t i j lo hi = if lo ≤ n ∧ n ≤ hi then some n else none := by
  simp [getDigits, h, Option.filter]

/-- The index's reading of a fraction the contract reads. -/
theorem subsec_of_fraction {t : Text} {f : ℤ} {rest : Text}
    (h : fraction (t.drop 19) = some (f, rest)) :
    subsec (t.drop 19) = (f + if roundsUp (fractionDigits t) then 1 else 0, rest) := by
  unfold fraction at h
  unfold subsec fractionDigits
  split at h
  · rename_i afterDot heq
    simp only [heq]
    split_ifs at h with hds
    obtain ⟨rfl, rfl⟩ := Prod.mk.inj (Option.some.inj h)
    rw [if_neg hds, nearestMs_eq List.all_takeWhile]
  · rename_i hne
    simp only [Option.some.injEq, Prod.mk.injEq] at h
    obtain ⟨rfl, rfl⟩ := h
    split
    · rename_i afterDot heq
      exact absurd heq (hne afterDot)
    · simp [roundsUp]

/-- The index's reading of a zone the contract reads. -/
theorem parseTimezone_of_offset {rest : Text} {o : ℤ} (h : offset rest = some o) :
    parseTimezone rest = if ∀ hours ∈ digits rest 1 3, hours ≤ 14 then some o else none := by
  unfold offset at h
  by_cases hz : rest = ['Z'] ∨ rest = ['z']
  · rw [if_pos hz] at h
    have hd : digits rest 1 3 = none := by rcases hz with rfl | rfl <;> rfl
    simp only [Option.some.injEq] at h
    simp [parseTimezone, hz, hd, h]
  · rw [if_neg hz] at h
    simp only [Option.bind_eq_bind, Option.bind_eq_some_iff, Option.ite_none_left_eq_some] at h
    obtain ⟨sgn, hs, hl, hours, hh, minutes, hm, hr, he⟩ := h
    push Not at hl hr
    have hne : rest ≠ [] := by rintro rfl; simp at hl
    have h0 := digits_nonneg hh
    have hm0 := digits_nonneg hm
    have hmr : (0 ≤ minutes ∧ minutes ≤ 59) := ⟨hm0, hr.2⟩
    have he' : sgn * (minutes + hours * 60) = o := by rw [← Option.some.inj he]; ring
    by_cases h14 : hours ≤ 14
    · have h1 : getDigits rest 1 3 0 14 = some hours := by rw [getDigits_of hh, if_pos ⟨h0, h14⟩]
      have h2 : getDigits rest 4 6 0 59 = some minutes := by rw [getDigits_of hm, if_pos hmr]
      simp only [parseTimezone, hne, hz, or_self, if_false, hs, h1, h2, Option.bind_eq_bind,
        Option.bind_some, hl.1, hl.2, and_self, if_true, he']
      simp [hh, h14]
    · simp [parseTimezone, hne, hz, hs, hh, getDigits_of hh, h14]

theorem indexable_iff {t rest : Text} {f ss : ℤ} (hf : fraction (t.drop 19) = some (f, rest))
    (hs : digits t 17 19 = some ss) :
    Indexable t ↔ t[10]? ≠ some 't' ∧ ss ≠ 60 ∧ ∀ hours ∈ digits rest 1 3, hours ≤ 14 := by
  constructor
  · rintro ⟨h1, h2, h3⟩
    rw [hs] at h2
    rw [hf] at h3
    exact ⟨h1, fun h => h2 (by rw [h]), by simpa using h3⟩
  · rintro ⟨h1, h2, h3⟩
    refine ⟨h1, ?_, ?_⟩
    · rw [hs]
      simpa using h2
    · rw [hf]
      simpa using h3

/-- **The index's reading of a timestamp the contract reads.**  It is NULL unless
    the timestamp is indexable, and then the contract's up to the rounding of the
    fraction. -/
theorem unixepochMs_of_parseMs {t : Text} {ms : ℤ} (h : parseMs t = some ms) :
    (Indexable t → unixepochMs t = some (ms + if roundsUp (fractionDigits t) then 1 else 0)) ∧
    (¬ Indexable t → unixepochMs t = none) := by
  obtain ⟨y, m, d, hh, mm, ss, f, rest, o, ⟨h4, h7, h10, h13, h16⟩, ⟨hy, hm, hd, hhh, hmm, hss⟩,
    ⟨hmr, hdr, hhr, hmmr, hssr⟩, hf, ho, rfl⟩ := parseMs_cases h
  have hy0 := digits_nonneg hy
  have hy1 : y ≤ 9999 := by have := digits_lt hy; norm_num at this; omega
  have hd1 : d ≤ 31 := hdr.2.trans (daysInMonth_le y m)
  have hh0 : hh ≤ 24 := by omega
  have gy : getDigits t 0 4 0 9999 = some y := by rw [getDigits_of hy, if_pos ⟨hy0, hy1⟩]
  have gm : getDigits t 5 7 1 12 = some m := by rw [getDigits_of hm, if_pos hmr]
  have gd : getDigits t 8 10 1 31 = some d := by rw [getDigits_of hd, if_pos ⟨hdr.1, hd1⟩]
  have ghh : getDigits t 11 13 0 24 = some hh := by
    rw [getDigits_of hhh, if_pos ⟨digits_nonneg hhh, hh0⟩]
  have gmm : getDigits t 14 16 0 59 = some mm := by
    rw [getDigits_of hmm, if_pos ⟨digits_nonneg hmm, hmmr⟩]
  have gss : getDigits t 17 19 0 59 = if ss ≠ 60 then some ss else none := by
    rw [getDigits_of hss]
    have := digits_nonneg hss
    by_cases h60 : ss = 60
    · simp [h60]
    · rw [if_pos h60, if_pos (by omega)]
  have hsep : (t[10]? ≠ some 'T' ∧ t[10]? ≠ some ' ') ↔ t[10]? = some 't' := by
    constructor
    · tauto
    · intro h; simp [h]
  have htz := parseTimezone_of_offset ho
  rw [indexable_iff hf hss]
  simp only [unixepochMs, h4, h7, h13, h16, hsep, gy, gm, gd, ghh, gmm, gss,
    subsec_of_fraction hf, Option.bind_eq_bind, Option.bind_some, ne_eq, not_true_eq_false,
    or_self, or_false, if_false]
  by_cases hT : t[10]? = some 't'
  · simp [hT]
  by_cases h60 : ss = 60
  · simp [h60]
  by_cases hz : ∀ hours ∈ digits rest 1 3, hours ≤ 14
  · rw [if_pos hz] at htz
    have hjd : julianDay y m d - 2442112 = daysFromCivil y m d := julianDay_eq hmr
    refine ⟨fun _ => ?_, fun hn => absurd ⟨hT, h60, hz⟩ hn⟩
    simp only [hT, h60, htz, if_false, not_false_eq_true, if_true, Option.bind_some, msPerDay,
      Option.some.injEq]
    omega
  · rw [if_neg hz] at htz
    refine ⟨fun hn => absurd hn.2.2 hz, fun _ => ?_⟩
    simp [htz, hT, h60]

/-- The two readings of a timestamp agree: the index reads the contract's
    instant, and finds it in the window of the day it is filed under. -/
def SameReading (t : Text) (ms : ℤ) : Prop :=
  unixepochMs t = some ms ∧ ∀ v, unixepochMs t = some v →
    let (year, month, day) := civilFromMs ms
    daysFromCivil year month day * msPerDay ≤ v ∧ v < (daysFromCivil year month day + 1) * msPerDay

/-- **The contract and the index read a timestamp the same way exactly when** it
    is indexable and its fourth fraction digit, if any, is below 5. -/
theorem sameReading_iff {t : Text} {ms : ℤ} (h : parseMs t = some ms) :
    SameReading t ms ↔ Indexable t ∧ roundsUp (fractionDigits t) = false := by
  obtain ⟨h1, h2⟩ := unixepochMs_of_parseMs h
  constructor
  · rintro ⟨hv, -⟩
    by_cases hi : Indexable t
    · rw [h1 hi] at hv
      refine ⟨hi, ?_⟩
      by_contra hr
      simp [hr] at hv
    · rw [h2 hi] at hv
      cases hv
  · rintro ⟨hi, hr⟩
    have hv : unixepochMs t = some ms := by simpa [hr] using h1 hi
    refine ⟨hv, fun v hv' => ?_⟩
    obtain rfl : ms = v := Option.some.inj (hv.symm.trans hv')
    exact civilFromMs_day ms

theorem sameReading_iff_utc :
    SameReading "2026-08-20T09:14:02.117Z".toList 1787217242117 ↔
      Indexable "2026-08-20T09:14:02.117Z".toList ∧
        roundsUp (fractionDigits "2026-08-20T09:14:02.117Z".toList) = false :=
  sameReading_iff (by decide)

/-- A leap second: the contract keeps it in its own minute, the index reads NULL. -/
theorem sameReading_leap_second :
    ¬ ∀ (t : Text) (ms : ℤ), parseMs t = some ms → SameReading t ms := by
  intro h
  have hleap := h "2016-12-31T23:59:60Z".toList 1483228799000 (by decide)
  have hnull : unixepochMs "2016-12-31T23:59:60Z".toList = none := by decide
  rw [SameReading, hnull] at hleap
  exact absurd hleap.1 (by decide)

end Yaam.Index
