/-
  The calendar of the contract's timestamps (`yaam-contract`, `timestamp.rs`).

  * `civilFromDays_mem`: a day's date is a date of the calendar;
  * `yearStart` is the first day of a year, `year_iff` which days a year holds;
  * `parseMs_fields`: text of seven fixed-width fields is read as what they spell;
  * `stamps_round_trip_iff`: a stamp that parses is written back exactly when its instant
    lies in the years 0 to 9999.
-/
import Yaam.Contract.Timestamp
import Yaam.Lib.Quoted

namespace Yaam.Contract

open Text

/-! ## Dates -/

/-- The year that a date's month is counted in, and the month, from March on. -/
def marchYear (year month : ℤ) : ℤ := if month ≤ 2 then year - 1 else year

def marchMonth (month : ℤ) : ℤ := (month + 9) % 12

/-- Days before the first of March of a year. -/
def marchDays (year : ℤ) : ℤ := 365 * year + year / 4 - year / 100 + year / 400

theorem daysFromCivil_eq (year month day : ℤ) : daysFromCivil year month day =
    marchDays (marchYear year month) + (153 * marchMonth month + 2) / 5 + day - 1 - 719468 := by
  obtain ⟨y, hy⟩ : ∃ y, y = marchYear year month := ⟨_, rfl⟩
  obtain ⟨k, hk⟩ : ∃ k, k = (153 * ((month + 9) % 12) + 2) / 5 := ⟨_, rfl⟩
  simp only [daysFromCivil, marchDays, marchMonth]
  rw [← marchYear, ← hy, ← hk]
  omega

/-- A year has 365 days, or 366. -/
theorem marchDays_succ (y : ℤ) : marchDays (y + 1) = marchDays y + 365 +
    if (y + 1) % 4 = 0 ∧ ((y + 1) % 100 ≠ 0 ∨ (y + 1) % 400 = 0) then 1 else 0 := by
  simp only [marchDays]
  split_ifs <;> omega

theorem yearOfEra_last {doe yoe : ℤ} (h0 : 0 ≤ doe) (h1 : doe < 146097)
    (h : yoe = (doe - doe / 1460 + doe / 36524 - doe / 146096) / 365)
    (hlast : doe - (365 * yoe + yoe / 4 - yoe / 100) = 365) :
    (yoe + 1) % 4 = 0 ∧ ((yoe + 1) % 100 ≠ 0 ∨ (yoe + 1) % 400 = 0) := by
  obtain ⟨c, hc⟩ : ∃ c, c = doe / 36524 := ⟨_, rfl⟩
  obtain ⟨e, he⟩ : ∃ e, e = doe / 146096 := ⟨_, rfl⟩
  obtain ⟨b, hb⟩ : ∃ b, b = doe / 1460 := ⟨_, rfl⟩
  obtain ⟨g, hg⟩ : ∃ g, g = yoe / 100 := ⟨_, rfl⟩
  obtain ⟨q, hq⟩ : ∃ q, q = yoe / 4 := ⟨_, rfl⟩
  have hy : 0 ≤ yoe ∧ yoe ≤ 399 := by omega
  rw [← hc, ← he, ← hb] at h
  rw [← hg, ← hq] at hlast
  have hstep : q - g + c - e + 1 ≤ b := by omega
  have hday : 1460 * b ≤ doe := by omega
  have hcentury : 36524 * g + 365 ≤ doe := by omega
  have hg3 : g ≤ 3 := by omega
  have hce : g ≤ c - e := by
    obtain h0 | h1 : e = 0 ∨ e = 1 := by omega
    · have hc1 : g ≤ c := by omega
      omega
    · have hc1 : c = 4 := by omega
      omega
  -- three years of four are too short to hold the day
  have hfour : yoe % 4 = 3 := by
    by_contra hr
    have hlow : yoe ≤ 4 * q + 2 := by omega
    omega
  refine ⟨by omega, ?_⟩
  by_contra hr
  have hend : yoe = 100 * g + 99 ∧ g ≤ 2 := by omega
  have hc1 : g + 1 ≤ c - e := by omega
  omega

/-- The days of a month, counted from March on. -/
theorem daysInMonth_march {y doy mi : ℤ} (hmi : mi = (5 * doy + 2) / 153) (h0 : 0 ≤ doy)
    (h1 : doy ≤ 365) (hleap : doy = 365 → y % 4 = 0 ∧ (y % 100 ≠ 0 ∨ y % 400 = 0)) :
    doy - (153 * mi + 2) / 5 + 1 ≤ daysInMonth y (if mi < 10 then mi + 3 else mi - 9) := by
  obtain ⟨hlow, hhigh⟩ : 0 ≤ mi ∧ mi ≤ 11 := by omega
  by_cases hfeb : mi = 11
  · subst hfeb
    show _ ≤ if y % 4 = 0 ∧ (y % 100 ≠ 0 ∨ y % 400 = 0) then (29 : ℤ) else 28
    split_ifs with hl
    · omega
    · have hne : doy ≠ 365 := fun h => hl (hleap h)
      omega
  · have hday : ∀ k : ℤ, 0 ≤ k → k ≤ 10 → daysInMonth y (if k < 10 then k + 3 else k - 9) =
        (153 * (k + 1) + 2) / 5 - (153 * k + 2) / 5 := by
      intro k hk0 hk1
      interval_cases k <;> rfl
    rw [hday mi hlow (by omega)]
    omega

/-- **A day's date is a date of the calendar.** -/
theorem civilFromDays_mem (d : ℤ) :
    (1 ≤ (civilFromDays d).2.1 ∧ (civilFromDays d).2.1 ≤ 12) ∧ 1 ≤ (civilFromDays d).2.2 ∧
      (civilFromDays d).2.2 ≤ daysInMonth (civilFromDays d).1 (civilFromDays d).2.1 := by
  obtain ⟨era, hera⟩ : ∃ era, era = (d + 719468) / 146097 := ⟨_, rfl⟩
  obtain ⟨doe, hdoe⟩ : ∃ doe, doe = d + 719468 - era * 146097 := ⟨_, rfl⟩
  obtain ⟨yoe, hyoe⟩ : ∃ yoe, yoe = (doe - doe / 1460 + doe / 36524 - doe / 146096) / 365 :=
    ⟨_, rfl⟩
  obtain ⟨doy, hdoy⟩ : ∃ doy, doy = doe - (365 * yoe + yoe / 4 - yoe / 100) := ⟨_, rfl⟩
  obtain ⟨mi, hmi⟩ : ∃ mi, mi = (5 * doy + 2) / 153 := ⟨_, rfl⟩
  obtain ⟨-, -, h0, h1⟩ := yearOfEra_spec (by omega) (by omega) hyoe
  have hlast := yearOfEra_last (by omega) (by omega) hyoe
  rw [← hdoy] at h0 h1 hlast
  simp only [civilFromDays, ← hera, ← hdoe, ← hyoe, ← hdoy, ← hmi]
  refine ⟨by split_ifs <;> omega, by omega, ?_⟩
  refine daysInMonth_march hmi h0 h1 fun hend => ?_
  have hmonth : (if mi < 10 then mi + 3 else mi - 9) = 2 := by split_ifs <;> omega
  have hleap := hlast hend
  rw [hmonth, if_pos le_rfl]
  omega

/-! ## Quarters -/

/-- The first day of a quarter, counted from the year zero. -/
def quarterDay (i : ℤ) : ℤ := daysFromCivil (i / 4) (i % 4 * 3 + 1) 1

theorem quarterDay_eq (y : ℤ) {k : ℤ} (h0 : 0 ≤ k) (h1 : k ≤ 3) :
    quarterDay (y * 4 + k) = daysFromCivil y (k * 3 + 1) 1 := by
  rw [quarterDay, show (y * 4 + k) / 4 = y by omega, show (y * 4 + k) % 4 = k by omega]

/-- The days from a March year's start to the first of a month. -/
theorem daysFromCivil_month (y : ℤ) {m : ℤ} (h1 : 1 ≤ m) (h12 : m ≤ 12) (day : ℤ) :
    daysFromCivil y m day = (if m ≤ 2 then marchDays (y - 1) else marchDays y) +
      (153 * (if m ≤ 2 then m + 9 else m - 3) + 2) / 5 + day - 1 - 719468 := by
  have hmonth : marchMonth m = if m ≤ 2 then m + 9 else m - 3 := by
    rw [marchMonth]
    split_ifs <;> omega
  rw [daysFromCivil_eq, hmonth, marchYear, apply_ite marchDays]

/-- One in a leap year. -/
def leapDay (y : ℤ) : ℤ := if y % 4 = 0 ∧ (y % 100 ≠ 0 ∨ y % 400 = 0) then 1 else 0

theorem leapDay_bounds (y : ℤ) : 0 ≤ leapDay y ∧ leapDay y ≤ 1 := by
  unfold leapDay
  split_ifs <;> decide

theorem daysInMonth_february (y : ℤ) : daysInMonth y 2 = 28 + leapDay y := by
  show (if _ then (29 : ℤ) else 28) = _
  unfold leapDay
  split_ifs <;> rfl

theorem marchDays_pred (y : ℤ) : marchDays y = marchDays (y - 1) + 365 + leapDay y := by
  have h := marchDays_succ (y - 1)
  rw [Int.sub_add_cancel] at h
  exact h

/-- A quarter's length. -/
theorem quarterDay_succ (y : ℤ) {k : ℤ} (h0 : 0 ≤ k) (h3 : k ≤ 3) :
    quarterDay (y * 4 + k + 1) = quarterDay (y * 4 + k) +
      if k = 0 then 90 + leapDay y else if k = 1 then 91 else 92 := by
  have hyear := marchDays_pred y
  by_cases hk : k = 3
  · subst hk
    rw [show y * 4 + 3 + 1 = (y + 1) * 4 + 0 by ring, quarterDay_eq y h0 h3,
      quarterDay_eq (y + 1) le_rfl (by decide), daysFromCivil_month y (by decide) (by decide),
      daysFromCivil_month (y + 1) (by decide) (by decide)]
    norm_num
    omega
  · rw [add_assoc, quarterDay_eq y h0 h3, quarterDay_eq y (by omega) (by omega),
      daysFromCivil_month y (by omega) (by omega), daysFromCivil_month y (by omega) (by omega)]
    split_ifs <;> omega

/-- **A date lies in its month's quarter.** -/
theorem date_in_quarter {y m day : ℤ} (h1 : 1 ≤ m) (h12 : m ≤ 12) (hd : 1 ≤ day)
    (hlast : day ≤ daysInMonth y m) : quarterDay (y * 4 + (m - 1) / 3) ≤ daysFromCivil y m day ∧
      daysFromCivil y m day < quarterDay (y * 4 + (m - 1) / 3 + 1) := by
  have hyear := marchDays_pred y
  have hleap := leapDay_bounds y
  rw [quarterDay_succ y (by omega) (by omega), quarterDay_eq y (by omega) (by omega),
    daysFromCivil_month y (by omega) (by omega), daysFromCivil_month y h1 h12]
  by_cases hfeb : m = 2
  · subst hfeb
    rw [daysInMonth_february] at hlast
    norm_num
    omega
  · obtain hm | hm : m = 1 ∨ 3 ≤ m := by omega
    · subst hm
      norm_num [daysInMonth] at hlast ⊢
      omega
    · interval_cases m
      all_goals norm_num [daysInMonth] at hlast ⊢
      all_goals omega

/-- Quarters since year zero, of a day. -/
def quarterOfDay (d : ℤ) : ℤ := (civilFromDays d).1 * 4 + ((civilFromDays d).2.1 - 1) / 3

/-- A day lies in its quarter. -/
theorem quarterOfDay_bounds (d : ℤ) :
    quarterDay (quarterOfDay d) ≤ d ∧ d < quarterDay (quarterOfDay d + 1) := by
  obtain ⟨⟨h1, h12⟩, hd, hlast⟩ := civilFromDays_mem d
  have h := date_in_quarter h1 h12 hd hlast
  rw [daysFromCivil_civilFromDays] at h
  exact h

theorem quarterDay_step (i : ℤ) : quarterDay i + 90 ≤ quarterDay (i + 1) := by
  have hleap := leapDay_bounds (i / 4)
  have h := quarterDay_succ (i / 4) (k := i % 4) (by omega) (by omega)
  rw [show i / 4 * 4 + i % 4 = i by omega] at h
  rw [h]
  split_ifs <;> omega

theorem quarterDay_add (i : ℤ) (n : ℕ) : quarterDay i + 90 * n ≤ quarterDay (i + n) := by
  induction n with
  | zero => simp
  | succ n ih =>
    have hstep := quarterDay_step (i + n)
    push_cast
    rw [← add_assoc]
    omega

theorem quarterDay_mono {i j : ℤ} (h : i ≤ j) : quarterDay i + 90 * (j - i) ≤ quarterDay j := by
  obtain ⟨n, rfl⟩ : ∃ n : ℕ, j = i + n := ⟨(j - i).toNat, by omega⟩
  rw [add_sub_cancel_left]
  exact quarterDay_add i n

/-- **A day is in the quarter whose days it is among.** -/
theorem quarterOfDay_eq {d i : ℤ} (h : quarterDay i ≤ d ∧ d < quarterDay (i + 1)) :
    quarterOfDay d = i := by
  obtain ⟨hlow, hhigh⟩ := quarterOfDay_bounds d
  obtain hlt | heq | hgt := lt_trichotomy (quarterOfDay d) i
  · have := quarterDay_mono (i := quarterOfDay d + 1) (j := i) (by omega)
    omega
  · exact heq
  · have := quarterDay_mono (i := i + 1) (j := quarterOfDay d) (by omega)
    omega

theorem quarterOfDay_mono {d e : ℤ} (h : d ≤ e) : quarterOfDay d ≤ quarterOfDay e := by
  obtain ⟨hlow, -⟩ := quarterOfDay_bounds d
  obtain ⟨-, hhigh⟩ := quarterOfDay_bounds e
  by_contra hlt
  have := quarterDay_mono (i := quarterOfDay e + 1) (j := quarterOfDay d) (by omega)
  omega

/-- Two days on from each other are in one quarter, or in one and the next. -/
theorem quarterOfDay_succ (d : ℤ) : quarterOfDay (d + 1) ≤ quarterOfDay d + 1 := by
  obtain ⟨-, hhigh⟩ := quarterOfDay_bounds d
  obtain ⟨hlow, -⟩ := quarterOfDay_bounds (d + 1)
  by_contra hlt
  have := quarterDay_mono (i := quarterOfDay d + 1) (j := quarterOfDay (d + 1)) (by omega)
  omega

/-- Which days a year holds. -/
theorem year_iff (d y : ℤ) : y ≤ (civilFromDays d).1 ↔ quarterDay (y * 4) ≤ d := by
  obtain ⟨⟨h1, h12⟩, -⟩ := civilFromDays_mem d
  obtain ⟨hlow, hhigh⟩ := quarterOfDay_bounds d
  have hq : quarterOfDay d = (civilFromDays d).1 * 4 + ((civilFromDays d).2.1 - 1) / 3 := rfl
  constructor
  · intro hy
    have := quarterDay_mono (i := y * 4) (j := quarterOfDay d) (by omega)
    omega
  · intro hy
    by_contra hlt
    have := quarterDay_mono (i := quarterOfDay d + 1) (j := y * 4) (by omega)
    omega

/-! ## Text -/

/-- A run of so many digits that spells a number. -/
structure Field (w : ℕ) (n : ℤ) (t : Text) : Prop where
  length : t.length = w
  digits : t.all isDigit = true
  value : (number t : ℤ) = n

theorem length_padNat {w n : ℕ} (hw : 0 < w) (h : n < 10 ^ w) : (padNat w n).length = w := by
  have hle : (Nat.toDigits 10 n).length ≤ w := (Nat.length_toDigits_le_iff (by decide) hw).2 h
  rw [padNat, List.length_append, List.length_replicate]
  omega

theorem field_padInt {w : ℕ} {n : ℤ} (hw : 0 < w) (h0 : 0 ≤ n) (h1 : n < 10 ^ w) :
    Field w n (padInt w n) := by
  obtain ⟨k, rfl⟩ := Int.eq_ofNat_of_zero_le h0
  have hk : k < 10 ^ w := by exact_mod_cast h1
  rw [padInt, if_neg (by omega), Int.natAbs_natCast]
  refine ⟨length_padNat hw hk, ?_, by rw [number_padNat]⟩
  rw [List.all_eq_true]
  intro c hc
  have hdigit := mem_padNat hc
  simp only [Char.isDigit, Bool.and_eq_true, decide_eq_true_eq] at hdigit
  simp only [isDigit, Bool.and_eq_true, decide_eq_true_eq]
  exact hdigit

theorem Field.two {n : ℤ} {t : Text} (h : Field 2 n t) : ∃ a b, t = [a, b] :=
  List.length_eq_two.1 h.length

theorem Field.four {n : ℤ} {t : Text} (h : Field 4 n t) : ∃ a b c d, t = [a, b, c, d] := by
  match t, h.length with
  | [a, b, c, d], _ => exact ⟨a, b, c, d, rfl⟩

theorem digits_of_field {t f : Text} {i j : ℕ} {n : ℤ} (hs : slice t i j = f)
    (h : Field (j - i) n f) : Contract.digits t i j = some n := by
  obtain ⟨hlen, hall, hval⟩ := h
  rw [Contract.digits, hs]
  exact (if_pos ⟨hlen, hall⟩).trans (congrArg some hval)

theorem fraction_of_field {f : Text} {n : ℤ} (h : Field 3 n f) :
    fraction ('.' :: f ++ ['Z']) = some (n, ['Z']) := by
  obtain ⟨a, b, c, rfl⟩ := List.length_eq_three.1 h.length
  obtain ⟨-, hall, hval⟩ := h
  obtain ⟨ha, hb, hc⟩ : isDigit a = true ∧ isDigit b = true ∧ isDigit c = true := by
    simpa using hall
  have htake : [a, b, c, 'Z'].takeWhile isDigit = [a, b, c] := by
    rw [List.takeWhile_cons_of_pos ha, List.takeWhile_cons_of_pos hb, List.takeWhile_cons_of_pos hc]
    rfl
  have hdrop : [a, b, c, 'Z'].dropWhile isDigit = ['Z'] := by
    rw [List.dropWhile_cons_of_pos ha, List.dropWhile_cons_of_pos hb, List.dropWhile_cons_of_pos hc]
    rfl
  have htrunc : truncMs [a, b, c] = n := by
    rw [← hval]
    simp [truncMs, number]
    omega
  show fraction ('.' :: [a, b, c, 'Z']) = _
  rw [fraction, htake, hdrop, htrunc]
  rfl

/-- **Text of fixed-width fields in UTC is read as what they spell.** -/
theorem parseMs_fields {year month day hour minute second ms : ℤ} {Y Mo D H Mi S F : Text}
    (hY : Field 4 year Y) (hMo : Field 2 month Mo) (hD : Field 2 day D) (hH : Field 2 hour H)
    (hMi : Field 2 minute Mi) (hS : Field 2 second S) (hF : Field 3 ms F) :
    parseMs (Y ++ '-' :: Mo ++ '-' :: D ++ 'T' :: H ++ ':' :: Mi ++ ':' :: S ++ '.' :: F ++ ['Z']) =
      if ¬(1 ≤ month ∧ month ≤ 12) ∨ day < 1 ∨ day > daysInMonth year month ∨ hour > 23 ∨
        minute > 59 ∨ second > 60 then none
      else some (daysFromCivil year month day * msPerDay + hour * 3600000 + minute * 60000 +
        min second 59 * 1000 + ms) := by
  obtain ⟨mo1, mo2, rfl⟩ := hMo.two
  obtain ⟨d1, d2, rfl⟩ := hD.two
  obtain ⟨h1, h2, rfl⟩ := hH.two
  obtain ⟨mi1, mi2, rfl⟩ := hMi.two
  obtain ⟨s1, s2, rfl⟩ := hS.two
  obtain ⟨f1, f2, f3, rfl⟩ := List.length_eq_three.1 hF.length
  obtain ⟨y1, y2, y3, y4, rfl⟩ := hY.four
  obtain ⟨t, ht⟩ : ∃ t, t = [y1, y2, y3, y4, '-', mo1, mo2, '-', d1, d2, 'T', h1, h2, ':', mi1, mi2,
      ':', s1, s2, '.', f1, f2, f3, 'Z'] := ⟨_, rfl⟩
  show parseMs [y1, y2, y3, y4, '-', mo1, mo2, '-', d1, d2, 'T', h1, h2, ':', mi1, mi2,
      ':', s1, s2, '.', f1, f2, f3, 'Z'] = _
  rw [← ht]
  have hfrac : fraction (t.drop 19) = some (ms, ['Z']) := by
    rw [ht]
    exact fraction_of_field hF
  have hzone : offset ['Z'] = some 0 := rfl
  rw [parseMs, digits_of_field (by rw [ht]; rfl) hY, digits_of_field (by rw [ht]; rfl) hMo,
    digits_of_field (by rw [ht]; rfl) hD, digits_of_field (by rw [ht]; rfl) hH,
    digits_of_field (by rw [ht]; rfl) hMi, digits_of_field (by rw [ht]; rfl) hS]
  simp only [Option.bind_eq_bind, Option.bind_some, hfrac, hzone]
  rw [if_neg (by simp [ht]), if_neg (by simp [ht])]
  simp only [zero_mul, sub_zero]

/-! ## Round trip -/

/-- An instant of the years 0 to 9999. -/
def FourDigit (ms : ℤ) : Prop := -62167219200000 ≤ ms ∧ ms ≤ 253402300799999

theorem fourDigit_iff (ms : ℤ) :
    FourDigit ms ↔ 0 ≤ (civilFromMs ms).1 ∧ (civilFromMs ms).1 ≤ 9999 := by
  have hlow := year_iff (ms / msPerDay) 0
  have hhigh := year_iff (ms / msPerDay) 10000
  rw [show quarterDay (0 * 4) = -719528 by decide] at hlow
  rw [show quarterDay (10000 * 4) = 2932897 by decide] at hhigh
  rw [civilFromMs, FourDigit]
  rw [msPerDay] at hlow hhigh ⊢
  omega

/-- A date as a stamp spells it. -/
def dateText (date : ℤ × ℤ × ℤ) : Text :=
  padInt 4 date.1 ++ '-' :: padInt 2 date.2.1 ++ '-' :: padInt 2 date.2.2

theorem formatMs_eq (ms : ℤ) : formatMs ms = dateText (civilFromMs ms) ++ 'T' ::
    padInt 2 (ms % msPerDay / 3600000) ++ ':' :: padInt 2 (ms % msPerDay / 60000 % 60) ++ ':' ::
    padInt 2 (ms % msPerDay / 1000 % 60) ++ '.' :: padInt 3 (ms % msPerDay % 1000) ++ ['Z'] := by
  simp only [formatMs, dateText]

/-- The fields of an instant's date. -/
theorem dateFields {ms : ℤ} (h : FourDigit ms) :
    Field 4 (civilFromMs ms).1 (padInt 4 (civilFromMs ms).1) ∧
      Field 2 (civilFromMs ms).2.1 (padInt 2 (civilFromMs ms).2.1) ∧
      Field 2 (civilFromMs ms).2.2 (padInt 2 (civilFromMs ms).2.2) := by
  obtain ⟨hy0, hy1⟩ := (fourDigit_iff ms).1 h
  obtain ⟨⟨hm1, hm12⟩, hd1, hdlast⟩ := civilFromDays_mem (ms / msPerDay)
  have hlen := daysInMonth_le (civilFromMs ms).1 (civilFromMs ms).2.1
  rw [← civilFromMs] at *
  exact ⟨field_padInt (by decide) hy0 (by omega), field_padInt (by decide) (by omega) (by omega),
    field_padInt (by decide) (by omega) (by omega)⟩

theorem parseMs_formatMs {ms : ℤ} (h : FourDigit ms) : parseMs (formatMs ms) = some ms := by
  obtain ⟨hY, hMo, hD⟩ := dateFields h
  obtain ⟨⟨hm1, hm12⟩, hd1, hdlast⟩ := civilFromDays_mem (ms / msPerDay)
  have hday := daysFromCivil_civilFromDays (ms / msPerDay)
  rw [← civilFromMs] at hm1 hm12 hd1 hdlast hday
  obtain ⟨time, htime⟩ : ∃ time, time = ms % msPerDay := ⟨_, rfl⟩
  have htime' : 0 ≤ time ∧ time < 86400000 := by
    rw [msPerDay] at htime
    omega
  have hH : Field 2 (time / 3600000) (padInt 2 (time / 3600000)) :=
    field_padInt (by decide) (by omega) (by omega)
  have hMi : Field 2 (time / 60000 % 60) (padInt 2 (time / 60000 % 60)) :=
    field_padInt (by decide) (by omega) (by omega)
  have hS : Field 2 (time / 1000 % 60) (padInt 2 (time / 1000 % 60)) :=
    field_padInt (by decide) (by omega) (by omega)
  have hF : Field 3 (time % 1000) (padInt 3 (time % 1000)) :=
    field_padInt (by decide) (by omega) (by omega)
  rw [formatMs_eq, ← htime]
  refine (parseMs_fields hY hMo hD hH hMi hS hF).trans ?_
  rw [if_neg (by omega), hday]
  congr 1
  rw [msPerDay] at htime ⊢
  omega

/-- A stamp of a year that four digits do not spell is not read. -/
theorem fourDigit_of_parse {ms n : ℤ} (h : parseMs (formatMs ms) = some n) : FourDigit ms := by
  obtain ⟨year, -, -, -, -, -, -, -, -, ⟨h4, -⟩, ⟨hyear, -⟩, -⟩ := parseMs_cases h
  rw [fourDigit_iff]
  by_contra hout
  obtain hneg | hlong : (civilFromMs ms).1 < 0 ∨ 10000 ≤ (civilFromMs ms).1 := by omega
  · have hfirst : (formatMs ms)[0]? = some '-' := by
      rw [formatMs_eq, dateText, padInt, if_pos hneg]
      rfl
    exact absurd (digits_get hyear le_rfl (by decide) hfirst) (by decide)
  · obtain ⟨y, hy⟩ : ∃ y : ℕ, (civilFromMs ms).1 = y := ⟨_, (Int.toNat_of_nonneg (by omega)).symm⟩
    have hlen : 4 < (padNat 4 y).length := by
      have hdigits : ¬ (Nat.toDigits 10 y).length ≤ 4 := by
        rw [Nat.length_toDigits_le_iff (by decide) (by decide)]
        omega
      rw [padNat, List.length_append]
      omega
    have hfifth : (formatMs ms)[4]? = some (padNat 4 y)[4] := by
      rw [formatMs_eq, dateText, padInt, if_neg (by omega), hy, Int.natAbs_natCast]
      simp only [List.append_assoc]
      rw [List.getElem?_append_left hlen, List.getElem?_eq_getElem hlen]
    rw [hfifth] at h4
    have hdigit := mem_padNat (List.getElem_mem hlen)
    rw [Option.some.inj h4] at hdigit
    exact absurd hdigit (by decide)

/-- The digits of a date, whatever follows it. -/
theorem digits_date {year month day : ℤ} {Y Mo D : Text} (hY : Field 4 year Y)
    (hMo : Field 2 month Mo) (hD : Field 2 day D) (rest : Text) :
    Contract.digits (Y ++ '-' :: Mo ++ '-' :: D ++ rest) 0 4 = some year ∧
      Contract.digits (Y ++ '-' :: Mo ++ '-' :: D ++ rest) 5 7 = some month ∧
      Contract.digits (Y ++ '-' :: Mo ++ '-' :: D ++ rest) 8 10 = some day := by
  obtain ⟨mo1, mo2, rfl⟩ := hMo.two
  obtain ⟨d1, d2, rfl⟩ := hD.two
  obtain ⟨y1, y2, y3, y4, rfl⟩ := hY.four
  exact ⟨digits_of_field rfl hY, digits_of_field rfl hMo, digits_of_field rfl hD⟩

/-- **A stamp that parses is written back exactly when its instant lies in the years 0 to
    9999**, and there the date comes first. -/
theorem stamps_round_trip_iff (t : Text) (ms : ℤ) :
    (parseMs t = some ms → (parseMs (formatMs ms) = some ms ↔ FourDigit ms)) ∧
      (0 ≤ (civilFromMs ms).1 ∧ (civilFromMs ms).1 ≤ 9999 →
        parseMs (formatMs ms) = some ms ∧ (formatMs ms).take 10 = dateText (civilFromMs ms) ∧
          Contract.digits (formatMs ms) 0 4 = some (civilFromMs ms).1 ∧
          Contract.digits (formatMs ms) 5 7 = some (civilFromMs ms).2.1 ∧
          Contract.digits (formatMs ms) 8 10 = some (civilFromMs ms).2.2) := by
  refine ⟨fun _ => ⟨fourDigit_of_parse, parseMs_formatMs⟩, fun hyear => ?_⟩
  have hms := (fourDigit_iff ms).2 hyear
  obtain ⟨hY, hMo, hD⟩ := dateFields hms
  have hdate : (dateText (civilFromMs ms)).length = 10 := by
    simp only [dateText, List.length_append, List.length_cons, hY.length, hMo.length, hD.length]
  obtain ⟨time, hformat⟩ : ∃ time, formatMs ms = dateText (civilFromMs ms) ++ time := by
    rw [formatMs_eq]
    simp only [List.append_assoc]
    exact ⟨_, rfl⟩
  rw [hformat]
  exact ⟨hformat ▸ parseMs_formatMs hms, List.take_left' hdate, digits_date hY hMo hD time⟩

theorem leap_day_round_trips : parseMs (formatMs 1709251199999) = some 1709251199999 :=
  ((stamps_round_trip_iff "2024-02-29T23:59:59.999Z".toList 1709251199999).2 (by decide)).1

/-- A zone can take the first instant out of the years that are written. -/
theorem year_before_zero_is_lost :
    parseMs "0000-01-01T00:00:00+00:01".toList = some (-62167219260000) ∧
      parseMs (formatMs (-62167219260000)) ≠ some (-62167219260000) := by
  decide +kernel

end Yaam.Contract
