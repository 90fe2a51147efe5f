/-
  The contract's reading of a record's timestamps (`yaam-contract`,
  `timestamp.rs`).

  * `parseMs` reads an RFC 3339 timestamp as milliseconds since the Unix
    epoch; `fraction` and `offset` read its tail;
  * `civilFromMs` is the UTC calendar date an instant falls on;
  * `daysFromCivil_civilFromDays`: the two calendar conversions are inverse,
    so the day an instant is filed under contains it (`civilFromMs_day`);
  * `parseMs_chars`: what a timestamp that parses is spelled with.
-/
import Yaam.Lib.Text
import Mathlib.Tactic.IntervalCases

namespace Yaam.Contract

open Text

/-! ## Parsing -/

/-- Milliseconds in a day. -/
def msPerDay : ℤ := 86400000

/-- A fixed-width run of ASCII digits as a number. -/
def digits (t : Text) (i j : ℕ) : Option ℤ :=
  let s := slice t i j
  if s.length = j - i ∧ s.all isDigit = true then some (number s) else none

/-- The first three fraction digits as milliseconds; later digits are dropped. -/
def truncMs (ds : Text) : ℤ :=
  ((ds.take 3).zipWith (fun c w => (digitVal c : ℤ) * w) [100, 10, 1]).sum

/-- An optional `.fff` fraction at the head of `rest`, in milliseconds, and
    what follows it. -/
def fraction (rest : Text) : Option (ℤ × Text) :=
  match rest with
  | '.' :: afterDot =>
    if afterDot.takeWhile isDigit = [] then none
    else some (truncMs (afterDot.takeWhile isDigit), afterDot.dropWhile isDigit)
  | _ => some (0, rest)

/-- The sign a numeric zone starts with. -/
def zoneSign (rest : Text) : Option ℤ :=
  match rest.head? with
  | some '+' => some 1
  | some '-' => some (-1)
  | _ => none

/-- The zone suffix as an offset in minutes east of UTC. -/
def offset (rest : Text) : Option ℤ :=
  if rest = ['Z'] ∨ rest = ['z'] then some 0
  else do
    let sign ← zoneSign rest
    if rest.length ≠ 6 ∨ rest[3]? ≠ some ':' then none
    else
      let hours ← digits rest 1 3
      let minutes ← digits rest 4 6
      if hours > 23 ∨ minutes > 59 then none else some (sign * (hours * 60 + minutes))

/-- Length of a month, so an impossible date is rejected rather than rolled
    forward. -/
def daysInMonth (year month : ℤ) : ℤ :=
  if month ∈ [1, 3, 5, 7, 8, 10, 12] then 31
  else if month ∈ [4, 6, 9, 11] then 30
  else if month = 2 then
    if year % 4 = 0 ∧ (year % 100 ≠ 0 ∨ year % 400 = 0) then 29 else 28
  else 0

/-- Days since 1970-01-01 for a civil date. -/
def daysFromCivil (year month day : ℤ) : ℤ :=
  let year := if month ≤ 2 then year - 1 else year
  let era := year / 400
  let yearOfEra := year - era * 400
  let monthIndex := (month + 9) % 12
  let dayOfYear := (153 * monthIndex + 2) / 5 + day - 1
  let dayOfEra := yearOfEra * 365 + yearOfEra / 4 - yearOfEra / 100 + dayOfYear
  era * 146097 + dayOfEra - 719468

/-- Inverse of `daysFromCivil`. -/
def civilFromDays (days : ℤ) : ℤ × ℤ × ℤ :=
  let shifted := days + 719468
  let era := shifted / 146097
  let dayOfEra := shifted - era * 146097
  let yearOfEra := (dayOfEra - dayOfEra / 1460 + dayOfEra / 36524 - dayOfEra / 146096) / 365
  let year := yearOfEra + era * 400
  let dayOfYear := dayOfEra - (365 * yearOfEra + yearOfEra / 4 - yearOfEra / 100)
  let monthIndex := (5 * dayOfYear + 2) / 153
  let day := dayOfYear - (153 * monthIndex + 2) / 5 + 1
  let month := if monthIndex < 10 then monthIndex + 3 else monthIndex - 9
  (if month ≤ 2 then year + 1 else year, month, day)

/-- The UTC calendar date an instant falls on. -/
def civilFromMs (ms : ℤ) : ℤ × ℤ × ℤ := civilFromDays (ms / msPerDay)

/-- An RFC 3339 timestamp as milliseconds since the Unix epoch. -/
def parseMs (t : Text) : Option ℤ :=
  if t.length < 19 ∨ t[4]? ≠ some '-' ∨ t[7]? ≠ some '-' then none
  else if (t[10]? ≠ some 'T' ∧ t[10]? ≠ some 't' ∧ t[10]? ≠ some ' ') ∨
      t[13]? ≠ some ':' ∨ t[16]? ≠ some ':' then none
  else do
    let year ← digits t 0 4
    let month ← digits t 5 7
    let day ← digits t 8 10
    let hour ← digits t 11 13
    let minute ← digits t 14 16
    let second ← digits t 17 19
    -- a leap second is stamped `:60` and belongs to the same minute
    if ¬(1 ≤ month ∧ month ≤ 12) ∨ day < 1 ∨ day > daysInMonth year month ∨ hour > 23 ∨
        minute > 59 ∨ second > 60 then none
    else
      let (fractionMs, rest) ← fraction (t.drop 19)
      let offsetMinutes ← offset rest
      some (daysFromCivil year month day * msPerDay + hour * 3600000 + minute * 60000 +
        min second 59 * 1000 + fractionMs - offsetMinutes * 60000)

/-- An instant in UTC, to the millisecond. -/
def formatMs (ms : ℤ) : Text :=
  let (year, month, day) := civilFromMs ms
  let time := ms % msPerDay
  padInt 4 year ++ '-' :: padInt 2 month ++ '-' :: padInt 2 day ++ 'T' ::
    padInt 2 (time / 3600000) ++ ':' :: padInt 2 (time / 60000 % 60) ++ ':' ::
    padInt 2 (time / 1000 % 60) ++ '.' :: padInt 3 (time % 1000) ++ ['Z']

/-- What a timestamp that parses looks like: its fields, their ranges and the
    instant they spell. -/
theorem parseMs_cases {t : Text} {ms : ℤ} (h : parseMs t = some ms) :
    ∃ year month day hour minute second fractionMs rest offsetMinutes,
      (t[4]? = some '-' ∧ t[7]? = some '-' ∧
        (t[10]? = some 'T' ∨ t[10]? = some 't' ∨ t[10]? = some ' ') ∧
        t[13]? = some ':' ∧ t[16]? = some ':') ∧
      (digits t 0 4 = some year ∧ digits t 5 7 = some month ∧ digits t 8 10 = some day ∧
        digits t 11 13 = some hour ∧ digits t 14 16 = some minute ∧
        digits t 17 19 = some second) ∧
      ((1 ≤ month ∧ month ≤ 12) ∧ (1 ≤ day ∧ day ≤ daysInMonth year month) ∧ hour ≤ 23 ∧
        minute ≤ 59 ∧ second ≤ 60) ∧
      fraction (t.drop 19) = some (fractionMs, rest) ∧ offset rest = some offsetMinutes ∧
      ms = daysFromCivil year month day * msPerDay + hour * 3600000 + minute * 60000 +
        min second 59 * 1000 + fractionMs - offsetMinutes * 60000 := by
  unfold parseMs at h
  split_ifs at h with h1 h2
  simp only [Option.bind_eq_bind, Option.bind_eq_some_iff, Option.ite_none_left_eq_some] at h
  obtain ⟨y, hy, m, hm, d, hd, hh, hhh, mm, hmm, ss, hss, hr, ⟨f, rest⟩, hf, o, ho, he⟩ := h
  push Not at h1 h2 hr
  refine ⟨y, m, d, hh, mm, ss, f, rest, o, ⟨h1.2.1, h1.2.2, ?_, h2.2⟩, ⟨hy, hm, hd, hhh, hmm, hss⟩,
    ⟨hr.1, ⟨hr.2.1, hr.2.2.1⟩, hr.2.2.2⟩, hf, ho, ?_⟩
  · tauto
  · simpa using he.symm

theorem digits_nonneg {t : Text} {i j : ℕ} {n : ℤ} (h : digits t i j = some n) : 0 ≤ n := by
  simp only [digits, Option.ite_none_right_eq_some, Option.some.injEq] at h
  omega

theorem digits_lt {t : Text} {i j : ℕ} {n : ℤ} (h : digits t i j = some n) : n < 10 ^ (j - i) := by
  simp only [digits, Option.ite_none_right_eq_some, Option.some.injEq] at h
  obtain ⟨⟨hlen, hall⟩, rfl⟩ := h
  have := number_lt hall
  rw [hlen] at this
  exact_mod_cast this

theorem daysInMonth_le (year month : ℤ) : daysInMonth year month ≤ 31 := by
  unfold daysInMonth
  split_ifs <;> omega

/-! ## The calendar -/

/-- The year of era read off a day of era: the day lies in that year. -/
theorem yearOfEra_spec {doe yoe : ℤ} (h0 : 0 ≤ doe) (h1 : doe < 146097)
    (h : yoe = (doe - doe / 1460 + doe / 36524 - doe / 146096) / 365) :
    0 ≤ yoe ∧ yoe ≤ 399 ∧ 0 ≤ doe - (365 * yoe + yoe / 4 - yoe / 100) ∧
      doe - (365 * yoe + yoe / 4 - yoe / 100) ≤ 365 := by
  have hy : 0 ≤ yoe ∧ yoe ≤ 399 := by omega
  refine ⟨hy.1, hy.2, ?_⟩
  -- the three quotients range over a century, an era end and a century of the year
  obtain ⟨c, hc⟩ : ∃ c, c = doe / 36524 := ⟨_, rfl⟩
  obtain ⟨e, he⟩ : ∃ e, e = doe / 146096 := ⟨_, rfl⟩
  obtain ⟨g, hg⟩ : ∃ g, g = yoe / 100 := ⟨_, rfl⟩
  rw [← hc, ← he] at h
  rw [← hg]
  obtain ⟨hc0, hc1⟩ : 0 ≤ c ∧ c ≤ 4 := by omega
  obtain ⟨he0, he1⟩ : 0 ≤ e ∧ e ≤ 1 := by omega
  obtain ⟨hg0, hg1⟩ : 0 ≤ g ∧ g ≤ 3 := by omega
  interval_cases c <;> interval_cases e <;> interval_cases g <;> omega

/-- `daysFromCivil` on a date given by its era, year of era and March-based
    month. -/
theorem daysFromCivil_parts {era yoe mi day : ℤ} (hy : 0 ≤ yoe ∧ yoe ≤ 399)
    (hm : 0 ≤ mi ∧ mi ≤ 11) :
    daysFromCivil
        (if (if mi < 10 then mi + 3 else mi - 9) ≤ 2 then yoe + era * 400 + 1 else yoe + era * 400)
        (if mi < 10 then mi + 3 else mi - 9) day =
      era * 146097 + (yoe * 365 + yoe / 4 - yoe / 100 + ((153 * mi + 2) / 5 + day - 1)) -
        719468 := by
  have hmi : ((if mi < 10 then mi + 3 else mi - 9) + 9) % 12 = mi := by split_ifs <;> omega
  have hyear : (if (if mi < 10 then mi + 3 else mi - 9) ≤ 2 then
      (if (if mi < 10 then mi + 3 else mi - 9) ≤ 2 then yoe + era * 400 + 1
        else yoe + era * 400) - 1
      else if (if mi < 10 then mi + 3 else mi - 9) ≤ 2 then yoe + era * 400 + 1
        else yoe + era * 400) = yoe + era * 400 := by
    split_ifs <;> omega
  have hera : (yoe + era * 400) / 400 = era := by omega
  simp only [daysFromCivil, hmi, hyear, hera, Int.add_sub_cancel]

/-- **The two calendar conversions are inverse.** -/
theorem daysFromCivil_civilFromDays (d : ℤ) :
    daysFromCivil (civilFromDays d).1 (civilFromDays d).2.1 (civilFromDays d).2.2 = d := by
  obtain ⟨doe, hdoe⟩ : ∃ doe, doe = d + 719468 - (d + 719468) / 146097 * 146097 := ⟨_, rfl⟩
  obtain ⟨yoe, hyoe⟩ : ∃ yoe, yoe = (doe - doe / 1460 + doe / 36524 - doe / 146096) / 365 :=
    ⟨_, rfl⟩
  obtain ⟨hy0, hy1, hd0, hd1⟩ := yearOfEra_spec (by omega) (by omega) hyoe
  simp only [civilFromDays, ← hdoe, ← hyoe]
  rw [daysFromCivil_parts ⟨hy0, hy1⟩ (by omega)]
  omega

/-- The day an instant is filed under contains the instant. -/
theorem civilFromMs_day (ms : ℤ) :
    daysFromCivil (civilFromMs ms).1 (civilFromMs ms).2.1 (civilFromMs ms).2.2 * msPerDay ≤ ms ∧
    ms < (daysFromCivil (civilFromMs ms).1 (civilFromMs ms).2.1 (civilFromMs ms).2.2 + 1) *
      msPerDay := by
  simp only [civilFromMs, daysFromCivil_civilFromDays, msPerDay]
  omega

/-! ## The characters of a timestamp -/

/-- What a timestamp is spelled with. -/
def stampChar (c : Char) : Bool := isDigit c || c ∈ ['-', 'T', 't', ' ', ':', '.', 'Z', 'z', '+']

theorem stampChar_of_isDigit {c : Char} (h : isDigit c = true) : stampChar c = true := by
  simp [stampChar, h]

theorem digits_get {t : Text} {i j k : ℕ} {n : ℤ} (h : digits t i j = some n) (hi : i ≤ k)
    (hj : k < j) {c : Char} (hc : t[k]? = some c) : isDigit c = true := by
  simp only [digits, Option.ite_none_right_eq_some] at h
  obtain ⟨⟨-, hall⟩, -⟩ := h
  refine List.all_eq_true.1 hall c ?_
  rw [slice, List.mem_iff_getElem?]
  refine ⟨k - i, ?_⟩
  rw [List.getElem?_take_of_lt (by omega), List.getElem?_drop, show i + (k - i) = k by omega, hc]

theorem fraction_chars {t rest : Text} {ms : ℤ} (h : fraction t = some (ms, rest)) :
    ∀ c ∈ t, stampChar c = true ∨ c ∈ rest := by
  unfold fraction at h
  split at h
  · rename_i afterDot
    split_ifs at h
    obtain ⟨-, rfl⟩ := Prod.mk.inj (Option.some.inj h)
    intro c hc
    rcases List.mem_cons.1 hc with rfl | hc
    · exact .inl (by decide)
    · rw [← List.takeWhile_append_dropWhile (p := isDigit) (l := afterDot), List.mem_append] at hc
      rcases hc with hc | hc
      · exact .inl (stampChar_of_isDigit (List.mem_takeWhile_imp hc))
      · exact .inr hc
  · obtain ⟨-, rfl⟩ := Prod.mk.inj (Option.some.inj h)
    exact fun c hc => .inr hc

theorem offset_chars {rest : Text} {m : ℤ} (h : offset rest = some m) :
    ∀ c ∈ rest, stampChar c = true := by
  unfold offset at h
  split_ifs at h with hz hshape
  · rcases hz with rfl | rfl <;> decide
  · simp at h
  · simp only [Option.bind_eq_bind, Option.bind_eq_some_iff] at h
    obtain ⟨sign, hsign, hours, hh, minutes, hm, -⟩ := h
    push Not at hshape
    intro c hc
    obtain ⟨k, hk⟩ := List.mem_iff_getElem?.1 hc
    have hlt : k < 6 := by
      rw [← hshape.1]
      exact (List.getElem?_eq_some_iff.1 hk).1
    have hcases : k = 0 ∨ (1 ≤ k ∧ k < 3) ∨ k = 3 ∨ (4 ≤ k ∧ k < 6) := by omega
    rcases hcases with rfl | ⟨h1, h2⟩ | rfl | ⟨h1, h2⟩
    · rw [← List.head?_eq_getElem?] at hk
      rw [zoneSign, hk] at hsign
      split at hsign
      · rename_i heq
        cases heq
        decide
      · rename_i heq
        cases heq
        decide
      · cases hsign
    · exact stampChar_of_isDigit (digits_get hh h1 h2 hk)
    · rw [hshape.2] at hk
      cases hk
      decide
    · exact stampChar_of_isDigit (digits_get hm h1 h2 hk)

theorem parseMs_chars {t : Text} (h : parseMs t ≠ none) : ∀ c ∈ t, stampChar c = true := by
  obtain ⟨ms, hms⟩ := Option.ne_none_iff_exists'.1 h
  obtain ⟨year, month, day, hour, minute, second, fractionMs, rest, offsetMinutes,
    ⟨h4, h7, h10, h13, h16⟩, ⟨hy, hmo, hd, hho, hmi, hse⟩, -, hf, ho, -⟩ := parseMs_cases hms
  intro c hc
  obtain ⟨k, hk⟩ := List.mem_iff_getElem?.1 hc
  have hsep : ∀ {d : Char}, t[k]? = some d → stampChar d = true → stampChar c = true := by
    intro d hd hs
    rw [hk] at hd
    rwa [Option.some.inj hd]
  have hcases : k < 4 ∨ k = 4 ∨ (5 ≤ k ∧ k < 7) ∨ k = 7 ∨ (8 ≤ k ∧ k < 10) ∨ k = 10 ∨
      (11 ≤ k ∧ k < 13) ∨ k = 13 ∨ (14 ≤ k ∧ k < 16) ∨ k = 16 ∨ (17 ≤ k ∧ k < 19) ∨ 19 ≤ k := by
    omega
  rcases hcases with h1 | rfl | ⟨h1, h2⟩ | rfl | ⟨h1, h2⟩ | rfl | ⟨h1, h2⟩ | rfl | ⟨h1, h2⟩ | rfl |
    ⟨h1, h2⟩ | h1
  · exact stampChar_of_isDigit (digits_get hy (Nat.zero_le _) h1 hk)
  · exact hsep h4 (by decide)
  · exact stampChar_of_isDigit (digits_get hmo h1 h2 hk)
  · exact hsep h7 (by decide)
  · exact stampChar_of_isDigit (digits_get hd h1 h2 hk)
  · rcases h10 with h10 | h10 | h10
    · exact hsep h10 (by decide)
    · exact hsep h10 (by decide)
    · exact hsep h10 (by decide)
  · exact stampChar_of_isDigit (digits_get hho h1 h2 hk)
  · exact hsep h13 (by decide)
  · exact stampChar_of_isDigit (digits_get hmi h1 h2 hk)
  · exact hsep h16 (by decide)
  · exact stampChar_of_isDigit (digits_get hse h1 h2 hk)
  · have hdrop : c ∈ t.drop 19 := by
      rw [List.mem_iff_getElem?]
      exact ⟨k - 19, by rw [List.getElem?_drop, show 19 + (k - 19) = k by omega, hk]⟩
    rcases fraction_chars hf c hdrop with hs | hr
    · exact hs
    · exact offset_chars ho c hr

end Yaam.Contract
