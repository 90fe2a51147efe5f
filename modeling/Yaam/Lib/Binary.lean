/-
  Binary floating-point numbers as the rationals they stand for, and how they are written in
  decimal.

  * `Format.round` takes a number to the nearest float, `round_nearest` says that it is, and
    `round_eq_of_nearest` which one it is between two;
  * `Format.shortest` is the shortest decimal that rounds back, `round_shortest` that it
    does.

  No number is too large here: a format bounds the digits of a float and its least unit, not
  its greatest exponent.
-/
import Mathlib.Algebra.Order.Field.Basic
import Mathlib.Algebra.Order.Floor.Ring
import Mathlib.Data.Int.Log
import Mathlib.Data.Rat.Floor
import Mathlib.Tactic.Linarith
import Mathlib.Tactic.FieldSimp
import Mathlib.Tactic.Ring

namespace Yaam.Binary

/-! ## Rounding to an integer -/

/-- The nearest integer, the even one between two. -/
def roundEven (x : ℚ) : ℤ :=
  if x - ⌊x⌋ < 1 / 2 then ⌊x⌋
  else if 1 / 2 < x - ⌊x⌋ then ⌊x⌋ + 1
  else if Even ⌊x⌋ then ⌊x⌋ else ⌊x⌋ + 1

variable {x : ℚ}

theorem abs_sub_roundEven_le (x : ℚ) : |x - roundEven x| ≤ 1 / 2 := by
  have hlo := Int.floor_le x
  have hhi := Int.lt_floor_add_one x
  unfold roundEven
  split_ifs <;> push_cast <;> rw [abs_le] <;> constructor <;> linarith

/-- Another integer is at least half away. -/
theorem half_le_abs_sub {k : ℤ} (hk : k ≠ roundEven x) : 1 / 2 ≤ |x - k| := by
  have hint : (1 : ℤ) ≤ |(roundEven x) - k| := Int.one_le_abs (sub_ne_zero.2 hk.symm)
  have hone : (1 : ℚ) ≤ |(roundEven x : ℚ) - k| := by exact_mod_cast hint
  have htri := abs_sub_le (roundEven x : ℚ) x k
  rw [abs_sub_comm (roundEven x : ℚ) x] at htri
  linarith [abs_sub_roundEven_le x]

theorem roundEven_nearest (x : ℚ) (k : ℤ) : |x - roundEven x| ≤ |x - k| := by
  by_cases hk : k = roundEven x
  · rw [hk]
  · exact (abs_sub_roundEven_le x).trans (half_le_abs_sub hk)

@[simp] theorem roundEven_intCast (k : ℤ) : roundEven (k : ℚ) = k := by
  simp [roundEven]

/-- Between two integers the even one is taken. -/
theorem even_roundEven (h : |x - roundEven x| = 1 / 2) : Even (roundEven x) := by
  have hlo := Int.floor_le x
  have hhi := Int.lt_floor_add_one x
  unfold roundEven at h ⊢
  split_ifs at h ⊢ with hlt hgt heven
  · rw [abs_of_nonneg (by linarith)] at h
    linarith
  · push_cast at h
    rw [abs_of_neg (by linarith)] at h
    linarith
  · exact heven
  · exact Int.even_add_one.2 heven

/-- An even integer that is as near is the one. -/
theorem eq_roundEven_of_even {k : ℤ} (hk : Even k) (h : |x - k| ≤ |x - roundEven x|) :
    k = roundEven x := by
  by_contra hne
  have hhalf := half_le_abs_sub hne
  have hle := abs_sub_roundEven_le x
  have heven := even_roundEven (le_antisymm hle (hhalf.trans h))
  have hone : |(k : ℚ) - roundEven x| ≤ 1 := by
    have htri := abs_sub_le (k : ℚ) x (roundEven x)
    rw [abs_sub_comm (k : ℚ) x] at htri
    linarith
  have hint : |k - roundEven x| ≤ 1 := by exact_mod_cast hone
  rw [Int.even_iff] at hk heven
  rw [abs_le] at hint
  omega

/-! ## Formats -/

/-- A binary format: the digits of a significand, the exponent of the least unit, and how many
    decimal places, either side of the point, its numbers are written with at most. -/
structure Format where
  bits : ℕ
  bits_pos : 0 < bits
  least : ℤ
  reach : ℕ

namespace Format
variable (F : Format)

/-- A number of a format. -/
def Holds (q : ℚ) : Prop := ∃ m e : ℤ, |m| < 2 ^ F.bits ∧ F.least ≤ e ∧ q = m * 2 ^ e

/-- The exponent of the unit that a number is rounded to. -/
def unit (q : ℚ) : ℤ := max F.least (Int.log 2 |q| - (F.bits - 1))

/-- The nearest number of the format, the even one between two. -/
def round (q : ℚ) : ℚ := roundEven (q / 2 ^ F.unit q) * 2 ^ F.unit q

variable {F} {q y : ℚ}

theorem two_zpow_pos (e : ℤ) : (0 : ℚ) < 2 ^ e := zpow_pos (by norm_num) e

/-- In its unit a number has at most the digits of the format. -/
theorem abs_div_unit_lt (F : Format) (q : ℚ) : |q / 2 ^ F.unit q| < 2 ^ F.bits := by
  rw [abs_div, abs_of_pos (two_zpow_pos _), div_lt_iff₀ (two_zpow_pos _), ← zpow_natCast,
    ← zpow_add₀ (by norm_num)]
  have hlog : |q| < ((2 : ℕ) : ℚ) ^ (Int.log 2 |q| + 1) :=
    Int.lt_zpow_succ_log_self Nat.one_lt_two |q|
  refine hlog.trans_le (zpow_le_zpow_right₀ (by norm_num) ?_)
  have : Int.log 2 |q| - (F.bits - 1) ≤ F.unit q := le_max_right _ _
  omega

/-- Above the least unit it has that many. -/
theorem le_abs_div_unit (hq : q ≠ 0) (h : F.least < F.unit q) :
    2 ^ (F.bits - 1) ≤ |q / 2 ^ F.unit q| := by
  rw [abs_div, abs_of_pos (two_zpow_pos _), le_div_iff₀ (two_zpow_pos _), ← zpow_natCast,
    ← zpow_add₀ (by norm_num)]
  have hunit : F.unit q = Int.log 2 |q| - (F.bits - 1) := (max_choice _ _).resolve_left h.ne'
  have hexp : ((F.bits - 1 : ℕ) : ℤ) + F.unit q = Int.log 2 |q| := by
    have := F.bits_pos
    omega
  have hlog : ((2 : ℕ) : ℚ) ^ Int.log 2 |q| ≤ |q| :=
    Int.zpow_log_le_self Nat.one_lt_two (abs_pos.2 hq)
  rw [hexp]
  exact hlog

/-! ## The nearest number -/

/-- What lies below the greatest power of two under a number is no nearer than that power. -/
theorem abs_sub_roundEven_lt {x z : ℚ} {p : ℕ} (hz : |z| < 2 ^ p) (hx : 2 ^ p ≤ |x|) :
    |x - roundEven x| < |x - z| := by
  rcases le_total 0 x with hsign | hsign
  · have h := roundEven_nearest x (2 ^ p)
    rw [abs_of_nonneg hsign] at hx
    push_cast at h
    rw [abs_of_nonneg (sub_nonneg.2 hx)] at h
    have hz' := (abs_lt.1 hz).2
    rw [abs_of_pos (a := x - z) (by linarith)]
    linarith
  · have h := roundEven_nearest x (-2 ^ p)
    rw [abs_of_nonpos hsign] at hx
    push_cast at h
    rw [abs_of_nonpos (a := x - -2 ^ p) (by linarith)] at h
    have hz' := (abs_lt.1 hz).1
    rw [abs_of_neg (a := x - z) (by linarith)]
    linarith

/-- A number of the format, in the unit of another: an integer, or smaller than that other. -/
theorem Holds.div_unit (hy : F.Holds y) (hq : q ≠ 0) :
    (∃ k : ℤ, y / 2 ^ F.unit q = k) ∨
      |y / 2 ^ F.unit q| < 2 ^ (F.bits - 1) ∧ 2 ^ (F.bits - 1) ≤ |q / 2 ^ F.unit q| := by
  obtain ⟨m, e, hm, he, rfl⟩ := hy
  rcases le_or_gt (F.unit q) e with hle | hlt
  · obtain ⟨n, hn⟩ := Int.eq_ofNat_of_zero_le (sub_nonneg.2 hle)
    refine .inl ⟨m * 2 ^ n, ?_⟩
    rw [mul_div_assoc, ← zpow_sub₀ (by norm_num), hn, zpow_natCast]
    push_cast
    rfl
  · refine .inr ⟨?_, le_abs_div_unit hq (he.trans_lt hlt)⟩
    rw [mul_div_assoc, ← zpow_sub₀ (by norm_num), abs_mul, abs_of_pos (two_zpow_pos _)]
    have hm' : |(m : ℚ)| < 2 ^ F.bits := by exact_mod_cast hm
    have hpow : (2 : ℚ) ^ (e - F.unit q) ≤ 2 ^ (-1 : ℤ) :=
      zpow_le_zpow_right₀ (by norm_num) (by omega)
    have hbits : (2 : ℚ) ^ F.bits = 2 ^ (F.bits - 1) * 2 := by
      rw [← pow_succ, Nat.sub_add_cancel F.bits_pos]
    calc |(m : ℚ)| * 2 ^ (e - F.unit q) ≤ |(m : ℚ)| * 2 ^ (-1 : ℤ) :=
          mul_le_mul_of_nonneg_left hpow (abs_nonneg _)
      _ < 2 ^ (F.bits - 1) := by
          rw [zpow_neg_one]
          linarith

/-- Distances in a number's unit. -/
theorem abs_sub_round (q : ℚ) : |q - F.round q| =
    |q / 2 ^ F.unit q - roundEven (q / 2 ^ F.unit q)| * 2 ^ F.unit q := by
  rw [round, ← abs_of_pos (two_zpow_pos (F.unit q)), ← abs_mul, abs_of_pos (two_zpow_pos _), sub_mul,
    div_mul_cancel₀ _ (two_zpow_pos _).ne']

theorem abs_sub_div_unit (q y : ℚ) : |q - y| =
    |q / 2 ^ F.unit q - y / 2 ^ F.unit q| * 2 ^ F.unit q := by
  rw [← sub_div, abs_div, abs_of_pos (two_zpow_pos _), div_mul_cancel₀ _ (two_zpow_pos _).ne']

/-- **Rounding takes a number to a nearest of the format.** -/
theorem round_nearest (q : ℚ) (hy : F.Holds y) : |q - F.round q| ≤ |q - y| := by
  rcases eq_or_ne q 0 with rfl | hq
  · rw [round, zero_div, ← Int.cast_zero, roundEven_intCast, Int.cast_zero, zero_mul, sub_zero, abs_zero]
    exact abs_nonneg _
  rw [abs_sub_round, abs_sub_div_unit q y]
  refine mul_le_mul_of_nonneg_right ?_ (two_zpow_pos _).le
  rcases hy.div_unit hq with ⟨k, hk⟩ | ⟨hsmall, hlarge⟩
  · rw [hk]
    exact roundEven_nearest _ k
  · exact (abs_sub_roundEven_lt hsmall hlarge).le

/-- A float rounds to itself. -/
theorem round_of_holds (h : F.Holds q) : F.round q = q := by
  have hle := round_nearest q h
  rw [sub_self, abs_zero, abs_nonpos_iff, sub_eq_zero] at hle
  exact hle.symm

/-- **Rounding takes a number to one of the format.** -/
theorem holds_round (q : ℚ) : F.Holds (F.round q) := by
  have hle : |roundEven (q / 2 ^ F.unit q)| ≤ 2 ^ F.bits := by
    have htri := abs_sub_abs_le_abs_sub ((roundEven (q / 2 ^ F.unit q) : ℤ) : ℚ) (q / 2 ^ F.unit q)
    rw [abs_sub_comm] at htri
    have hhalf := abs_sub_roundEven_le (q / 2 ^ F.unit q)
    have hlt : |((roundEven (q / 2 ^ F.unit q) : ℤ) : ℚ)| < 2 ^ F.bits + 1 := by
      linarith [abs_div_unit_lt F q]
    have hint : |roundEven (q / 2 ^ F.unit q)| < 2 ^ F.bits + 1 := by exact_mod_cast hlt
    omega
  rcases hle.lt_or_eq with hlt | heq
  · exact ⟨_, F.unit q, hlt, le_max_left _ _, rfl⟩
  -- a digit too many, which is a zero
  have hbits : (2 : ℤ) ^ F.bits = 2 ^ (F.bits - 1) * 2 := by
    rw [← pow_succ, Nat.sub_add_cancel F.bits_pos]
  have hpow : (0 : ℤ) < 2 ^ (F.bits - 1) := by positivity
  have hleast : F.least ≤ F.unit q + 1 := by
    have : F.least ≤ F.unit q := le_max_left _ _
    omega
  have hunit : (2 : ℚ) ^ (F.unit q + 1) = 2 * 2 ^ F.unit q := by
    rw [zpow_add_one₀ (by norm_num), mul_comm]
  rcases abs_choice (roundEven (q / 2 ^ F.unit q)) with hsign | hsign
  · refine ⟨2 ^ (F.bits - 1), F.unit q + 1, ?_, hleast, ?_⟩
    · rw [abs_of_pos hpow]
      omega
    · rw [round, ← hsign, heq, hbits, hunit]
      push_cast
      ring
  · refine ⟨-2 ^ (F.bits - 1), F.unit q + 1, ?_, hleast, ?_⟩
    · rw [abs_neg, abs_of_pos hpow]
      omega
    · rw [round, ← neg_neg (roundEven _), ← hsign, heq, hbits, hunit]
      push_cast
      ring

/-- **Of the two floats around a number rounding takes** one that has a digit to spare. -/
theorem round_eq_of_nearest {m e : ℤ} (hm : |m| < 2 ^ (F.bits - 1)) (he : F.least < e)
    (h : ∀ y, F.Holds y → |q - m * 2 ^ e| ≤ |q - y|) : F.round q = m * 2 ^ e := by
  have hround := h _ (holds_round q)
  rcases eq_or_ne q 0 with rfl | hq
  · have hzero : F.round 0 = 0 := by
      rw [round, zero_div, ← Int.cast_zero, roundEven_intCast, Int.cast_zero, zero_mul]
    rw [hzero, sub_self, abs_zero, abs_nonpos_iff, zero_sub, neg_eq_zero] at hround
    rw [hzero, hround]
  rw [abs_sub_round, abs_sub_div_unit q (m * 2 ^ e)] at hround
  replace hround := le_of_mul_le_mul_right hround (two_zpow_pos _)
  rcases lt_or_ge (F.unit q) e with hlt | hle
  · obtain ⟨n, hn⟩ := Int.eq_ofNat_of_zero_le (sub_nonneg.2 hlt.le)
    have hk : (m : ℚ) * 2 ^ e / 2 ^ F.unit q = ((m * 2 ^ n : ℤ) : ℚ) := by
      rw [mul_div_assoc, ← zpow_sub₀ (by norm_num), hn, zpow_natCast]
      push_cast
      rfl
    have heven : Even (m * 2 ^ n) := by
      obtain ⟨j, rfl⟩ : ∃ j, n = j + 1 := ⟨n - 1, by omega⟩
      exact ⟨m * 2 ^ j, by ring⟩
    rw [hk] at hround
    rw [round, ← eq_roundEven_of_even heven hround, ← hk, div_mul_cancel₀ _ (two_zpow_pos _).ne']
  · have hsmall : |(m : ℚ) * 2 ^ e / 2 ^ F.unit q| < 2 ^ (F.bits - 1) := by
      have hm' : |(m : ℚ)| < 2 ^ (F.bits - 1) := by exact_mod_cast hm
      have hpow : (2 : ℚ) ^ (e - F.unit q) ≤ 1 := zpow_le_one_of_nonpos₀ (by norm_num) (by omega)
      rw [mul_div_assoc, ← zpow_sub₀ (by norm_num), abs_mul, abs_of_pos (two_zpow_pos _)]
      exact (mul_le_of_le_one_right (abs_nonneg _) hpow).trans_lt hm'
    have hlarge := le_abs_div_unit hq (he.trans_le hle)
    exact absurd hround (not_le.2 (abs_sub_roundEven_lt hsmall hlarge))

/-! ## Decimals -/

/-- The decimals with this many places around a number, the nearer one first. -/
def candidates (q : ℚ) (places : ℤ) : List ℚ :=
  let scaled := q * 10 ^ places
  let below : ℚ := ⌊scaled⌋ / 10 ^ places
  let above : ℚ := (⌊scaled⌋ + 1) / 10 ^ places
  if scaled - ⌊scaled⌋ ≤ 1 / 2 then [below, above] else [above, below]

/-- The shortest decimal that rounds back to a float, and of these the nearest. -/
def shortest (F : Format) (q : ℚ) : ℚ :=
  (((List.range (2 * F.reach)).flatMap fun i => candidates q (i - F.reach)).find? fun d =>
    F.round d = q).getD q

theorem getD_find? {p : ℚ → Bool} (hq : p q = true) (ds : List ℚ) :
    p ((ds.find? p).getD q) = true := by
  cases hfind : ds.find? p with
  | none => exact hq
  | some d => exact List.find?_some hfind

/-- **The shortest decimal of a float rounds back to it.** -/
theorem round_shortest (h : F.Holds q) : F.round (F.shortest q) = q := by
  have hq : decide (F.round q = q) = true := decide_eq_true (round_of_holds h)
  exact of_decide_eq_true (@getD_find? q (fun d => decide (F.round d = q)) hq _)

/-- Floats with one shortest decimal are one. -/
theorem shortest_injOn {q' : ℚ} (h : F.Holds q) (h' : F.Holds q') (heq : F.shortest q = F.shortest q') :
    q = q' := by
  rw [← round_shortest h, heq, round_shortest h']

/-- Single and double precision. -/
def f32 : Format := ⟨24, by decide, -149, 60⟩

def f64 : Format := ⟨53, by decide, -1074, 400⟩

end Format

end Yaam.Binary
