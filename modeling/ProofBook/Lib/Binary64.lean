import Mathlib

/-!
# Numbers with 53 significant bits

IEEE double-precision numbers as rationals with the infinities and the value that is
not a number; the two zeros are one. A sum is the exact sum rounded to the nearest
number, halves to even. Integers up to `2 ^ 53` are exact, and the next one is not.
-/
namespace ProofBook.Binary64

inductive Number
  | nan
  | inf (negative : Bool)
  | finite (value : ℚ)
deriving Repr, DecidableEq

/-- The nearest integer, a half to the even one. -/
def roundEven (q : ℚ) : ℤ :=
  let below := ⌊q⌋
  if q - below < 1 / 2 then below
  else if q - below = 1 / 2 ∧ below % 2 = 0 then below
  else below + 1

/-- The value of the last of the 53 bits. -/
def ulp (q : ℚ) : ℚ := 2 ^ max (Int.log 2 |q| - 52) (-1074)

/-- The number nearest to a rational. -/
def round (q : ℚ) : Number :=
  let rounded := roundEven (q / ulp q) * ulp q
  if |rounded| < 2 ^ 1024 then .finite rounded else .inf (decide (rounded < 0))

namespace Number

def int (n : ℤ) : Number := .finite n

def isFinite : Number → Bool
  | .finite _ => true
  | .nan | .inf _ => false

def floor : Number → Number
  | .finite q => .int ⌊q⌋
  | .nan => .nan
  | .inf negative => .inf negative

def add : Number → Number → Number
  | .finite a, .finite b => round (a + b)
  | .inf a, .inf b => if a = b then .inf a else .nan
  | .inf a, .finite _ => .inf a
  | .finite _, .inf b => .inf b
  | .nan, _ | _, .nan => .nan

def neg : Number → Number
  | .finite q => .finite (-q)
  | .inf negative => .inf !negative
  | .nan => .nan

def sub (a b : Number) : Number := a.add b.neg

/-- `<`, false of what is not a number. -/
def lt : Number → Number → Bool
  | .finite a, .finite b => decide (a < b)
  | .inf a, .finite _ => a
  | .finite _, .inf b => !b
  | .inf a, .inf b => a && !b
  | .nan, _ | _, .nan => false

/-- `===`, false of what is not a number. -/
def eq : Number → Number → Bool
  | .finite a, .finite b => decide (a = b)
  | .inf a, .inf b => a == b
  | _, _ => false

@[simp] theorem lt_int (m n : ℤ) : (Number.int m).lt (.int n) = decide (m < n) := by
  simp [int, lt]

@[simp] theorem eq_int (m n : ℤ) : (Number.int m).eq (.int n) = decide (m = n) := by
  simp [int, eq]

@[simp] theorem floor_finite (q : ℚ) : (Number.finite q).floor = .int ⌊q⌋ := rfl

end Number

/-! ## Exact integers -/

@[simp] theorem roundEven_intCast (n : ℤ) : roundEven n = n := by simp [roundEven]

theorem two_pow_53_lt : (2 : ℚ) ^ 53 < 2 ^ 1024 :=
  pow_lt_pow_right₀ (by norm_num) (by norm_num)

theorem ulp_pos (q : ℚ) : 0 < ulp q := zpow_pos (by norm_num) _

/-- A rational that is a whole number of its last bits stays as it is. -/
theorem round_exact {q : ℚ} {k : ℤ} (hk : q / ulp q = k) (hq : |q| < 2 ^ 1024) :
    round q = .finite q := by
  have hmul : (k : ℚ) * ulp q = q := by rw [← hk, div_mul_cancel₀ _ (ulp_pos q).ne']
  simp only [round, hk, roundEven_intCast, hmul, if_pos hq]

theorem log_intCast_lt {n : ℤ} {e : ℕ} (hn : n ≠ 0) (h : |n| < 2 ^ e) :
    Int.log 2 |(n : ℚ)| < e := by
  have habs : (0 : ℚ) < |(n : ℚ)| := abs_pos.mpr (by exact_mod_cast hn)
  rw [← Int.lt_zpow_iff_log_lt (by norm_num) habs]
  exact_mod_cast h

theorem ulp_intCast {n : ℤ} (hn : n ≠ 0) (h : |n| < 2 ^ 53) :
    ∃ d : ℕ, ulp n = 1 / 2 ^ d := by
  have hlog := log_intCast_lt hn h
  refine ⟨(-max (Int.log 2 |(n : ℚ)| - 52) (-1074)).toNat, ?_⟩
  rw [ulp, one_div, ← zpow_natCast, ← zpow_neg, Int.toNat_of_nonneg (by omega), neg_neg]

/-- Every integer of 53 bits is exact. -/
theorem round_intCast {n : ℤ} (h : |n| ≤ 2 ^ 53) : round n = .int n := by
  have hbound : |(n : ℚ)| < 2 ^ 1024 := lt_of_le_of_lt (by exact_mod_cast h) two_pow_53_lt
  rcases eq_or_ne n 0 with rfl | hn
  · exact round_exact (k := 0) (by simp) hbound
  · rcases lt_or_eq_of_le h with hlt | heq
    · obtain ⟨d, hd⟩ := ulp_intCast hn hlt
      exact round_exact (k := n * 2 ^ d) (by rw [hd]; push_cast; simp) hbound
    · have hcast : |(n : ℚ)| = ((2 ^ 53 : ℕ) : ℚ) := by exact_mod_cast heq
      have hlog : Int.log 2 |(n : ℚ)| = 53 := by
        rw [hcast, Int.log_natCast]
        norm_num
      have hulp : ulp n = 2 := by
        rw [ulp, hlog]
        norm_num
      rcases abs_eq (by norm_num) |>.mp heq with rfl | rfl
      · exact round_exact (k := 2 ^ 52) (by rw [hulp]; norm_num) hbound
      · exact round_exact (k := -2 ^ 52) (by rw [hulp]; norm_num) hbound

theorem add_int_round (m n : ℤ) : (Number.int m).add (.int n) = round (m + n) := rfl

theorem add_int {m n : ℤ} (h : |m + n| ≤ 2 ^ 53) :
    (Number.int m).add (.int n) = .int (m + n) := by
  rw [add_int_round, ← round_intCast h, Int.cast_add]

theorem sub_int {m n : ℤ} (h : |m - n| ≤ 2 ^ 53) :
    (Number.int m).sub (.int n) = .int (m - n) := by
  have hneg : (Number.int n).neg = .int (-n) := by simp [Number.int, Number.neg]
  rw [Number.sub, hneg, add_int (by simpa [sub_eq_add_neg] using h), sub_eq_add_neg]

/-- The first integer that is lost. -/
theorem round_two_pow_53_add_one : round (2 ^ 53 + 1) = .int (2 ^ 53) := by
  have hlog : Int.log 2 |(2 ^ 53 + 1 : ℚ)| = 53 := by
    have hcast : |(2 ^ 53 + 1 : ℚ)| = ((2 ^ 53 + 1 : ℕ) : ℚ) := by norm_num
    rw [hcast, Int.log_natCast]
    norm_num
  have hulp : ulp (2 ^ 53 + 1) = 2 := by
    rw [ulp, hlog]
    norm_num
  have hfloor : ⌊((2 ^ 53 + 1) / 2 : ℚ)⌋ = 2 ^ 52 := by
    rw [Int.floor_eq_iff]
    norm_num
  have hrounded : roundEven ((2 ^ 53 + 1) / 2) = 2 ^ 52 := by
    rw [roundEven, hfloor]
    norm_num
  have hvalue : ((2 ^ 52 : ℤ) : ℚ) * 2 = 2 ^ 53 := by norm_num
  have hbound : |(2 : ℚ) ^ 53| < 2 ^ 1024 := by
    rw [abs_of_pos (by norm_num)]
    exact two_pow_53_lt
  simp only [round, hulp, hrounded, hvalue, if_pos hbound]
  norm_num [Number.int]

end ProofBook.Binary64
