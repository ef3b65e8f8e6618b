import Mathlib

/-!
# Addresses, machine words and limits

A program-derived address is a free term over its seeds, so distinct seeds give
distinct addresses and no derived address is a wallet. Only plain keys can sign
an outer instruction. Amounts are natural numbers with checked operations;
clock values and fixture ids are the signed words of the source.
-/
namespace ProofBook.Addresses

inductive Pubkey
  /-- A wallet, a mint, a token account, a program: any address not derived below. -/
  | key (n : ℕ)
  | market (authority : Pubkey) (fixtureId : Int64) (marketType : ℕ)
  | vault (parent : Pubkey)
  | propVault (depositor : Pubkey) (vaultId : ℕ)
  | combo (market : Pubkey)
  | dailyScores (oracle : Pubkey) (epochDay : UInt16)
deriving Repr, DecidableEq

/-- The all-zero key; the system program's, so nobody signs with it. -/
def Pubkey.default : Pubkey := .key 0

def Pubkey.canSign : Pubkey → Bool
  | .key n => n != 0
  | _ => false

def maxOutcomes : ℕ := 12
def minOutcomes : ℕ := 2
def maxLegs : ℕ := 5
def comboMarketTypeMin : ℕ := 16
def maxFeeBps : ℕ := 1000
def bpsDenominator : ℕ := 10000
/-- `u8::MAX`, the winner before settlement. -/
def unsetOutcome : ℕ := 255
def msPerDay : ℤ := 86400000

def u64Size : ℕ := 2 ^ 64
def u128Size : ℕ := 2 ^ 128

def checkedAddU64 (a b : ℕ) : Option ℕ := if a + b < u64Size then some (a + b) else none

def checkedSubU64 (a b : ℕ) : Option ℕ := if b ≤ a then some (a - b) else none

def checkedMulU128 (a b : ℕ) : Option ℕ := if a * b < u128Size then some (a * b) else none

def tryU64 (n : ℕ) : Option ℕ := if n < u64Size then some n else none

@[simp] theorem checkedAddU64_eq_some {a b c : ℕ} :
    checkedAddU64 a b = some c ↔ a + b < u64Size ∧ a + b = c := by
  unfold checkedAddU64
  split <;> simp [*]

@[simp] theorem checkedAddU64_eq_none {a b : ℕ} :
    checkedAddU64 a b = none ↔ u64Size ≤ a + b := by
  unfold checkedAddU64
  split <;> simp <;> omega

@[simp] theorem checkedSubU64_eq_some {a b c : ℕ} :
    checkedSubU64 a b = some c ↔ b ≤ a ∧ a - b = c := by
  unfold checkedSubU64
  split <;> simp [*]

@[simp] theorem checkedSubU64_eq_none {a b : ℕ} : checkedSubU64 a b = none ↔ a < b := by
  unfold checkedSubU64
  split <;> simp <;> omega

def i64Max : ℤ := 2 ^ 63 - 1

/-- `i64::checked_add`. -/
def checkedAddI64 (a b : Int64) : Option Int64 :=
  if -(2 ^ 63) ≤ a.toInt + b.toInt ∧ a.toInt + b.toInt ≤ i64Max then
    some (Int64.ofInt (a.toInt + b.toInt))
  else none

theorem toInt_bounds (a : Int64) : -(2 ^ 63) ≤ a.toInt ∧ a.toInt ≤ i64Max := by
  have h₁ := Int64.le_toInt a
  have h₂ := Int64.toInt_lt a
  unfold i64Max
  omega

theorem checkedAddI64_eq_some {a b c : Int64} (h : checkedAddI64 a b = some c) :
    c.toInt = a.toInt + b.toInt ∧ a.toInt + b.toInt ≤ i64Max := by
  unfold checkedAddI64 at h
  split at h
  · next hb =>
    simp only [Option.some.injEq] at h
    subst h
    refine ⟨Int64.toInt_ofInt_of_le hb.1 ?_, hb.2⟩
    have := hb.2
    unfold i64Max at this
    omega
  · simp at h

theorem checkedAddI64_of_le {a b : Int64} (hb : 0 ≤ b.toInt) (h : a.toInt + b.toInt ≤ i64Max) :
    ∃ c, checkedAddI64 a b = some c := by
  have := (toInt_bounds a).1
  exact ⟨_, by rw [checkedAddI64, if_pos ⟨by omega, h⟩]⟩

/-- The day of a millisecond timestamp, truncated to the `u16` of the seed. -/
def epochDayOf (ts : Int64) : UInt16 := UInt16.ofNat ((ts.toInt / msPerDay) % 65536).toNat

end ProofBook.Addresses
