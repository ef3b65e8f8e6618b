import ProofBook.State
import ProofBook.Lib.ProRata

/-!
# Parimutuel payout arithmetic

Fee, distributable pool and pro-rata payout, with the checks of the source. On
amounts that fit in 64 bits and a fee within its bound no check can fail, and
each function is the plain expression it stands for.
-/
namespace ProofBook.PayoutMath
open Addresses State Checked ProRata

def feeAmount (totalPool feeBps : ℕ) : Except ProofbookError ℕ := do
  let product ← demand (checkedMulU128 totalPool feeBps) .mathOverflow
  demand (tryU64 (product / bpsDenominator)) .mathOverflow

def distributablePool (totalPool feeBps : ℕ) : Except ProofbookError ℕ := do
  let fee ← feeAmount totalPool feeBps
  demand (checkedSubU64 totalPool fee) .mathUnderflow

def payout (stake totalPool totalWinningPool feeBps : ℕ) : Except ProofbookError ℕ := do
  require (0 < totalWinningPool) .zeroWinningPool
  require (stake ≤ totalWinningPool) .mathOverflow
  let distributable ← distributablePool totalPool feeBps
  let numerator ← demand (checkedMulU128 stake distributable) .mathOverflow
  demand (tryU64 (numerator / totalWinningPool)) .mathOverflow

/-- The fee as a number: the floor of the pool's share in basis points. -/
def fee (totalPool feeBps : ℕ) : ℕ := totalPool * feeBps / bpsDenominator

theorem fee_le (totalPool : ℕ) {feeBps : ℕ} (hb : feeBps ≤ maxFeeBps) :
    fee totalPool feeBps ≤ totalPool := by
  unfold fee bpsDenominator
  unfold maxFeeBps at hb
  exact Nat.div_le_of_le_mul (by nlinarith)

theorem checkedMulU128_of_lt {a b : ℕ} (ha : a < u64Size) (hb : b < u64Size) :
    checkedMulU128 a b = some (a * b) := by
  have h : a * b < u128Size := by
    calc a * b < u64Size * u64Size := Nat.mul_lt_mul'' ha hb
      _ = u128Size := by simp [u64Size, u128Size]
  simp [checkedMulU128, h]

theorem feeAmount_eq {totalPool feeBps : ℕ} (ht : totalPool < u64Size)
    (hb : feeBps ≤ maxFeeBps) : feeAmount totalPool feeBps = .ok (fee totalPool feeBps) := by
  have hb' : feeBps < u64Size := lt_of_le_of_lt hb (by simp [maxFeeBps, u64Size])
  have hf : totalPool * feeBps / bpsDenominator < u64Size := (fee_le totalPool hb).trans_lt ht
  simp [feeAmount, checkedMulU128_of_lt ht hb', demand, bind, Except.bind, tryU64, hf, fee]

theorem distributablePool_eq {totalPool feeBps : ℕ} (ht : totalPool < u64Size)
    (hb : feeBps ≤ maxFeeBps) :
    distributablePool totalPool feeBps = .ok (totalPool - fee totalPool feeBps) := by
  simp [distributablePool, feeAmount_eq ht hb, checkedSubU64, fee_le totalPool hb, demand, bind,
    Except.bind]

theorem payout_eq {stake totalPool totalWinningPool feeBps : ℕ} (ht : totalPool < u64Size)
    (hb : feeBps ≤ maxFeeBps) (hw : 0 < totalWinningPool) (hs : stake ≤ totalWinningPool)
    (hp : totalWinningPool ≤ totalPool) :
    payout stake totalPool totalWinningPool feeBps =
      .ok (share (totalPool - fee totalPool feeBps) totalWinningPool stake) := by
  have hd : totalPool - fee totalPool feeBps < u64Size := by omega
  have hq : stake * (totalPool - fee totalPool feeBps) / totalWinningPool < u64Size := by
    refine (Nat.div_le_of_le_mul ?_).trans_lt hd
    exact Nat.mul_le_mul_right _ hs
  simp [payout, require, hw, hs, distributablePool_eq ht hb, demand, bind, Except.bind,
    checkedMulU128_of_lt (show stake < u64Size by omega) hd, tryU64, hq, share]

/-- 5% of a pool of 1000 backed by winners of 500 and 300. -/
example : payout 500 1000 800 500 = .ok 593 ∧ payout 300 1000 800 500 = .ok 356 := by decide

end ProofBook.PayoutMath
