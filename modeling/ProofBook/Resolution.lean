import ProofBook.Positions
import ProofBook.Store

/-!
# Recording a resolution

The settler reads the market account back and records what it says: any status
but settled counts as cancelled. A settled market gets a receipt, with a score
only when the settler holds a proof of it.
-/
namespace ProofBook.Store
open Addresses State Positions DbSync

/-! ## The order of the statuses -/

/-- Open, then locked, then settled or cancelled. -/
def stage : MarketStatus → ℕ
  | .opened => 0
  | .locked => 1
  | .settled | .cancelled => 2

theorem stage_le (st : MarketStatus) : stage st ≤ 2 := by
  cases st <;> decide

theorem stage_of_terminal {st : MarketStatus} (h : st.terminal = true) : stage st = 2 := by
  cases st <;> first | rfl | cases h

/-- The status stays or goes forward. -/
def Forward (a b : MarketStatus) : Prop := a = b ∨ stage a < stage b

instance (a b : MarketStatus) : Decidable (Forward a b) := inferInstanceAs (Decidable (_ ∨ _))

theorem Forward.of_le {a b : MarketStatus} (h : stage a ≤ stage b)
    (ht : a.terminal = true → b.terminal = true → a = b) : Forward a b := by
  cases a <;> cases b <;> first
    | exact .inl rfl
    | exact .inr (by decide)
    | exact absurd h (by decide)
    | exact .inl (ht rfl rfl)

theorem Forward.trans {a b c : MarketStatus} (h : Forward a b) (h' : Forward b c) :
    Forward a c := by
  rcases h with rfl | h
  · exact h'
  · rcases h' with rfl | h'
    · exact .inr h
    · exact .inr (h.trans h')

theorem Forward.stage_le {a b : MarketStatus} (h : Forward a b) : stage a ≤ stage b := by
  rcases h with rfl | h
  · exact le_rfl
  · exact h.le

/-- Nothing follows a terminal status. -/
theorem Forward.eq_of_terminal {a b : MarketStatus} (h : Forward a b) (ht : a.terminal = true) :
    a = b := by
  refine h.resolve_right fun hlt => ?_
  rw [stage_of_terminal ht] at hlt
  exact absurd hlt (Nat.not_lt.mpr (Store.stage_le b))

/-! ## The record of a resolution -/

/-- What a proof attests, and the period it commits to. -/
structure ProvenStat where
  p1 : ℤ
  p2 : ℤ
  period : Option ℤ
deriving Repr, DecidableEq

section
variable {D : Type} (hex : D → String)

def resolvedPhase (status : MarketStatus) : MarketPhase :=
  if status = .settled then .settled else .cancelled

def resolutionReceipt (onchain : Market D) (settleTx : String) (proven : Option ProvenStat) :
    ProofReceipt where
  marketPda := marketPda onchain
  matchId := onchain.fixtureId.toInt
  winningOutcome := onchain.winningOutcome
  provenScore := proven.map fun p => ⟨p.p1, p.p2⟩
  statPeriod := proven.bind (·.period)
  outcomeLabel := legacy1X2.getD onchain.winningOutcome (toString onchain.winningOutcome)
  oracleProgram := onchain.oracleProgram
  epochDay := onchain.settleEpochDay.toNat
  dailyRootsPda := onchain.settleDailyRoots
  proofRef := hex onchain.settleProofRef
  resolver := onchain.settleResolver
  settleTx := settleTx
  settledAt := onchain.settledAt.toInt
  totalPool := onchain.totalPool
  totalWinningPool := onchain.totalWinningPool
  feeAmount := onchain.feeAmount

/-- The record of the market that was read back. -/
def resolveRecord (rec : MarketRecord) (onchain : Market D) (settleTx : String) : MarketRecord :=
  { rec with
    phase := resolvedPhase onchain.status
    winningOutcome := some onchain.winningOutcome
    settleTx := if settleTx ≠ "" then some settleTx else rec.settleTx }

def recordResolution (d : StoreData) (rec : MarketRecord) (onchain : Market D) (settleTx : String)
    (proven : Option ProvenStat) : StoreData :=
  { d with
    markets := d.markets.set (resolveRecord rec onchain settleTx)
    receipts :=
      if onchain.status = .settled then
        d.receipts.set (resolutionReceipt hex onchain settleTx proven)
      else d.receipts }

/-- A settlement sets the receipt of its market. -/
theorem get_recordResolution (d : StoreData) (rec : MarketRecord) (onchain : Market D)
    (settleTx : String) (proven : Option ProvenStat) (pda : Pubkey) :
    (recordResolution hex d rec onchain settleTx proven).receipts.get pda =
      if onchain.status = .settled ∧ pda = marketPda onchain then
        some (resolutionReceipt hex onchain settleTx proven)
      else d.receipts.get pda := by
  unfold recordResolution
  by_cases hst : onchain.status = .settled
  · by_cases hpda : pda = marketPda onchain
    · subst hpda
      rw [if_pos hst, if_pos ⟨hst, rfl⟩]
      exact d.receipts.get_set_self (resolutionReceipt hex onchain settleTx proven)
    · rw [if_pos hst, if_neg (not_and_of_not_right _ hpda)]
      exact Objects.ObjectMap.get_set_of_ne hpda
  · rw [if_neg hst, if_neg (not_and_of_not_left _ hst)]

end

end ProofBook.Store
