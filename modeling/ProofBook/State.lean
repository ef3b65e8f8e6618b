import ProofBook.OracleWire
import ProofBook.Lib.Checked

/-!
# Accounts of the program

Markets, compound specs, positions and prop vaults with the fields the program
stores. Lamports, account sizes and bump seeds are left out: no handler decides
anything by them. A digest of zeros, stored before settlement, is `default`.
-/
namespace ProofBook.State
open Addresses OracleWire Checked

inductive ProofbookError
  | feeTooHigh
  | invalidOutcomeCount
  | lockTimeInPast
  | invalidOutcomeSpec
  | invalidFixtureId
  | zeroAmount
  | invalidOutcomeIndex
  | marketNotOpen
  | bettingClosed
  | cannotSwitchOutcome
  | wrongMint
  | tooEarlyToLock
  | notLocked
  | alreadySettled
  | wrongOracleProgram
  | oracleAdapterMismatch
  | fixtureMismatch
  | proofShapeMismatch
  | wrongDailyRootAccount
  | oracleReturnedNothing
  | oracleReturnMismatch
  | outcomeNotVerified
  | invalidComboSpec
  | duplicateLegCoverage
  | incompleteLegCoverage
  | wrongComboSpec
  | comboRequiresV3
  | notAComboMarket
  | legCountMismatch
  | legStatMismatch
  | wrongBeneficiary
  | wrongDepositor
  | selfHedgeVault
  | notSettled
  | alreadyClaimed
  | notAWinningPosition
  | zeroWinningPool
  | wrongVault
  | invalidResolutionTimeout
  | alreadyResolved
  | tooEarlyToCancel
  | notCancelled
  | wrongFeeTreasury
  | feesAlreadyWithdrawn
  | nothingToWithdraw
  | mathOverflow
  | mathUnderflow
deriving Repr, DecidableEq

inductive MarketStatus
  | opened
  | locked
  | settled
  | cancelled
deriving Repr, DecidableEq

/-- `Settled` and `Cancelled` are terminal. -/
def MarketStatus.terminal : MarketStatus → Bool
  | .settled | .cancelled => true
  | .opened | .locked => false

structure OutcomeSpec where
  statAKey : UInt32
  statAPeriod : Int32
  hasStatB : Bool
  statBKey : UInt32
  statBPeriod : Int32
  op : Option BinaryExpression
  comparison : Comparison
  threshold : Int32
deriving Repr, DecidableEq

/-- `op` is present iff the outcome combines two stats. -/
def OutcomeSpec.isValid (s : OutcomeSpec) : Bool := s.hasStatB == s.op.isSome

structure OutcomeState where
  spec : OutcomeSpec
  pool : ℕ
deriving Repr, DecidableEq

structure Market (D : Type) where
  authority : Pubkey
  fixtureId : Int64
  marketType : ℕ
  status : MarketStatus
  numOutcomes : ℕ
  winningOutcome : ℕ
  feeBps : ℕ
  lockTime : Int64
  resolutionTimeout : Int64
  oracleProgram : Pubkey
  usdcMint : Pubkey
  vault : Pubkey
  feeTreasury : Pubkey
  totalPool : ℕ
  totalWinningPool : ℕ
  feeAmount : ℕ
  paidOut : ℕ
  winningStakeClaimed : ℕ
  feeWithdrawn : Bool
  settledAt : Int64
  settleProofRef : D
  settleProofTs : Int64
  settleEpochDay : UInt16
  settleDailyRoots : Pubkey
  settleResolver : Pubkey
  outcomes : List OutcomeState
deriving Repr, DecidableEq

def Market.outcomeSpec {D : Type} (m : Market D) (index : ℕ) : Except ProofbookError OutcomeSpec :=
  demand (m.outcomes[index]?.map (·.spec)) .invalidOutcomeIndex

/-- The pool staked on an outcome; zero past the last one. -/
def Market.pool {D : Type} (m : Market D) (index : ℕ) : ℕ :=
  (m.outcomes[index]?.map (·.pool)).getD 0

/-- One stat a compound rule proves. -/
structure StatLeg where
  key : UInt32
  period : Int32
deriving Repr, DecidableEq

/-- A predicate over one leg, or over two legs combined; indices are into the
legs. -/
inductive LegPredicate
  | single (index : ℕ) (comparison : Comparison) (threshold : Int32)
  | binary (indexA indexB : ℕ) (op : BinaryExpression) (comparison : Comparison)
      (threshold : Int32)
deriving Repr, DecidableEq

/-- A leg index is marked when it is in range and not marked yet. -/
def touch (nLegs : ℕ) (seen : List Bool) (i : ℕ) : Except ProofbookError (List Bool) := do
  require (i < nLegs) .invalidComboSpec
  require (seen.getD i false = false) .duplicateLegCoverage
  pure (seen.set i true)

def LegPredicate.mark (p : LegPredicate) (seen : List Bool) (nLegs : ℕ) :
    Except ProofbookError (List Bool) :=
  match p with
  | .single index _ _ => touch nLegs seen index
  | .binary indexA indexB _ _ _ => do
      let seen ← touch nLegs seen indexA
      touch nLegs seen indexB

def markAll (nLegs : ℕ) : List Bool → List LegPredicate → Except ProofbookError (List Bool)
  | seen, [] => pure seen
  | seen, p :: ps => do
      let seen ← p.mark seen nLegs
      markAll nLegs seen ps

/-- Every leg is read exactly once. -/
def coverLegs (nLegs : ℕ) (predicates : List LegPredicate) :
    Except ProofbookError PUnit.{1} := do
  let seen ← markAll nLegs (List.replicate maxLegs false) predicates
  require (∀ covered ∈ seen.take nLegs, covered = true) .incompleteLegCoverage

/-- One outcome of a compound market: a conjunction over the market's legs. -/
structure ComboOutcome where
  predicates : List LegPredicate
deriving Repr, DecidableEq

structure ComboSpec where
  market : Pubkey
  legs : List StatLeg
  outcomes : List ComboOutcome
deriving Repr, DecidableEq

def validateOutcomes (nLegs : ℕ) : List ComboOutcome → Except ProofbookError PUnit.{1}
  | [] => pure .unit
  | outcome :: outcomes => do
      require (outcome.predicates ≠ []) .invalidComboSpec
      coverLegs nLegs outcome.predicates
      validateOutcomes nLegs outcomes

def ComboSpec.validate (s : ComboSpec) (numOutcomes : ℕ) : Except ProofbookError PUnit.{1} := do
  require (s.legs ≠ [] ∧ s.legs.length ≤ maxLegs) .invalidComboSpec
  require (s.outcomes.length = numOutcomes) .invalidComboSpec
  validateOutcomes s.legs.length s.outcomes

structure Position where
  market : Pubkey
  owner : Pubkey
  outcomeIndex : ℕ
  amount : ℕ
  claimed : Bool
deriving Repr, DecidableEq

/-- The account as the runtime allocates it. -/
def Position.zeroed : Position := ⟨.default, .default, 0, 0, false⟩

inductive VaultStatus
  | funded
  | paidOut
  | refunded
deriving Repr, DecidableEq

structure PropVault (D : Type) where
  depositor : Pubkey
  beneficiary : Pubkey
  vaultId : ℕ
  fixtureId : Int64
  usdcMint : Pubkey
  vault : Pubkey
  amount : ℕ
  status : VaultStatus
  legs : List StatLeg
  predicates : List LegPredicate
  lockTime : Int64
  resolutionTimeout : Int64
  oracleProgram : Pubkey
  settledAt : Int64
  settleProofRef : D
  settleProofTs : Int64
  settleEpochDay : UInt16
  settleDailyRoots : Pubkey
  settleResolver : Pubkey
deriving Repr, DecidableEq

def PropVault.validate {D : Type} (v : PropVault D) : Except ProofbookError PUnit.{1} := do
  require (v.legs ≠ [] ∧ v.legs.length ≤ maxLegs) .invalidComboSpec
  require (v.predicates ≠ [] ∧ v.predicates.length ≤ maxLegs) .invalidComboSpec
  coverLegs v.legs.length v.predicates

end ProofBook.State
