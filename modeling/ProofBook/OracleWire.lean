import ProofBook.Addresses

/-!
# The oracle's wire types

The payloads of `validate_stat_v2` and `validate_stat_v3`, shared byte for byte
by the settling program and the oracle. Digests are an arbitrary type: the
settling program only passes them on.
-/
namespace ProofBook.OracleWire
open Addresses

inductive Comparison
  | greaterThan
  | lessThan
  | equalTo
deriving Repr, DecidableEq

inductive BinaryExpression
  | add
  | subtract
deriving Repr, DecidableEq

structure ProofNode (D : Type) where
  hash : D
  isRightSibling : Bool
deriving Repr, DecidableEq

structure TraderPredicate where
  threshold : Int32
  comparison : Comparison
deriving Repr, DecidableEq

structure ScoreStat where
  key : UInt32
  value : Int32
  period : Int32
deriving Repr, DecidableEq

structure ScoresUpdateStats where
  updateCount : Int32
  minTimestamp : Int64
  maxTimestamp : Int64
deriving Repr, DecidableEq

structure ScoresBatchSummary (D : Type) where
  fixtureId : Int64
  updateStats : ScoresUpdateStats
  eventsSubTreeRoot : D
deriving Repr, DecidableEq

structure StatLeaf (D : Type) where
  stat : ScoreStat
  statProof : List (ProofNode D)
deriving Repr, DecidableEq

structure StatValidationInput (D : Type) where
  ts : Int64
  fixtureSummary : ScoresBatchSummary D
  fixtureProof : List (ProofNode D)
  mainTreeProof : List (ProofNode D)
  eventStatRoot : D
  stats : List (StatLeaf D)
deriving Repr, DecidableEq

structure StatValidationInputV3 (D : Type) where
  ts : Int64
  fixtureSummary : ScoresBatchSummary D
  fixtureProof : List (ProofNode D)
  mainTreeProof : List (ProofNode D)
  eventStatRoot : D
  leaves : List (StatLeaf D)
  multiproofHashes : List (ProofNode D)
  leafIndices : List UInt32
deriving Repr, DecidableEq

structure GeometricTarget where
  statIndex : ℕ
  prediction : Int32
deriving Repr, DecidableEq

inductive StatPredicate
  | single (index : ℕ) (predicate : TraderPredicate)
  | binary (indexA indexB : ℕ) (op : BinaryExpression) (predicate : TraderPredicate)
deriving Repr, DecidableEq

structure NDimensionalStrategy where
  geometricTargets : List GeometricTarget
  distancePredicate : Option TraderPredicate
  discretePredicates : List StatPredicate
deriving Repr, DecidableEq

inductive MockOracleError
  | accountNotInitialized
  | wrongDailyRoot
  | statProofMismatch
  | statNotInFixture
  | merkleRootMismatch
  | arithmeticOverflow
  | tooManyStats
  | missingStat
  | duplicateStatCoverage
  | incompleteStatCoverage
  | missingDistancePredicate
deriving Repr, DecidableEq

/-- The published daily root, at `["daily_scores_roots", epoch_day]`. -/
structure DailyScoresMerkleRoots (D : Type) where
  epochDay : UInt16
  root : D
deriving Repr, DecidableEq

/-- What a cross-program call leaves behind: who returned, and the bytes. -/
structure ReturnData where
  program : Pubkey
  data : List UInt8
deriving Repr, DecidableEq

/-- The roots accounts the oracle program owns. -/
abbrev RootsView (D : Type) := Pubkey → Option (DailyScoresMerkleRoots D)

/-- The adapter compiled into the build and the program it calls. A call reads
the roots accounts and the one that was passed to it. -/
structure OracleProgram (D : Type) where
  label : String
  programId : Pubkey
  validateStatV2 : RootsView D → Pubkey → StatValidationInput D → NDimensionalStrategy →
    Except MockOracleError (Option ReturnData)
  validateStatV3 : RootsView D → Pubkey → StatValidationInputV3 D → NDimensionalStrategy →
    Except MockOracleError (Option ReturnData)

end ProofBook.OracleWire
