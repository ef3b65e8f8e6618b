import ProofBook.State
import ProofBook.Lib.TokenLedger

/-!
# The oracle adapter

The caller of a settlement supplies proven values and Merkle material only. The
stats and the predicate come from the stored spec, the day of the root from the
proof's timestamp. This module builds the payload and strategy of both paths
and decodes the returned verdict.
-/
namespace ProofBook.OracleAdapter
open Addresses OracleWire State Checked TokenLedger

inductive AnchorError
  | accountNotSigner
  | accountNotInitialized
  | accountAlreadyInUse
  | constraintRaw
  | constraintSeeds
  | duplicateMutableAccount
deriving Repr, DecidableEq

/-- Why an operation was refused, and by whom. -/
inductive Failure
  | program (e : ProofbookError)
  | anchor (e : AnchorError)
  | token (e : TokenError)
  | oracle (e : MockOracleError)
deriving Repr, DecidableEq

structure SettlementProof (D : Type) where
  ts : Int64
  fixtureSummary : ScoresBatchSummary D
  fixtureProof : List (ProofNode D)
  mainTreeProof : List (ProofNode D)
  eventStatRoot : D
  statAValue : Int32
  statAProof : List (ProofNode D)
  hasStatB : Bool
  statBValue : Int32
  statBProof : List (ProofNode D)
deriving Repr, DecidableEq

structure SettlementProofV3 (D : Type) where
  ts : Int64
  fixtureSummary : ScoresBatchSummary D
  fixtureProof : List (ProofNode D)
  mainTreeProof : List (ProofNode D)
  eventStatRoot : D
  leafValues : List Int32
  multiproofHashes : List (ProofNode D)
  leafIndices : List UInt32
deriving Repr, DecidableEq

variable {D : Type}

def dailyScoresPda (oracleProgram : Pubkey) (ts : Int64) : Pubkey :=
  .dailyScores oracleProgram (epochDayOf ts)

/-- The returned `bool`: the called program must be the one that returned. -/
def decodeVerdict (oracleProgram : Pubkey) (returned : Option ReturnData) :
    Except Failure Bool := do
  let ret ← demand returned (.program .oracleReturnedNothing)
  require (ret.program = oracleProgram) (.program .oracleReturnMismatch)
  pure (ret.data.headD 0 == 1)

def invokeValidateStatV2 (O : OracleProgram D) (view : RootsView D)
    (oracleProgram oracleRoots : Pubkey) (payload : StatValidationInput D)
    (strategy : NDimensionalStrategy) : Except Failure Bool := do
  let returned ← mapError .oracle (O.validateStatV2 view oracleRoots payload strategy)
  decodeVerdict oracleProgram returned

def invokeValidateStatV3 (O : OracleProgram D) (view : RootsView D)
    (oracleProgram oracleRoots : Pubkey) (payload : StatValidationInputV3 D)
    (strategy : NDimensionalStrategy) : Except Failure Bool := do
  let returned ← mapError .oracle (O.validateStatV3 view oracleRoots payload strategy)
  decodeVerdict oracleProgram returned

/-- The stat leaves of a spec's one or two stats and the caller's values. -/
def specStats (outcome : OutcomeSpec) (proof : SettlementProof D) : List (StatLeaf D) :=
  let statA : StatLeaf D :=
    ⟨⟨outcome.statAKey, proof.statAValue, outcome.statAPeriod⟩, proof.statAProof⟩
  let statB : StatLeaf D :=
    ⟨⟨outcome.statBKey, proof.statBValue, outcome.statBPeriod⟩, proof.statBProof⟩
  if outcome.hasStatB then [statA, statB] else [statA]

def specPredicates (outcome : OutcomeSpec) : List StatPredicate :=
  if outcome.hasStatB then
    [.binary 0 1 (outcome.op.getD .subtract) ⟨outcome.threshold, outcome.comparison⟩]
  else [.single 0 ⟨outcome.threshold, outcome.comparison⟩]

def discreteStrategy (predicates : List StatPredicate) : NDimensionalStrategy :=
  ⟨[], none, predicates⟩

def buildAndVerify (O : OracleProgram D) (view : RootsView D) (oracleProgram oracleRoots : Pubkey)
    (market : Market D) (claimedOutcome : ℕ) (proof : SettlementProof D) :
    Except Failure Bool := do
  let outcome ← mapError .program (market.outcomeSpec claimedOutcome)
  require (proof.fixtureSummary.fixtureId = market.fixtureId) (.program .fixtureMismatch)
  require (proof.hasStatB = outcome.hasStatB) (.program .proofShapeMismatch)
  require (oracleRoots = dailyScoresPda oracleProgram proof.ts) (.program .wrongDailyRootAccount)
  let payload : StatValidationInput D :=
    { ts := proof.ts
      fixtureSummary := proof.fixtureSummary
      fixtureProof := proof.fixtureProof
      mainTreeProof := proof.mainTreeProof
      eventStatRoot := proof.eventStatRoot
      stats := specStats outcome proof }
  invokeValidateStatV2 O view oracleProgram oracleRoots payload
    (discreteStrategy (specPredicates outcome))

/-- The leaves are the spec's keys and periods with the caller's values. -/
def legLeaves (legs : List StatLeg) (values : List Int32) : List (StatLeaf D) :=
  List.zipWith (fun leg value => ⟨⟨leg.key, value, leg.period⟩, []⟩) legs values

def LegPredicate.toStat : LegPredicate → StatPredicate
  | .single index comparison threshold => .single index ⟨threshold, comparison⟩
  | .binary indexA indexB op comparison threshold =>
      .binary indexA indexB op ⟨threshold, comparison⟩

/-- The payload a v3 proof and a list of legs make. -/
def legPayload (legs : List StatLeg) (proof : SettlementProofV3 D) : StatValidationInputV3 D :=
  { ts := proof.ts
    fixtureSummary := proof.fixtureSummary
    fixtureProof := proof.fixtureProof
    mainTreeProof := proof.mainTreeProof
    eventStatRoot := proof.eventStatRoot
    leaves := legLeaves legs proof.leafValues
    multiproofHashes := proof.multiproofHashes
    leafIndices := proof.leafIndices }

def buildAndVerifyV3Legs (O : OracleProgram D) (view : RootsView D)
    (oracleProgram oracleRoots : Pubkey) (fixtureId : Int64) (legs : List StatLeg)
    (predicates : List LegPredicate) (proof : SettlementProofV3 D) : Except Failure Bool := do
  require (proof.fixtureSummary.fixtureId = fixtureId) (.program .fixtureMismatch)
  require (proof.leafValues.length = legs.length) (.program .legCountMismatch)
  require (proof.leafIndices.length = legs.length) (.program .legCountMismatch)
  require (oracleRoots = dailyScoresPda oracleProgram proof.ts) (.program .wrongDailyRootAccount)
  invokeValidateStatV3 O view oracleProgram oracleRoots (legPayload legs proof)
    (discreteStrategy (predicates.map LegPredicate.toStat))

def buildAndVerifyV3 (O : OracleProgram D) (view : RootsView D)
    (oracleProgram oracleRoots : Pubkey) (market : Market D) (combo : ComboSpec)
    (claimedOutcome : ℕ) (proof : SettlementProofV3 D) : Except Failure Bool := do
  let outcome ← demand combo.outcomes[claimedOutcome]? (.program .invalidOutcomeIndex)
  buildAndVerifyV3Legs O view oracleProgram oracleRoots market.fixtureId combo.legs
    outcome.predicates proof

end ProofBook.OracleAdapter
