import ProofBook.OracleWire
import ProofBook.Lib.Merkle
import ProofBook.Lib.Coverage

/-!
# The bundled oracle program

`validate_stat_v2` and `validate_stat_v3`: two Merkle folds up to the published
daily root, per-leaf paths or one multiproof for the stats, then coverage and
evaluation of the strategy. The hash is a parameter.
-/
namespace ProofBook.MockOracle
open Addresses OracleWire Checked Coverage

/-- The hash, and the bytes of its digests. -/
structure Keccak (D : Type) where
  hash : List UInt8 → D
  bytes : D → List UInt8

variable {D : Type}

/-! ## Serialization -/

/-- The first `n` little-endian bytes of a number. -/
def leBytes : ℕ → ℕ → List UInt8
  | 0, _ => []
  | n + 1, v => UInt8.ofNat v :: leBytes n (v / 256)

def i32Bytes (v : Int32) : List UInt8 := leBytes 4 v.toUInt32.toNat

def i64Bytes (v : Int64) : List UInt8 := leBytes 8 v.toUInt64.toNat

def borshScoreStat (s : ScoreStat) : List UInt8 :=
  leBytes 4 s.key.toNat ++ i32Bytes s.value ++ i32Bytes s.period

def borshSummary (H : Keccak D) (s : ScoresBatchSummary D) : List UInt8 :=
  i64Bytes s.fixtureId ++ i32Bytes s.updateStats.updateCount ++
    i64Bytes s.updateStats.minTimestamp ++ i64Bytes s.updateStats.maxTimestamp ++
    H.bytes s.eventsSubTreeRoot

/-! ## Merkle hashing -/

/-- `"leaf:"` -/
def leafTag : List UInt8 := [108, 101, 97, 102, 58]

/-- `"node:"` -/
def nodeTag : List UInt8 := [110, 111, 100, 101, 58]

def leafHash (H : Keccak D) (bytes : List UInt8) : D := H.hash (leafTag ++ bytes)

def nodeHash (H : Keccak D) (left right : D) : D :=
  H.hash (nodeTag ++ H.bytes left ++ H.bytes right)

/-- A right sibling makes the current node the left child. -/
def foldProof (H : Keccak D) (node : D) (proof : List (ProofNode D)) : D :=
  proof.foldl (fun node p =>
    if p.isRightSibling then nodeHash H node p.hash else nodeHash H p.hash node) node

def verifyStatLeaf [DecidableEq D] (H : Keccak D) (eventStatRoot : D) (leaf : StatLeaf D) :
    Except MockOracleError PUnit.{1} :=
  require (foldProof H (leafHash H (borshScoreStat leaf.stat)) leaf.statProof = eventStatRoot)
    .statProofMismatch

def verifyStatLeaves [DecidableEq D] (H : Keccak D) (eventStatRoot : D) :
    List (StatLeaf D) → Except MockOracleError PUnit.{1}
  | [] => pure .unit
  | leaf :: leaves => do
      verifyStatLeaf H eventStatRoot leaf
      verifyStatLeaves H eventStatRoot leaves

/-! ## The multiproof -/

/-- The known nodes of one level, by tree index. -/
abbrev Level (D : Type) := List (ℕ × D)

/-- The parent of the node at an index and its sibling. -/
def parentHash (H : Keccak D) (idx : ℕ) (hash sibling : D) : D :=
  if idx % 2 = 0 then nodeHash H hash sibling else nodeHash H sibling hash

/-- The next unused hash of the multiproof. -/
def feed : List (ProofNode D) → Except MockOracleError (D × List (ProofNode D))
  | [] => .error .statProofMismatch
  | p :: proof => .ok (p.hash, proof)

/-- One pass over a level, with the hashes not fed yet. Two adjacent siblings
combine; any other node takes its sibling from the multiproof. -/
def climb (H : Keccak D) : Level D → List (ProofNode D) →
    Except MockOracleError (Level D × List (ProofNode D))
  | [], proof => pure ([], proof)
  | [(idx, hash)], proof => do
      let (sibling, proof) ← feed proof
      pure ([(idx / 2, parentHash H idx hash sibling)], proof)
  | (idx, hash) :: (j, known) :: level, proof =>
      if j = idx ^^^ 1 then do
        let (next, proof) ← climb H level proof
        pure ((idx / 2, parentHash H idx hash known) :: next, proof)
      else do
        let (sibling, proof) ← feed proof
        let (next, proof) ← climb H ((j, known) :: level) proof
        pure ((idx / 2, parentHash H idx hash sibling) :: next, proof)

def sortLevel (level : Level D) : Level D := level.insertionSort fun a b => a.1 ≤ b.1

/-- Of adjacent entries with one index the first stays. -/
def dedupLevel (level : Level D) : Level D := level.destutter fun a b => a.1 ≠ b.1

/-- Where the loop over the levels ends. -/
def atRoot (level : Level D) : Bool := level.length ≤ 1 && level.head?.map (·.1) == some 0

/-- The loop over the levels. Indices halve at each pass, so for `u32` indices
32 passes reach the root. -/
def walk (H : Keccak D) : ℕ → Level D → List (ProofNode D) →
    Except MockOracleError (Level D × List (ProofNode D))
  | 0, level, proof => pure (level, proof)
  | n + 1, level, proof =>
      if atRoot level then pure (level, proof) else do
        let (next, proof) ← climb H level proof
        walk H n (dedupLevel (sortLevel next)) proof

def verifyMultiproof [DecidableEq D] (H : Keccak D) (leafHashes : List D)
    (leafIndices : List UInt32) (multiproof : List (ProofNode D)) (root : D) :
    Except MockOracleError PUnit.{1} := do
  require (leafHashes ≠ []) .missingStat
  let level := sortLevel ((leafIndices.map (·.toNat)).zip leafHashes)
  require (level.IsChain fun a b => a.1 ≠ b.1) .duplicateStatCoverage
  let (level, unfed) ← walk H 32 level multiproof
  require (unfed = []) .statProofMismatch
  require (level.head?.map (·.2) = some root) .statProofMismatch

/-! ## The strategy -/

/-- The stats a predicate reads. -/
def StatPredicate.refs : StatPredicate → List ℕ
  | .single index _ => [index]
  | .binary indexA indexB _ _ => [indexA, indexB]

def NDimensionalStrategy.refs (strategy : NDimensionalStrategy) : List ℕ :=
  strategy.geometricTargets.map (·.statIndex) ++
    strategy.discretePredicates.flatMap StatPredicate.refs

/-- The value of a stat, as an `i64`. -/
def val (stats : List ScoreStat) (i : ℕ) : ℤ := ((stats[i]?).map (·.value.toInt)).getD 0

/-- An `i64` operation that must not overflow. -/
def checkedI64 (x : ℤ) : Except MockOracleError ℤ :=
  if -(2 ^ 63) ≤ x ∧ x ≤ i64Max then .ok x else .error .arithmeticOverflow

def compare (value threshold : ℤ) : Comparison → Bool
  | .greaterThan => threshold < value
  | .lessThan => value < threshold
  | .equalTo => value = threshold

/-- The squared distance from the predicted values. -/
def distance (stats : List ScoreStat) : ℤ → List GeometricTarget → Except MockOracleError ℤ
  | dist, [] => pure dist
  | dist, gt :: targets => do
      let d := val stats gt.statIndex - gt.prediction.toInt
      let square ← checkedI64 (d * d)
      let dist ← checkedI64 (dist + square)
      distance stats dist targets

def withinDistance (stats : List ScoreStat) (strategy : NDimensionalStrategy) :
    Except MockOracleError Bool :=
  if strategy.geometricTargets = [] then pure true else do
    let dp ← demand strategy.distancePredicate .missingDistancePredicate
    let dist ← distance stats 0 strategy.geometricTargets
    pure (compare dist dp.threshold.toInt dp.comparison)

def combine (op : BinaryExpression) (a b : ℤ) : Except MockOracleError ℤ :=
  match op with
  | .add => checkedI64 (a + b)
  | .subtract => checkedI64 (a - b)

def evaluatePredicate (stats : List ScoreStat) : StatPredicate → Except MockOracleError Bool
  | .single index p => pure (compare (val stats index) p.threshold.toInt p.comparison)
  | .binary indexA indexB op p => do
      let value ← combine op (val stats indexA) (val stats indexB)
      pure (compare value p.threshold.toInt p.comparison)

/-- The first predicate that fails ends the evaluation. -/
def evaluateAll (stats : List ScoreStat) : List StatPredicate → Except MockOracleError Bool
  | [] => pure true
  | p :: ps => do
      let holds ← evaluatePredicate stats p
      if holds then evaluateAll stats ps else pure false

def evaluateStrategy (stats : List ScoreStat) (strategy : NDimensionalStrategy) :
    Except MockOracleError Bool := do
  require (stats.length ≤ 32) .tooManyStats
  let covered ← markEach stats.length .missingStat .duplicateStatCoverage
    (List.replicate stats.length false) (NDimensionalStrategy.refs strategy)
  require (∀ c ∈ covered, c = true) .incompleteStatCoverage
  let near ← withinDistance stats strategy
  if near then evaluateAll stats strategy.discretePredicates else pure false

/-! ## The program -/

def mockOracleId : Pubkey := .key 9

/-- The roots account, for the day of the timestamp. -/
def loadRoots (view : RootsView D) (account : Pubkey) (ts : Int64) :
    Except MockOracleError (DailyScoresMerkleRoots D) := do
  let roots ← demand (view account) .accountNotInitialized
  require (roots.epochDay = epochDayOf ts) .wrongDailyRoot
  pure roots

/-- The fixture summary must fold up to the published root. -/
def verifyFixture [DecidableEq D] (H : Keccak D) (root : D) (summary : ScoresBatchSummary D)
    (fixtureProof mainTreeProof : List (ProofNode D)) : Except MockOracleError PUnit.{1} :=
  let fixtureLeaf := leafHash H (borshSummary H summary)
  let subRoot := foldProof H fixtureLeaf fixtureProof
  require (foldProof H subRoot mainTreeProof = root) .merkleRootMismatch

def validateStatV2 [DecidableEq D] (H : Keccak D) (view : RootsView D) (account : Pubkey)
    (payload : StatValidationInput D) (strategy : NDimensionalStrategy) :
    Except MockOracleError Bool := do
  let roots ← loadRoots view account payload.ts
  require (payload.eventStatRoot = payload.fixtureSummary.eventsSubTreeRoot) .statNotInFixture
  verifyStatLeaves H payload.eventStatRoot payload.stats
  verifyFixture H roots.root payload.fixtureSummary payload.fixtureProof payload.mainTreeProof
  evaluateStrategy (payload.stats.map (·.stat)) strategy

def validateStatV3 [DecidableEq D] (H : Keccak D) (view : RootsView D) (account : Pubkey)
    (payload : StatValidationInputV3 D) (strategy : NDimensionalStrategy) :
    Except MockOracleError Bool := do
  let roots ← loadRoots view account payload.ts
  require (payload.eventStatRoot = payload.fixtureSummary.eventsSubTreeRoot) .statNotInFixture
  require (payload.leaves.length = payload.leafIndices.length) .missingStat
  let leafHashes := payload.leaves.map fun leaf => leafHash H (borshScoreStat leaf.stat)
  verifyMultiproof H leafHashes payload.leafIndices payload.multiproofHashes payload.eventStatRoot
  verifyFixture H roots.root payload.fixtureSummary payload.fixtureProof payload.mainTreeProof
  evaluateStrategy (payload.leaves.map (·.stat)) strategy

/-- A returned `bool`, as return data of the program. -/
def returnBool (verdict : Bool) : ReturnData := ⟨mockOracleId, [if verdict then 1 else 0]⟩

def mockOracle [DecidableEq D] (H : Keccak D) : OracleProgram D where
  label := "mock"
  programId := mockOracleId
  validateStatV2 view account payload strategy := do
    let verdict ← validateStatV2 H view account payload strategy
    pure (some (returnBool verdict))
  validateStatV3 view account payload strategy := do
    let verdict ← validateStatV3 H view account payload strategy
    pure (some (returnBool verdict))

end ProofBook.MockOracle
