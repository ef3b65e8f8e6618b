import ProofBook.Binding

/-!
# The verifiers of a settlement

`verifySettlement` of the SDK and `verifyReceipt` of the web page. The market,
its spec and the roots accounts are read from the chain; the proof is whatever
the score API answers, the sequence number and the credential that choose the
server included. The oracle's program is simulated on the payload built from the
answer. What the pages only display is left out. Numbers are those the
instruction encodes; a value it cannot encode makes the simulation fail.
-/
namespace ProofBook.Verifier
open Addresses OracleWire State OracleAdapter MockOracle Binding Chain

/-! ## The API -/

/-- A record of `/scores/snapshot`. -/
structure ScoreRow where
  statusId : Option ℤ
  seq : Option ℤ
deriving Repr, DecidableEq

/-- A path node of a response: an object, or the bare hash. -/
inductive ApiNode (D : Type)
  | tagged (hash : D) (isRightSibling : Option Bool)
  | bare (hash : D)
deriving Repr, DecidableEq

structure ApiLeaf (D : Type) where
  stat : ScoreStat
  statProof : Option (List (ApiNode D))
deriving Repr, DecidableEq

structure ApiMultiproof (D : Type) where
  hashes : Option (List (ApiNode D))
  indices : List UInt32
deriving Repr, DecidableEq

/-- The body of `/scores/stat-validation-v3`. -/
structure ProofResponse (D : Type) where
  summary : ScoresBatchSummary D
  subTreeProof : Option (List (ApiNode D))
  mainTreeProof : Option (List (ApiNode D))
  eventStatRoot : D
  statsToProve : List (ApiLeaf D)
  multiproof : ApiMultiproof D
deriving Repr, DecidableEq

/-- What the servers answer; a request that fails is answered by `none`. -/
structure Api (D : Type) where
  snapshot : Int64 → Option (List ScoreRow)
  statValidationV3 : Int64 → ℤ → List UInt32 → Option (ProofResponse D)

variable {D : Type}

/-- The greatest sequence number, of the finalised records if there are any. -/
def findFinalisedSeq (api : Api D) (fixtureId : Int64) : Option ℤ := do
  let rows ← api.snapshot fixtureId
  if rows = [] then none
  else
    let finalised := rows.filter (·.statusId = some 100)
    let pool := if finalised = [] then rows else finalised
    some (pool.foldl (fun mx r => max mx (r.seq.getD 0)) 0)

def maxStatKeys : ℕ := 5

def fetchProofV3 (api : Api D) (fixtureId : Int64) (seq : ℤ) (statKeys : List UInt32) :
    Option (ProofResponse D) :=
  if statKeys.length < 1 ∨ maxStatKeys < statKeys.length then none
  else api.statValidationV3 fixtureId seq statKeys

/-! ## Payload and strategy -/

def node : ApiNode D → ProofNode D
  | .tagged hash isRightSibling => ⟨hash, isRightSibling.getD false⟩
  | .bare hash => ⟨hash, false⟩

def path (nodes : Option (List (ApiNode D))) : List (ProofNode D) := (nodes.getD []).map node

/-- The whole payload comes from the response. -/
def toPayloadV3 (val : ProofResponse D) : StatValidationInputV3 D where
  ts := val.summary.updateStats.minTimestamp
  fixtureSummary := val.summary
  fixtureProof := path val.subTreeProof
  mainTreeProof := path val.mainTreeProof
  eventStatRoot := val.eventStatRoot
  leaves := val.statsToProve.map fun l => ⟨l.stat, path l.statProof⟩
  multiproofHashes := path val.multiproof.hashes
  leafIndices := val.multiproof.indices

def ApiNode.isTagged : ApiNode D → Bool
  | .tagged _ _ => true
  | .bare _ => false

def tagged (nodes : Option (List (ApiNode D))) : Bool := (nodes.getD []).all ApiNode.isTagged

/-- The builder of the web page; it throws at a bare hash. -/
def buildV3Payload (val : ProofResponse D) : Option (StatValidationInputV3 D) :=
  if tagged val.subTreeProof ∧ tagged val.mainTreeProof ∧ tagged val.multiproof.hashes ∧
      val.statsToProve.all (fun l => tagged l.statProof) then
    some (toPayloadV3 val)
  else none

/-- A market's predicate on one or two legs. An absent operator does not encode. -/
def strategyFromLegacy (spec : OutcomeSpec) (nLegs : ℕ) : Option NDimensionalStrategy :=
  let predicate : TraderPredicate := ⟨spec.threshold, spec.comparison⟩
  if nLegs = 2 then spec.op.map fun op => discreteStrategy [.binary 0 1 op predicate]
  else some (discreteStrategy [.single 0 predicate])

def strategyFromCombo (outcome : ComboOutcome) : NDimensionalStrategy :=
  discreteStrategy (outcome.predicates.map LegPredicate.toStat)

/-- What the chain says the market proves: the legs of its spec, and the
strategy of the recorded winner. A compound market reads its spec account. -/
def readPredicate (b : Book D) : Option (List StatLeg × Option NDimensionalStrategy) :=
  if comboMarketTypeMin ≤ b.market.marketType then do
    let combo ← b.comboSpec
    let outcome ← combo.outcomes[b.market.winningOutcome]?
    some (combo.legs, some (strategyFromCombo outcome))
  else do
    let outcome ← b.market.outcomes[b.market.winningOutcome]?
    let legs := specLegs outcome.spec
    some (legs, strategyFromLegacy outcome.spec legs.length)

/-! ## The simulation -/

def dailyRootsPda (epochDay : UInt16) : Pubkey := .dailyScores mockOracleId epochDay

/-- A rejected or forged proof throws, which is the negative verdict. -/
def simulate [DecidableEq D] (H : Keccak D) (view : RootsView D) (roots : Pubkey)
    (payload : Option (StatValidationInputV3 D)) (strategy : Option NDimensionalStrategy) : Bool :=
  match payload, strategy with
  | some payload, some strategy =>
      match validateStatV3 H view roots payload strategy with
      | .ok verdict => verdict
      | .error _ => false
  | _, _ => false

/-- The demonstration of a forgery: one proven value is one off. The greatest
value has no successor to encode. -/
def corrupt (payload : StatValidationInputV3 D) : Option (StatValidationInputV3 D) :=
  match payload.leaves with
  | [] => some payload
  | l :: ls =>
      if l.stat.value = Int32.maxValue then none
      else some { payload with
        leaves := { l with stat := { l.stat with value := l.stat.value + 1 } } :: ls }

/-! ## The SDK -/

structure ProofVerdict where
  verified : Bool
  provenValues : List Int32
  epochDay : UInt16
  rootsPda : Pubkey
deriving Repr, DecidableEq

variable [DecidableEq D] (H : Keccak D) (w : World D) (api : Api D)

/-- Throws when the API fails or no root of the day is published. -/
def verifyProof (fixtureId : Int64) (statKeys : List UInt32)
    (strategy : Option NDimensionalStrategy) (tamper : Bool) : Option ProofVerdict := do
  let seq ← findFinalisedSeq api fixtureId
  let val ← fetchProofV3 api fixtureId seq statKeys
  let payload := if tamper then corrupt (toPayloadV3 val) else some (toPayloadV3 val)
  let epochDay := epochDayOf val.summary.updateStats.minTimestamp
  let roots := dailyRootsPda epochDay
  let _ ← w.rootsView roots
  some {
    verified := simulate H w.rootsView roots payload strategy
    provenValues := val.statsToProve.map (·.stat.value)
    epochDay := epochDay
    rootsPda := roots }

inductive StepKey
  | settlement
  | predicate
  | root
  | proof
  | oracle
deriving Repr, DecidableEq

structure VerifyStep where
  key : StepKey
  ok : Bool
deriving Repr, DecidableEq

structure VerifyOutcome where
  verified : Bool
  steps : List VerifyStep
  provenValues : Option (List Int32)
deriving Repr, DecidableEq

def verifySettlement (marketPda : Pubkey) (tamper : Bool) : VerifyOutcome :=
  match w.book? marketPda with
  | none => ⟨false, [⟨.settlement, false⟩], none⟩
  | some b =>
      if b.market.status ≠ .settled then ⟨false, [⟨.settlement, false⟩], none⟩
      else
        match readPredicate b with
        | none => ⟨false, [⟨.settlement, true⟩, ⟨.predicate, false⟩], none⟩
        | some (legs, strategy) =>
            match verifyProof H w api b.market.fixtureId (legs.map (·.key)) strategy tamper with
            | none =>
                ⟨false, [⟨.settlement, true⟩, ⟨.predicate, true⟩, ⟨.proof, false⟩], none⟩
            | some res =>
                ⟨res.verified, [⟨.settlement, true⟩, ⟨.predicate, true⟩, ⟨.root, true⟩,
                  ⟨.proof, true⟩, ⟨.oracle, res.verified⟩], some res.provenValues⟩

/-! ## The web page -/

inductive StepStatus
  | pending
  | ok
  | fail
deriving Repr, DecidableEq

structure VerifyResult where
  steps : List (StepKey × StepStatus)
  verified : Bool
  fatal : Option String
deriving Repr, DecidableEq

def statusName : MarketStatus → String
  | .opened => "open"
  | .locked => "locked"
  | .settled => "settled"
  | .cancelled => "cancelled"

/-- The page after so many steps went through and, unless all did, the next one
failed. -/
def pageAt (passed : ℕ) : List (StepKey × StepStatus) :=
  [StepKey.settlement, .predicate, .root, .proof, .oracle].mapIdx fun i key =>
    (key, if i < passed then .ok else if i = passed then .fail else .pending)

/-- The description of a compound predicate looks up every leg it names. -/
def describable (b : Book D) : Bool :=
  decide (b.market.marketType < comboMarketTypeMin) ||
    b.comboSpec.any fun combo =>
      (combo.outcomes[b.market.winningOutcome]?).any fun outcome =>
        outcome.predicates.all fun p => (legReads p).all (· < combo.legs.length)

/-- The proof of the page; the number of keys is not checked here. -/
def fetchReceiptProof (fixtureId : Int64) (statKeys : List UInt32) : Option (ProofResponse D) := do
  let seq ← findFinalisedSeq api fixtureId
  api.statValidationV3 fixtureId seq statKeys

/-- `none` when the promise is rejected: the number of hashes is displayed before the
payload is built, so a response without any is one such case. The day of the receipt
names the root that is shown, the day of the response the root that is used. Tampering
edits a field the payload does not have and throws. -/
def verifyReceipt (marketPda : Pubkey) (tamper : Bool) : Option VerifyResult :=
  match w.book? marketPda with
  | none => some ⟨pageAt 0, false, some "No ProofBook market at that address."⟩
  | some b =>
      if b.market.status ≠ .settled then
        some ⟨pageAt 0, false, some s!"Market is {statusName b.market.status}, not settled."⟩
      else
        match readPredicate b with
        | none => some ⟨pageAt 1, false, none⟩
        | some (legs, strategy) =>
            if describable b = false then some ⟨pageAt 1, false, none⟩
            else if legs = [] then none
            else
              let rootsPda := dailyRootsPda (epochDayOf b.market.settleProofTs)
              if rootsPda ≠ b.market.settleDailyRoots ∨ w.rootsView rootsPda = none then
                some ⟨pageAt 2, false, none⟩
              else
                match fetchReceiptProof api b.market.fixtureId (legs.map (·.key)) with
                | none => some ⟨pageAt 3, false, none⟩
                | some val => do
                    let _ ← val.multiproof.hashes
                    let payload ← buildV3Payload val
                    if tamper then none
                    else
                      let proofRoots :=
                        dailyRootsPda (epochDayOf val.summary.updateStats.minTimestamp)
                      if simulate H w.rootsView proofRoots (some payload) strategy then
                        some ⟨pageAt 5, true, none⟩
                      else some ⟨pageAt 4, false, none⟩

end ProofBook.Verifier
