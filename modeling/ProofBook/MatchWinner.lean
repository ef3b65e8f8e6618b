import ProofBook.V3Proof

/-!
# The keeper settles the match winner

The first market of a fixture asks which side wins. Live, the keeper's proof is
assembled from a response of the score API, with a path for each of two stats. In
a replay the keeper hashes the two recorded stats itself and publishes their root.
-/
namespace ProofBook.MatchWinner
open Addresses State Checked Coverage OracleWire Merkle OracleAdapter MockOracle OracleSound
open Chain Program Runs Steps StepCases MarketRuns Binding Verifier VerifierSound Agreement
open Instructions.Betting Instructions.Settlement
open V3Proof (epochDay dailyRootsPda)

variable {D : Type}

/-! ## The market -/

/-- Home, draw and away by the difference of two stats. -/
def matchWinnerSpecs (statKeys : UInt32 × UInt32) (period : Int32) : List OutcomeSpec :=
  let base (comparison : Comparison) : OutcomeSpec :=
    ⟨statKeys.1, period, true, statKeys.2, period, some .subtract, comparison, 0⟩
  [base .greaterThan, base .equalTo, base .lessThan]

structure Config where
  statKeys : UInt32 × UInt32
  statPeriod : Int32
  feeBps : ℕ
  feeTreasury : Option Pubkey

def initializeMarket (cfg : Config) (wallet usdcMint : Pubkey) (fixtureId : Int64)
    (marketType : ℕ) (lockTime resolutionTimeout : Int64) (statPeriod : Int32) : Instruction D :=
  .initializeMarket ⟨wallet, usdcMint⟩
    ⟨fixtureId, marketType, matchWinnerSpecs cfg.statKeys statPeriod, cfg.feeBps, lockTime,
      resolutionTimeout, cfg.feeTreasury.getD wallet⟩

def claimedOutcome (p1 p2 : Int32) : ℕ :=
  if p2.toInt < p1.toInt then 0 else if p1.toInt < p2.toInt then 2 else 1

/-! ## The live proof -/

/-- A response of `/scores/stat-validation`. -/
structure StatValidation (D : Type) where
  summary : ScoresBatchSummary D
  subTreeProof : Option (List (ApiNode D))
  mainTreeProof : Option (List (ApiNode D))
  eventStatRoot : D
  statsToProve : List ScoreStat
  statProofs : List (List (ApiNode D))

/-- A node without a `hash` field cannot be read. -/
def mapNode : ApiNode D → Except String (ProofNode D)
  | .tagged hash isRightSibling => pure ⟨hash, isRightSibling.getD false⟩
  | .bare _ => .error "undefined is not iterable"

def mapProof (nodes : List (ApiNode D)) : Except String (List (ProofNode D)) := nodes.mapM mapNode

structure BuiltProof (D : Type) where
  proof : SettlementProof D
  epochDay : ℤ
  p1 : Int32
  p2 : Int32
  period : Int32

def undefined (field : String) : String :=
  s!"Cannot read properties of undefined (reading '{field}')"

def buildProof (val : StatValidation D) : Except String (BuiltProof D) := do
  let stat1 ← demand val.statsToProve[0]? (undefined "value")
  let stat2 ← demand val.statsToProve[1]? (undefined "value")
  let tsMs := val.summary.updateStats.minTimestamp
  let fixtureProof ← demand val.subTreeProof (undefined "map") >>= mapProof
  let mainTreeProof ← demand val.mainTreeProof (undefined "map") >>= mapProof
  let statAProof ← demand val.statProofs[0]? (undefined "map") >>= mapProof
  let statBProof ← demand val.statProofs[1]? (undefined "map") >>= mapProof
  pure
    { proof :=
        { ts := tsMs
          fixtureSummary := val.summary
          fixtureProof := fixtureProof
          mainTreeProof := mainTreeProof
          eventStatRoot := val.eventStatRoot
          statAValue := stat1.value
          statAProof := statAProof
          hasStatB := true
          statBValue := stat2.value
          statBProof := statBProof }
      epochDay := epochDay tsMs
      p1 := stat1.value
      p2 := stat2.value
      period := stat1.period }

/-- The transaction of one attempt. -/
def settleMarket (wallet market : Pubkey) (built : BuiltProof D) : Instruction D :=
  .settleMarket ⟨wallet, market, mockOracleId, dailyRootsPda mockOracleId built.epochDay⟩
    (claimedOutcome built.p1 built.p2) built.proof

/-! ## The replayed proof -/

def encScoreStat (key : UInt32) (value period : Int32) : List UInt8 :=
  leBytes 4 key.toNat ++ i32Bytes value ++ i32Bytes period

def encFixtureSummary (H : Keccak D) (fixtureId : Int64) (updateCount : Int32)
    (minTs maxTs : Int64) (subRoot : D) : List UInt8 :=
  i64Bytes fixtureId ++ i32Bytes updateCount ++ i64Bytes minTs ++ i64Bytes maxTs ++ H.bytes subRoot

def combine (H : Keccak D) (node sib : D) (sibIsRight : Bool) : D :=
  if sibIsRight then nodeHash H node sib else nodeHash H sib node

structure BuiltMockProof (D : Type) where
  proof : SettlementProof D
  dailyRoot : D
  epochDay : ℤ

def buildMockProof (H : Keccak D) (goalsA goalsB : Int32) (fixtureId tsMs : Int64)
    (period : Int32) (statKeys : UInt32 × UInt32) : BuiltMockProof D :=
  let leafA := leafHash H (encScoreStat statKeys.1 goalsA period)
  let leafB := leafHash H (encScoreStat statKeys.2 goalsB period)
  let subRoot := combine H leafA leafB true
  { proof :=
      { ts := tsMs
        fixtureSummary := ⟨fixtureId, ⟨1, tsMs, tsMs⟩, subRoot⟩
        fixtureProof := []
        mainTreeProof := []
        eventStatRoot := subRoot
        statAValue := goalsA
        statAProof := [⟨leafB, true⟩]
        hasStatB := true
        statBValue := goalsB
        statBProof := [⟨leafA, false⟩] }
    dailyRoot := leafHash H (encFixtureSummary H fixtureId 1 tsMs tsMs subRoot)
    epochDay := epochDay tsMs }

/-- The day is an argument of two bytes. -/
def publishMockRoot (epochDay : ℤ) (root : D) : Except String (Instruction D) := do
  require (0 ≤ epochDay ∧ epochDay < 65536) "The value of \"value\" is out of range."
  pure (.publishDailyRoot (UInt16.ofNat epochDay.toNat) root)

/-- A recording: the score of its last event, and what its real proof carries. -/
structure ReplayFixture where
  fixtureId : Int64
  finalScore : Int32 × Int32
  finalisedTsMs : Int64
  statsToProve : Option (List ScoreStat)
  minTimestamp : Option Int64

/-- The first two proven values, or else the recorded score. -/
def ReplayFixture.goals (fx : ReplayFixture) : Int32 × Int32 :=
  let stats := fx.statsToProve.getD []
  ((stats[0]?.map (·.value)).getD fx.finalScore.1, (stats[1]?.map (·.value)).getD fx.finalScore.2)

def ReplayFixture.tsMs (fx : ReplayFixture) : Int64 := fx.minTimestamp.getD fx.finalisedTsMs

/-- The root to publish, and the proof to send once it is published. -/
def buildReplayProof (H : Keccak D) (cfg : Config) (replayFixture : Option ReplayFixture)
    (fixtureId : Int64) : Except String (Instruction D × BuiltProof D) := do
  let fx ← demand replayFixture "no replay recording for fixture"
  require (fx.fixtureId = fixtureId) "no replay recording for fixture"
  let (p1, p2) := fx.goals
  let built := buildMockProof H p1 p2 fixtureId fx.tsMs cfg.statPeriod cfg.statKeys
  let publish ← publishMockRoot built.epochDay built.dailyRoot
  let period := ((fx.statsToProve.getD [])[0]?.map (·.period)).getD cfg.statPeriod
  pure (publish, ⟨built.proof, built.epochDay, p1, p2, period⟩)

/-! ## One outcome -/

/-- A market of the match winner on two stats of a period. -/
structure IsMatchWinner (statKeys : UInt32 × UInt32) (period : Int32) (b : Book D) : Prop where
  simple : b.market.marketType < comboMarketTypeMin
  specs : b.market.outcomes.map (·.spec) = matchWinnerSpecs statKeys period

/-- The outcome that the facts about the two stats give. -/
def trueWinner (facts : Facts) (statKeys : UInt32 × UInt32) (period : Int32)
    (fixtureId : Int64) : ℕ :=
  claimedOutcome (facts fixtureId ⟨statKeys.1, period⟩) (facts fixtureId ⟨statKeys.2, period⟩)

variable {statKeys : UInt32 × UInt32} {period : Int32} {facts : Facts} {b : Book D}

theorem claimedOutcome_lt (p1 p2 : Int32) : claimedOutcome p1 p2 < 3 := by
  unfold claimedOutcome
  split_ifs <;> decide

theorem winner_spec {spec : OutcomeSpec} (h : spec ∈ matchWinnerSpecs statKeys period) :
    ∃ c, spec = ⟨statKeys.1, period, true, statKeys.2, period, some .subtract, c, 0⟩ := by
  simp only [matchWinnerSpecs, List.mem_cons, List.not_mem_nil, or_false] at h
  rcases h with rfl | rfl | rfl
  · exact ⟨.greaterThan, rfl⟩
  · exact ⟨.equalTo, rfl⟩
  · exact ⟨.lessThan, rfl⟩

theorem winner_legs {spec : OutcomeSpec} (h : spec ∈ matchWinnerSpecs statKeys period) :
    specLegs spec = [⟨statKeys.1, period⟩, ⟨statKeys.2, period⟩] := by
  obtain ⟨c, rfl⟩ := winner_spec h
  rfl

/-- The claimed outcome is the one whose comparison holds. -/
theorem outcomeHolds_iff (p1 p2 : Int32) {spec : OutcomeSpec} {i : ℕ}
    (h : (matchWinnerSpecs statKeys period)[i]? = some spec) :
    OutcomeHolds [p1, p2] spec ↔ i = claimedOutcome p1 p2 := by
  match i with
  | 0 | 1 | 2 =>
      simp only [matchWinnerSpecs, List.getElem?_cons_zero, List.getElem?_cons_succ,
        Option.some.injEq] at h
      subst h
      simp only [OutcomeHolds, if_true, Option.getD_some, OracleSound.apply, valueAt,
        List.getElem?_cons_zero, List.getElem?_cons_succ, Option.map_some, Relates,
        claimedOutcome]
      split_ifs <;> simp <;> omega
  | i + 3 => simp [matchWinnerSpecs] at h

theorem IsMatchWinner.outcomeSpec (h : IsMatchWinner statKeys period b) {i : ℕ}
    {spec : OutcomeSpec} : b.market.outcomeSpec i = .ok spec ↔
      (matchWinnerSpecs statKeys period)[i]? = some spec := by
  rw [Market.outcomeSpec, ← List.getElem?_map, h.specs, demand_eq_ok]

theorem IsMatchWinner.trueOutcome_iff (h : IsMatchWinner statKeys period b) (i : ℕ) :
    TrueOutcome facts b i ↔ i = trueWinner facts statKeys period b.market.fixtureId := by
  rw [TrueOutcome, if_pos h.simple]
  constructor
  · rintro ⟨spec, hi, hholds⟩
    have hi := h.outcomeSpec.mp hi
    rw [winner_legs (List.mem_of_getElem? hi)] at hholds
    exact (outcomeHolds_iff _ _ hi).mp hholds
  · rintro rfl
    have hi := List.getElem?_eq_getElem (l := matchWinnerSpecs statKeys period)
      (i := trueWinner facts statKeys period b.market.fixtureId) (claimedOutcome_lt _ _)
    refine ⟨_, h.outcomeSpec.mpr hi, ?_⟩
    rw [winner_legs (List.mem_of_getElem? hi)]
    exact (outcomeHolds_iff _ _ hi).mpr rfl

/-! ## Paths -/

variable {H : Keccak D}

theorem foldProof_injective (hH : CollisionFree H) (proof : List (ProofNode D)) :
    Function.Injective (foldProof H · proof) := by
  induction proof with
  | nil => exact fun _ _ h => h
  | cons p proof ih =>
      intro node node' h
      simp only [foldProof, List.foldl_cons] at h
      have hnode := ih h
      split_ifs at hnode
      · exact (hH.scheme.node hnode).1
      · exact (hH.scheme.node hnode).2

/-- One path leads one stat to a root. -/
theorem stat_of_path (hH : CollisionFree H) {root : D} {stat stat' : ScoreStat}
    {proof : List (ProofNode D)}
    (h : foldProof H (leafHash H (borshScoreStat stat)) proof = root)
    (h' : foldProof H (leafHash H (borshScoreStat stat')) proof = root) : stat = stat' :=
  borshScoreStat_injective (hH.scheme.leaf (foldProof_injective hH proof (h.trans h'.symm)))

variable [DecidableEq D]

theorem verifyStatLeaves_iff {root : D} {leaves : List (StatLeaf D)} :
    verifyStatLeaves H root leaves = .ok .unit ↔
      ∀ l ∈ leaves, foldProof H (leafHash H (borshScoreStat l.stat)) l.statProof = root := by
  refine ⟨fun h => ?_, verifyStatLeaves_of_paths⟩
  induction leaves with
  | nil => simp
  | cons l leaves ih =>
      simp only [verifyStatLeaves, verifyStatLeaf, bind_eq_ok, require_eq_ok] at h
      obtain ⟨_, hl, hleaves⟩ := h
      exact List.forall_mem_cons.mpr ⟨hl, ih hleaves⟩

/-- What the program asks of a proof of two paths for an outcome of two stats. -/
theorem buildAndVerify_iff {view : RootsView D} {account : Pubkey} {m : Market D} {n : ℕ}
    {spec : OutcomeSpec} {proof : SettlementProof D} (hspec : m.outcomeSpec n = .ok spec)
    (htwo : spec.hasStatB = true) :
    buildAndVerify (mockOracle H) view mockOracleId account m n proof = .ok true ↔
      proof.fixtureSummary.fixtureId = m.fixtureId ∧ proof.hasStatB = true ∧
      account = dailyScoresPda mockOracleId proof.ts ∧
      (∃ roots, RootsOf view account proof.ts roots ∧ verifyFixture H roots.root
        proof.fixtureSummary proof.fixtureProof proof.mainTreeProof = .ok .unit) ∧
      proof.eventStatRoot = proof.fixtureSummary.eventsSubTreeRoot ∧
      verifyStatLeaves H proof.eventStatRoot (specStats spec proof) = .ok .unit ∧
      OutcomeHolds [proof.statAValue, proof.statBValue] spec := by
  have hvalues : ((specStats spec proof).map (·.stat)).map (·.value) =
      [proof.statAValue, proof.statBValue] := by
    simp [specStats, htwo]
  have hsize : ((specStats spec proof).map (·.stat)).length ≤ 32 := by
    simp [specStats, htwo]
  have honce : ExactlyOnce ((specStats spec proof).map (·.stat)).length
      ((specPredicates spec).flatMap StatPredicate.refs) := by
    simp [specStats, specPredicates, htwo, ExactlyOnce, StatPredicate.refs]
    omega
  have hverdict : evaluateStrategy ((specStats spec proof).map (·.stat))
      (discreteStrategy (specPredicates spec)) = .ok true ↔
        OutcomeHolds [proof.statAValue, proof.statBValue] spec := by
    rw [evaluateStrategy_ok, hvalues, statHolds_specPredicates]
    exact ⟨fun h => h.2.2.mp rfl, fun h => ⟨hsize, honce, fun _ => h, fun _ => rfl⟩⟩
  simp only [buildAndVerify, invokeValidateStatV2_eq, validateStatV2, bind_eq_ok, mapError_eq_ok,
    require_eq_ok, loadRoots_ok]
  constructor
  · rintro ⟨spec', hspec', _, hfixture, _, hshape, _, haccount, roots, hroots, _, hevent, u,
      hleaves, v, hsummary, hholds⟩
    obtain rfl := Except.ok.inj (hspec.symm.trans hspec')
    exact ⟨hfixture, hshape.trans htwo, haccount, ⟨roots, hroots, hsummary⟩, hevent, hleaves,
      hverdict.mp hholds⟩
  · rintro ⟨hfixture, hshape, haccount, ⟨roots, hroots, hsummary⟩, hevent, hleaves, hholds⟩
    exact ⟨spec, hspec, .unit, hfixture, .unit, hshape.trans htwo.symm, .unit, haccount, roots,
      hroots, .unit, hevent, .unit, hleaves, .unit, hsummary, hverdict.mpr hholds⟩

/-! ## The settlement -/

variable [Inhabited D] {w w' : World D} {k wallet : Pubkey} {built : BuiltProof D}

/-- The keeper's transaction on a locked match winner is as good as its proof. -/
theorem settle_iff (built : BuiltProof D) (hw : Reachable (mockOracle H) w)
    (hb : w.book? k = some b) (hst : b.market.status = .locked)
    (hwinner : IsMatchWinner statKeys period b) (hsign : wallet.canSign = true) :
    (∃ w', step (mockOracle H) w (settleMarket wallet k built) = .ok w') ↔
      buildAndVerify (mockOracle H) w.rootsView mockOracleId
        (dailyRootsPda mockOracleId built.epochDay) b.market (claimedOutcome built.p1 built.p2)
        built.proof = .ok true := by
  constructor
  · rintro ⟨w', hw'⟩
    obtain ⟨b₁, market, es, hb₁, hgate, -, hverdict, -⟩ := settleMarket_ok hw'
    obtain rfl := Option.some.inj (hb.symm.trans hb₁)
    exact hverdict
  · intro hverdict
    obtain ⟨donated, hsound⟩ := reachable_sound hw hb
    have hlength := congrArg List.length hwinner.specs
    simp only [List.length_map] at hlength
    have hchecks : SettleChecks (mockOracle H) w
        ⟨wallet, k, mockOracleId, dailyRootsPda mockOracleId built.epochDay⟩ b
        (claimedOutcome built.p1 built.p2) :=
      ⟨⟨(reachable_stamped hw).pinned k b hb, rfl, hst, hlength ▸ claimedOutcome_lt _ _⟩, hb, hsign⟩
    exact settleMarket_succeeds hchecks hwinner.simple hverdict
      (recordSettlement_succeeds hsound.pools.fits hsound.pools.feeBps)

theorem settle_records (hb : w.book? k = some b)
    (h : step (mockOracle H) w (settleMarket wallet k built) = .ok w') :
    ∃ b', w'.book? k = some b' ∧
      b'.market.winningOutcome = claimedOutcome built.p1 built.p2 ∧
      b'.market.status =
        if b.market.pool (claimedOutcome built.p1 built.p2) = 0 then .cancelled else .settled := by
  obtain ⟨b₁, market, es, hb₁, -, -, -, hr, rfl⟩ := settleMarket_ok h
  obtain rfl := Option.some.inj (hb.symm.trans hb₁)
  have hrecorded := recordSettlement_ok hr
  refine ⟨_, World.setBook_book?_self, by rw [hrecorded.keeps], ?_⟩
  rcases hrecorded.result with ⟨h0, hstatus, -⟩ | ⟨hpos, hstatus, -⟩
  · rw [if_pos h0, hstatus]
  · rw [if_neg hpos.ne', hstatus]

/-! ## The live path -/

variable {val : StatValidation D} {statA statB : StatLeaf D}

/-- A response about a fixture whose two paths verify under the published root. -/
structure Verifies (H : Keccak D) (w : World D) (fixtureId : Int64) (val : StatValidation D)
    (statA statB : StatLeaf D) : Prop where
  fixture : val.summary.fixtureId = fixtureId
  valueA : val.statsToProve[0]? = some statA.stat
  valueB : val.statsToProve[1]? = some statB.stat
  pathA : ∃ nodes, val.statProofs[0]? = some nodes ∧ mapProof nodes = .ok statA.statProof
  pathB : ∃ nodes, val.statProofs[1]? = some nodes ∧ mapProof nodes = .ok statB.statProof
  event : val.eventStatRoot = val.summary.eventsSubTreeRoot
  leaves : verifyStatLeaves H val.eventStatRoot [statA, statB] = .ok .unit
  roots : ∃ subNodes mainNodes subTree mainTree roots, val.subTreeProof = some subNodes ∧
    mapProof subNodes = .ok subTree ∧ val.mainTreeProof = some mainNodes ∧
    mapProof mainNodes = .ok mainTree ∧
    RootsOf w.rootsView (dailyScoresPda mockOracleId val.summary.updateStats.minTimestamp)
      val.summary.updateStats.minTimestamp roots ∧
    verifyFixture H roots.root val.summary subTree mainTree = .ok .unit

omit [Inhabited D] in
/-- The program's verdict on the proof of a verifying response. -/
theorem Verifies.verdict_iff (hH : CollisionFree H)
    (hval : Verifies H w b.market.fixtureId val statA statB)
    (hwinner : IsMatchWinner statKeys period b) :
    ∃ built, buildProof val = .ok built ∧ built.p1 = statA.stat.value ∧
      built.p2 = statB.stat.value ∧
      (buildAndVerify (mockOracle H) w.rootsView mockOracleId
          (dailyRootsPda mockOracleId built.epochDay) b.market (claimedOutcome built.p1 built.p2)
          built.proof = .ok true ↔
        statLeg statA.stat = ⟨statKeys.1, period⟩ ∧ statLeg statB.stat = ⟨statKeys.2, period⟩) := by
  obtain ⟨subNodes, mainNodes, subTree, mainTree, roots, hsub, hsubTree, hmain, hmainTree, hview,
    hsummary⟩ := hval.roots
  obtain ⟨nodesA, hA, hpathA⟩ := hval.pathA
  obtain ⟨nodesB, hB, hpathB⟩ := hval.pathB
  simp only [buildProof, hval.valueA, hval.valueB, hsub, hmain, hA, hB, bind_eq_ok, demand_eq_ok,
    pure_eq_ok]
  refine ⟨_, ⟨_, rfl, _, rfl, _, ⟨_, rfl, hsubTree⟩, _, ⟨_, rfl, hmainTree⟩, _, ⟨_, rfl, hpathA⟩, _,
    ⟨_, rfl, hpathB⟩, rfl⟩, rfl, rfl, ?_⟩
  have hn := List.getElem?_eq_getElem (l := matchWinnerSpecs statKeys period)
    (i := claimedOutcome statA.stat.value statB.stat.value) (claimedOutcome_lt _ _)
  obtain ⟨c, hc⟩ := winner_spec (List.mem_of_getElem? hn)
  have hholds := (outcomeHolds_iff statA.stat.value statB.stat.value hn).mpr rfl
  rw [hc] at hn hholds
  rw [buildAndVerify_iff (hwinner.outcomeSpec.mpr hn) rfl]
  have hpaths := verifyStatLeaves_iff.mp hval.leaves
  simp only [List.forall_mem_cons, List.not_mem_nil, false_implies, implies_true,
    and_true] at hpaths
  simp only [specStats, if_true, verifyStatLeaves_iff, List.forall_mem_cons, List.not_mem_nil,
    false_implies, implies_true, and_true]
  constructor
  · rintro ⟨-, -, -, -, -, ⟨hleafA, hleafB⟩, -⟩
    rw [stat_of_path hH hpaths.1 hleafA, stat_of_path hH hpaths.2 hleafB]
    exact ⟨rfl, rfl⟩
  · rintro ⟨hlegA, hlegB⟩
    have hstatA := congrArg StatLeaf.stat (statLeaf_eq hlegA)
    have hstatB := congrArg StatLeaf.stat (statLeaf_eq hlegB)
    refine ⟨hval.fixture, trivial, rfl, ⟨roots, hview, hsummary⟩, hval.event, ?_, hholds⟩
    simp only at hstatA hstatB
    rw [hstatA, hstatB]
    exact hpaths

omit [Inhabited D] in
/-- The two proven values are the facts about their legs. -/
theorem Verifies.facts_eq (hH : CollisionFree H) (hroots : HonestRoots H facts w)
    {fixtureId : Int64} (hval : Verifies H w fixtureId val statA statB) :
    statA.stat.value = facts fixtureId (statLeg statA.stat) ∧
      statB.stat.value = facts fixtureId (statLeg statB.stat) := by
  obtain ⟨-, -, subTree, mainTree, roots, -, -, -, -, hview, hsummary⟩ := hval.roots
  have hauth : Authentic H w.rootsView val.summary.updateStats.minTimestamp fixtureId
      [statA.stat, statB.stat] := by
    refine ⟨roots, val.summary, hview, commitsTo hH (verifyFixture_commits hsummary), hval.fixture,
      (List.forall_mem_map (l := [statA, statB])).mpr fun l hl => ?_⟩
    rw [← hval.event]
    exact commitsTo hH (verifyStatLeaves_commits hval.leaves l hl)
  have hvalues := authentic_values hroots hauth rfl
  simp only [List.map_cons, List.map_nil, List.cons.injEq, and_true] at hvalues
  exact hvalues

/-- A locked match winner under truthful roots. From any response that verifies
the keeper builds a proof; the program accepts its transaction exactly if the
response proves the two stats of the market's specs at their period, and then
records the true winner. Whoever settles the market later settles it so. -/
theorem winner_settles (hH : CollisionFree H) {w₀ : World D} (h₀ : Genesis w₀)
    (hroots : HonestRoots H facts w₀) {is : List (Instruction D)}
    (his : ∀ i ∈ is, PublishesTruth H facts i)
    (hb : ((machine (mockOracle H)).run w₀ is).book? k = some b) (hst : b.market.status = .locked)
    (hwinner : IsMatchWinner statKeys period b)
    (hval : Verifies H ((machine (mockOracle H)).run w₀ is) b.market.fixtureId val statA statB)
    (hsign : wallet.canSign = true) :
    ∃ built, buildProof val = .ok built ∧
      ((∃ w', step (mockOracle H) ((machine (mockOracle H)).run w₀ is)
          (settleMarket wallet k built) = .ok w') ↔
        statLeg statA.stat = ⟨statKeys.1, period⟩ ∧ statLeg statB.stat = ⟨statKeys.2, period⟩) ∧
      (∀ w', step (mockOracle H) ((machine (mockOracle H)).run w₀ is)
          (settleMarket wallet k built) = .ok w' → ∃ b', w'.book? k = some b' ∧
        b'.market.winningOutcome = trueWinner facts statKeys period b.market.fixtureId ∧
        b'.market.status =
          if b.market.pool (trueWinner facts statKeys period b.market.fixtureId) = 0
          then .cancelled else .settled) ∧
      ∀ js : List (Instruction D), (∀ i ∈ js, PublishesTruth H facts i) → ∀ b',
        ((machine (mockOracle H)).run w₀ (is ++ js)).book? k = some b' →
        b'.market.status = .settled →
        b'.market.winningOutcome = trueWinner facts statKeys period b.market.fixtureId := by
  have hw : Reachable (mockOracle H) ((machine (mockOracle H)).run w₀ is) := ⟨w₀, is, h₀, rfl⟩
  obtain ⟨built, hbuilt, hp1, hp2, hverdict⟩ := hval.verdict_iff hH hwinner
  have haccepted := settle_iff built hw hb hst hwinner hsign
  refine ⟨built, hbuilt, haccepted.trans hverdict, fun w' hs => ?_, fun js hjs b' hb' hst' => ?_⟩
  · obtain ⟨hlegA, hlegB⟩ := hverdict.mp (haccepted.mp ⟨w', hs⟩)
    have hfacts := hval.facts_eq hH (run_trueResults hH h₀ hroots his).roots
    have hclaim : claimedOutcome built.p1 built.p2 =
        trueWinner facts statKeys period b.market.fixtureId := by
      rw [hp1, hp2, hfacts.1, hfacts.2, hlegA, hlegB, trueWinner]
    rw [← hclaim]
    exact settle_records hb hs
  · have hall : ∀ i ∈ is ++ js, PublishesTruth H facts i := fun i hi =>
      (List.mem_append.mp hi).elim (his i) (hjs i)
    exact (hwinner.trueOutcome_iff _).mp
      (run_settles_true hH h₀ hroots hall hb (by simp [hst]) hb' hst')

/-! ## The replay path -/

variable {goalsA goalsB : Int32} {fixtureId tsMs : Int64}

omit [DecidableEq D] [Inhabited D] in
theorem replayRoot_commits (H : Keccak D) (goalsA goalsB : Int32) (fixtureId tsMs : Int64)
    (period : Int32) (statKeys : UInt32 × UInt32) :
    ∃ summary : ScoresBatchSummary D, summary.fixtureId = fixtureId ∧
      (buildMockProof H goalsA goalsB fixtureId tsMs period statKeys).dailyRoot =
        leafHash H (borshSummary H summary) ∧
      summary.eventsSubTreeRoot =
        nodeHash H (leafHash H (borshScoreStat ⟨statKeys.1, goalsA, period⟩))
          (leafHash H (borshScoreStat ⟨statKeys.2, goalsB, period⟩)) :=
  ⟨⟨fixtureId, ⟨1, tsMs, tsMs⟩, _⟩, rfl, rfl, rfl⟩

omit [DecidableEq D] [Inhabited D] in
/-- The published root is truthful exactly about the two recorded goals. -/
theorem replayRoot_truthful_iff (hH : CollisionFree H) :
    Truthful H facts (buildMockProof H goalsA goalsB fixtureId tsMs period statKeys).dailyRoot ↔
      facts fixtureId ⟨statKeys.1, period⟩ = goalsA ∧
        facts fixtureId ⟨statKeys.2, period⟩ = goalsB := by
  obtain ⟨summary, rfl, hroot, hsub⟩ := replayRoot_commits H goalsA goalsB fixtureId tsMs
    period statKeys
  rw [hroot]
  constructor
  · intro h
    have hsummary := commitsTo hH (Commits.self (scheme H) (borshSummary H summary))
    have hhome : Commits (scheme H) summary.eventsSubTreeRoot
        (borshScoreStat ⟨statKeys.1, goalsA, period⟩) := ⟨1, 0, hsub ▸ .left .root⟩
    have haway : Commits (scheme H) summary.eventsSubTreeRoot
        (borshScoreStat ⟨statKeys.2, goalsB, period⟩) := ⟨1, 1, hsub ▸ .right .root⟩
    exact ⟨(h summary _ hsummary (commitsTo hH hhome)).symm,
      (h summary _ hsummary (commitsTo hH haway)).symm⟩
  · rintro ⟨hhome, haway⟩ summary' stat hsummary hstat
    have hmem := hsummary.2 (.leaf (borshSummary H summary)) rfl
    obtain rfl : summary' = summary :=
      borshSummary_injective hH (by simpa [Merkle.Tree.leaves] using hmem)
    have hleaf := hstat.2 (.node (.leaf (borshScoreStat ⟨statKeys.1, goalsA, period⟩))
      (.leaf (borshScoreStat ⟨statKeys.2, goalsB, period⟩))) hsub.symm
    simp only [Merkle.Tree.leaves, List.cons_append, List.nil_append, List.mem_cons,
      List.not_mem_nil, or_false] at hleaf
    rcases hleaf with h | h
    · rw [borshScoreStat_injective h]
      exact hhome.symm
    · rw [borshScoreStat_injective h]
      exact haway.symm

omit [Inhabited D] in
/-- Under its own root the built proof is accepted for the claim of its goals. -/
theorem replayProof_accepted {view : RootsView D} {account : Pubkey}
    (hwinner : IsMatchWinner statKeys period b)
    (haccount : account = dailyScoresPda mockOracleId tsMs)
    (hview : RootsOf view account tsMs ⟨epochDayOf tsMs,
      (buildMockProof H goalsA goalsB b.market.fixtureId tsMs period statKeys).dailyRoot⟩) :
    buildAndVerify (mockOracle H) view mockOracleId account b.market
      (claimedOutcome goalsA goalsB)
      (buildMockProof H goalsA goalsB b.market.fixtureId tsMs period statKeys).proof =
        .ok true := by
  have hn := List.getElem?_eq_getElem (l := matchWinnerSpecs statKeys period)
    (i := claimedOutcome goalsA goalsB) (claimedOutcome_lt _ _)
  obtain ⟨c, hc⟩ := winner_spec (List.mem_of_getElem? hn)
  have hholds := (outcomeHolds_iff goalsA goalsB hn).mpr rfl
  rw [hc] at hn hholds
  rw [buildAndVerify_iff (hwinner.outcomeSpec.mpr hn) rfl]
  refine ⟨rfl, rfl, haccount, ⟨_, hview, ?_⟩, rfl, verifyStatLeaves_of_paths ?_, hholds⟩
  · simp [verifyFixture, foldProof, buildMockProof, require, borshSummary, encFixtureSummary]
  · simp [specStats, buildMockProof, foldProof, combine, borshScoreStat, encScoreStat]

omit [DecidableEq D] [Inhabited D] in
theorem publishMockRoot_ok {day : ℤ} {root : D} {publish : Instruction D} :
    publishMockRoot day root = .ok publish ↔
      (0 ≤ day ∧ day < 65536) ∧ publish = .publishDailyRoot (UInt16.ofNat day.toNat) root := by
  simp only [publishMockRoot, bind_eq_ok, require_eq_ok, pure_eq_ok]
  exact ⟨fun ⟨_, hday, h⟩ => ⟨hday, h.symm⟩, fun ⟨hday, h⟩ => ⟨.unit, hday, h.symm⟩⟩

/-- A day of two bytes is the day the program derives. -/
theorem epochDayOf_of_day (hday : 0 ≤ epochDay tsMs ∧ epochDay tsMs < 65536) :
    UInt16.ofNat (epochDay tsMs).toNat = epochDayOf tsMs := by
  have hmod : tsMs.toInt / msPerDay % 65536 = epochDay tsMs := Int.emod_eq_of_lt hday.1 hday.2
  rw [epochDayOf, hmod]

/-- What the keeper builds from a recording of the fixture. -/
def replayed (H : Keccak D) (cfg : Config) (fx : ReplayFixture) (fixtureId : Int64) :
    Instruction D × BuiltProof D :=
  let built := buildMockProof H fx.goals.1 fx.goals.2 fixtureId fx.tsMs cfg.statPeriod cfg.statKeys
  (.publishDailyRoot (epochDayOf fx.tsMs) built.dailyRoot,
    ⟨built.proof, epochDay fx.tsMs, fx.goals.1, fx.goals.2,
      ((fx.statsToProve.getD [])[0]?.map (·.period)).getD cfg.statPeriod⟩)

omit [DecidableEq D] [Inhabited D] in
theorem buildReplayProof_ok {cfg : Config} {fx : ReplayFixture} (hfx : fx.fixtureId = fixtureId)
    {r : Instruction D × BuiltProof D} :
    buildReplayProof H cfg (some fx) fixtureId = .ok r ↔
      (0 ≤ epochDay fx.tsMs ∧ epochDay fx.tsMs < 65536) ∧ r = replayed H cfg fx fixtureId := by
  simp only [buildReplayProof, demand, bind_eq_ok, require_eq_ok, pure_eq_ok, publishMockRoot_ok]
  constructor
  · rintro ⟨_, h, _, -, publish, ⟨hday, rfl⟩, rfl⟩
    obtain rfl := Except.ok.inj h
    exact ⟨hday, by rw [replayed, ← epochDayOf_of_day hday]; rfl⟩
  · rintro ⟨hday, rfl⟩
    exact ⟨fx, rfl, .unit, hfx, _, ⟨hday, rfl⟩, by rw [replayed, ← epochDayOf_of_day hday]; rfl⟩

omit [Inhabited D] in
theorem publishDailyRoot_rootsOf (w : World D) (root : D) :
    RootsOf (publishDailyRoot (mockOracle H) w (epochDayOf tsMs) root).rootsView
      (dailyScoresPda mockOracleId tsMs) tsMs ⟨epochDayOf tsMs, root⟩ :=
  ⟨AList.lookup_insert _, rfl⟩

/-- A locked match winner and a recording of its fixture. The keeper can build its
root and proof exactly if the day fits in two bytes. Its two transactions then
succeed one after the other and record the winner of the recorded goals, and the
root is truthful exactly about these. -/
theorem replay_settles (hw : Reachable (mockOracle H) w) (hb : w.book? k = some b)
    (hst : b.market.status = .locked) {cfg : Config}
    (hwinner : IsMatchWinner cfg.statKeys cfg.statPeriod b) {fx : ReplayFixture}
    (hfx : fx.fixtureId = b.market.fixtureId) (hsign : wallet.canSign = true) :
    ((∃ r, buildReplayProof H cfg (some fx) b.market.fixtureId = .ok r) ↔
      0 ≤ epochDay fx.tsMs ∧ epochDay fx.tsMs < 65536) ∧
    ∀ publish built, buildReplayProof H cfg (some fx) b.market.fixtureId = .ok (publish, built) →
      (∃ w₁ w₂ b', step (mockOracle H) w publish = .ok w₁ ∧
        step (mockOracle H) w₁ (settleMarket wallet k built) = .ok w₂ ∧ w₂.book? k = some b' ∧
        b'.market.winningOutcome = claimedOutcome fx.goals.1 fx.goals.2 ∧
        b'.market.status = if b.market.pool (claimedOutcome fx.goals.1 fx.goals.2) = 0
          then .cancelled else .settled) ∧
      (CollisionFree H → ∀ facts, PublishesTruth H facts publish ↔
        facts b.market.fixtureId ⟨cfg.statKeys.1, cfg.statPeriod⟩ = fx.goals.1 ∧
          facts b.market.fixtureId ⟨cfg.statKeys.2, cfg.statPeriod⟩ = fx.goals.2) := by
  simp only [buildReplayProof_ok hfx]
  refine ⟨⟨fun ⟨_, hday, _⟩ => hday, fun hday => ⟨_, hday, rfl⟩⟩, ?_⟩
  rintro publish built ⟨hday, he⟩
  obtain ⟨rfl, rfl⟩ := Prod.mk.inj he
  refine ⟨?_, fun hH facts => replayRoot_truthful_iff hH⟩
  let built := buildMockProof H fx.goals.1 fx.goals.2 b.market.fixtureId fx.tsMs cfg.statPeriod
    cfg.statKeys
  let w₁ := publishDailyRoot (mockOracle H) w (epochDayOf fx.tsMs) built.dailyRoot
  have hs : (machine (mockOracle H)).step w (replayed H cfg fx b.market.fixtureId).1 = .ok w₁ := rfl
  have hb₁ : w₁.book? k = some b := by
    change w.books.lookup k = some b
    exact hb
  have hverdict : buildAndVerify (mockOracle H) w₁.rootsView mockOracleId
      (dailyScoresPda mockOracleId fx.tsMs) b.market (claimedOutcome fx.goals.1 fx.goals.2)
      built.proof = .ok true :=
    replayProof_accepted hwinner rfl (publishDailyRoot_rootsOf w built.dailyRoot)
  obtain ⟨w₂, hw₂⟩ := (settle_iff (replayed H cfg fx b.market.fixtureId).2
    (Machine.Reachable.step hw hs) hb₁ hst hwinner hsign).mpr hverdict
  obtain ⟨b', hb', hrecords⟩ := settle_records hb₁ hw₂
  exact ⟨_, w₂, b', hs, hw₂, hb', hrecords⟩

/-! ## The match winner of fixture 7 -/

def winnerConfig : Config := ⟨(1, 2), 100, 500, some (.key 21)⟩

def winnerMarket : Pubkey := .market (.key 20) 7 0

/-- Created by the keeper, staked on by one wallet, and locked after its day was
published. -/
def winnerRun : List (Instruction (List UInt8)) :=
  fundWallets ++ [initializeMarket winnerConfig (.key 20) (.key 1) 7 0 100 50 100,
    .placeBet ⟨.key 12, winnerMarket, .key 2, .vault winnerMarket⟩ 0 500,
    publishSummary 0 (summaryOf 7 0), .setClock 100, .lockMarket ⟨winnerMarket, .key 30⟩]

def winnerWorld : World (List UInt8) :=
  (machine (mockOracle plainHash)).run (emptyWorld (List UInt8)) winnerRun

theorem winnerRun_publishes : ∀ i ∈ winnerRun, PublishesTruth plainHash sampleFacts i := by
  simp only [winnerRun, fundWallets, List.cons_append, List.nil_append, List.forall_mem_cons,
    List.not_mem_nil, false_implies, implies_true, and_true]
  exact ⟨trivial, trivial, trivial, trivial, trivial, trivial, trivial, trivial, trivial,
    summaryOf_truthful 7 0, trivial, trivial⟩

theorem winnerWorld_book : ∃ b, winnerWorld.book? winnerMarket = some b ∧
    b.market.status = .locked ∧ b.market.fixtureId = 7 ∧
    IsMatchWinner winnerConfig.statKeys winnerConfig.statPeriod b := by
  have hbook : (winnerWorld.book? winnerMarket).map (fun b => (b.market.status,
      b.market.fixtureId, b.market.marketType, b.market.outcomes.map (·.spec))) =
        some (.locked, 7, 0, matchWinnerSpecs (1, 2) 100) := by
    decide +kernel
  obtain ⟨b, hb, he⟩ := Option.map_eq_some_iff.mp hbook
  simp only [Prod.mk.injEq] at he
  exact ⟨b, hb, he.1, he.2.1, by rw [he.2.2.1]; decide, he.2.2.2⟩

def goalsValidation : StatValidation (List UInt8) :=
  ⟨summaryOf 7 0, some [], some [], goalsRoot, [homeGoals, awayGoals],
    [[.tagged (leafHash plainHash (borshScoreStat awayGoals)) (some true)],
      [.tagged (leafHash plainHash (borshScoreStat homeGoals)) (some false)]]⟩

theorem goalsValidation_verifies : Verifies plainHash winnerWorld 7 goalsValidation
    ⟨homeGoals, [⟨leafHash plainHash (borshScoreStat awayGoals), true⟩]⟩
    ⟨awayGoals, [⟨leafHash plainHash (borshScoreStat homeGoals), false⟩]⟩ where
  fixture := rfl
  valueA := rfl
  valueB := rfl
  pathA := ⟨_, rfl, rfl⟩
  pathB := ⟨_, rfl, rfl⟩
  event := rfl
  leaves := by decide +kernel
  roots := by
    refine ⟨[], [], [], [], ⟨0, leafHash plainHash (borshSummary plainHash (summaryOf 7 0))⟩, rfl,
      rfl, rfl, rfl, ⟨?_, ?_⟩, ?_⟩
    · decide +kernel
    · decide +kernel
    · decide +kernel

theorem winner_settles_goals : ∃ built w', buildProof goalsValidation = .ok built ∧
    step (mockOracle plainHash) winnerWorld (settleMarket (.key 30) winnerMarket built) = .ok w' ∧
    ∃ b', w'.book? winnerMarket = some b' ∧ b'.market.winningOutcome = 0 := by
  obtain ⟨b, hb, hst, hfixture, hwinner⟩ := winnerWorld_book
  obtain ⟨built, hbuilt, haccepted, hrecords, -⟩ := winner_settles plainHash_collisionFree
    emptyWorld_genesis emptyWorld_honestRoots winnerRun_publishes hb hst hwinner
    (hfixture ▸ goalsValidation_verifies) (show (Pubkey.key 30).canSign = true from rfl)
  obtain ⟨w', hw'⟩ := haccepted.mpr ⟨rfl, rfl⟩
  obtain ⟨b', hb', hwon, -⟩ := hrecords w' hw'
  exact ⟨built, w', hbuilt, hw', b', hb', hwon.trans (by rw [hfixture]; decide)⟩

/-- A recording of a draw of fixture 7 on the day after. -/
def drawRecording : ReplayFixture := ⟨7, (0, 0), 86400000, some [⟨1, 2, 100⟩, ⟨2, 2, 100⟩], none⟩

theorem replay_settles_draw : ∃ publish built w₁ w₂ b',
    buildReplayProof plainHash winnerConfig (some drawRecording) 7 = .ok (publish, built) ∧
    step (mockOracle plainHash) winnerWorld publish = .ok w₁ ∧
    step (mockOracle plainHash) w₁ (settleMarket (.key 30) winnerMarket built) = .ok w₂ ∧
    w₂.book? winnerMarket = some b' ∧ b'.market.winningOutcome = 1 := by
  obtain ⟨b, hb, hst, hfixture, hwinner⟩ := winnerWorld_book
  have hw : Reachable (mockOracle plainHash) winnerWorld := ⟨_, winnerRun, emptyWorld_genesis, rfl⟩
  obtain ⟨hbuilds, hsettles⟩ := replay_settles hw hb hst hwinner
    (show drawRecording.fixtureId = b.market.fixtureId by rw [hfixture]; rfl)
    (show (Pubkey.key 30).canSign = true from rfl)
  obtain ⟨⟨publish, built⟩, hbuilt⟩ := hbuilds.mpr (by decide)
  obtain ⟨⟨w₁, w₂, b', hs₁, hs₂, hb', hwon, -⟩, -⟩ := hsettles publish built hbuilt
  exact ⟨publish, built, w₁, w₂, b', hfixture ▸ hbuilt, hs₁, hs₂, hb', hwon.trans (by decide)⟩

end ProofBook.MatchWinner
