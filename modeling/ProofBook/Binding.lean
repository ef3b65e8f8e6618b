import ProofBook.OracleSound
import ProofBook.Escrow

/-!
# Trustless binding

Whatever proof a settlement was given, what it paid for is committed to by the
published root: a summary of the fixture, under it the stats of the stored spec
in order, and on their values the verdict of the stored predicates.
-/
namespace ProofBook.Binding
open Addresses OracleWire State Checked Coverage Merkle OracleAdapter MockOracle OracleSound
open TokenLedger Totals Chain Program Runs MarketRuns Escrow
open Instructions.Settlement Instructions.PropVaults

variable {D : Type}

/-- The bytes are a leaf of the digest's Merkle term, and a leaf of every tree
that was published under it. -/
def CommitsTo (H : Keccak D) (root : D) (bytes : List UInt8) : Prop :=
  Commits (scheme H) root bytes ∧
    ∀ t : Merkle.Tree (List UInt8), t.digest (scheme H) = root → bytes ∈ t.leaves

/-- The root published for the day of the timestamp commits to a summary of the
fixture whose events root commits to the stats. -/
def Authentic (H : Keccak D) (view : RootsView D) (ts fixtureId : Int64)
    (stats : List ScoreStat) : Prop :=
  ∃ roots summary, RootsOf view (dailyScoresPda mockOracleId ts) ts roots ∧
    CommitsTo H roots.root (borshSummary H summary) ∧ summary.fixtureId = fixtureId ∧
    ∀ stat ∈ stats, CommitsTo H summary.eventsSubTreeRoot (borshScoreStat stat)

/-- Which stat a leaf is about. -/
def statLeg (stat : ScoreStat) : StatLeg := ⟨stat.key, stat.period⟩

/-- The one or two stats of an outcome spec. -/
def specLegs (spec : OutcomeSpec) : List StatLeg :=
  let statA : StatLeg := ⟨spec.statAKey, spec.statAPeriod⟩
  let statB : StatLeg := ⟨spec.statBKey, spec.statBPeriod⟩
  if spec.hasStatB then [statA, statB] else [statA]

/-- The legs a predicate reads. -/
def legReads : LegPredicate → List ℕ
  | .single index _ _ => [index]
  | .binary indexA indexB _ _ _ => [indexA, indexB]

variable {H : Keccak D}

theorem commitsTo (hH : CollisionFree H) {root : D} {bytes : List UInt8}
    (h : Commits (scheme H) root bytes) : CommitsTo H root bytes :=
  ⟨h, fun _ ht => Commits.mem_leaves hH.scheme (ht ▸ h)⟩

theorem refs_toStat (predicates : List LegPredicate) :
    (predicates.map LegPredicate.toStat).flatMap StatPredicate.refs =
      predicates.flatMap legReads := by
  rw [List.flatMap_map]
  refine List.flatMap_congr fun p _ => ?_
  cases p <;> rfl

theorem specStats_legs (spec : OutcomeSpec) (proof : SettlementProof D) :
    ((specStats spec proof).map (·.stat)).map statLeg = specLegs spec := by
  unfold specStats specLegs
  split_ifs <;> rfl

theorem legLeaves_legs {legs : List StatLeg} {values : List Int32}
    (h : values.length = legs.length) :
    ((legLeaves (D := D) legs values).map (·.stat)).map statLeg = legs := by
  induction legs generalizing values with
  | nil => rfl
  | cons leg legs ih =>
      cases values with
      | nil => simp at h
      | cons value values => exact congrArg (leg :: ·) (ih (Nat.succ.inj h))

theorem legLeaves_values {legs : List StatLeg} {values : List Int32}
    (h : values.length = legs.length) :
    ((legLeaves (D := D) legs values).map (·.stat)).map (·.value) = values := by
  induction legs generalizing values with
  | nil => exact (List.length_eq_zero_iff.mp h).symm
  | cons leg legs ih =>
      cases values with
      | nil => rfl
      | cons value values => exact congrArg (value :: ·) (ih (Nat.succ.inj h))

theorem legLeaves_length {legs : List StatLeg} {values : List Int32}
    (h : values.length = legs.length) :
    (legLeaves (D := D) legs values).length = legs.length := by
  simp [legLeaves, h]

variable [DecidableEq D] {view : RootsView D} {account : Pubkey} {holds : Bool}

/-- The single-market path: one path for each stat. -/
theorem buildAndVerify_binding (hH : CollisionFree H) {market : Market D} {claimedOutcome : ℕ}
    {proof : SettlementProof D}
    (h : buildAndVerify (mockOracle H) view mockOracleId account market claimedOutcome proof =
      .ok holds) :
    ∃ spec stats, market.outcomeSpec claimedOutcome = .ok spec ∧
      Authentic H view proof.ts market.fixtureId stats ∧ stats.map statLeg = specLegs spec ∧
      (holds = true ↔ OutcomeHolds (stats.map (·.value)) spec) := by
  simp only [buildAndVerify, invokeValidateStatV2_eq, validateStatV2, bind_eq_ok, mapError_eq_ok,
    require_eq_ok, loadRoots_ok, evaluateStrategy_ok] at h
  obtain ⟨spec, hspec, _, hfix, _, -, _, rfl, roots, hroots, _, hevent, _, hleaves, _, hsummary, -,
    -, hholds⟩ := h
  refine ⟨spec, (specStats spec proof).map (·.stat), hspec,
    ⟨roots, proof.fixtureSummary, hroots, commitsTo hH (verifyFixture_commits hsummary), hfix,
      ?_⟩, specStats_legs spec proof, ?_⟩
  · rw [← hevent]
    exact List.forall_mem_map.mpr fun leaf hleaf =>
      commitsTo hH (verifyStatLeaves_commits hleaves leaf hleaf)
  · rw [hholds, statHolds_specPredicates]

/-- The compound path: one multiproof for all legs. -/
theorem buildAndVerifyV3Legs_binding (hH : CollisionFree H) {fixtureId : Int64}
    {legs : List StatLeg} {predicates : List LegPredicate} {proof : SettlementProofV3 D}
    (h : buildAndVerifyV3Legs (mockOracle H) view mockOracleId account fixtureId legs predicates
      proof = .ok holds) :
    ∃ stats, Authentic H view proof.ts fixtureId stats ∧ stats.map statLeg = legs ∧
      ExactlyOnce legs.length (predicates.flatMap legReads) ∧
      (holds = true ↔ ∀ p ∈ predicates, LegHolds (stats.map (·.value)) p) := by
  simp only [buildAndVerifyV3Legs, invokeValidateStatV3_eq, validateStatV3, legPayload,
    bind_eq_ok, mapError_eq_ok, require_eq_ok, loadRoots_ok, evaluateStrategy_ok, refs_toStat,
    List.length_map] at h
  obtain ⟨_, hfix, _, hvalues, _, hindices, _, rfl, roots, hroots, _, hevent, _, hlen, _, hmulti, _,
    hsummary, -, honce, hholds⟩ := h
  rw [legLeaves_length hvalues] at honce
  refine ⟨(legLeaves (D := D) legs proof.leafValues).map fun leaf => leaf.stat,
    ⟨roots, proof.fixtureSummary, hroots, commitsTo hH (verifyFixture_commits hsummary), hfix,
      ?_⟩, legLeaves_legs hvalues, honce, ?_⟩
  · rw [← hevent]
    exact List.forall_mem_map.mpr fun leaf hleaf =>
      commitsTo hH (verifyMultiproof_commits hmulti hlen leaf hleaf)
  · rw [hholds, List.forall_mem_map]
    exact forall₂_congr fun p _ => statHolds_toStat _ p

/-! ## Settlements -/

/-- A settled outcome spec holds on committed values of its stats. -/
def BoundOutcome (H : Keccak D) (w : World D) (market : Pubkey) (claimedOutcome : ℕ)
    (ts : Int64) : Prop :=
  ∃ b spec stats, w.book? market = some b ∧ b.market.outcomeSpec claimedOutcome = .ok spec ∧
    Authentic H w.rootsView ts b.market.fixtureId stats ∧ stats.map statLeg = specLegs spec ∧
    OutcomeHolds (stats.map (·.value)) spec

/-- Every predicate of a settled compound outcome holds on committed values of
the spec's legs, each leg read once. -/
def BoundComboOutcome (H : Keccak D) (w : World D) (market : Pubkey) (claimedOutcome : ℕ)
    (ts : Int64) : Prop :=
  ∃ b spec outcome stats, w.book? market = some b ∧ b.comboSpec = some spec ∧
    spec.outcomes[claimedOutcome]? = some outcome ∧
    Authentic H w.rootsView ts b.market.fixtureId stats ∧ stats.map statLeg = spec.legs ∧
    ExactlyOnce spec.legs.length (outcome.predicates.flatMap legReads) ∧
    ∀ p ∈ outcome.predicates, LegHolds (stats.map (·.value)) p

/-- A vault pays its beneficiary when every predicate holds on committed values
of its legs, and its depositor when one fails on them. -/
def BoundVault (H : Keccak D) (w w' : World D) (ctx : SettlePropVault) (ts : Int64) : Prop :=
  ∃ v v' stats w₁, w.propVault? ctx.propVault = some v ∧
    w'.propVault? ctx.propVault = some v' ∧ w'.ledger = w₁.ledger ∧
    Authentic H w.rootsView ts v.fixtureId stats ∧ stats.map statLeg = v.legs ∧
    ExactlyOnce v.legs.length (v.predicates.flatMap legReads) ∧
    ((v'.status = .paidOut ∧ sweep w ctx.vault ctx.beneficiaryToken ctx.propVault = .ok w₁ ∧
        ∀ p ∈ v.predicates, LegHolds (stats.map (·.value)) p) ∨
      (v'.status = .refunded ∧ sweep w ctx.vault ctx.depositorToken ctx.propVault = .ok w₁ ∧
        ∃ p ∈ v.predicates, ¬ LegHolds (stats.map (·.value)) p))

variable {w w' : World D}

theorem settleMarket_binding (hH : CollisionFree H) {ctx : SettleMarket} {claimedOutcome : ℕ}
    {proof : SettlementProof D}
    (h : settleMarket (mockOracle H) w ctx claimedOutcome proof = .ok w') :
    BoundOutcome H w ctx.market claimedOutcome proof.ts := by
  obtain ⟨b, m, es, hb, -, -, hv, -, -⟩ := settleMarket_ok h
  obtain ⟨spec, stats, hspec, hauth, hlegs, hholds⟩ := buildAndVerify_binding hH hv
  exact ⟨b, spec, stats, hb, hspec, hauth, hlegs, hholds.mp rfl⟩

theorem settleMarketV3_binding (hH : CollisionFree H) {ctx : SettleMarket} {claimedOutcome : ℕ}
    {proof : SettlementProofV3 D}
    (h : settleMarketV3 (mockOracle H) w ctx claimedOutcome proof = .ok w') :
    BoundComboOutcome H w ctx.market claimedOutcome proof.ts := by
  obtain ⟨b, spec, m, es, hb, hs, -, -, hv, -, -⟩ := settleMarketV3_ok h
  simp only [buildAndVerifyV3, bind_eq_ok, demand_eq_ok] at hv
  obtain ⟨outcome, ho, hv⟩ := hv
  obtain ⟨stats, hauth, hlegs, honce, hholds⟩ := buildAndVerifyV3Legs_binding hH hv
  exact ⟨b, spec, outcome, stats, hb, hs, ho, hauth, hlegs, honce, hholds.mp rfl⟩

theorem settlePropVault_binding (hH : CollisionFree H) {ctx : SettlePropVault}
    {proof : SettlementProofV3 D}
    (h : settlePropVault (mockOracle H) w ctx proof = .ok w') :
    BoundVault H w w' ctx proof.ts := by
  obtain ⟨v, holds, w₁, es, hc, hs, rfl⟩ := settlePropVault_ok h
  obtain ⟨stats, hauth, hlegs, honce, hholds⟩ := buildAndVerifyV3Legs_binding hH hc.verdict
  refine ⟨v, _, stats, w₁, hc.propVault, World.setPropVault_propVault?_self, rfl, hauth, hlegs,
    honce, ?_⟩
  cases holds with
  | true => exact .inl ⟨rfl, hs, hholds.mp rfl⟩
  | false =>
      refine .inr ⟨rfl, hs, ?_⟩
      by_contra hall
      push Not at hall
      exact absurd (hholds.mpr hall) (by simp)

/-- Every settlement that succeeds against the bundled oracle is bound to the
published root and the stored rule. -/
theorem trustless_binding (hH : CollisionFree H) (w w' : World D) :
    (∀ ctx claimedOutcome proof,
      settleMarket (mockOracle H) w ctx claimedOutcome proof = .ok w' →
      BoundOutcome H w ctx.market claimedOutcome proof.ts) ∧
    (∀ ctx claimedOutcome proof,
      settleMarketV3 (mockOracle H) w ctx claimedOutcome proof = .ok w' →
      BoundComboOutcome H w ctx.market claimedOutcome proof.ts) ∧
    (∀ ctx proof, settlePropVault (mockOracle H) w ctx proof = .ok w' →
      BoundVault H w w' ctx proof.ts) :=
  ⟨fun _ _ _ h => settleMarket_binding hH h, fun _ _ _ h => settleMarketV3_binding hH h,
    fun _ _ h => settlePropVault_binding hH h⟩

/-! ## A vault settled by a proof -/

/-- Each byte behind a one, and a zero at the end. -/
def delimit (bs : List UInt8) : List UInt8 := bs.flatMap (fun b => [1, b]) ++ [0]

/-- A hash that keeps its input, with self-delimiting digests. -/
def plainHash : Keccak (List UInt8) := ⟨id, delimit⟩

theorem delimit_append {a c x y : List UInt8} (h : delimit a ++ x = delimit c ++ y) :
    a = c ∧ x = y := by
  induction a generalizing c with
  | nil =>
      cases c with
      | nil => exact ⟨rfl, by simpa [delimit] using h⟩
      | cons b c => simp [delimit] at h
  | cons b a ih =>
      cases c with
      | nil => simp [delimit] at h
      | cons b' c =>
          simp only [delimit, List.flatMap_cons, List.cons_append, List.nil_append,
            List.cons.injEq, true_and] at h
          obtain ⟨rfl, h⟩ := h
          obtain ⟨rfl, hxy⟩ := ih (c := c) h
          exact ⟨rfl, hxy⟩

theorem plainHash_collisionFree : CollisionFree plainHash where
  hash := Function.injective_id
  pair h := by
    obtain ⟨hac, hbd⟩ := delimit_append h
    exact ⟨hac, (delimit_append (congrArg (· ++ []) hbd)).1⟩

def homeGoals : ScoreStat := ⟨1, 3, 100⟩
def awayGoals : ScoreStat := ⟨2, 1, 100⟩

def goalsRoot : List UInt8 :=
  nodeHash plainHash (leafHash plainHash (borshScoreStat homeGoals))
    (leafHash plainHash (borshScoreStat awayGoals))

def goalsSummary : ScoresBatchSummary (List UInt8) := ⟨7, ⟨1, 0, 0⟩, goalsRoot⟩

def goalsVault : Pubkey := .propVault (.key 12) 0

/-- Pays if the home side wins by more than one goal. -/
def createGoalsVault : Instruction (List UInt8) :=
  .initializePropVault ⟨.key 12, .key 1, .key 2⟩ ⟨0, [⟨1, 100⟩, ⟨2, 100⟩],
    [.binary 0 1 .subtract .greaterThan 1], 7, 500, .key 13, 100, 50⟩

def goalsContext : SettlePropVault :=
  ⟨.key 30, goalsVault, .vault goalsVault, .key 3, .key 2, .key 9, .dailyScores (.key 9) 0⟩

/-- The published day holds the summary of this fixture only. -/
def goalsProof : SettlementProofV3 (List UInt8) :=
  ⟨0, goalsSummary, [], [], goalsRoot, [3, 1], [], [0, 1]⟩

def goalsRun : List (Instruction (List UInt8)) :=
  fundWallets ++ [createGoalsVault,
    .publishDailyRoot 0 (leafHash plainHash (borshSummary plainHash goalsSummary)), .setClock 100]

def goalsWorld : World (List UInt8) :=
  (machine (mockOracle plainHash)).run (emptyWorld (List UInt8)) goalsRun

theorem goalsWorld_settles :
    (settlePropVault (mockOracle plainHash) goalsWorld goalsContext goalsProof).toOption.map
      (fun w => (w.propVault? goalsVault).map (·.status)) = some (some .paidOut) := by
  decide +kernel

theorem trustless_binding_goals : ∃ w',
    settlePropVault (mockOracle plainHash) goalsWorld goalsContext goalsProof = .ok w' ∧
      BoundVault plainHash goalsWorld w' goalsContext goalsProof.ts := by
  cases h : settlePropVault (mockOracle plainHash) goalsWorld goalsContext goalsProof with
  | error e =>
      have := goalsWorld_settles
      rw [h] at this
      cases this
  | ok w' =>
      exact ⟨w', rfl, (trustless_binding plainHash_collisionFree goalsWorld w').2.2 _ _ h⟩

end ProofBook.Binding
