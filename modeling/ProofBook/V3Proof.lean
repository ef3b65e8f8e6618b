import ProofBook.Agreement
import ProofBook.CatalogueCheck

/-!
# The keeper settles the catalogue

The keeper assembles its proof from a response of the score API and claims the
outcome it computes from the proven values. If the response verifies under a
truthful root, the program accepts the claim, and every market of the catalogue
has that one true outcome.
-/
namespace ProofBook.V3Proof
open Addresses OracleWire Checked Coverage Merkle OracleAdapter MockOracle OracleSound
open Chain Program Runs Steps StepCases MarketRuns Lifecycle Binding Verifier VerifierSound
open Agreement Instructions.Betting Instructions.Settlement
open State (StatLeg ComboSpec ComboOutcome Market)
open Catalogue (MarketTypeDef Leg Stored ReadsOnce OneOnCounts claimedOutcomeFor provenValues
  keeperVerdict catalogue matchResult)

variable {D : Type}

/-! ## Assembling the proof -/

def mapProof (nodes : Option (List (ApiNode D))) : List (ProofNode D) := (nodes.getD []).map node

structure BuiltV3 (D : Type) where
  proof : SettlementProofV3 D
  epochDay : ℤ
  values : List Int32
  period : Int32

/-- The leaves from leg `i` on must carry the keys of the legs. -/
def checkKeys : ℕ → List (ApiLeaf D) → List Leg → Except String PUnit.{1}
  | i, l :: leaves, want :: legs => do
      require (l.stat.key.toNat = want.key)
        (s!"leg {i}: proof carries stat key {l.stat.key}, ComboSpec pins {want.key}. " ++
          "Settling would evaluate the predicate against the wrong stat.")
      checkKeys (i + 1) leaves legs
  | _, _, _ => pure .unit

/-- The day of a millisecond timestamp. -/
def epochDay (tsMs : Int64) : ℤ := tsMs.toInt / msPerDay

/-- Another period than the definition's is only logged. -/
def buildV3Proof (val : ProofResponse D) (m : MarketTypeDef) : Except String (BuiltV3 D) := do
  let leaves := val.statsToProve
  require (leaves.length = m.legs.length)
    s!"proof has {leaves.length} leaves, market {m.slug} has {m.legs.length} legs"
  checkKeys 0 leaves m.legs
  let first ← demand leaves.head? "Cannot read properties of undefined (reading 'stat')"
  let tsMs := val.summary.updateStats.minTimestamp
  pure
    { proof :=
        { ts := tsMs
          fixtureSummary := val.summary
          fixtureProof := mapProof val.subTreeProof
          mainTreeProof := mapProof val.mainTreeProof
          eventStatRoot := val.eventStatRoot
          leafValues := leaves.map (·.stat.value)
          multiproofHashes := mapProof val.multiproof.hashes
          leafIndices := val.multiproof.indices }
      epochDay := epochDay tsMs
      values := leaves.map (·.stat.value)
      period := first.stat.period }

/-- The seed keeps sixteen bits of the day. -/
def dailyRootsPda (oracleProgram : Pubkey) (epochDay : ℤ) : Pubkey :=
  .dailyScores oracleProgram (UInt16.ofNat (epochDay % 65536).toNat)

/-- The transaction the keeper sends. -/
def settleMarketV3 (wallet market : Pubkey) (claimedOutcome : ℕ) (built : BuiltV3 D) :
    Instruction D :=
  .settleMarketV3 ⟨wallet, market, mockOracleId, dailyRootsPda mockOracleId built.epochDay⟩
    claimedOutcome built.proof

/-! ## One outcome -/

variable {values : List Int32} {m : MarketTypeDef} {spec : ComboSpec}

theorem holds_eq_evaluate {p : Catalogue.LegPredicate} (h : ∀ i ∈ p.reads, i < values.length) :
    p.evaluate (provenValues values) = p.holds (valueAt values) := by
  cases p with
  | single index comparison threshold =>
      have hi := Catalogue.valueOf_proven (h index (by simp [Catalogue.LegPredicate.reads]))
      simp only [Catalogue.LegPredicate.evaluate, hi, Catalogue.LegPredicate.holds]
  | binary indexA indexB op comparison threshold =>
      have hA := Catalogue.valueOf_proven (h indexA (by simp [Catalogue.LegPredicate.reads]))
      have hB := Catalogue.valueOf_proven (h indexB (by simp [Catalogue.LegPredicate.reads]))
      simp only [Catalogue.LegPredicate.evaluate, hA, hB, Catalogue.combined_exact,
        Catalogue.LegPredicate.holds]

theorem keeperVerdict_iff (honce : ReadsOnce m) (hlen : values.length = m.legs.length) (i : ℕ) :
    keeperVerdict m.outcomes (provenValues values) i = some true ↔
      ∃ o, m.outcomes[i]? = some o ∧ o.holds Catalogue.LegPredicate.holds (valueAt values) := by
  simp only [keeperVerdict, Option.map_eq_some_iff]
  refine exists_congr fun o => and_congr_right fun ho => ?_
  have hreads : ∀ p ∈ o.predicates, ∀ i ∈ p.reads, i < values.length := by
    intro p hp i hi
    rw [hlen]
    exact ((honce o (List.mem_of_getElem? ho)).2 i).mp (List.mem_flatMap.mpr ⟨p, hp, hi⟩)
  simp only [Catalogue.Outcome.holds, List.all_eq_true]
  exact forall₂_congr fun p hp => by rw [holds_eq_evaluate (hreads p hp)]

theorem valueAt_nonneg (h : ∀ v ∈ values, 0 ≤ v.toInt) (i : ℕ) : 0 ≤ valueAt values i := by
  unfold valueAt
  cases hv : values[i]? with
  | none => exact le_rfl
  | some v => exact h v (List.mem_of_getElem? hv)

/-- On counts the keeper claims the one outcome that holds. -/
theorem claimed_unique (honce : ReadsOnce m) (hone : OneOnCounts m)
    (hlen : values.length = m.legs.length) (hcounts : ∀ v ∈ values, 0 ≤ v.toInt) :
    ∃ n : ℕ, claimedOutcomeFor m (provenValues values) = n ∧
      ∀ i, keeperVerdict m.outcomes (provenValues values) i = some true ↔ i = n := by
  obtain ⟨n, hn, hunique⟩ := hone (valueAt values) (valueAt_nonneg hcounts)
  simp only [← keeperVerdict_iff honce hlen] at hn hunique
  refine ⟨n, Catalogue.claimed_eq_index.mpr ⟨hn, fun j hj => ?_⟩, fun i => ⟨hunique i, ?_⟩⟩
  · have hlt : n < m.outcomes.length := by
      simp only [keeperVerdict, Option.map_eq_some_iff] at hn
      obtain ⟨o, ho, -⟩ := hn
      exact (List.getElem?_eq_some_iff.mp ho).1
    have hother : keeperVerdict m.outcomes (provenValues values) j ≠ some true :=
      fun h => hj.ne (hunique j h)
    simp only [keeperVerdict, List.getElem?_eq_getElem (hj.trans hlt), Option.map_some] at hother ⊢
    simpa using hother
  · rintro rfl
    exact hn

/-- What a stored outcome says on chain is what its definition says. -/
theorem stored_verdict (h : Stored m spec) (honce : ReadsOnce m)
    (hlen : values.length = m.legs.length) (i : ℕ) :
    (∃ combo, spec.outcomes[i]? = some combo ∧ ∀ p ∈ combo.predicates, LegHolds values p) ↔
      keeperVerdict m.outcomes (provenValues values) i = some true := by
  have houtcomes := h.outcomes
  unfold ReadsOnce at honce
  unfold keeperVerdict
  generalize m.outcomes = outcomes at houtcomes honce ⊢
  generalize spec.outcomes = stored at houtcomes ⊢
  induction houtcomes generalizing i with
  | nil => simp
  | cons hhead _ ih =>
      cases i with
      | zero =>
          have hreads : ∀ i ∈ _, i < values.length := fun i hi =>
            hlen ▸ ((honce _ List.mem_cons_self).2 i).mp hi
          simp [← Catalogue.evaluateAll_iff hhead hreads]
      | succ i => exact ih i fun o ho => honce o (List.mem_cons_of_mem _ ho)

/-- The true outcomes of a market under a stored definition. -/
theorem trueOutcome_iff {facts : Facts} {b : Book D} (h : Stored m spec) (honce : ReadsOnce m)
    (htype : comboMarketTypeMin ≤ b.market.marketType) (hspec : b.comboSpec = some spec) (i : ℕ) :
    TrueOutcome facts b i ↔ keeperVerdict m.outcomes
      (provenValues (spec.legs.map (facts b.market.fixtureId))) i = some true := by
  rw [← stored_verdict h honce (by simp [h.legs.length_eq]), TrueOutcome, if_neg (not_lt.mpr htype)]
  simp [hspec]

/-! ## The response -/

/-- A response about the fixture and the legs whose Merkle material verifies
under the published root. -/
structure Verifies [DecidableEq D] (H : Keccak D) (w : World D) (fixtureId : Int64)
    (legs : List StatLeg) (val : ProofResponse D) : Prop where
  fixture : val.summary.fixtureId = fixtureId
  legs : val.statsToProve.map (fun l => statLeg l.stat) = legs
  event : val.eventStatRoot = val.summary.eventsSubTreeRoot
  indices : val.statsToProve.length = val.multiproof.indices.length
  leaves : verifyMultiproof H
    (val.statsToProve.map fun l => leafHash H (borshScoreStat l.stat)) val.multiproof.indices
    (mapProof val.multiproof.hashes) val.eventStatRoot = .ok .unit
  roots : ∃ roots, RootsOf w.rootsView
      (dailyScoresPda mockOracleId val.summary.updateStats.minTimestamp)
      val.summary.updateStats.minTimestamp roots ∧
    verifyFixture H roots.root val.summary (mapProof val.subTreeProof)
      (mapProof val.mainTreeProof) = .ok .unit

theorem checkKeys_ok {i : ℕ} {leaves : List (ApiLeaf D)} {legs : List Leg} {stored : List StatLeg}
    (hlegs : leaves.map (fun l => statLeg l.stat) = stored)
    (h : List.Forall₂ (fun leg (s : StatLeg) => leg.key = s.key.toNat ∧
      leg.period = .int s.period.toInt) legs stored) : checkKeys i leaves legs = .ok .unit := by
  subst hlegs
  induction leaves generalizing i legs with
  | nil =>
      cases h
      rfl
  | cons l leaves ih =>
      cases h with
      | cons hhead htail =>
          simp only [checkKeys, bind_eq_ok, require_eq_ok]
          exact ⟨.unit, hhead.1.symm, ih htail⟩

/-- The assembled proof, from a response with the leaves of the stored spec. -/
theorem buildV3Proof_ok {val : ProofResponse D} (h : Stored m spec) (hne : spec.legs ≠ [])
    (hlegs : val.statsToProve.map (fun l => statLeg l.stat) = spec.legs) :
    ∃ built, buildV3Proof val m = .ok built ∧ built.proof = valueProof (toPayloadV3 val) ∧
      built.values = val.statsToProve.map (·.stat.value) ∧
      dailyRootsPda mockOracleId built.epochDay =
        dailyScoresPda mockOracleId val.summary.updateStats.minTimestamp := by
  have hlength : val.statsToProve.length = m.legs.length := by
    rw [h.legs.length_eq, ← hlegs, List.length_map]
  cases hleaves : val.statsToProve with
  | nil =>
      rw [hleaves] at hlegs
      exact absurd hlegs.symm hne
  | cons l leaves =>
      have hkeys : checkKeys 0 (l :: leaves) m.legs = .ok .unit :=
        checkKeys_ok (hleaves ▸ hlegs) h.legs
      rw [hleaves] at hlength
      simp only [buildV3Proof, hleaves, bind_eq_ok, require_eq_ok, demand_eq_ok, pure_eq_ok]
      refine ⟨_, ⟨.unit, hlength, .unit, hkeys, l, rfl, rfl⟩, ?_, rfl, rfl⟩
      simp only [valueProof, toPayloadV3, hleaves, List.map_map]
      rfl

/-! ## Specs of a reachable world -/

section Specs
variable [Inhabited D] {O : OracleProgram D} {w : World D} {k : Pubkey} {b : Book D}

/-- A market has as many outcomes as its spec, which was validated. -/
theorem reachable_spec (hw : Reachable O w) (hb : w.book? k = some b) :
    b.market.outcomes.length = b.market.numOutcomes ∧
      ∀ s, b.comboSpec = some s → s.validate b.market.numOutcomes = .ok .unit := by
  refine (hw.invariant (P := fun w => WellFormed w ∧ ∀ k b, w.book? k = some b →
    b.market.outcomes.length = b.market.numOutcomes ∧
      ∀ s, b.comboSpec = some s → s.validate b.market.numOutcomes = .ok .unit) ?_ ?_).2 k b hb
  · exact fun w h => ⟨Genesis.wellFormed h, fun k b hb => by
      simp [World.book?, h.books] at hb⟩
  · rintro w i w' ⟨hwf, hall⟩ hs
    refine ⟨WellFormed.step hwf hs, fun k b' hb' => ?_⟩
    cases hb : w.book? k with
    | none =>
        obtain ⟨ctx, p, -, -, -, -, rfl, -⟩ := step_book_new hs hb hb'
        exact ⟨by simp [newMarket], fun s h => by cases h⟩
    | some b =>
        obtain ⟨b₁, x, y, hb₁, hstep, -⟩ := step_book hwf hs hb
        obtain rfl := Option.some.inj (hb₁.symm.trans hb')
        have hterms := hstep.sameTerms
        have hlength : b₁.market.outcomes.length = b.market.outcomes.length := by
          simpa using congrArg List.length hterms.specs
        refine ⟨by rw [hlength, hterms.numOutcomes, (hall k b hb).1], fun s hspec => ?_⟩
        rw [hterms.numOutcomes]
        cases hstep with
        | attach hk checks => exact Option.some.inj hspec ▸ checks.valid
        | _ => exact (hall k b hb).2 s hspec

end Specs

/-! ## The settlement -/

variable [Inhabited D] [DecidableEq D] {H : Keccak D} {facts : Facts} {w : World D} {k : Pubkey}
  {b : Book D} {val : ProofResponse D}

omit [Inhabited D] in
/-- The proven values are the facts. -/
theorem Verifies.facts_eq (hH : CollisionFree H) (hroots : HonestRoots H facts w)
    {fixtureId : Int64} {legs : List StatLeg} (h : Verifies H w fixtureId legs val) :
    val.statsToProve.map (·.stat.value) = legs.map (facts fixtureId) := by
  obtain ⟨roots, hview, hfixture⟩ := h.roots
  have hauth : Authentic H w.rootsView val.summary.updateStats.minTimestamp fixtureId
      (val.statsToProve.map (·.stat)) := by
    refine ⟨roots, val.summary, hview, commitsTo hH (verifyFixture_commits hfixture), h.fixture,
      List.forall_mem_map.mpr fun l hl => ?_⟩
    have hleaves : verifyMultiproof H
        ((toPayloadV3 val).leaves.map fun leaf => leafHash H (borshScoreStat leaf.stat))
        val.multiproof.indices (mapProof val.multiproof.hashes) val.eventStatRoot = .ok .unit := by
      simpa [toPayloadV3, Function.comp_def] using h.leaves
    have hcommits := verifyMultiproof_commits hleaves (by simpa [toPayloadV3] using h.indices)
    rw [← h.event]
    exact commitsTo hH (hcommits ⟨l.stat, path l.statProof⟩ (List.mem_map.mpr ⟨l, hl, rfl⟩))
  have hvalues := authentic_values hroots hauth
    (by simpa [Function.comp_def] using h.legs)
  rw [← hvalues]
  simp [Function.comp_def]

omit [Inhabited D] in
/-- The oracle accepts the assembled proof for an outcome true of the values. -/
theorem Verifies.authenticated {fixtureId : Int64} (h : Verifies H w fixtureId spec.legs val)
    (hsmall : spec.legs.length ≤ 32) {combo : ComboOutcome}
    (honce : ExactlyOnce spec.legs.length (combo.predicates.flatMap legReads))
    (hholds : ∀ p ∈ combo.predicates, LegHolds (val.statsToProve.map (·.stat.value)) p) :
    Authenticated H w (toPayloadV3 val)
      (discreteStrategy (combo.predicates.map LegPredicate.toStat)) where
  roots := h.roots
  event := h.event
  indices := by simpa [toPayloadV3] using h.indices
  leaves := by simpa [toPayloadV3, Function.comp_def, path, mapProof] using h.leaves
  verdict := by
    have hlength : val.statsToProve.length = spec.legs.length := by
      rw [← h.legs, List.length_map]
    rw [evaluateStrategy_ok, refs_toStat]
    simp only [toPayloadV3, List.map_map, List.length_map, hlength]
    refine ⟨hsmall, honce, ?_⟩
    simp only [true_iff, List.forall_mem_map]
    exact fun p hp => (statHolds_toStat _ p).mpr (by
      simpa [Function.comp_def] using hholds p hp)

/-- The keeper's transaction is accepted, and writes the outcome it claims. -/
theorem settleMarketV3_accepted (hw : Reachable (mockOracle H) w) (hb : w.book? k = some b)
    (hst : b.market.status = .locked) (hstored : Stored m spec) (honce : ReadsOnce m)
    (htype : comboMarketTypeMin ≤ b.market.marketType) (hspec : b.comboSpec = some spec)
    (hval : Verifies H w b.market.fixtureId spec.legs val) {built : BuiltV3 D}
    (hproof : built.proof = valueProof (toPayloadV3 val))
    (hroots : dailyRootsPda mockOracleId built.epochDay =
      dailyScoresPda mockOracleId val.summary.updateStats.minTimestamp) {n : ℕ}
    (hn : keeperVerdict m.outcomes (provenValues (val.statsToProve.map (·.stat.value))) n =
      some true) {wallet : Pubkey} (hsign : wallet.canSign = true) :
    ∃ w' b', step (mockOracle H) w (settleMarketV3 wallet k n built) = .ok w' ∧
      w'.book? k = some b' ∧ Recorded b.market b'.market
        ⟨n, w.clock, val.summary.eventsSubTreeRoot, val.summary.updateStats.minTimestamp,
          dailyScoresPda mockOracleId val.summary.updateStats.minTimestamp, wallet⟩ := by
  have hlength : (val.statsToProve.map (·.stat.value)).length = m.legs.length := by
    rw [hstored.legs.length_eq, ← hval.legs, List.length_map, List.length_map]
  obtain ⟨combo, hcombo, hholds⟩ := (stored_verdict hstored honce hlength n).mpr hn
  obtain ⟨houtcomes, hvalid⟩ := reachable_spec hw hb
  have hvalid := hvalid spec hspec
  simp only [ComboSpec.validate, bind_eq_ok, require_eq_ok] at hvalid
  obtain ⟨_, ⟨-, hsmall⟩, _, hcount, -⟩ := hvalid
  have hauth := hval.authenticated (hsmall.trans (by decide))
    ((Catalogue.stored_readsOnce hstored).mp honce combo (List.mem_of_getElem? hcombo)) hholds
  have hverdict := buildAndVerifyV3_of_authenticated (m := b.market) hcombo hval.fixture
    (by simpa [toPayloadV3, Function.comp_def] using hval.legs) hauth
  have hbound : n < b.market.outcomes.length := by
    rw [houtcomes, ← hcount]
    exact (List.getElem?_eq_some_iff.mp hcombo).1
  obtain ⟨donated, hsound⟩ := reachable_sound hw hb
  have hstamped := reachable_stamped hw
  have hchecks : SettleChecks (mockOracle H) w
      ⟨wallet, k, mockOracleId, dailyRootsPda mockOracleId built.epochDay⟩ b n :=
    ⟨⟨hstamped.pinned k b hb, rfl, hst, hbound⟩, hb, hsign⟩
  have haccepted : buildAndVerifyV3 (mockOracle H) w.rootsView (mockOracle H).programId
      (dailyRootsPda mockOracleId built.epochDay) b.market spec n built.proof = .ok true := by
    rw [hproof, hroots]
    exact hverdict
  obtain ⟨w', hw'⟩ := settleMarketV3_succeeds hchecks hspec (hstamped.spec k b spec hb hspec) htype
    haccepted (recordSettlement_succeeds hsound.pools.fits hsound.pools.feeBps)
  obtain ⟨b₁, spec₁, market, es, hb₁, -, -, -, -, hr, rfl⟩ := settleMarketV3_ok hw'
  obtain rfl := Option.some.inj (hb.symm.trans hb₁)
  refine ⟨_, _, hw', World.setBook_book?_self, ?_⟩
  have hrecorded := recordSettlement_ok hr
  rw [hproof, hroots] at hrecorded
  exact hrecorded

/-- A locked market of the catalogue under truthful roots: from any response that
verifies the keeper builds a proof and claims an outcome, the program accepts it
and writes that outcome, no other outcome is true, and every run from here that
settles the market, whoever does it, settles it so. -/
theorem keeper_settles (hH : CollisionFree H) {w₀ : World D} (h₀ : Genesis w₀)
    (hroots : HonestRoots H facts w₀) {is : List (Instruction D)}
    (his : ∀ i ∈ is, PublishesTruth H facts i)
    {markets : List MarketTypeDef} (hcatalogue : catalogue = .ok markets) (hm : m ∈ markets)
    (hb : ((machine (mockOracle H)).run w₀ is).book? k = some b) (hst : b.market.status = .locked)
    (htype : b.market.marketType = m.type) (hspec : b.comboSpec = some spec)
    (hstored : Stored m spec)
    (hcounts : ∀ leg ∈ spec.legs, 0 ≤ (facts b.market.fixtureId leg).toInt)
    (hval : Verifies H ((machine (mockOracle H)).run w₀ is) b.market.fixtureId spec.legs val)
    {wallet : Pubkey} (hsign : wallet.canSign = true) :
    ∃ built, ∃ n : ℕ, buildV3Proof val m = .ok built ∧
      claimedOutcomeFor m (provenValues built.values) = n ∧
      (∃ w' b', step (mockOracle H) ((machine (mockOracle H)).run w₀ is)
        (settleMarketV3 wallet k n built) = .ok w' ∧ w'.book? k = some b' ∧
        b'.market.winningOutcome = n ∧
        b'.market.status = if b.market.pool n = 0 then .cancelled else .settled) ∧
      (∀ i, TrueOutcome facts b i ↔ i = n) ∧
      ∀ js : List (Instruction D), (∀ i ∈ js, PublishesTruth H facts i) → ∀ b',
        ((machine (mockOracle H)).run w₀ (is ++ js)).book? k = some b' →
        b'.market.status = .settled → b'.market.winningOutcome = n := by
  have hw : Reachable (mockOracle H) ((machine (mockOracle H)).run w₀ is) := ⟨w₀, is, h₀, rfl⟩
  obtain ⟨markets₁, hmarkets₁, hpass⟩ := Catalogue.catalogue_passes
  obtain rfl := Except.ok.inj (hcatalogue.symm.trans hmarkets₁)
  obtain ⟨hsized, honce⟩ := (Catalogue.assertCatalogue_ok.mp hpass).2.2 m hm
  obtain ⟨markets₂, hmarkets₂, hones⟩ := Catalogue.catalogue_one
  obtain rfl := Except.ok.inj (hcatalogue.symm.trans hmarkets₂)
  have hcompound : comboMarketTypeMin ≤ b.market.marketType := htype ▸ hsized.compound
  have hhonest := (run_trueResults hH h₀ hroots his).roots
  have hvalues := hval.facts_eq hH hhonest
  have hne : spec.legs ≠ [] := by
    refine List.length_pos_iff.mp ?_
    have := hsized.legs.1
    rw [hstored.legs.length_eq] at this
    omega
  obtain ⟨built, hbuilt, hproof, hbuiltValues, hday⟩ := buildV3Proof_ok hstored hne hval.legs
  obtain ⟨n, hclaimed, hunique⟩ := claimed_unique honce (hones m hm)
    (by rw [List.length_map, hstored.legs.length_eq]) (List.forall_mem_map.mpr hcounts)
  have htrue : ∀ i, TrueOutcome facts b i ↔ i = n := fun i =>
    (trueOutcome_iff hstored honce hcompound hspec i).trans (hunique i)
  obtain ⟨w', b', hs, hb', hrecorded⟩ := settleMarketV3_accepted hw hb hst hstored honce hcompound
    hspec hval hproof hday (hvalues ▸ (hunique n).mpr rfl) hsign
  refine ⟨built, n, hbuilt, by rw [hbuiltValues, hvalues, hclaimed], ⟨w', b', hs, hb', ?_, ?_⟩,
    htrue, fun js hjs b'' hb'' hst'' => ?_⟩
  · rw [hrecorded.keeps]
  · rcases hrecorded.result with ⟨h0, hstatus, -⟩ | ⟨hpos, hstatus, -⟩
    · rw [if_pos h0, hstatus]
    · rw [if_neg hpos.ne', hstatus]
  · have hall : ∀ i ∈ is ++ js, PublishesTruth H facts i := fun i hi =>
      (List.mem_append.mp hi).elim (his i) (hjs i)
    exact (htrue _).mp (run_settles_true hH h₀ hroots hall hb (by simp [hst]) hb'' hst'')

/-! ## The match result of fixture 7 -/

/-- A market of the match result, with the outcome specs its creation fills in. -/
def resultParams : MarketParams :=
  ⟨7, 28, List.replicate 3 ⟨1, 100, false, 0, 0, none, .equalTo, 0⟩, 500, 100, 50, .key 21⟩

def resultMarket : Pubkey := sampleContext.marketKey resultParams

/-- Created with its spec, staked on by one wallet, and locked after its day was
published. -/
def resultRun : List (Instruction (List UInt8)) :=
  fundWallets ++ [.initializeMarket sampleContext resultParams,
    .initializeComboSpec ⟨.key 20, resultMarket⟩ Catalogue.matchResultSpec.legs
      Catalogue.matchResultSpec.outcomes,
    .placeBet ⟨.key 12, resultMarket, .key 2, .vault resultMarket⟩ 0 500,
    publishSummary 0 (summaryOf 7 0), .setClock 100, .lockMarket ⟨resultMarket, .key 30⟩]

def resultWorld : World (List UInt8) :=
  (machine (mockOracle plainHash)).run (emptyWorld (List UInt8)) resultRun

theorem resultRun_publishes : ∀ i ∈ resultRun, PublishesTruth plainHash sampleFacts i := by
  simp only [resultRun, fundWallets, List.cons_append, List.nil_append, List.forall_mem_cons,
    List.not_mem_nil, false_implies, implies_true, and_true]
  exact ⟨trivial, trivial, trivial, trivial, trivial, trivial, trivial, trivial, trivial, trivial,
    summaryOf_truthful 7 0, trivial, trivial⟩

theorem resultWorld_book : (resultWorld.book? resultMarket).map (fun b => (b.market.status,
    b.market.marketType, b.market.fixtureId, b.comboSpec)) = some (.locked, 28, 7,
      some ⟨resultMarket, Catalogue.matchResultSpec.legs, Catalogue.matchResultSpec.outcomes⟩) := by
  decide +kernel

theorem response_verifies :
    Verifies plainHash resultWorld 7 [⟨1, 100⟩, ⟨2, 100⟩] (responseFor (summaryOf 7 0)) where
  fixture := rfl
  legs := rfl
  event := rfl
  indices := rfl
  leaves := by decide +kernel
  roots := by
    refine ⟨⟨0, leafHash plainHash (borshSummary plainHash (summaryOf 7 0))⟩, ⟨?_, ?_⟩, ?_⟩
    · decide +kernel
    · decide +kernel
    · decide +kernel

theorem keeper_settles_result : ∃ built, ∃ n : ℕ,
    buildV3Proof (responseFor (summaryOf 7 0)) matchResult = .ok built ∧
    claimedOutcomeFor matchResult (provenValues built.values) = n ∧
    ∃ w', step (mockOracle plainHash) resultWorld (settleMarketV3 (.key 30) resultMarket n built) =
      .ok w' := by
  obtain ⟨b, hb, he⟩ := Option.map_eq_some_iff.mp resultWorld_book
  simp only [Prod.mk.injEq] at he
  obtain ⟨markets, hmarkets, -⟩ := Catalogue.catalogue_passes
  have hmem : matchResult ∈ markets := by
    simp only [catalogue, bind_eq_ok, pure_eq_ok] at hmarkets
    obtain ⟨_, -, _, -, _, -, _, -, rfl⟩ := hmarkets
    exact List.mem_cons_self
  have hfixture := he.2.2.1
  have hval : Verifies plainHash resultWorld b.market.fixtureId [⟨1, 100⟩, ⟨2, 100⟩]
      (responseFor (summaryOf 7 0)) := by
    rw [hfixture]
    exact response_verifies
  obtain ⟨built, n, hbuilt, hclaimed, ⟨w', b', hs, -⟩, -⟩ := keeper_settles
    plainHash_collisionFree emptyWorld_genesis emptyWorld_honestRoots resultRun_publishes hmarkets
    hmem hb he.1 he.2.1 he.2.2.2 ⟨Catalogue.matchResult_stored.legs,
      Catalogue.matchResult_stored.outcomes⟩ (by rw [hfixture]; decide +kernel)
    hval (show (Pubkey.key 30).canSign = true from rfl)
  exact ⟨built, n, hbuilt, hclaimed, w', hs⟩

end ProofBook.V3Proof
