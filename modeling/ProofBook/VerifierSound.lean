import ProofBook.Verifier

/-!
# What a verified settlement means

The oracle authenticates whatever statement the response makes and evaluates the
predicate on its values by position. Neither verifier compares the fixture or
the stats of the response with those of the chain. On a response that names
them, a verified settlement is a true one, and the program would accept it
again; on any other it is not about the settlement at all.
-/
namespace ProofBook.VerifierSound
open Addresses OracleWire State Checked Coverage Merkle OracleAdapter MockOracle OracleSound
open TokenLedger Totals PayoutMath Chain Program Runs Steps StepCases Solvency MarketRuns
open Instructions.Betting Instructions.Settlement Binding Verifier

variable {D : Type}

/-! ## Markets of a reachable world -/

section Stamped
variable [Inhabited D] {O : OracleProgram D} {w w' : World D} {k : Pubkey} {b : Book D}

/-- Every market is pinned to the oracle compiled in, and a spec names its
market. -/
structure Stamped (O : OracleProgram D) (w : World D) : Prop where
  wellFormed : WellFormed w
  pinned : ∀ k b, w.book? k = some b → b.market.oracleProgram = O.programId
  spec : ∀ k b s, w.book? k = some b → b.comboSpec = some s → s.market = k

theorem Stamped.step {i : Instruction D} (h : Stamped O w) (hs : step O w i = .ok w') :
    Stamped O w' where
  wellFormed := WellFormed.step h.wellFormed hs
  pinned k b' hb' := by
    cases hb : w.book? k with
    | none =>
        obtain ⟨ctx, p, -, -, -, -, rfl, -⟩ := step_book_new hs hb hb'
        rfl
    | some b =>
        obtain ⟨b₁, x, y, hb₁, hstep, -⟩ := step_book h.wellFormed hs hb
        obtain rfl := Option.some.inj (hb₁.symm.trans hb')
        rw [hstep.sameTerms.oracleProgram]
        exact h.pinned k b hb
  spec k b' s hb' hspec := by
    cases hb : w.book? k with
    | none =>
        obtain ⟨ctx, p, -, -, -, -, rfl, -⟩ := step_book_new hs hb hb'
        cases hspec
    | some b =>
        obtain ⟨b₁, x, y, hb₁, hstep, -⟩ := step_book h.wellFormed hs hb
        obtain rfl := Option.some.inj (hb₁.symm.trans hb')
        cases hstep with
        | attach hk _ => exact Option.some.inj hspec ▸ hk
        | _ => exact h.spec k b s hb hspec

theorem reachable_stamped (hw : Reachable O w) : Stamped O w :=
  hw.invariant
    (fun w h => ⟨Genesis.wellFormed h, fun k b hb => by simp [World.book?, h.books] at hb,
      fun k b s hb => by simp [World.book?, h.books] at hb⟩)
    fun _ _ _ h hs => h.step hs

end Stamped

theorem recordSettlement_succeeds {m : Market D} (hfits : m.totalPool < u64Size)
    (hfee : m.feeBps ≤ maxFeeBps) (r : Receipt D) : ∃ m', recordSettlement m r = .ok m' := by
  unfold recordSettlement
  split_ifs
  · exact ⟨_, rfl⟩
  · exact ⟨_, by rw [feeAmount_eq hfits hfee]; rfl⟩

/-! ## Statements about a settlement -/

/-- The market while it awaited its settlement. -/
def relocked (b : Book D) : Book D := { b with market := { b.market with status := .locked } }

/-- The predicate of the recorded winner holds on the values. -/
inductive WinnerHolds (b : Book D) (values : List Int32) : Prop
  | simple {spec : OutcomeSpec} (htype : b.market.marketType < comboMarketTypeMin)
      (hspec : b.market.outcomeSpec b.market.winningOutcome = .ok spec)
      (holds : OutcomeHolds values spec)
  | compound {combo : ComboSpec} {outcome : ComboOutcome}
      (htype : comboMarketTypeMin ≤ b.market.marketType) (hspec : b.comboSpec = some combo)
      (houtcome : combo.outcomes[b.market.winningOutcome]? = some outcome)
      (holds : ∀ p ∈ outcome.predicates, LegHolds values p)

variable [DecidableEq D]

/-- A settle call with the values, for the recorded winner, is accepted by the
program where the market awaits its settlement. -/
inductive SettlesAgain (H : Keccak D) (w : World D) (k : Pubkey) (b : Book D)
    (values : List Int32) : Prop
  | simple {spec : OutcomeSpec} {ctx : SettleMarket} {proof : SettlementProof D} {w' : World D}
      (hmarket : ctx.market = k)
      (hspec : b.market.outcomeSpec b.market.winningOutcome = .ok spec)
      (hvalues : (specStats spec proof).map (·.stat.value) = values)
      (accepted : settleMarket (mockOracle H) (w.setBook k (relocked b) []) ctx
        b.market.winningOutcome proof = .ok w')
  | compound {ctx : SettleMarket} {proof : SettlementProofV3 D} {w' : World D}
      (hmarket : ctx.market = k) (hvalues : proof.leafValues = values)
      (accepted : settleMarketV3 (mockOracle H) (w.setBook k (relocked b) []) ctx
        b.market.winningOutcome proof = .ok w')

/-- What the oracle authenticated is about this settlement. -/
structure AboutSettlement (H : Keccak D) (w : World D) (k : Pubkey) (b : Book D)
    (legs : List StatLeg) (p : StatValidationInputV3 D) : Prop where
  fixture : p.fixtureSummary.fixtureId = b.market.fixtureId
  roots : ∃ roots, RootsOf w.rootsView (dailyScoresPda mockOracleId p.ts) p.ts roots ∧
    CommitsTo H roots.root (borshSummary H p.fixtureSummary)
  stats : ∀ l ∈ p.leaves, CommitsTo H p.fixtureSummary.eventsSubTreeRoot (borshScoreStat l.stat)
  legs : p.leaves.map (fun l => statLeg l.stat) = legs
  holds : WinnerHolds b (p.leaves.map (·.stat.value))
  settles : SettlesAgain H w k b (p.leaves.map (·.stat.value))

/-- The response names the fixture of the market and, in order, the stats of its
legs. -/
def Names (b : Book D) (legs : List StatLeg) (val : ProofResponse D) : Prop :=
  val.summary.fixtureId = b.market.fixtureId ∧
    val.statsToProve.map (fun l => statLeg l.stat) = legs

/-- The answer to the request a verifier makes. -/
def Serves (api : Api D) (b : Book D) (legs : List StatLeg) (val : ProofResponse D) : Prop :=
  ∃ seq, findFinalisedSeq api b.market.fixtureId = some seq ∧
    api.statValidationV3 b.market.fixtureId seq (legs.map (·.key)) = some val

variable {H : Keccak D} {w : World D} {k : Pubkey} {b : Book D} {legs : List StatLeg}
  {strategy : Option NDimensionalStrategy} {api : Api D} {val : ProofResponse D}

/-! ## What the verifiers checked -/

theorem simulate_iff {view : RootsView D} {roots : Pubkey} {payload : StatValidationInputV3 D} :
    simulate H view roots (some payload) strategy = true ↔
      ∃ s, strategy = some s ∧ validateStatV3 H view roots payload s = .ok true := by
  cases strategy with
  | none => simp [simulate]
  | some s =>
      cases h : validateStatV3 H view roots payload s with
      | error e => simp [simulate, h]
      | ok verdict => simp [simulate, h]

/-- The oracle accepted the payload with the strategy of the chain. -/
def Accepted (H : Keccak D) (w : World D) (b : Book D) (legs : List StatLeg)
    (val : ProofResponse D) : Prop :=
  b.market.status = .settled ∧ ∃ s, readPredicate b = some (legs, some s) ∧
    validateStatV3 H w.rootsView (dailyScoresPda mockOracleId (toPayloadV3 val).ts)
      (toPayloadV3 val) s = .ok true

theorem verifyProof_verified {fixtureId : Int64} {statKeys : List UInt32} {res : ProofVerdict}
    (h : verifyProof H w api fixtureId statKeys strategy false = some res)
    (hv : res.verified = true) :
    ∃ seq val, findFinalisedSeq api fixtureId = some seq ∧
      api.statValidationV3 fixtureId seq statKeys = some val ∧
      simulate H w.rootsView (dailyScoresPda mockOracleId (toPayloadV3 val).ts)
        (some (toPayloadV3 val)) strategy = true := by
  simp only [verifyProof, Option.bind_eq_bind, Option.bind_eq_some_iff] at h
  obtain ⟨seq, hseq, val, hval, roots, -, h⟩ := h
  unfold fetchProofV3 at hval
  split_ifs at hval
  obtain rfl := Option.some.inj h
  exact ⟨seq, val, hseq, hval, hv⟩

theorem verifySettlement_accepted
    (h : (verifySettlement H w api k false).verified = true) :
    ∃ b legs val, w.book? k = some b ∧ Serves api b legs val ∧ Accepted H w b legs val := by
  unfold verifySettlement at h
  cases hb : w.book? k with
  | none => simp [hb] at h
  | some b =>
      by_cases hst : b.market.status = .settled
      · cases hread : readPredicate b with
        | none => simp [hb, hst, hread] at h
        | some read =>
            obtain ⟨legs, strategy⟩ := read
            cases hproof : verifyProof H w api b.market.fixtureId (legs.map (·.key)) strategy
              false with
            | none => simp [hb, hst, hread, hproof] at h
            | some res =>
                have hv : res.verified = true := by simpa [hb, hst, hread, hproof] using h
                obtain ⟨seq, val, hseq, hval, hsim⟩ := verifyProof_verified hproof hv
                obtain ⟨s, rfl, hs⟩ := simulate_iff.mp hsim
                exact ⟨b, legs, val, rfl, ⟨seq, hseq, hval⟩, hst, s, hread, hs⟩
      · simp [hb, hst] at h

omit [DecidableEq D] in
theorem buildV3Payload_eq {payload : StatValidationInputV3 D}
    (h : buildV3Payload val = some payload) : payload = toPayloadV3 val := by
  unfold buildV3Payload at h
  split_ifs at h
  exact (Option.some.inj h).symm

theorem verifyReceipt_accepted
    (h : (verifyReceipt H w api k false).any (·.verified) = true) :
    ∃ b legs val, w.book? k = some b ∧ Serves api b legs val ∧ Accepted H w b legs val := by
  unfold verifyReceipt at h
  cases hb : w.book? k with
  | none => simp [hb] at h
  | some b =>
      by_cases hst : b.market.status = .settled
      · cases hread : readPredicate b with
        | none => simp [hb, hst, hread] at h
        | some read =>
            obtain ⟨legs, strategy⟩ := read
            simp only [hb, hst, hread, ne_eq, not_true_eq_false, if_false] at h
            cases hfetch : fetchReceiptProof api b.market.fixtureId (legs.map (·.key)) with
            | none => split_ifs at h <;> simp [hfetch] at h
            | some val =>
                cases hhashes : val.multiproof.hashes with
                | none => split_ifs at h <;> simp [hfetch, hhashes] at h
                | some hashes =>
                    cases hpayload : buildV3Payload val with
                    | none => split_ifs at h <;> simp [hfetch, hhashes, hpayload] at h
                    | some payload =>
                        obtain rfl := buildV3Payload_eq hpayload
                        cases hsim : simulate H w.rootsView
                          (dailyRootsPda (epochDayOf val.summary.updateStats.minTimestamp))
                          (some (toPayloadV3 val)) strategy with
                        | false => split_ifs at h <;> simp [hfetch, hhashes, hpayload, hsim] at h
                        | true =>
                            obtain ⟨s, rfl, hs⟩ := simulate_iff.mp hsim
                            obtain ⟨seq, hseq, hval⟩ := Option.bind_eq_some_iff.mp hfetch
                            exact ⟨b, legs, val, rfl, ⟨seq, hseq, hval⟩, hst, s, hread, hs⟩
      · simp [hb, hst] at h

/-! ## On a response that names the settlement -/

omit [DecidableEq D] in
theorem strategyFromLegacy_eq {spec : OutcomeSpec} {s : NDimensionalStrategy}
    (h : strategyFromLegacy spec (specLegs spec).length = some s) :
    s = discreteStrategy (specPredicates spec) := by
  cases hb : spec.hasStatB with
  | false =>
      simp only [strategyFromLegacy, specLegs, hb] at h
      simpa [specPredicates, hb] using h.symm
  | true =>
      simp only [strategyFromLegacy, specLegs, hb, if_true, List.length_cons, List.length_nil,
        Option.map_eq_some_iff] at h
      obtain ⟨op, hop, rfl⟩ := h
      simp [specPredicates, hb, hop]

omit [DecidableEq D] in
/-- The legs and the strategy are those a settle call builds. -/
theorem readPredicate_some {s : NDimensionalStrategy} (h : readPredicate b = some (legs, some s)) :
    (b.market.marketType < comboMarketTypeMin ∧
      ∃ spec, b.market.outcomeSpec b.market.winningOutcome = .ok spec ∧ legs = specLegs spec ∧
        s = discreteStrategy (specPredicates spec)) ∨
    (comboMarketTypeMin ≤ b.market.marketType ∧ ∃ combo outcome, b.comboSpec = some combo ∧
      combo.outcomes[b.market.winningOutcome]? = some outcome ∧ legs = combo.legs ∧
        s = discreteStrategy (outcome.predicates.map LegPredicate.toStat)) := by
  unfold readPredicate at h
  split_ifs at h with htype
  · simp only [Option.bind_eq_bind, Option.bind_eq_some_iff, Option.some.injEq,
      Prod.mk.injEq] at h
    obtain ⟨combo, hcombo, outcome, houtcome, rfl, rfl⟩ := h
    exact .inr ⟨htype, combo, outcome, hcombo, houtcome, rfl, rfl⟩
  · simp only [Option.bind_eq_bind, Option.bind_eq_some_iff, Option.some.injEq,
      Prod.mk.injEq] at h
    obtain ⟨outcome, houtcome, rfl, hs⟩ := h
    refine .inl ⟨by omega, outcome.spec, ?_, rfl, strategyFromLegacy_eq hs⟩
    simp [Market.outcomeSpec, houtcome, demand]

/-- What the oracle checked of an accepted payload. -/
structure Authenticated (H : Keccak D) (w : World D) (p : StatValidationInputV3 D)
    (s : NDimensionalStrategy) : Prop where
  roots : ∃ roots, RootsOf w.rootsView (dailyScoresPda mockOracleId p.ts) p.ts roots ∧
    verifyFixture H roots.root p.fixtureSummary p.fixtureProof p.mainTreeProof = .ok .unit
  event : p.eventStatRoot = p.fixtureSummary.eventsSubTreeRoot
  indices : p.leaves.length = p.leafIndices.length
  leaves : verifyMultiproof H (p.leaves.map fun l => leafHash H (borshScoreStat l.stat))
    p.leafIndices p.multiproofHashes p.eventStatRoot = .ok .unit
  verdict : evaluateStrategy (p.leaves.map (·.stat)) s = .ok true

theorem authenticated {p : StatValidationInputV3 D} {s : NDimensionalStrategy}
    (h : validateStatV3 H w.rootsView (dailyScoresPda mockOracleId p.ts) p s = .ok true) :
    Authenticated H w p s := by
  simp only [validateStatV3, bind_eq_ok, require_eq_ok, loadRoots_ok] at h
  obtain ⟨roots, hroots, _, hevent, _, hindices, _, hleaves, _, hsummary, hverdict⟩ := h
  exact ⟨⟨roots, hroots, hsummary⟩, hevent, hindices, hleaves, hverdict⟩

theorem verifyStatLeaves_of_paths {root : D} {leaves : List (StatLeaf D)}
    (h : ∀ l ∈ leaves, foldProof H (leafHash H (borshScoreStat l.stat)) l.statProof = root) :
    verifyStatLeaves H root leaves = .ok .unit := by
  induction leaves with
  | nil => rfl
  | cons l ls ih =>
      obtain ⟨hl, hls⟩ := List.forall_mem_cons.mp h
      simp [verifyStatLeaves, verifyStatLeaf, require, hl, ih hls, bind, Except.bind]

/-- The proof of the single-market path: a path for each of the one or two
stats. -/
abbrev pathProof (p : StatValidationInputV3 D) (spec : OutcomeSpec) (statA statB : StatLeaf D) :
    SettlementProof D :=
  ⟨p.ts, p.fixtureSummary, p.fixtureProof, p.mainTreeProof, p.eventStatRoot, statA.stat.value,
    statA.statProof, spec.hasStatB, statB.stat.value, statB.statProof⟩

/-- The proof of the compound path: the multiproof and the values. -/
abbrev valueProof (p : StatValidationInputV3 D) : SettlementProofV3 D :=
  ⟨p.ts, p.fixtureSummary, p.fixtureProof, p.mainTreeProof, p.eventStatRoot,
    p.leaves.map (·.stat.value), p.multiproofHashes, p.leafIndices⟩

omit [DecidableEq D] in
theorem exists_paths {root : D} {stats : List ScoreStat}
    (h : ∀ stat ∈ stats, Commits (scheme H) root (borshScoreStat stat)) :
    ∃ leaves : List (StatLeaf D), leaves.map (·.stat) = stats ∧
      ∀ l ∈ leaves, foldProof H (leafHash H (borshScoreStat l.stat)) l.statProof = root := by
  induction stats with
  | nil => exact ⟨[], rfl, by simp⟩
  | cons stat stats ih =>
      obtain ⟨⟨d, i, hat⟩, hstats⟩ := List.forall_mem_cons.mp h
      obtain ⟨proof, hproof⟩ := At.foldProof hat
      obtain ⟨leaves, hleaves, hpaths⟩ := ih hstats
      exact ⟨⟨stat, proof⟩ :: leaves, congrArg (stat :: ·) hleaves,
        List.forall_mem_cons.mpr ⟨hproof, hpaths⟩⟩

omit [DecidableEq D] in
/-- A leaf of a leg is the leg's leaf with the leaf's value. -/
theorem statLeaf_eq {l : StatLeaf D} {key : UInt32} {period : Int32}
    (h : statLeg l.stat = ⟨key, period⟩) : ⟨⟨key, l.stat.value, period⟩, l.statProof⟩ = l := by
  obtain ⟨⟨_, _, _⟩, _⟩ := l
  simp only [statLeg, StatLeg.mk.injEq] at h
  obtain ⟨rfl, rfl⟩ := h
  rfl

omit [DecidableEq D] in
theorem specStats_pathProof (p : StatValidationInputV3 D) {spec : OutcomeSpec}
    {leaves : List (StatLeaf D)} (h : leaves.map (fun l => statLeg l.stat) = specLegs spec) :
    ∃ statA statB, specStats spec (pathProof p spec statA statB) = leaves := by
  cases hb : spec.hasStatB with
  | false =>
      simp only [specLegs, hb, Bool.false_eq_true, if_false] at h
      obtain ⟨a, rfl, ha⟩ := List.map_eq_singleton_iff.mp h
      exact ⟨a, a, by simp [specStats, hb, statLeaf_eq ha]⟩
  | true =>
      simp only [specLegs, hb, if_true, List.map_eq_cons_iff, List.map_eq_nil_iff] at h
      obtain ⟨a, _, rfl, ha, b, _, rfl, hb', rfl⟩ := h
      exact ⟨a, b, by simp [specStats, hb, statLeaf_eq ha, statLeaf_eq hb']⟩

omit [DecidableEq D] in
theorem legLeaves_stats (leaves : List (StatLeaf D)) :
    (legLeaves (D := D) (leaves.map fun l => statLeg l.stat)
      (leaves.map (·.stat.value))).map (·.stat) = leaves.map (·.stat) := by
  induction leaves with
  | nil => rfl
  | cons l ls ih => exact congrArg (l.stat :: ·) ih

/-- The single-market check accepts the statement again. -/
theorem buildAndVerify_of_authenticated {p : StatValidationInputV3 D} {m : Market D} {n : ℕ}
    {spec : OutcomeSpec} (hspec : m.outcomeSpec n = .ok spec)
    (hfixture : p.fixtureSummary.fixtureId = m.fixtureId)
    (hlegs : p.leaves.map (fun l => statLeg l.stat) = specLegs spec)
    (h : Authenticated H w p (discreteStrategy (specPredicates spec))) :
    ∃ proof : SettlementProof D,
      (specStats spec proof).map (·.stat.value) = p.leaves.map (·.stat.value) ∧
      buildAndVerify (mockOracle H) w.rootsView mockOracleId (dailyScoresPda mockOracleId p.ts) m n
        proof = .ok true := by
  obtain ⟨roots, hroots, hsummary⟩ := h.roots
  have hcommits : ∀ stat ∈ p.leaves.map (·.stat),
      Commits (scheme H) p.eventStatRoot (borshScoreStat stat) :=
    List.forall_mem_map.mpr (verifyMultiproof_commits h.leaves h.indices)
  obtain ⟨leaves, hstats, hpaths⟩ := exists_paths hcommits
  have hleaves : leaves.map (fun l => statLeg l.stat) = specLegs spec := by
    rw [← hlegs]
    simpa [Function.comp_def] using congrArg (List.map statLeg) hstats
  obtain ⟨statA, statB, hspecStats⟩ := specStats_pathProof p hleaves
  refine ⟨pathProof p spec statA statB, ?_, ?_⟩
  · rw [hspecStats]
    simpa [Function.comp_def] using congrArg (List.map (·.value)) hstats
  · simp only [buildAndVerify, invokeValidateStatV2_eq, validateStatV2, bind_eq_ok,
      mapError_eq_ok, require_eq_ok, loadRoots_ok]
    have hverified : verifyStatLeaves H p.eventStatRoot
        (specStats spec (pathProof p spec statA statB)) = .ok .unit := by
      rw [hspecStats]
      exact verifyStatLeaves_of_paths hpaths
    have hverdict : evaluateStrategy
        ((specStats spec (pathProof p spec statA statB)).map (·.stat))
        (discreteStrategy (specPredicates spec)) = .ok true := by
      rw [hspecStats, hstats]
      exact h.verdict
    exact ⟨spec, hspec, .unit, hfixture, .unit, rfl, .unit, trivial, roots, hroots, .unit, h.event,
      .unit, hverified, .unit, hsummary, hverdict⟩

/-- The compound check accepts the statement again. -/
theorem buildAndVerifyV3_of_authenticated {p : StatValidationInputV3 D} {m : Market D} {n : ℕ}
    {combo : ComboSpec} {outcome : ComboOutcome} (houtcome : combo.outcomes[n]? = some outcome)
    (hfixture : p.fixtureSummary.fixtureId = m.fixtureId)
    (hlegs : p.leaves.map (fun l => statLeg l.stat) = combo.legs)
    (h : Authenticated H w p (discreteStrategy (outcome.predicates.map LegPredicate.toStat))) :
    buildAndVerifyV3 (mockOracle H) w.rootsView mockOracleId (dailyScoresPda mockOracleId p.ts) m
      combo n (valueProof p) = .ok true := by
  obtain ⟨roots, hroots, hsummary⟩ := h.roots
  have hstats : (legLeaves (D := D) combo.legs (p.leaves.map (·.stat.value))).map (·.stat) =
      p.leaves.map (·.stat) := hlegs ▸ legLeaves_stats p.leaves
  have hlength : p.leaves.length = combo.legs.length := by simp [← hlegs]
  have hhashes : (legLeaves (D := D) combo.legs (p.leaves.map (·.stat.value))).map
      (fun l => leafHash H (borshScoreStat l.stat)) =
        p.leaves.map fun l => leafHash H (borshScoreStat l.stat) := by
    simpa [Function.comp_def] using
      congrArg (List.map fun s => leafHash H (borshScoreStat s)) hstats
  simp only [buildAndVerifyV3, buildAndVerifyV3Legs, invokeValidateStatV3_eq, validateStatV3,
    legPayload, bind_eq_ok, mapError_eq_ok, require_eq_ok, demand_eq_ok, loadRoots_ok,
    hstats, hhashes, List.length_map]
  exact ⟨outcome, houtcome, .unit, hfixture, .unit, hlength, .unit, h.indices ▸ hlength, .unit,
    trivial, roots, hroots, .unit, h.event, .unit, by simp [legLeaves, ← hlength, h.indices], .unit,
    h.leaves, .unit, hsummary, h.verdict⟩

/-- What a settled market of a reachable world offers a second settlement. -/
theorem relocked_checks [Inhabited D] (hw : Reachable (mockOracle H) w) (hb : w.book? k = some b)
    (hst : b.market.status = .settled) (ts : Int64) :
    SettleChecks (mockOracle H) (w.setBook k (relocked b) [])
      ⟨.key 1, k, mockOracleId, dailyScoresPda mockOracleId ts⟩ (relocked b)
      b.market.winningOutcome ∧
    ∀ r : Receipt D, ∃ m, recordSettlement (relocked b).market r = .ok m := by
  obtain ⟨donated, hsound⟩ := reachable_sound hw hb
  refine ⟨⟨⟨(reachable_stamped hw).pinned k b hb, rfl, rfl, (hsound.settled hst).outcome⟩,
    World.setBook_book?_self, rfl⟩, fun r => ?_⟩
  exact recordSettlement_succeeds hsound.pools.fits hsound.pools.feeBps r

/-- An accepted response that names the settlement is about it. -/
theorem accepted_about [Inhabited D] (hH : CollisionFree H) (hw : Reachable (mockOracle H) w)
    (hb : w.book? k = some b) (h : Accepted H w b legs val) (hn : Names b legs val) :
    AboutSettlement H w k b legs (toPayloadV3 val) := by
  obtain ⟨hst, s, hread, hv⟩ := h
  have ha := authenticated hv
  have hlegs : (toPayloadV3 val).leaves.map (fun l => statLeg l.stat) = legs := by
    simpa [toPayloadV3, Function.comp_def] using hn.2
  obtain ⟨roots, hroots, hsummary⟩ := ha.roots
  obtain ⟨hchecks, hrecord⟩ := relocked_checks hw hb hst (toPayloadV3 val).ts
  have hvalues : ((toPayloadV3 val).leaves.map (·.stat)).map (·.value) =
      (toPayloadV3 val).leaves.map (·.stat.value) := List.map_map ..
  have hstats : ∀ l ∈ (toPayloadV3 val).leaves, CommitsTo H
      (toPayloadV3 val).fixtureSummary.eventsSubTreeRoot (borshScoreStat l.stat) := fun l hl =>
    commitsTo hH (ha.event ▸ verifyMultiproof_commits ha.leaves ha.indices l hl)
  have about := AboutSettlement.mk (H := H) (w := w) (k := k) (b := b) hn.1
    ⟨roots, hroots, commitsTo hH (verifyFixture_commits hsummary)⟩ hstats hlegs
  rcases readPredicate_some hread with
    ⟨htype, spec, hspec, rfl, rfl⟩ | ⟨htype, combo, outcome, hcombo, houtcome, rfl, rfl⟩
  · obtain ⟨-, -, hverdict⟩ := evaluateStrategy_ok.mp ha.verdict
    rw [hvalues, statHolds_specPredicates] at hverdict
    obtain ⟨proof, hproof, haccepted⟩ := buildAndVerify_of_authenticated (m := (relocked b).market)
      hspec hn.1 hlegs ha
    obtain ⟨w', hw'⟩ := settleMarket_succeeds hchecks htype haccepted hrecord
    exact about (.simple htype hspec (hverdict.mp rfl)) (.simple rfl hspec hproof hw')
  · obtain ⟨-, -, hverdict⟩ := evaluateStrategy_ok.mp ha.verdict
    rw [hvalues, List.forall_mem_map] at hverdict
    have haccepted := buildAndVerifyV3_of_authenticated (m := (relocked b).market) houtcome hn.1
      hlegs ha
    obtain ⟨w', hw'⟩ := settleMarketV3_succeeds hchecks hcombo
      ((reachable_stamped hw).spec k b combo hb hcombo) htype haccepted hrecord
    refine about (.compound htype hcombo houtcome fun p hp => ?_) (.compound rfl rfl hw')
    exact (statHolds_toStat _ p).mp (hverdict.mp rfl p hp)

theorem about_iff [Inhabited D] (hH : CollisionFree H) (hw : Reachable (mockOracle H) w)
    (hb : w.book? k = some b) (h : Accepted H w b legs val) :
    AboutSettlement H w k b legs (toPayloadV3 val) ↔ Names b legs val := by
  refine ⟨fun ha => ⟨ha.fixture, ?_⟩, accepted_about hH hw hb h⟩
  simpa [toPayloadV3, Function.comp_def] using ha.legs

/-- A market that either verifier calls verified, whatever the servers answered,
is proved by the answer exactly if the answer names it. -/
theorem verifier_sound_iff [Inhabited D] (hH : CollisionFree H)
    (hw : Reachable (mockOracle H) w) (k : Pubkey) (api : Api D) :
    ((verifySettlement H w api k false).verified = true → ∃ b legs val, w.book? k = some b ∧
      Serves api b legs val ∧ Accepted H w b legs val ∧
        (AboutSettlement H w k b legs (toPayloadV3 val) ↔ Names b legs val)) ∧
    ((verifyReceipt H w api k false).any (·.verified) = true → ∃ b legs val, w.book? k = some b ∧
      Serves api b legs val ∧ Accepted H w b legs val ∧
        (AboutSettlement H w k b legs (toPayloadV3 val) ↔ Names b legs val)) := by
  constructor
  · intro h
    obtain ⟨b, legs, val, hb, hval, ha⟩ := verifySettlement_accepted h
    exact ⟨b, legs, val, hb, hval, ha, about_iff hH hw hb ha⟩
  · intro h
    obtain ⟨b, legs, val, hb, hval, ha⟩ := verifyReceipt_accepted h
    exact ⟨b, legs, val, hb, hval, ha, about_iff hH hw hb ha⟩

/-! ## Goals of another fixture -/

def summaryOf (fixtureId : Int64) (ts : Int64) : ScoresBatchSummary (List UInt8) :=
  ⟨fixtureId, ⟨1, ts, ts⟩, goalsRoot⟩

/-- A day that holds the summary of one fixture. -/
def publishSummary (epochDay : UInt16) (summary : ScoresBatchSummary (List UInt8)) :
    Instruction (List UInt8) :=
  .publishDailyRoot epochDay (leafHash plainHash (borshSummary plainHash summary))

def stake (wallet outcomeIndex amount : ℕ) : Instruction (List UInt8) :=
  .placeBet ⟨.key (wallet + 10), sampleMarket, .key wallet, .vault sampleMarket⟩ outcomeIndex amount

def homeProof : SettlementProof (List UInt8) :=
  ⟨0, summaryOf 7 0, [], [], goalsRoot, 3,
    [⟨leafHash plainHash (borshScoreStat awayGoals), true⟩], true, 1,
    [⟨leafHash plainHash (borshScoreStat homeGoals), false⟩]⟩

/-- The market of fixture 7 is settled for the home side; the next day's root is
that of fixture 8. -/
def receiptRun : List (Instruction (List UInt8)) :=
  fundWallets ++ [.initializeMarket sampleContext sampleParams, stake 2 0 500, stake 4 1 200,
    publishSummary 0 (summaryOf 7 0), publishSummary 1 (summaryOf 8 86400000), .setClock 100,
    .lockMarket ⟨sampleMarket, .key 30⟩,
    .settleMarket ⟨.key 30, sampleMarket, .key 9, .dailyScores (.key 9) 0⟩ 0 homeProof]

def receiptWorld : World (List UInt8) :=
  (machine (mockOracle plainHash)).run (emptyWorld (List UInt8)) receiptRun

theorem receiptWorld_reachable : Reachable (mockOracle plainHash) receiptWorld :=
  ⟨_, receiptRun, emptyWorld_genesis, rfl⟩

def responseFor (summary : ScoresBatchSummary (List UInt8)) : ProofResponse (List UInt8) :=
  ⟨summary, none, none, goalsRoot, [⟨homeGoals, none⟩, ⟨awayGoals, none⟩], ⟨some [], [0, 1]⟩⟩

/-- Servers that answer every request with one proof. -/
def serverOf (summary : ScoresBatchSummary (List UInt8)) : Api (List UInt8) :=
  ⟨fun _ => some [⟨some 100, some 42⟩], fun _ _ _ => some (responseFor summary)⟩

theorem serverOf_response {summary : ScoresBatchSummary (List UInt8)} {b : Book (List UInt8)}
    {legs : List StatLeg} {val : ProofResponse (List UInt8)}
    (h : Serves (serverOf summary) b legs val) : val = responseFor summary := by
  obtain ⟨seq, -, hval⟩ := h
  exact (Option.some.inj hval).symm

theorem receiptWorld_fixture {b : Book (List UInt8)}
    (h : receiptWorld.book? sampleMarket = some b) : b.market.fixtureId = 7 := by
  have hfixture : (receiptWorld.book? sampleMarket).map (·.market.fixtureId) = some 7 := by
    decide +kernel
  simpa [h] using hfixture

theorem receiptWorld_legs {b : Book (List UInt8)} {legs : List StatLeg}
    {strategy : Option NDimensionalStrategy} (h : receiptWorld.book? sampleMarket = some b)
    (hread : readPredicate b = some (legs, strategy)) : legs = [⟨1, 100⟩, ⟨2, 100⟩] := by
  have hlegs : ((receiptWorld.book? sampleMarket).bind readPredicate).map (·.1) =
      some [⟨1, 100⟩, ⟨2, 100⟩] := by decide +kernel
  simpa [h, hread] using hlegs

/-- Honest servers: the receipt is verified and true. -/
theorem verifier_sound_iff_honest : ∃ b legs val, receiptWorld.book? sampleMarket = some b ∧
    Serves (serverOf (summaryOf 7 0)) b legs val ∧
      AboutSettlement plainHash receiptWorld sampleMarket b legs (toPayloadV3 val) := by
  obtain ⟨b, legs, val, hb, hval, ⟨-, s, hread, -⟩, hiff⟩ := (verifier_sound_iff
    plainHash_collisionFree receiptWorld_reachable sampleMarket (serverOf (summaryOf 7 0))).1
    (by decide +kernel)
  refine ⟨b, legs, val, hb, hval, hiff.mpr ?_⟩
  rw [serverOf_response hval, receiptWorld_legs hb hread]
  exact ⟨(receiptWorld_fixture hb).symm, rfl⟩

/-- Servers that answer with the goals of fixture 8: both verifiers call the
receipt of fixture 7 verified. -/
theorem verified_not_about :
    (verifySettlement plainHash receiptWorld (serverOf (summaryOf 8 86400000)) sampleMarket
      false).verified = true ∧
    (verifyReceipt plainHash receiptWorld (serverOf (summaryOf 8 86400000)) sampleMarket
      false).any (·.verified) = true ∧
    ¬ ∃ b legs val, receiptWorld.book? sampleMarket = some b ∧
      Serves (serverOf (summaryOf 8 86400000)) b legs val ∧
        AboutSettlement plainHash receiptWorld sampleMarket b legs (toPayloadV3 val) := by
  refine ⟨by decide +kernel, by decide +kernel, ?_⟩
  rintro ⟨b, legs, val, hb, hval, habout⟩
  have hfixture := habout.fixture
  rw [serverOf_response hval, receiptWorld_fixture hb] at hfixture
  exact absurd hfixture (by decide)

end ProofBook.VerifierSound
