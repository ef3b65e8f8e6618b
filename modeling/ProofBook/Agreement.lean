import ProofBook.VerifierSound
import ProofBook.Returns
import ProofBook.ComboRule

/-!
# Agreement on the result

If every root the oracle publishes commits to true values only, no proof, no
settler and no order of operations can settle a market on a false outcome or pay
a vault out on a false rule. Where one outcome is true at most, all runs that
settle a market settle it alike.
-/
namespace ProofBook.Agreement
open Addresses State Checked OracleWire OracleAdapter MockOracle OracleSound Merkle TokenLedger
open Totals Chain Program Runs Steps StepCases MarketRuns Lifecycle ComboRule Binding VerifierSound
open Instructions.Betting Instructions.Settlement Instructions.Payments Instructions.PropVaults

variable {D : Type}

/-- The final value of each stat of each fixture. -/
abbrev Facts := Int64 → StatLeg → Int32

/-- Whatever stat is committed to under a summary that the root commits to, its
value is the final one of that fixture. -/
def Truthful (H : Keccak D) (facts : Facts) (root : D) : Prop :=
  ∀ summary stat, CommitsTo H root (borshSummary H summary) →
    CommitsTo H summary.eventsSubTreeRoot (borshScoreStat stat) →
    stat.value = facts summary.fixtureId (statLeg stat)

/-- The roots accounts of a world hold truthful roots only. -/
def HonestRoots (H : Keccak D) (facts : Facts) (w : World D) : Prop :=
  ∀ account roots, w.rootsView account = some roots → Truthful H facts roots.root

/-- A root the operation publishes is truthful. -/
def PublishesTruth (H : Keccak D) (facts : Facts) : Instruction D → Prop
  | .publishDailyRoot _ root => Truthful H facts root
  | _ => True

/-- The outcome that a market's rule gives to the facts: by its own specs, or by
its compound spec from the compound types on. -/
def TrueOutcome (facts : Facts) (b : Book D) (outcome : ℕ) : Prop :=
  if b.market.marketType < comboMarketTypeMin then
    ∃ spec, b.market.outcomeSpec outcome = .ok spec ∧
      OutcomeHolds ((specLegs spec).map (facts b.market.fixtureId)) spec
  else
    ∃ spec combo, b.comboSpec = some spec ∧ spec.outcomes[outcome]? = some combo ∧
      ∀ p ∈ combo.predicates, LegHolds (spec.legs.map (facts b.market.fixtureId)) p

/-- Every predicate of a vault holds of the facts. -/
def RuleTrue (facts : Facts) (v : PropVault D) : Prop :=
  ∀ p ∈ v.predicates, LegHolds (v.legs.map (facts v.fixtureId)) p

/-- Two books of a market with one rule about one fixture. -/
structure SameRule (b b' : Book D) : Prop where
  fixtureId : b'.market.fixtureId = b.market.fixtureId
  marketType : b'.market.marketType = b.market.marketType
  specs : b'.market.outcomes.map (·.spec) = b.market.outcomes.map (·.spec)
  comboSpec : b'.comboSpec = b.comboSpec

theorem SameRule.refl (b : Book D) : SameRule b b := ⟨rfl, rfl, rfl, rfl⟩

theorem SameRule.trans {b b' b'' : Book D} (h : SameRule b b') (h' : SameRule b' b'') :
    SameRule b b'' :=
  ⟨h'.fixtureId.trans h.fixtureId, h'.marketType.trans h.marketType, h'.specs.trans h.specs,
    h'.comboSpec.trans h.comboSpec⟩

theorem SameRule.trueOutcome_iff {facts : Facts} {b b' : Book D} (h : SameRule b b')
    (outcome : ℕ) : TrueOutcome facts b' outcome ↔ TrueOutcome facts b outcome := by
  have hspec : b'.market.outcomeSpec outcome = b.market.outcomeSpec outcome := by
    have := congrArg (·[outcome]?) h.specs
    simp only [List.getElem?_map] at this
    simp only [Market.outcomeSpec, this]
  rw [TrueOutcome, TrueOutcome, hspec, h.fixtureId, h.marketType, h.comboSpec]

/-! ## One settlement -/

variable [DecidableEq D] {H : Keccak D} {facts : Facts} {w w' w₀ : World D} {k : Pubkey}
  {b b' : Book D} {v v' : PropVault D} {i : Instruction D}

omit [DecidableEq D] in
/-- Authentic stats under truthful roots carry the final values of their legs. -/
theorem authentic_values (hroots : HonestRoots H facts w) {ts fixtureId : Int64}
    {stats : List ScoreStat} {legs : List StatLeg}
    (h : Authentic H w.rootsView ts fixtureId stats) (hlegs : stats.map statLeg = legs) :
    stats.map (·.value) = legs.map (facts fixtureId) := by
  obtain ⟨roots, summary, ⟨hview, -⟩, hsummary, rfl, hstats⟩ := h
  rw [← hlegs, List.map_map]
  exact List.map_congr_left fun stat hs => hroots _ _ hview summary stat hsummary (hstats stat hs)

/-- A verdict on an outcome says that the outcome is true. -/
theorem verified_true (hH : CollisionFree H) (hroots : HonestRoots H facts w) {r : Receipt D}
    (h : Verified (mockOracle H) w k b i r) : TrueOutcome facts b r.outcome := by
  cases h with
  | v2 hk simple verdict =>
      obtain ⟨spec, stats, hspec, hauth, hlegs, hholds⟩ := buildAndVerify_binding hH verdict
      rw [TrueOutcome, if_pos simple]
      refine ⟨spec, hspec, ?_⟩
      rw [← authentic_values hroots hauth hlegs]
      exact hholds.mp rfl
  | v3 hk compound hs verdict =>
      simp only [buildAndVerifyV3, bind_eq_ok, demand_eq_ok] at verdict
      obtain ⟨combo, ho, hv⟩ := verdict
      obtain ⟨stats, hauth, hlegs, -, hholds⟩ := buildAndVerifyV3Legs_binding hH hv
      rw [TrueOutcome, if_neg (not_lt.mpr compound)]
      refine ⟨_, combo, hs, ho, ?_⟩
      rw [← authentic_values hroots hauth hlegs]
      exact hholds.mp rfl

/-- A vault's verdict is the truth of its rule. -/
theorem settleChecks_true (hH : CollisionFree H) (hroots : HonestRoots H facts w)
    {ctx : SettlePropVault} {proof : SettlementProofV3 D} {holds : Bool}
    (h : SettleChecks (mockOracle H) w ctx v proof holds) : holds = true ↔ RuleTrue facts v := by
  obtain ⟨stats, hauth, hlegs, -, hholds⟩ := buildAndVerifyV3Legs_binding hH h.verdict
  rw [hholds, authentic_values hroots hauth hlegs, RuleTrue]

/-! ## Runs -/

variable [Inhabited D]

omit [DecidableEq D] in
theorem step_rootsView {O : OracleProgram D} (h : step O w i = .ok w') (account : Pubkey)
    (roots : DailyScoresMerkleRoots D) (hr : w'.rootsView account = some roots) :
    w.rootsView account = some roots ∨ ∃ day, i = .publishDailyRoot day roots.root := by
  cases step_effect h with
  | @dailyRoot day root =>
      by_cases ha : account = .dailyScores O.programId day
      · subst ha
        simp only [World.rootsView, publishDailyRoot, AList.lookup_insert] at hr
        obtain rfl := Option.some.inj hr
        exact .inr ⟨day, rfl⟩
      · simp only [World.rootsView, publishDailyRoot, AList.lookup_insert_ne ha] at hr
        exact .inl hr
  | _ => exact .inl hr

omit [DecidableEq D] in
/-- From Locked on a market keeps its rule. -/
theorem step_sameRule {O : OracleProgram D} (hw : WellFormed w) (h : step O w i = .ok w')
    (hb : w.book? k = some b) (hst : b.market.status ≠ .opened) :
    ∃ b', w'.book? k = some b' ∧ SameRule b b' ∧ b'.market.status ≠ .opened := by
  obtain ⟨b', x, y, hb', hstep, -⟩ := step_book hw h hb
  have hterms := hstep.sameTerms
  have hcombo := (bookStep_comboSpec hstep).resolve_right fun ha => hst ha.2
  refine ⟨b', hb', ⟨hterms.fixtureId, hterms.marketType, hterms.specs, hcombo⟩, ?_⟩
  intro hopen
  have htrans := bookStep_transition hstep
  rw [hopen] at htrans
  generalize b.market.status = s at htrans hst
  cases htrans
  exact hst rfl

omit [DecidableEq D] in
theorem rule_lasts {O : OracleProgram D} (hw : WellFormed w) (hb : w.book? k = some b)
    (hst : b.market.status ≠ .opened) (is : List (Instruction D)) :
    ∃ b', ((machine O).run w is).book? k = some b' ∧ SameRule b b' := by
  have h := Machine.run_preserves (M := machine O) (P := fun s => WellFormed s ∧
    ∃ b', s.book? k = some b' ∧ SameRule b b' ∧ b'.market.status ≠ .opened) ?_
    ⟨hw, b, hb, .refl b, hst⟩ is
  · obtain ⟨-, b', hb', hsame, -⟩ := h
    exact ⟨b', hb', hsame⟩
  · rintro s i t ⟨hwf, b₁, hb₁, hsame, hst₁⟩ hs
    obtain ⟨b₂, hb₂, hsame₂, hst₂⟩ := step_sameRule hwf hs hb₁ hst₁
    exact ⟨WellFormed.step hwf hs, b₂, hb₂, hsame.trans hsame₂, hst₂⟩

/-- Results are true. -/
structure TrueResults (H : Keccak D) (facts : Facts) (w : World D) : Prop where
  wellFormed : WellFormed w
  roots : HonestRoots H facts w
  markets : ∀ k b, w.book? k = some b → b.market.status = .settled →
    TrueOutcome facts b b.market.winningOutcome
  propVaults : ∀ k v, w.propVault? k = some v → v.status = .paidOut → RuleTrue facts v

theorem step_market_true (hH : CollisionFree H) (hw : TrueResults H facts w)
    (h : step (mockOracle H) w i = .ok w') (hb' : w'.book? k = some b')
    (hst' : b'.market.status = .settled) : TrueOutcome facts b' b'.market.winningOutcome := by
  cases hb : w.book? k with
  | none =>
      obtain ⟨ctx, p, -, -, -, -, rfl, -⟩ := step_book_new h hb hb'
      cases hst'
  | some b =>
      obtain ⟨b₁, x, y, hb₁, hstep, -⟩ := step_book hw.wellFormed h hb
      obtain rfl := Option.some.inj (hb₁.symm.trans hb')
      have hopen : b.market.status ≠ .opened := by
        intro ho
        have htrans := bookStep_transition hstep
        rw [ho, hst'] at htrans
        cases htrans
      obtain ⟨b₂, hb₂, hsame, -⟩ := step_sameRule hw.wellFormed h hb hopen
      obtain rfl := Option.some.inj (hb₂.symm.trans hb')
      rw [hsame.trueOutcome_iff]
      by_cases hst : b.market.status = .settled
      · rw [(bookStep_final hstep (by rw [hst]; rfl)).winningOutcome]
        exact hw.markets k b hb hst
      · obtain ⟨r, hv, ho, -⟩ := bookStep_settles hstep hst hst'
        rw [ho]
        exact verified_true hH hw.roots hv

theorem step_vault_true (hH : CollisionFree H) (hw : TrueResults H facts w)
    (h : step (mockOracle H) w i = .ok w') (hv' : w'.propVault? k = some v')
    (hst' : v'.status = .paidOut) : RuleTrue facts v' := by
  cases hv : w.propVault? k with
  | none =>
      obtain ⟨ctx, p, -, -, -, -, rfl, -⟩ := step_propVault_new h hv hv'
      cases hst'
  | some v =>
      obtain ⟨v₁, x, y, hv₁, hstep, -⟩ := step_propVault hw.wellFormed h hv
      obtain rfl := Option.some.inj (hv₁.symm.trans hv')
      cases hstep with
      | idle => exact hw.propVaults k v hv hst'
      | @settle ctx proof holds hk checks moved =>
          cases holds with
          | false => cases hst'
          | true => exact (settleChecks_true hH hw.roots checks).mp rfl
      | cancel => cases hst'

theorem TrueResults.step (hH : CollisionFree H) (hw : TrueResults H facts w)
    (hi : PublishesTruth H facts i) (h : step (mockOracle H) w i = .ok w') :
    TrueResults H facts w' where
  wellFormed := WellFormed.step hw.wellFormed h
  roots account roots hr := by
    rcases step_rootsView h account roots hr with hr | ⟨day, rfl⟩
    · exact hw.roots account roots hr
    · exact hi
  markets _ _ hb hst := step_market_true hH hw h hb hst
  propVaults _ _ hv hst := step_vault_true hH hw h hv hst

omit [DecidableEq D] in
theorem along_publishes {O : OracleProgram D} {is : List (Instruction D)}
    (h : ∀ i ∈ is, PublishesTruth H facts i) :
    (machine O).Along (fun _ i => PublishesTruth H facts i) w is :=
  Machine.along_iff.mpr fun js i ks he => h i (by simp [he])

theorem run_trueResults (hH : CollisionFree H) (h₀ : Genesis w₀) (hroots : HonestRoots H facts w₀)
    {is : List (Instruction D)} (his : ∀ i ∈ is, PublishesTruth H facts i) :
    TrueResults H facts ((machine (mockOracle H)).run w₀ is) :=
  Machine.Along.preserves (P := TrueResults H facts) (fun _ _ _ hP hC hs => hP.step hH hC hs)
    (along_publishes his)
    ⟨Genesis.wellFormed h₀, hroots, fun k b hb => by simp [World.book?, h₀.books] at hb,
      fun k v hv => by simp [World.propVault?, h₀.propVaults] at hv⟩

/-- Under truthful roots every run settles markets on true outcomes only, and
pays vaults out on true rules only. -/
theorem results_are_true (hH : CollisionFree H) (h₀ : Genesis w₀)
    (hroots : HonestRoots H facts w₀) {is : List (Instruction D)}
    (his : ∀ i ∈ is, PublishesTruth H facts i) :
    (∀ k b, ((machine (mockOracle H)).run w₀ is).book? k = some b → b.market.status = .settled →
      TrueOutcome facts b b.market.winningOutcome) ∧
    (∀ k v, ((machine (mockOracle H)).run w₀ is).propVault? k = some v → v.status = .paidOut →
      RuleTrue facts v) :=
  have h := run_trueResults hH h₀ hroots his
  ⟨h.markets, h.propVaults⟩

/-- From a locked market on, whoever settles it with whatever proof settles it on
a true outcome of its rule at that moment. -/
theorem run_settles_true (hH : CollisionFree H) (h₀ : Genesis w₀)
    (hroots : HonestRoots H facts w₀) {is js : List (Instruction D)}
    (hjs : ∀ i ∈ is ++ js, PublishesTruth H facts i)
    (hb : ((machine (mockOracle H)).run w₀ is).book? k = some b)
    (hst : b.market.status ≠ .opened)
    (hb' : ((machine (mockOracle H)).run w₀ (is ++ js)).book? k = some b')
    (hst' : b'.market.status = .settled) : TrueOutcome facts b b'.market.winningOutcome := by
  have htrue := (run_trueResults hH h₀ hroots hjs).markets k b' hb' hst'
  have hwf : WellFormed ((machine (mockOracle H)).run w₀ is) :=
    reachable_wellFormed ⟨w₀, is, h₀, rfl⟩
  obtain ⟨c, hc, hsame⟩ := rule_lasts hwf hb hst js
  rw [← Machine.run_append, hb'] at hc
  obtain rfl := Option.some.inj hc
  exact (hsame.trueOutcome_iff _).mp htrue

/-- Once a market is locked under a rule that at most one outcome satisfies, all
runs that settle it, whoever does it with whatever proof, settle it alike. -/
theorem settlements_agree (hH : CollisionFree H) (h₀ : Genesis w₀)
    (hroots : HonestRoots H facts w₀) {is js ks : List (Instruction D)}
    (hjs : ∀ i ∈ is ++ js, PublishesTruth H facts i)
    (hks : ∀ i ∈ is ++ ks, PublishesTruth H facts i) {b b₁ b₂ : Book D}
    (hb : ((machine (mockOracle H)).run w₀ is).book? k = some b)
    (hst : b.market.status ≠ .opened)
    (hexcl : ∀ n m, TrueOutcome facts b n → TrueOutcome facts b m → n = m)
    (hb₁ : ((machine (mockOracle H)).run w₀ (is ++ js)).book? k = some b₁)
    (hst₁ : b₁.market.status = .settled)
    (hb₂ : ((machine (mockOracle H)).run w₀ (is ++ ks)).book? k = some b₂)
    (hst₂ : b₂.market.status = .settled) :
    b₁.market.winningOutcome = b₂.market.winningOutcome := by
  exact hexcl _ _ (run_settles_true hH h₀ hroots hjs hb hst hb₁ hst₁)
    (run_settles_true hH h₀ hroots hks hb hst hb₂ hst₂)

/-! ## The market of two sides -/

/-- The final goals of the sample fixtures: three by the home side, one by the
away side. -/
def sampleFacts : Facts := fun _ leg => if leg.key = 1 then 3 else 1

theorem summaryOf_truthful (fixtureId ts : Int64) :
    Truthful plainHash sampleFacts
      (leafHash plainHash (borshSummary plainHash (summaryOf fixtureId ts))) := by
  intro summary stat hsummary hstat
  have hmem := hsummary.2 (.leaf (borshSummary plainHash (summaryOf fixtureId ts))) rfl
  obtain rfl : summary = summaryOf fixtureId ts :=
    borshSummary_injective plainHash_collisionFree (by simpa [Merkle.Tree.leaves] using hmem)
  have hleaf := hstat.2
    (.node (.leaf (borshScoreStat homeGoals)) (.leaf (borshScoreStat awayGoals))) rfl
  simp only [Merkle.Tree.leaves, List.cons_append, List.nil_append, List.mem_cons,
    List.not_mem_nil, or_false] at hleaf
  rcases hleaf with h | h
  · rw [borshScoreStat_injective h]
    rfl
  · rw [borshScoreStat_injective h]
    rfl

theorem emptyWorld_honestRoots : HonestRoots plainHash sampleFacts (emptyWorld (List UInt8)) := by
  intro account roots h
  simp [emptyWorld, World.rootsView] at h

theorem receiptRun_publishes : ∀ i ∈ receiptRun, PublishesTruth plainHash sampleFacts i := by
  simp only [receiptRun, fundWallets, List.cons_append, List.nil_append, List.forall_mem_cons,
    List.not_mem_nil, false_implies, implies_true, and_true]
  exact ⟨trivial, trivial, trivial, trivial, trivial, trivial, trivial, trivial, trivial, trivial,
    summaryOf_truthful 7 0, summaryOf_truthful 8 86400000, trivial, trivial, trivial⟩

theorem results_are_true_receipt : ∃ b, receiptWorld.book? sampleMarket = some b ∧
    b.market.winningOutcome = 0 ∧ TrueOutcome sampleFacts b 0 := by
  have hbook : (receiptWorld.book? sampleMarket).map
      (fun b => (b.market.status, b.market.winningOutcome)) = some (.settled, 0) := by
    decide +kernel
  obtain ⟨b, hb, he⟩ := Option.map_eq_some_iff.mp hbook
  simp only [Prod.mk.injEq] at he
  have htrue := (results_are_true plainHash_collisionFree emptyWorld_genesis
    emptyWorld_honestRoots receiptRun_publishes).1 sampleMarket b hb he.1
  exact ⟨b, hb, he.2, he.2 ▸ htrue⟩

/-- The run up to the lock, and the settlement sent by any wallet. -/
def lockedRun : List (Instruction (List UInt8)) := receiptRun.dropLast

def settleBy (cranker : ℕ) : Instruction (List UInt8) :=
  .settleMarket ⟨.key cranker, sampleMarket, .key 9, .dailyScores (.key 9) 0⟩ 0 homeProof

theorem settleBy_publishes (cranker : ℕ) :
    ∀ i ∈ lockedRun ++ [settleBy cranker], PublishesTruth plainHash sampleFacts i := by
  intro i hi
  rcases List.mem_append.mp hi with hi | hi
  · exact receiptRun_publishes i (List.mem_of_mem_dropLast hi)
  · rw [List.mem_singleton.mp hi]
    trivial

/-- Three to one is a home win only. -/
theorem sampleFacts_exclusive {b : Book (List UInt8)} (ht : b.market.marketType = 0)
    (hs : b.market.outcomes.map (·.spec) = [homeWin, awayWin]) {n : ℕ}
    (h : TrueOutcome sampleFacts b n) : n = 0 := by
  rw [TrueOutcome, if_pos (by rw [ht]; decide)] at h
  obtain ⟨spec, hspec, hholds⟩ := h
  rw [Market.outcomeSpec, ← List.getElem?_map, hs, demand_eq_ok] at hspec
  cases n with
  | zero => rfl
  | succ n =>
      cases n with
      | zero =>
          obtain rfl := Option.some.inj hspec
          exact absurd (show (2 : ℤ) < 0 from hholds) (by decide)
      | succ n => cases hspec

theorem settlements_agree_receipt : ∃ b₁ b₂,
    ((machine (mockOracle plainHash)).run (emptyWorld (List UInt8))
      (lockedRun ++ [settleBy 30])).book? sampleMarket = some b₁ ∧
    ((machine (mockOracle plainHash)).run (emptyWorld (List UInt8))
      (lockedRun ++ [settleBy 31])).book? sampleMarket = some b₂ ∧
    b₁.market.settleResolver ≠ b₂.market.settleResolver ∧
    b₁.market.winningOutcome = b₂.market.winningOutcome := by
  have hlocked : (((machine (mockOracle plainHash)).run (emptyWorld (List UInt8))
      lockedRun).book? sampleMarket).map (fun b => (b.market.status, b.market.marketType,
        b.market.outcomes.map (·.spec))) = some (.locked, 0, [homeWin, awayWin]) := by
    decide +kernel
  have hsettled : ∀ n ∈ [30, 31], (((machine (mockOracle plainHash)).run (emptyWorld (List UInt8))
      (lockedRun ++ [settleBy n])).book? sampleMarket).map
        (fun b => (b.market.status, b.market.settleResolver)) = some (.settled, .key n) := by
    decide +kernel
  obtain ⟨b, hb, he⟩ := Option.map_eq_some_iff.mp hlocked
  obtain ⟨b₁, hb₁, he₁⟩ := Option.map_eq_some_iff.mp (hsettled 30 (by decide))
  obtain ⟨b₂, hb₂, he₂⟩ := Option.map_eq_some_iff.mp (hsettled 31 (by decide))
  simp only [Prod.mk.injEq] at he he₁ he₂
  refine ⟨b₁, b₂, hb₁, hb₂, by rw [he₁.2, he₂.2]; decide, ?_⟩
  exact settlements_agree plainHash_collisionFree emptyWorld_genesis emptyWorld_honestRoots
    (settleBy_publishes 30) (settleBy_publishes 31) hb (by rw [he.1]; decide)
    (fun n m hn hm => (sampleFacts_exclusive he.2.1 he.2.2 hn).trans
      (sampleFacts_exclusive he.2.1 he.2.2 hm).symm) hb₁ he₁.1 hb₂ he₂.1

end ProofBook.Agreement
