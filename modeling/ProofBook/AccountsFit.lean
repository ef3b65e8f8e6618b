import ProofBook.AccountSpace
import ProofBook.ComboRule
import ProofBook.CoverageChecks

/-!
# Accounts always fit

No operation changes how many outcomes, legs or predicates an account has, so what fits
at its creation fits in every state reached afterwards.
-/
namespace ProofBook.AccountSpace
open Addresses OracleWire State Checked OracleAdapter Chain Program Runs Steps StepCases
open ComboRule CoverageChecks MarketRuns
open Instructions.Betting Instructions.Settlement Instructions.PropVaults

variable {D : Type} [Inhabited D] {O : OracleProgram D} {w w₁ : World D} {k : Pubkey}

/-! ## Lengths along a run -/

theorem run_market {b : Book D} (hw : WellFormed w) (hb : w.book? k = some b)
    (is : List (Instruction D)) : ∃ b', ((machine O).run w is).book? k = some b' ∧
      b'.market.outcomes.length = b.market.outcomes.length := by
  refine (Machine.run_preserves (M := machine O) (P := fun t => WellFormed t ∧
    ∃ b', t.book? k = some b' ∧ b'.market.outcomes.length = b.market.outcomes.length)
    ?_ ⟨hw, b, hb, rfl⟩ is).2
  intro t i t' ht (hs : step O t i = .ok t')
  obtain ⟨ht, b₁, hb₁, hlen⟩ := ht
  obtain ⟨b₂, x, y, hb₂, hstep, -⟩ := step_book ht hs hb₁
  have hspecs := congrArg List.length hstep.sameTerms.specs
  rw [List.length_map, List.length_map] at hspecs
  exact ⟨WellFormed.step ht hs, b₂, hb₂, hspecs.trans hlen⟩

theorem run_comboSpec {b : Book D} {spec : ComboSpec} (hw : WellFormed w)
    (hb : w.book? k = some b) (hspec : b.comboSpec = some spec) (is : List (Instruction D)) :
    ∃ b', ((machine O).run w is).book? k = some b' ∧ b'.comboSpec = some spec := by
  refine (Machine.run_preserves (M := machine O) (P := fun t => WellFormed t ∧
    ∃ b', t.book? k = some b' ∧ b'.comboSpec = some spec) ?_ ⟨hw, b, hb, hspec⟩ is).2
  intro t i t' ht (hs : step O t i = .ok t')
  obtain ⟨ht, b₁, hb₁, hspec₁⟩ := ht
  obtain ⟨b₂, x, y, hb₂, hstep, -⟩ := step_book ht hs hb₁
  refine ⟨WellFormed.step ht hs, b₂, hb₂, ?_⟩
  rcases bookStep_comboSpec hstep with hsame | hnone
  · exact hsame.trans hspec₁
  · rw [hnone.1] at hspec₁
    cases hspec₁

theorem run_propVault {v : PropVault D} (hw : WellFormed w) (hv : w.propVault? k = some v)
    (is : List (Instruction D)) : ∃ v', ((machine O).run w is).propVault? k = some v' ∧
      v'.legs = v.legs ∧ v'.predicates = v.predicates := by
  refine (Machine.run_preserves (M := machine O) (P := fun t => WellFormed t ∧
    ∃ v', t.propVault? k = some v' ∧ v'.legs = v.legs ∧ v'.predicates = v.predicates)
    ?_ ⟨hw, v, hv, rfl, rfl⟩ is).2
  intro t i t' ht (hs : step O t i = .ok t')
  obtain ⟨ht, v₁, hv₁, hlegs, hpreds⟩ := ht
  obtain ⟨v₂, x, y, hv₂, hstep, -⟩ := step_propVault ht hs hv₁
  refine ⟨WellFormed.step ht hs, v₂, hv₂, ?_⟩
  cases hstep <;> exact ⟨hlegs, hpreds⟩

/-- A market's spec has an entry for each of its outcomes. -/
theorem reachable_numOutcomes {b : Book D} (hw : Reachable O w) (hb : w.book? k = some b) :
    b.market.numOutcomes ≤ maxOutcomes := by
  refine (hw.invariant (P := fun w => WellFormed w ∧
    ∀ k b, w.book? k = some b → b.market.numOutcomes ≤ maxOutcomes) ?_ ?_).2 k b hb
  · intro s h₀
    exact ⟨Genesis.wellFormed h₀, fun k b hb => by simp [World.book?, h₀.books] at hb⟩
  · intro s i t h (hs : step O s i = .ok t)
    refine ⟨WellFormed.step h.1 hs, fun k b hb => ?_⟩
    cases hsb : s.book? k with
    | some b₀ =>
        obtain ⟨b', x, y, hb', hbs, -⟩ := step_book h.1 hs hsb
        obtain rfl := Option.some.inj (hb'.symm.trans hb)
        rw [hbs.sameTerms.numOutcomes]
        exact h.2 k b₀ hsb
    | none =>
        obtain ⟨ctx, p, -, -, -, ha, rfl, -⟩ := step_book_new hs hsb hb
        exact ha.outcomes.2

/-! ## Every account -/

/-- Accounts created in a state stay within the space of their creation arguments. -/
structure AccountsFit (O : OracleProgram D) (wire : Wire D) (w : World D) : Prop where
  market : ∀ ctx p w₁, step O w (.initializeMarket ctx p) = .ok w₁ → ∀ is, ∃ b,
    ((machine O).run w₁ is).book? (ctx.marketKey p) = some b ∧ ∀ bump vaultBump,
      FitsIn (marketSpace wire p.outcomeOptions.length)
        (accountBytes wire (market wire maxOutcomes) ⟨b.market, bump, vaultBump⟩)
  comboSpec : ∀ ctx legs outcomes w₁, step O w (.initializeComboSpec ctx legs outcomes) = .ok w₁ →
    ∀ is, ∃ b spec, ((machine O).run w₁ is).book? ctx.market = some b ∧
      b.comboSpec = some spec ∧ ∀ bump vaultBump,
        FitsIn (comboSpecSpace wire legs.length outcomes.length)
          (accountBytes wire (comboSpec wire maxLegs maxOutcomes) ⟨spec, bump, vaultBump⟩)
  propVault : ∀ ctx p w₁, step O w (.initializePropVault ctx p) = .ok w₁ → ∀ is, ∃ v,
    ((machine O).run w₁ is).propVault? (ctx.vaultKey p) = some v ∧ ∀ bump vaultBump,
      FitsIn (propVaultSpace wire p.legs.length p.predicates.length)
        (accountBytes wire (propVault wire maxLegs maxLegs) ⟨v, bump, vaultBump⟩)

theorem created_market_fits {wire : Wire D} {ctx : InitializeMarket} {p : MarketParams}
    (hw : WellFormed w) (hs : step O w (.initializeMarket ctx p) = .ok w₁)
    (is : List (Instruction D)) : ∃ b,
      ((machine O).run w₁ is).book? (ctx.marketKey p) = some b ∧ ∀ bump vaultBump,
        FitsIn (marketSpace wire p.outcomeOptions.length)
          (accountBytes wire (market wire maxOutcomes) ⟨b.market, bump, vaultBump⟩) := by
  have hw₁ := WellFormed.step hw hs
  obtain ⟨-, -, haccepted, l, es, -, rfl⟩ := initializeMarket_ok hs
  obtain ⟨b, hb, hlen⟩ := run_market (O := O) hw₁ World.setBook_book?_self is
  have hcreated : b.market.outcomes.length = p.outcomeOptions.length := by
    simpa [newMarket] using hlen
  refine ⟨b, hb, fun bump vaultBump => ?_⟩
  rw [← hcreated]
  exact market_fits (m := ⟨b.market, bump, vaultBump⟩) (hcreated.le.trans haccepted.outcomes.2)

theorem created_comboSpec_fits {wire : Wire D} {ctx : InitializeComboSpec} {legs : List StatLeg}
    {outcomes : List ComboOutcome} (hw : Reachable O w)
    (hs : step O w (.initializeComboSpec ctx legs outcomes) = .ok w₁)
    (is : List (Instruction D)) : ∃ b spec,
      ((machine O).run w₁ is).book? ctx.market = some b ∧ b.comboSpec = some spec ∧
        ∀ bump vaultBump, FitsIn (comboSpecSpace wire legs.length outcomes.length)
          (accountBytes wire (comboSpec wire maxLegs maxOutcomes) ⟨spec, bump, vaultBump⟩) := by
  have hw₁ := WellFormed.step (reachable_wellFormed hw) hs
  obtain ⟨b₀, es, hchecks, rfl⟩ := initializeComboSpec_ok hs
  obtain ⟨b, hb, hspec⟩ := run_comboSpec (O := O) hw₁ World.setBook_book?_self rfl is
  have hvalid := hchecks.valid
  have hlegs : legs ≠ [] ∧ legs.length ≤ maxLegs := by
    simp only [ComboSpec.validate, bind_eq_ok, require_eq_ok] at hvalid
    exact hvalid.choose_spec.1
  obtain ⟨hnum, hcovered⟩ := (comboSpecValidate_ok hlegs.1 hlegs.2).mp hvalid
  refine ⟨b, _, hb, hspec, fun bump vaultBump => ?_⟩
  apply comboSpec_fits (s := ⟨⟨ctx.market, legs, outcomes⟩, bump, vaultBump⟩) hlegs.2
  · exact hnum.le.trans (reachable_numOutcomes hw hchecks.book)
  · intro outcome houtcome
    have hlen := (covered_length (List.length_pos_iff.mpr hlegs.1) (hcovered outcome houtcome)).2
    exact hlen.trans hlegs.2

theorem created_propVault_fits {wire : Wire D} {ctx : InitializePropVault} {p : PropVaultParams}
    (hw : WellFormed w) (hs : step O w (.initializePropVault ctx p) = .ok w₁)
    (is : List (Instruction D)) : ∃ v,
      ((machine O).run w₁ is).propVault? (ctx.vaultKey p) = some v ∧ ∀ bump vaultBump,
        FitsIn (propVaultSpace wire p.legs.length p.predicates.length)
          (accountBytes wire (propVault wire maxLegs maxLegs) ⟨v, bump, vaultBump⟩) := by
  have hw₁ := WellFormed.step hw hs
  obtain ⟨-, -, -, hvalid, -, l₁, l, es, -, -, rfl⟩ := initializePropVault_ok hs
  obtain ⟨v, hv, hlegs, hpreds⟩ := run_propVault (O := O) hw₁ World.setPropVault_propVault?_self is
  simp only [PropVault.validate, bind_eq_ok, require_eq_ok] at hvalid
  obtain ⟨-, hlegCount, -, hpredCount, -⟩ := hvalid
  refine ⟨v, hv, fun bump vaultBump => ?_⟩
  have hl : v.legs = p.legs := hlegs
  have hp : v.predicates = p.predicates := hpreds
  rw [← hl, ← hp]
  apply propVault_fits (v := ⟨v, bump, vaultBump⟩)
  · exact hl ▸ hlegCount.2
  · exact hp ▸ hpredCount.2

/-- Space is computed without underflow for any lengths, and every account created from
a reachable state fits in its own from then on. -/
theorem accounts_fit (hw : Reachable O w) (wire : Wire D) :
    AccountsFit O wire w ∧ (∀ n, (marketSpace wire n).isSome) ∧
      (∀ legs outcomes, (comboSpecSpace wire legs outcomes).isSome) ∧
      ∀ legs preds, (propVaultSpace wire legs preds).isSome := by
  refine ⟨⟨fun ctx p w₁ hs is => ?_, fun ctx legs outcomes w₁ hs is => ?_,
    fun ctx p w₁ hs is => ?_⟩, fun n => ?_, fun legs outcomes => ?_, fun legs preds => ?_⟩
  · exact created_market_fits (reachable_wellFormed hw) hs is
  · exact created_comboSpec_fits hw hs is
  · exact created_propVault_fits (reachable_wellFormed hw) hs is
  · rw [marketSpace_eq]
    rfl
  · rw [comboSpecSpace_eq]
    rfl
  · rw [propVaultSpace_eq]
    rfl

/-- Every key and digest stored as zeros. -/
def zeroWire : Wire Unit where
  discriminator := .replicate 8 0
  pubkey _ := .replicate 32 0
  digest _ := .replicate 32 0

theorem accounts_fit_betting : AccountsFit acceptingOracle zeroWire bettingWorld ∧
    (∀ n, (marketSpace zeroWire n).isSome) ∧
    (∀ legs outcomes, (comboSpecSpace zeroWire legs outcomes).isSome) ∧
    ∀ legs preds, (propVaultSpace zeroWire legs preds).isSome :=
  accounts_fit bettingWorld_reachable zeroWire

end ProofBook.AccountSpace
