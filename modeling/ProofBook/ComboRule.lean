import ProofBook.MarketRuns

/-!
# When the rule of a compound market is fixed

A compound market's spec is attached by its own instruction, which checks the
market's status only. The rule is therefore fixed from the moment money or the
clock depends on it exactly when a spec was attached before.
-/
namespace ProofBook.ComboRule
open Addresses State Checked OracleWire OracleAdapter TokenLedger Totals Chain Program Runs Steps
open StepCases MarketRuns
open Instructions.Betting Instructions.Settlement Instructions.Payments Instructions.PropVaults

variable {D : Type}

def Compound (b : Book D) : Prop := comboMarketTypeMin ≤ b.market.marketType

/-- Some position holds a stake, or betting time is over. -/
def Exposed (w : World D) (b : Book D) : Prop :=
  (∃ o q, b.positions.lookup o = some q ∧ 0 < q.amount) ∨ b.market.lockTime ≤ w.clock

variable [Inhabited D]

/-- A spec is attached when a bet succeeds and when the clock reaches the lock time. -/
def SpecFirst (O : OracleProgram D) (k : Pubkey) (w : World D) : Instruction D → Prop
  | .placeBet ctx outcome amount => ∀ w', step O w (.placeBet ctx outcome amount) = .ok w' →
      ctx.market = k → ∀ b, w.book? k = some b → Compound b → b.comboSpec ≠ none
  | .setClock now => ∀ b, w.book? k = some b → Compound b → b.market.status = .opened →
      b.market.lockTime ≤ now → b.comboSpec ≠ none
  | _ => True

/-- Once exposed, no operation creates or changes the market's spec. -/
def RuleFixed (O : OracleProgram D) (w : World D) (k : Pubkey) : Prop :=
  ∀ b, w.book? k = some b → Compound b → Exposed w b → ∀ i w', step O w i = .ok w' →
    ∀ b', w'.book? k = some b' → b'.comboSpec = b.comboSpec

/-- A market whose spec can still be attached. -/
def Attachable (b : Book D) : Prop := b.comboSpec = none ∧ b.market.status = .opened

variable {O : OracleProgram D} {w w' w₀ : World D} {k : Pubkey} {b b' : Book D}
  {i : Instruction D}

omit [Inhabited D] in
/-- Attaching is the only change of a spec. -/
theorem bookStep_comboSpec {x y : ℕ} (h : BookStep O w w' k b i b' x y) :
    b'.comboSpec = b.comboSpec ∨ Attachable b := by
  cases h with
  | attach hk hc => exact .inr ⟨hc.fresh, hc.status⟩
  | _ => exact .inl rfl

/-- A spec over one leg, for any number of outcomes. -/
def plainSpec (k : Pubkey) (n : ℕ) : ComboSpec :=
  ⟨k, [⟨1, 100⟩], List.replicate n ⟨[.single 0 .greaterThan 0]⟩⟩

theorem plainSpec_valid (k : Pubkey) (n : ℕ) : (plainSpec k n).validate n = .ok .unit := by
  have hcover : coverLegs 1 [.single 0 .greaterThan 0] = .ok .unit := by decide
  have hall : validateOutcomes 1 (List.replicate n ⟨[.single 0 .greaterThan 0]⟩) = .ok .unit := by
    induction n with
    | zero => rfl
    | succ n ih =>
        simp [List.replicate_succ, validateOutcomes, require, bind, Except.bind, hcover, ih]
  simp [plainSpec, ComboSpec.validate, require, maxLegs, bind, Except.bind, hall]

/-- The authority of an attachable compound market can attach a spec now. -/
theorem attach_succeeds (hw : WellFormed w) (hb : w.book? k = some b) (hc : Compound b)
    (ha : Attachable b) : ∃ i w' b', step O w i = .ok w' ∧ w'.book? k = some b' ∧
      b'.comboSpec ≠ none := by
  have ok := hw.books k b hb
  have checks : AttachChecks w ⟨b.market.authority, k⟩
      ⟨k, (plainSpec k b.market.numOutcomes).legs,
        (plainSpec k b.market.numOutcomes).outcomes⟩ b :=
    ⟨ok.authority, hb, ha.1, rfl, hc, ha.2, plainSpec_valid k _⟩
  obtain ⟨w', hs⟩ := initializeComboSpec_succeeds checks
  obtain ⟨b₁, es, h₁, rfl⟩ := initializeComboSpec_ok hs
  exact ⟨.initializeComboSpec ⟨b.market.authority, k⟩ _ _, _, _, hs, World.setBook_book?_self,
    by simp⟩

/-- Exactly in which states the rule is fixed. -/
theorem ruleFixed_iff (hw : Reachable O w) : RuleFixed O w k ↔
    ∀ b, w.book? k = some b → Compound b → Exposed w b → ¬ Attachable b := by
  have hwf := reachable_wellFormed hw
  constructor
  · intro h b hb hc he ha
    obtain ⟨i, w', b', hs, hb', hne⟩ := attach_succeeds (O := O) hwf hb hc ha
    rw [h b hb hc he i w' hs b' hb', ha.1] at hne
    exact hne rfl
  · intro h b hb hc he i w' hs b' hb'
    obtain ⟨b₁, x, y, hb₁, hstep, -⟩ := step_book hwf hs hb
    obtain rfl := Option.some.inj (hb₁.symm.trans hb')
    exact (bookStep_comboSpec hstep).resolve_right (h b hb hc he)

/-! ## Runs in which the spec comes first -/

/-- While a spec can still be attached nothing depends on it. -/
structure Unexposed (k : Pubkey) (w : World D) : Prop where
  wellFormed : WellFormed w
  unexposed : ∀ b, w.book? k = some b → Compound b → Attachable b →
    (∀ o, b.positions.lookup o = none) ∧ w.clock < b.market.lockTime

theorem Unexposed.step (h : Unexposed k w) (hi : SpecFirst O k w i) (hs : step O w i = .ok w') :
    Unexposed k w' := by
  refine ⟨WellFormed.step h.wellFormed hs, fun b' hb' hc' ha' => ?_⟩
  cases hb : w.book? k with
  | none =>
      obtain ⟨ctx, p, rfl, -, -, ha, rfl, -⟩ := step_book_new hs hb hb'
      refine ⟨fun o => by simp, ?_⟩
      rcases step_clock hs with hclk | ⟨now, hi, -⟩
      · rw [hclk]
        exact ha.future
      · cases hi
  | some b =>
      obtain ⟨b₁, x, y, hb₁, hstep, -⟩ := step_book h.wellFormed hs hb
      obtain rfl := Option.some.inj (hb'.symm.trans hb₁)
      have terms := hstep.sameTerms
      have hc : Compound b := by
        unfold Compound at hc' ⊢
        rwa [← terms.marketType]
      have keep : b'.positions = b.positions → Attachable b →
          (∀ o, b'.positions.lookup o = none) ∧ w'.clock < b'.market.lockTime := by
        intro hp ha
        obtain ⟨hempty, hclk⟩ := h.unexposed b hb hc ha
        refine ⟨fun o => by rw [hp, hempty], ?_⟩
        rw [terms.lockTime]
        rcases step_clock hs with he | ⟨now, rfl, rfl⟩
        · rwa [he]
        · by_contra hn
          exact hi b hb hc ha.2 (Int64.not_lt.mp hn) ha.1
      cases hstep with
      | idle hm => exact keep rfl ha'
      | bet hk hbc => exact absurd ha'.1 (hi _ hs hk b hb hc)
      | attach hk hac => exact absurd ha'.1 (by simp)
      | lock hk _ _ => cases ha'.2
      | cancel hk _ _ _ => cases ha'.2
      | settle hst _ _ hr =>
          rcases hr.result with ⟨-, h', -⟩ | ⟨-, h', -⟩ <;>
            exact absurd (h'.symm.trans ha'.2) (by simp)
      | claim hk _ hw _ _ => exact absurd (hw.status.symm.trans ha'.2) (by simp)
      | refund hk _ hst _ _ => exact absurd (hst.symm.trans ha'.2) (by simp)
      | withdraw hk hf _ => exact absurd (hf.status.symm.trans ha'.2) (by simp)

/-- Where every bet that succeeds and the lock time find a spec attached, the rule is fixed
in every state the run reaches. -/
theorem combo_rule_fixed (h₀ : Genesis w₀) (is : List (Instruction D))
    (hc : (machine O).Along (SpecFirst O k) w₀ is) :
    ∀ js, js <+: is → RuleFixed O ((machine O).run w₀ js) k := by
  rintro js ⟨rest, rfl⟩
  have hinit : Unexposed k w₀ := ⟨Genesis.wellFormed h₀, fun b hb => by
    simp [World.book?, h₀.books] at hb⟩
  have h := Machine.Along.preserves (P := Unexposed k)
    (fun s i t hP hC hs => hP.step hC hs) hc.prefix hinit
  refine (ruleFixed_iff ⟨w₀, js, h₀, rfl⟩).mpr fun b hb hcomp he ha => ?_
  obtain ⟨hempty, hclk⟩ := h.unexposed b hb hcomp ha
  rcases he with ⟨o, q, hq, -⟩ | hlate
  · rw [hempty] at hq
    cases hq
  · exact absurd hclk (Int64.not_lt.mpr hlate)

/-! ## A market whose rule comes after the stakes -/

def comboParams : MarketParams := ⟨7, 16, [homeWin, awayWin], 500, 100, 50, .key 21⟩

def comboMarket : Pubkey := sampleContext.marketKey comboParams

def comboBet : Instruction Unit :=
  .placeBet ⟨.key 12, comboMarket, .key 2, .vault comboMarket⟩ 0 500

def comboSpecOf (threshold : Int32) : Instruction Unit :=
  .initializeComboSpec ⟨.key 20, comboMarket⟩ [⟨1, 100⟩]
    [⟨[.single 0 .greaterThan threshold]⟩, ⟨[.single 0 .lessThan threshold]⟩]

/-- The bet is placed while the market has no rule at all. -/
def betFirstRun : List (Instruction Unit) :=
  fundWallets ++ [.initializeMarket sampleContext comboParams, comboBet]

def specFirstRun : List (Instruction Unit) :=
  fundWallets ++ [.initializeMarket sampleContext comboParams, comboSpecOf 2, comboBet]

theorem specFirstRun_specFirst :
    (machine acceptingOracle).Along (SpecFirst acceptingOracle comboMarket) (emptyWorld Unit)
      specFirstRun := by
  refine ⟨trivial, trivial, trivial, trivial, trivial, trivial, trivial, trivial, trivial,
    fun _ _ _ b hb _ hn => ?_, trivial⟩
  have h : (((machine acceptingOracle).run (emptyWorld Unit)
      (specFirstRun.take 9)).book? comboMarket).map (·.comboSpec.isSome) = some true := by
    decide +kernel
  rw [show ((machine acceptingOracle).run (emptyWorld Unit)
    (specFirstRun.take 9)).book? comboMarket = some b from hb, Option.map_some, hn] at h
  cases h

theorem combo_rule_fixed_specFirst :
    RuleFixed acceptingOracle ((machine acceptingOracle).run (emptyWorld Unit) specFirstRun)
      comboMarket :=
  combo_rule_fixed emptyWorld_genesis specFirstRun specFirstRun_specFirst specFirstRun
    (List.prefix_refl _)

theorem betFirstRun_book :
    (((machine acceptingOracle).run (emptyWorld Unit) betFirstRun).book? comboMarket).map
      (fun b => (b.market.marketType, (b.positions.lookup (.key 12)).map (·.amount),
        b.comboSpec)) = some (16, some 500, none) := by
  decide +kernel

/-- After a bet of 500 the authority still chooses the rule the bet settles by. -/
theorem rule_not_fixed :
    ¬ ∀ w : World Unit, Reachable acceptingOracle w → RuleFixed acceptingOracle w comboMarket := by
  intro h
  have hr : Reachable acceptingOracle
      ((machine acceptingOracle).run (emptyWorld Unit) betFirstRun) :=
    ⟨_, _, emptyWorld_genesis, rfl⟩
  obtain ⟨b, hb, he⟩ := Option.map_eq_some_iff.mp betFirstRun_book
  simp only [Prod.mk.injEq] at he
  obtain ⟨q, hq, ha⟩ := Option.map_eq_some_iff.mp he.2.1
  have hopen : b.market.status = .opened := by
    have : (((machine acceptingOracle).run (emptyWorld Unit) betFirstRun).book? comboMarket).map
        (·.market.status) = some .opened := by decide +kernel
    rw [hb] at this
    exact Option.some.inj this
  exact (ruleFixed_iff hr).mp (h _ hr) b hb (by rw [Compound, he.1]; decide)
    (.inl ⟨_, q, hq, by omega⟩) ⟨he.2.2, hopen⟩

end ProofBook.ComboRule
