import ProofBook.Settleable

/-!
# Three coverage checks

The program checks coverage when a spec or a vault is created, the oracle checks
it when a proof is evaluated, and the SDK checks it before a request is sent. All
three accept the predicates that read each leg once.
-/
namespace ProofBook.CoverageChecks
open Addresses OracleWire State Checked Coverage OracleAdapter MockOracle OracleSound Binding
open Settleable

/-! ## The SDK -/

/-- The reads of every predicate, counted in order. -/
def countReads (nLegs : ℕ) : List ℕ → List StatPredicate → Except String (List ℕ)
  | seen, [] => pure seen
  | seen, p :: preds => do
      let seen ← countEach nLegs
        (fun i => s!"predicate references leg {i}, only {nLegs} exist") seen (StatPredicate.refs p)
      countReads nLegs seen preds

/-- Each count, from leg `i` on, is one. -/
def checkCounts : ℕ → List ℕ → Except String PUnit.{1}
  | _, [] => pure .unit
  | i, n :: seen => do
      require (n ≠ 0) (s!"leg {i} is proven but never evaluated — TxLINE rejects this with " ++
        "IncompleteStatCoverage (6071). Every proven stat must be used.")
      require (n ≤ 1) (s!"leg {i} is evaluated {n} times — TxLINE rejects this with " ++
        "DuplicateStatCoverage (6070). Each proven stat may be used exactly once.")
      checkCounts (i + 1) seen

def assertCoverage (nLegs : ℕ) (preds : List StatPredicate) : Except String PUnit.{1} := do
  let seen ← countReads nLegs (List.replicate nLegs 0) preds
  checkCounts 0 seen

theorem countReads_eq (nLegs : ℕ) (seen : List ℕ) (preds : List StatPredicate) :
    countReads nLegs seen preds = countEach nLegs
      (fun i => s!"predicate references leg {i}, only {nLegs} exist") seen
      (preds.flatMap StatPredicate.refs) := by
  induction preds generalizing seen with
  | nil => rfl
  | cons p preds ih =>
      rw [countReads, List.flatMap_cons, countEach_append]
      exact bind_congr fun seen => ih seen

theorem checkCounts_ok {i : ℕ} {seen : List ℕ} :
    checkCounts i seen = .ok .unit ↔ ∀ c ∈ seen, c = 1 := by
  induction seen generalizing i with
  | nil => simp [checkCounts, pure, Except.pure]
  | cons n seen ih =>
      simp only [checkCounts, bind_eq_ok, require_eq_ok, List.forall_mem_cons, ih]
      constructor
      · rintro ⟨_, hpos, _, hle, h⟩
        exact ⟨by omega, h⟩
      · rintro ⟨hn, h⟩
        exact ⟨.unit, by omega, .unit, by omega, h⟩

theorem assertCoverage_ok {nLegs : ℕ} {preds : List StatPredicate} :
    assertCoverage nLegs preds = .ok .unit ↔
      ExactlyOnce nLegs (preds.flatMap StatPredicate.refs) := by
  simp only [assertCoverage, bind_eq_ok, countReads_eq, checkCounts_ok]
  exact countEach_once

/-! ## The program -/

theorem one_le_legReads (p : LegPredicate) : 1 ≤ (legReads p).length := by
  cases p <;> simp [legReads]

theorem length_le_reads (predicates : List LegPredicate) :
    predicates.length ≤ (predicates.flatMap legReads).length := by
  induction predicates with
  | nil => simp
  | cons p predicates ih =>
      have := one_le_legReads p
      simp only [List.flatMap_cons, List.length_append, List.length_cons]
      omega

/-- Covered predicates are as many as the legs at most, and at least one. -/
theorem covered_length {nLegs : ℕ} {predicates : List LegPredicate} (hpos : 0 < nLegs)
    (h : ExactlyOnce nLegs (predicates.flatMap legReads)) :
    predicates ≠ [] ∧ predicates.length ≤ nLegs := by
  constructor
  · rintro rfl
    exact absurd ((h.2 0).mpr hpos) (by simp)
  · have hle : (predicates.flatMap legReads).length ≤ nLegs := by
      have hsub : predicates.flatMap legReads ⊆ List.range nLegs := fun i hi =>
        List.mem_range.mpr ((h.2 i).mp hi)
      simpa using (h.1.subperm hsub).length_le
    exact (length_le_reads predicates).trans hle

variable {D : Type} {legs : List StatLeg} {predicates : List LegPredicate}

theorem propVaultValidate_ok {v : PropVault D} (hne : v.legs ≠ [])
    (hlen : v.legs.length ≤ maxLegs) :
    v.validate = .ok .unit ↔ ExactlyOnce v.legs.length (v.predicates.flatMap legReads) := by
  simp only [PropVault.validate, bind_eq_ok, require_eq_ok, coverLegs_iff hlen]
  constructor
  · rintro ⟨_, -, _, -, h⟩
    exact h
  · intro h
    obtain ⟨hpne, hple⟩ := covered_length (List.length_pos_iff.mpr hne) h
    exact ⟨.unit, ⟨hne, hlen⟩, .unit, ⟨hpne, hple.trans hlen⟩, h⟩

theorem validateOutcomes_ok {nLegs : ℕ} (hpos : 0 < nLegs) (hlen : nLegs ≤ maxLegs)
    {outcomes : List ComboOutcome} :
    validateOutcomes nLegs outcomes = .ok .unit ↔
      ∀ outcome ∈ outcomes, ExactlyOnce nLegs (outcome.predicates.flatMap legReads) := by
  induction outcomes with
  | nil => simp [validateOutcomes, pure, Except.pure]
  | cons outcome outcomes ih =>
      simp only [validateOutcomes, bind_eq_ok, require_eq_ok, List.forall_mem_cons, ih]
      constructor
      · rintro ⟨_, -, _, hc, h⟩
        exact ⟨(coverLegs_iff hlen).mp hc, h⟩
      · rintro ⟨hc, h⟩
        exact ⟨.unit, (covered_length hpos hc).1, .unit, (coverLegs_iff hlen).mpr hc, h⟩

theorem comboSpecValidate_ok {s : ComboSpec} {numOutcomes : ℕ} (hne : s.legs ≠ [])
    (hlen : s.legs.length ≤ maxLegs) :
    s.validate numOutcomes = .ok .unit ↔ s.outcomes.length = numOutcomes ∧
      ∀ outcome ∈ s.outcomes,
        ExactlyOnce s.legs.length (outcome.predicates.flatMap legReads) := by
  simp only [ComboSpec.validate, bind_eq_ok, require_eq_ok,
    validateOutcomes_ok (List.length_pos_iff.mpr hne) hlen]
  constructor
  · rintro ⟨_, -, _, hn, h⟩
    exact ⟨hn, h⟩
  · rintro ⟨hn, h⟩
    exact ⟨.unit, ⟨hne, hlen⟩, .unit, hn, h⟩

/-! ## The oracle -/

/-- What the oracle returns on the stats and strategy of some legs. -/
def verdict (legs : List StatLeg) (predicates : List LegPredicate) (values : List Int32) :
    Except MockOracleError Bool :=
  evaluateStrategy ((legLeaves (D := Unit) legs values).map (·.stat))
    (discreteStrategy (predicates.map LegPredicate.toStat))

/-- Whatever the values, the oracle returns a verdict. -/
def Evaluates (legs : List StatLeg) (predicates : List LegPredicate) : Prop :=
  ∀ values : List Int32, values.length = legs.length →
    ∃ holds, verdict legs predicates values = .ok holds

theorem verdict_ok {values : List Int32} (hvalues : values.length = legs.length)
    (hlen : legs.length ≤ maxLegs) {holds : Bool} :
    verdict legs predicates values = .ok holds ↔
      ExactlyOnce legs.length (predicates.flatMap legReads) ∧
        (holds = true ↔ ∀ p ∈ predicates, LegHolds values p) := by
  have hsmall : legs.length ≤ 32 := hlen.trans (by decide)
  simp [verdict, evaluateStrategy_ok, refs_toStat, legLeaves_length hvalues,
    legLeaves_values hvalues, statHolds_toStat, hsmall]

theorem evaluates_iff (hlen : legs.length ≤ maxLegs) :
    Evaluates legs predicates ↔ ExactlyOnce legs.length (predicates.flatMap legReads) := by
  constructor
  · intro h
    obtain ⟨holds, hok⟩ := h (List.replicate legs.length 0) (by simp)
    exact ((verdict_ok (by simp) hlen).mp hok).1
  · intro h values hvalues
    by_cases hall : ∀ p ∈ predicates, LegHolds values p
    · exact ⟨true, (verdict_ok hvalues hlen).mpr ⟨h, by simpa using hall⟩⟩
    · exact ⟨false, (verdict_ok hvalues hlen).mpr ⟨h, by simpa using hall⟩⟩

theorem ExactlyOnce.perm {n : ℕ} {is js : List ℕ} (h : ExactlyOnce n is) (hp : js.Perm is) :
    ExactlyOnce n js :=
  ⟨hp.nodup_iff.mpr h.1, fun i => hp.mem_iff.trans (h.2 i)⟩

theorem verdict_perm (hlen : legs.length ≤ maxLegs) (h : Evaluates legs predicates)
    {reordered : List LegPredicate} (hp : reordered.Perm predicates) {values : List Int32}
    (hvalues : values.length = legs.length) :
    verdict legs reordered values = verdict legs predicates values := by
  obtain ⟨holds, hok⟩ := h values hvalues
  obtain ⟨honce, hholds⟩ := (verdict_ok hvalues hlen).mp hok
  rw [hok, verdict_ok hvalues hlen]
  refine ⟨ExactlyOnce.perm honce (hp.flatMap_right _), hholds.trans ?_⟩
  exact forall_congr' fun p => by rw [hp.mem_iff]

theorem markEach_no_overflow {n : ℕ} {seen : List Bool} {is : List ℕ} :
    markEach n MockOracleError.missingStat .duplicateStatCoverage seen is ≠
      .error .arithmeticOverflow := by
  induction is generalizing seen with
  | nil => exact pure_ne_error
  | cons i is ih => simp [markEach, bind_eq_error, ih]

/-- Two `i32` values combine within `i64`. -/
theorem verdict_no_overflow (legs : List StatLeg) (predicates : List LegPredicate)
    (values : List Int32) : verdict legs predicates values ≠ .error .arithmeticOverflow := by
  intro h
  obtain ⟨holds, heval, -⟩ := evaluateAll_eq ((legLeaves (D := Unit) legs values).map (·.stat))
    (predicates.map LegPredicate.toStat)
  simp [verdict, evaluateStrategy, discreteStrategy, withinDistance, bind_eq_error,
    markEach_no_overflow, heval, pure, Except.pure] at h

/-! ## Agreement -/

/-- Creation, evaluation and the SDK accept the same predicates over one to five
legs; accepted predicates may be reordered, and no evaluation overflows. -/
theorem coverage_checks_agree (hne : legs ≠ []) (hlen : legs.length ≤ maxLegs) :
    (∀ v : PropVault D, v.legs = legs → v.predicates = predicates →
      (v.validate = .ok .unit ↔ Evaluates legs predicates)) ∧
    (∀ (s : ComboSpec) numOutcomes, s.legs = legs →
      (s.validate numOutcomes = .ok .unit ↔ s.outcomes.length = numOutcomes ∧
        ∀ outcome ∈ s.outcomes, Evaluates legs outcome.predicates)) ∧
    (Evaluates legs predicates → ∀ reordered : List LegPredicate, reordered.Perm predicates →
      ∀ values : List Int32, values.length = legs.length →
        verdict legs reordered values = verdict legs predicates values) ∧
    (∀ values, verdict legs predicates values ≠ .error .arithmeticOverflow) ∧
    (assertCoverage legs.length (predicates.map LegPredicate.toStat) = .ok .unit ↔
      Evaluates legs predicates) := by
  refine ⟨?_, ?_, ?_, verdict_no_overflow legs predicates, ?_⟩
  · rintro v rfl rfl
    rw [propVaultValidate_ok hne hlen, evaluates_iff hlen]
  · rintro s numOutcomes rfl
    simp only [comboSpecValidate_ok hne hlen, evaluates_iff hlen]
  · intro h reordered hp values hvalues
    exact verdict_perm hlen h hp hvalues
  · rw [assertCoverage_ok, evaluates_iff hlen, refs_toStat]

/-- Two legs read by one pair, in either order. -/
theorem coverage_checks_agree_pair :
    (assertCoverage 2 [.binary 1 0 .add ⟨10, .greaterThan⟩] = .ok .unit ↔
      Evaluates goalLegs [.binary 1 0 .add .greaterThan 10]) ∧
    Evaluates goalLegs [.binary 1 0 .add .greaterThan 10] := by
  have h : assertCoverage goalLegs.length
      ([.binary 1 0 .add .greaterThan 10].map LegPredicate.toStat) = .ok .unit ↔
      Evaluates goalLegs [.binary 1 0 .add .greaterThan 10] :=
    (@coverage_checks_agree Unit goalLegs [.binary 1 0 .add .greaterThan 10] (by decide)
      (by decide)).2.2.2.2
  exact ⟨h, h.mp rfl⟩

end ProofBook.CoverageChecks
