import ProofBook.CatalogueSound

/-!
# The outcome the keeper claims

The keeper picks the first outcome whose predicates hold on the proven values, in
double-precision arithmetic on its own definition; the oracle evaluates the stored
predicates in checked 64-bit arithmetic. On 32-bit values the two agree.
-/
namespace ProofBook.Catalogue
open Addresses OracleWire Checked Coverage Binary64 OracleSound CoverageChecks Binding

/-! ## The keeper's evaluation -/

/-- A missing value acts like what is not a number. -/
def valueOf (values : List Number) (index : ℕ) : Number := values[index]?.getD .nan

def LegPredicate.evaluate (values : List Number) : LegPredicate → Bool
  | .single index comparison threshold => cmp (valueOf values index) comparison threshold
  | .binary indexA indexB op comparison threshold =>
      let combined := match op with
        | .add => (valueOf values indexA).add (valueOf values indexB)
        | .subtract => (valueOf values indexA).sub (valueOf values indexB)
      cmp combined comparison threshold

/-- The outcomes from index `i` on. -/
def claimedFrom (values : List Number) : ℕ → List (Outcome LegPredicate) → ℤ
  | _, [] => -1
  | i, outcome :: outcomes =>
      if outcome.predicates.all (LegPredicate.evaluate values) then i
      else claimedFrom values (i + 1) outcomes

def claimedOutcomeFor (market : MarketTypeDef) (values : List Number) : ℤ :=
  claimedFrom values 0 market.outcomes

/-! ## The stored spec -/

/-- The predicate on chain, whose threshold is the same number in 32 bits. -/
inductive StoredPredicate : LegPredicate → State.LegPredicate → Prop
  | single {index : ℕ} {comparison : Comparison} {threshold : Int32} :
      StoredPredicate (.single index comparison (.int threshold.toInt))
        (.single index comparison threshold)
  | binary {indexA indexB : ℕ} {op : BinaryExpression} {comparison : Comparison}
      {threshold : Int32} :
      StoredPredicate (.binary indexA indexB op comparison (.int threshold.toInt))
        (.binary indexA indexB op comparison threshold)

/-- The spec that creation from a definition stores. It holds thresholds as integers of
32 bits, so a definition with another threshold has none. -/
structure Stored (market : MarketTypeDef) (spec : State.ComboSpec) : Prop where
  legs : List.Forall₂ (fun leg stored => leg.key = stored.key.toNat ∧
    leg.period = .int stored.period.toInt) market.legs spec.legs
  outcomes : List.Forall₂ (fun outcome stored =>
    List.Forall₂ StoredPredicate outcome.predicates stored.predicates) market.outcomes spec.outcomes

/-- The proven values as the keeper reads them. -/
def provenValues (values : List Int32) : List Number := values.map fun value => .int value.toInt

variable {values : List Int32} {p : LegPredicate} {q : State.LegPredicate}
  {ps : List LegPredicate} {qs : List State.LegPredicate}

theorem StoredPredicate.reads (h : StoredPredicate p q) : p.reads = legReads q := by
  cases h <;> rfl

theorem stored_reads (h : List.Forall₂ StoredPredicate ps qs) :
    ps.flatMap LegPredicate.reads = qs.flatMap legReads := by
  induction h with
  | nil => rfl
  | cons hpq _ ih => rw [List.flatMap_cons, List.flatMap_cons, hpq.reads, ih]

/-! ## Agreement -/

theorem valueOf_proven {i : ℕ} (hi : i < values.length) :
    valueOf (provenValues values) i = .int (valueAt values i) := by
  simp [valueOf, provenValues, valueAt, List.getElem?_eq_getElem hi]

theorem cmp_iff (value : ℤ) (comparison : Comparison) (threshold : ℤ) :
    cmp (.int value) comparison (.int threshold) = true ↔ Relates comparison value threshold := by
  cases comparison <;> simp [cmp, Relates]

/-- Two 32-bit values combine exactly. -/
theorem combined_exact (op : BinaryExpression) (values : List Int32) (i j : ℕ) :
    (match op with
      | .add => (Number.int (valueAt values i)).add (.int (valueAt values j))
      | .subtract => (Number.int (valueAt values i)).sub (.int (valueAt values j))) =
        .int (apply op (valueAt values i) (valueAt values j)) := by
  have hi := valueAt_bounds values i
  have hj := valueAt_bounds values j
  cases op with
  | add =>
      apply add_int
      rw [abs_le]
      omega
  | subtract =>
      apply sub_int
      rw [abs_le]
      omega

theorem evaluate_iff (h : StoredPredicate p q) (hreads : ∀ i ∈ p.reads, i < values.length) :
    p.evaluate (provenValues values) = true ↔ LegHolds values q := by
  cases h with
  | @single index comparison threshold =>
      rw [LegPredicate.evaluate, valueOf_proven (hreads index (by simp [LegPredicate.reads])),
        cmp_iff]
      rfl
  | @binary indexA indexB op comparison threshold =>
      have hA := valueOf_proven (hreads indexA (by simp [LegPredicate.reads]))
      have hB := valueOf_proven (hreads indexB (by simp [LegPredicate.reads]))
      simp only [LegPredicate.evaluate, hA, hB, combined_exact, cmp_iff]
      rfl

theorem evaluateAll_iff (h : List.Forall₂ StoredPredicate ps qs)
    (hreads : ∀ i ∈ ps.flatMap LegPredicate.reads, i < values.length) :
    ps.all (LegPredicate.evaluate (provenValues values)) = true ↔ ∀ q ∈ qs, LegHolds values q := by
  induction h with
  | nil => simp
  | cons hpq _ ih =>
      simp only [List.flatMap_cons, List.mem_append] at hreads
      have hhead := evaluate_iff hpq fun i hi => hreads i (.inl hi)
      have htail := ih fun i hi => hreads i (.inr hi)
      rw [List.all_cons, Bool.and_eq_true, List.forall_mem_cons, hhead, htail]

/-- What the oracle returns on a stored outcome is what the keeper computed. -/
theorem verdict_evaluate {legs : List State.StatLeg} (hlen : legs.length ≤ maxLegs)
    (hvalues : values.length = legs.length) (h : List.Forall₂ StoredPredicate ps qs)
    (honce : ExactlyOnce legs.length (ps.flatMap LegPredicate.reads)) :
    verdict legs qs values = .ok (ps.all (LegPredicate.evaluate (provenValues values))) := by
  rw [verdict_ok hvalues hlen, ← stored_reads h]
  refine ⟨honce, evaluateAll_iff h fun i hi => ?_⟩
  rw [hvalues]
  exact (honce.2 i).mp hi

/-! ## The first outcome -/

/-- Whether outcome `i` of the keeper's definition holds. -/
def keeperVerdict (outcomes : List (Outcome LegPredicate)) (values : List Number) (i : ℕ) :
    Option Bool :=
  outcomes[i]?.map fun outcome => outcome.predicates.all (LegPredicate.evaluate values)

theorem claimedFrom_eq (values : List Number) (i : ℕ) (outcomes : List (Outcome LegPredicate)) :
    claimedFrom values i outcomes =
      match outcomes.findIdx? fun o => o.predicates.all (LegPredicate.evaluate values) with
      | some j => ((i + j : ℕ) : ℤ)
      | none => -1 := by
  induction outcomes generalizing i with
  | nil => rfl
  | cons outcome outcomes ih =>
      rw [claimedFrom, List.findIdx?_cons]
      split_ifs with hholds
      · rfl
      · rw [ih]
        cases outcomes.findIdx? fun o => o.predicates.all (LegPredicate.evaluate values) with
        | none => rfl
        | some j => exact congrArg Nat.cast (Nat.add_right_comm i 1 j)

theorem claimed_eq_index {market : MarketTypeDef} {values : List Number} {i : ℕ} :
    claimedOutcomeFor market values = i ↔ keeperVerdict market.outcomes values i = some true ∧
      ∀ j < i, keeperVerdict market.outcomes values j = some false := by
  have hindex : claimedOutcomeFor market values = i ↔
      (market.outcomes.findIdx? fun o => o.predicates.all (LegPredicate.evaluate values)) =
        some i := by
    rw [claimedOutcomeFor, claimedFrom_eq]
    cases market.outcomes.findIdx? fun o => o.predicates.all (LegPredicate.evaluate values) with
    | none => exact ⟨fun h => by change -1 = (i : ℤ) at h; omega, fun h => by cases h⟩
    | some k => simp
  rw [hindex, List.findIdx?_eq_some_iff_getElem]
  simp only [keeperVerdict, Option.map_eq_some_iff, List.getElem?_eq_some_iff]
  constructor
  · rintro ⟨hi, hall, hbefore⟩
    exact ⟨⟨_, ⟨hi, rfl⟩, hall⟩, fun j hj =>
      ⟨_, ⟨hj.trans hi, rfl⟩, Bool.eq_false_iff.mpr (hbefore j hj)⟩⟩
  · rintro ⟨⟨_, ⟨hi, rfl⟩, hall⟩, hbefore⟩
    refine ⟨hi, hall, fun j hj => ?_⟩
    obtain ⟨_, ⟨_, rfl⟩, hfails⟩ := hbefore j hj
    exact Bool.eq_false_iff.mp hfails

theorem claimed_eq_none {market : MarketTypeDef} {values : List Number} :
    claimedOutcomeFor market values = -1 ↔
      ∀ i < market.outcomes.length, keeperVerdict market.outcomes values i = some false := by
  have hnone : claimedOutcomeFor market values = -1 ↔
      (market.outcomes.findIdx? fun o => o.predicates.all (LegPredicate.evaluate values)) =
        none := by
    rw [claimedOutcomeFor, claimedFrom_eq]
    cases market.outcomes.findIdx? fun o => o.predicates.all (LegPredicate.evaluate values) with
    | none => simp
    | some k => exact ⟨fun h => by change ((0 + k : ℕ) : ℤ) = -1 at h; omega, fun h => by cases h⟩
  rw [hnone, List.findIdx?_eq_none_iff, List.forall_mem_iff_forall_getElem]
  refine forall₂_congr fun i hi => ?_
  simp [keeperVerdict, List.getElem?_eq_getElem hi]

/-! ## Agreement of the claims -/

/-- What the oracle returns on the strategy of outcome `i` of a stored spec. -/
def oracleVerdict (spec : State.ComboSpec) (values : List Int32) (i : ℕ) :
    Option (Except MockOracleError Bool) :=
  spec.outcomes[i]?.map fun outcome => verdict spec.legs outcome.predicates values

variable {market : MarketTypeDef} {spec : State.ComboSpec}

theorem oracleVerdict_eq (h : Stored market spec) (hlen : market.legs.length ≤ maxLegs)
    (honce : ∀ outcome ∈ market.outcomes,
      ExactlyOnce market.legs.length (outcome.predicates.flatMap LegPredicate.reads))
    (hvalues : values.length = market.legs.length) (i : ℕ) :
    oracleVerdict spec values i =
      (keeperVerdict market.outcomes (provenValues values) i).map .ok := by
  have hlegs := h.legs.length_eq
  rw [hlegs] at hlen honce hvalues
  have houtcomes := h.outcomes
  unfold oracleVerdict keeperVerdict
  generalize market.outcomes = outcomes at honce houtcomes ⊢
  generalize spec.outcomes = stored at houtcomes ⊢
  induction houtcomes generalizing i with
  | nil => rfl
  | cons hhead _ ih =>
      cases i with
      | zero =>
          exact congrArg some
            (verdict_evaluate hlen hvalues hhead (honce _ List.mem_cons_self))
      | succ i => exact ih i fun outcome hmem => honce outcome (List.mem_cons_of_mem _ hmem)

/-- On 32-bit values of at most five legs the keeper claims the first outcome that the
oracle accepts, and none exactly when the oracle rejects every one. -/
theorem claimed_iff_accepted (h : Stored market spec) (hlen : market.legs.length ≤ maxLegs)
    (honce : ∀ outcome ∈ market.outcomes,
      ExactlyOnce market.legs.length (outcome.predicates.flatMap LegPredicate.reads))
    (hvalues : values.length = market.legs.length) :
    (∀ i : ℕ, claimedOutcomeFor market (provenValues values) = i ↔
      oracleVerdict spec values i = some (.ok true) ∧
        ∀ j < i, oracleVerdict spec values j = some (.ok false)) ∧
    (claimedOutcomeFor market (provenValues values) = -1 ↔
      ∀ i < spec.outcomes.length, oracleVerdict spec values i = some (.ok false)) := by
  have hverdict (i : ℕ) (holds : Bool) : oracleVerdict spec values i = some (.ok holds) ↔
      keeperVerdict market.outcomes (provenValues values) i = some holds := by
    rw [oracleVerdict_eq h hlen honce hvalues]
    simp
  simp only [hverdict, ← h.outcomes.length_eq]
  exact ⟨fun _ => claimed_eq_index, claimed_eq_none⟩

/-- The spec stored for the match result. -/
def matchResultSpec : State.ComboSpec where
  market := .key 1
  legs := [⟨1, 100⟩, ⟨2, 100⟩]
  outcomes := [⟨[.binary 0 1 .subtract .greaterThan 0]⟩, ⟨[.binary 0 1 .subtract .equalTo 0]⟩,
    ⟨[.binary 0 1 .subtract .lessThan 0]⟩]

theorem matchResult_stored : Stored matchResult matchResultSpec where
  legs := .cons ⟨rfl, rfl⟩ (.cons ⟨rfl, rfl⟩ .nil)
  outcomes := by
    have hstored (comparison : Comparison) :
        StoredPredicate (.binary 0 1 .subtract comparison (.int 0))
          (.binary 0 1 .subtract comparison 0) :=
      @StoredPredicate.binary 0 1 .subtract comparison 0
    exact .cons (.cons (hstored _) .nil)
      (.cons (.cons (hstored _) .nil) (.cons (.cons (hstored _) .nil) .nil))

/-- An away win by the widest margin of 32-bit values. -/
theorem claimed_iff_accepted_away :
    claimedOutcomeFor matchResult (provenValues [-2147483648, 2147483647]) = (2 : ℕ) ∧
      oracleVerdict matchResultSpec [-2147483648, 2147483647] 2 = some (.ok true) := by
  have honce : ∀ outcome ∈ matchResult.outcomes,
      ExactlyOnce matchResult.legs.length (outcome.predicates.flatMap LegPredicate.reads) := by
    have hpair : ExactlyOnce 2 [0, 1] := exactlyOnce_of_perm (.refl _)
    simp only [matchResult, List.forall_mem_cons, List.not_mem_nil, false_implies, implies_true,
      and_true]
    exact ⟨hpair, hpair, hpair⟩
  have h := claimed_iff_accepted matchResult_stored (by decide) honce
    (show [-2147483648, 2147483647].length = matchResult.legs.length from rfl)
  have hvotes : oracleVerdict matchResultSpec [-2147483648, 2147483647] 2 = some (.ok true) ∧
      ∀ j < 2, oracleVerdict matchResultSpec [-2147483648, 2147483647] j = some (.ok false) := by
    decide +kernel
  exact ⟨(h.1 2).mpr hvotes, hvotes.1⟩

end ProofBook.Catalogue
