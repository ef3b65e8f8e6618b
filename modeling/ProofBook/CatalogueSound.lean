import ProofBook.Lib.Tiling
import ProofBook.Catalogue
import ProofBook.CoverageChecks

/-!
# The grid of two conditions

Two conditions over disjoint families with their complements make four outcomes: each
reads every leg once, so the program accepts the spec, and on every vector of leg
values exactly one holds. Over-lines are complementary while the line's floor and its
successor are exact numbers.
-/
namespace ProofBook.Catalogue
open Addresses OracleWire Checked Coverage Binary64 Tiling OracleSound CoverageChecks

/-! ## Meaning -/

def LegPredicate.reads : LegPredicate → List ℕ
  | .single index _ _ => [index]
  | .binary indexA indexB _ _ _ => [indexA, indexB]

/-- A predicate on integer values of the legs. -/
def LegPredicate.holds (values : ℕ → ℤ) : LegPredicate → Bool
  | .single index comparison threshold => cmp (.int (values index)) comparison threshold
  | .binary indexA indexB op comparison threshold =>
      cmp (.int (apply op (values indexA) (values indexB))) comparison threshold

/-- The keeper's form of a predicate of the SDK. -/
def StatPredicate.leg : StatPredicate → LegPredicate
  | .single index p => .single index p.comparison p.threshold
  | .binary indexA indexB op p => .binary indexA indexB op p.comparison p.threshold

def StatPredicate.reads (p : StatPredicate) : List ℕ := p.leg.reads

def StatPredicate.holds (values : ℕ → ℤ) (p : StatPredicate) : Bool := p.leg.holds values

variable {P : Type}

def Outcome.holds (holds : (ℕ → ℤ) → P → Bool) (values : ℕ → ℤ) (outcome : Outcome P) : Bool :=
  outcome.predicates.all (holds values)

/-- The number of exactly one outcome that holds. -/
def OneHolds (holds : (ℕ → ℤ) → P → Bool) (outcomes : List (Outcome P)) (values : ℕ → ℤ) : Prop :=
  ∃! i : ℕ, ∃ outcome, outcomes[i]? = some outcome ∧ outcome.holds holds values = true

/-- The condition and its complement read each of its legs once, and on every vector
of integers exactly one of them holds. -/
structure Condition.Lawful (reads : P → List ℕ) (holds : (ℕ → ℤ) → P → Bool)
    (c : Condition P) : Prop where
  distinct : c.legs.Nodup
  pred_reads : ∀ o, (reads (c.pred o)).Perm (List.range' o c.legs.length)
  neg_reads : ∀ o, (reads (c.neg o)).Perm (List.range' o c.legs.length)
  complementary : ∀ o values, holds values (c.neg o) = !holds values (c.pred o)

def DisjointFamilies (a b : Condition P) : Prop :=
  ∃ famA famB, a.families = .ok famA ∧ b.families = .ok famB ∧ famA.Disjoint famB

/-- Every outcome reads every leg once, the program accepts each spec with as many
legs whose outcomes read the same, and one outcome holds on every vector of values. -/
structure Settles (reads : P → List ℕ) (holds : (ℕ → ℤ) → P → Bool) (legs : List Leg)
    (outcomes : List (Outcome P)) : Prop where
  four : outcomes.length = 4
  once : ∀ outcome ∈ outcomes, ExactlyOnce legs.length (outcome.predicates.flatMap reads)
  accepted : ∀ spec : State.ComboSpec, spec.legs.length = legs.length →
    spec.outcomes.map (fun outcome => outcome.predicates.flatMap Binding.legReads) =
      outcomes.map (fun outcome => outcome.predicates.flatMap reads) →
    spec.validate 4 = .ok .unit
  one : ∀ values, OneHolds holds outcomes values

variable {reads : P → List ℕ} {holds : (ℕ → ℤ) → P → Bool} {a b : Condition P} {legs : List Leg}
  {outcomes : List (Outcome P)}

theorem oneHolds_iff {values : ℕ → ℤ} : OneHolds holds outcomes values ↔
    ExactlyOne (outcomes.map fun outcome => outcome.holds holds values) := by
  simp only [OneHolds, exactlyOne_iff, List.getElem?_map, Option.map_eq_some_iff]

/-! ## Families -/

theorem mapM_ok {A B E : Type} {f : A → Except E B} {xs : List A} {ys : List B}
    (h : xs.mapM f = .ok ys) {x : A} (hx : x ∈ xs) : ∃ y ∈ ys, f x = .ok y := by
  induction xs generalizing ys with
  | nil => simp at hx
  | cons x' xs ih =>
      simp only [List.mapM_cons, bind_eq_ok, pure_eq_ok] at h
      obtain ⟨y, hy, ys, hys, rfl⟩ := h
      rcases List.mem_cons.mp hx with rfl | hx
      · exact ⟨y, List.mem_cons_self, hy⟩
      · obtain ⟨z, hz, hfz⟩ := ih hys hx
        exact ⟨z, List.mem_cons_of_mem _ hz, hfz⟩

theorem family_mem {c : Condition P} {families : List String} (h : c.families = .ok families)
    {leg : Leg} (hleg : leg ∈ c.legs) : ∃ family ∈ families, familyOf leg.key = .ok family := by
  simp only [Condition.families, bind_eq_ok, pure_eq_ok] at h
  obtain ⟨all, hall, rfl⟩ := h
  obtain ⟨family, hmem, hfamily⟩ := mapM_ok hall hleg
  exact ⟨family, List.mem_eraseDups.mpr hmem, hfamily⟩

/-- Legs of disjoint families are distinct. -/
theorem legs_disjoint (h : DisjointFamilies a b) : a.legs.Disjoint b.legs := by
  obtain ⟨famA, famB, ha, hb, hdisjoint⟩ := h
  intro leg hlegA hlegB
  obtain ⟨family, hmemA, hfamily⟩ := family_mem ha hlegA
  obtain ⟨family', hmemB, hfamily'⟩ := family_mem hb hlegB
  rw [hfamily] at hfamily'
  injection hfamily' with heq
  exact hdisjoint hmemA (heq ▸ hmemB)

/-! ## Coverage -/

theorem exactlyOnce_of_perm {n : ℕ} {is : List ℕ} (h : is.Perm (List.range n)) :
    ExactlyOnce n is :=
  ⟨h.nodup_iff.mpr List.nodup_range, fun _ => h.mem_iff.trans List.mem_range⟩

theorem pair_covers {p q : P} {m n : ℕ} (hp : (reads p).Perm (List.range' 0 m))
    (hq : (reads q).Perm (List.range' m n)) : ExactlyOnce (m + n) ([p, q].flatMap reads) := by
  apply exactlyOnce_of_perm
  have hrange : List.range (m + n) = List.range' 0 m ++ List.range' m n := by
    rw [List.range_eq_range', ← List.range'_append_1, Nat.zero_add]
  rw [hrange]
  simpa using hp.append hq

theorem gridOutcomes_once (ha : a.Lawful reads holds) (hb : b.Lawful reads holds) :
    ∀ outcome ∈ gridOutcomes a b,
      ExactlyOnce (a.legs.length + b.legs.length) (outcome.predicates.flatMap reads) := by
  have hpa := ha.pred_reads 0
  have hna := ha.neg_reads 0
  have hpb := hb.pred_reads a.legs.length
  have hnb := hb.neg_reads a.legs.length
  simp only [gridOutcomes, List.forall_mem_cons, List.not_mem_nil, false_implies, implies_true,
    and_true]
  exact ⟨pair_covers hpa hpb, pair_covers hpa hnb, pair_covers hna hpb, pair_covers hna hnb⟩

/-- One outcome of the grid holds, the one of the two conditions' truth values. -/
theorem gridOutcomes_one (ha : a.Lawful reads holds) (hb : b.Lawful reads holds)
    (values : ℕ → ℤ) : OneHolds holds (gridOutcomes a b) values := by
  have htests : (gridOutcomes a b).map (fun outcome => outcome.holds holds values) =
      conjunctions [holds values (a.pred 0), !holds values (a.pred 0)]
        [holds values (b.pred a.legs.length), !holds values (b.pred a.legs.length)] := by
    simp [gridOutcomes, Outcome.holds, conjunctions, ha.complementary, hb.complementary]
  rw [oneHolds_iff, htests]
  exact (exactlyOne_complement _).conjunctions (exactlyOne_complement _)

theorem validate_ok {n : ℕ} (hn : 0 < n) (hmax : n ≤ maxLegs) {spec : State.ComboSpec}
    (honce : ∀ outcome ∈ outcomes, ExactlyOnce n (outcome.predicates.flatMap reads))
    (hlegs : spec.legs.length = n)
    (hreads : spec.outcomes.map (fun outcome => outcome.predicates.flatMap Binding.legReads) =
      outcomes.map (fun outcome => outcome.predicates.flatMap reads)) :
    spec.validate outcomes.length = .ok .unit := by
  have hlength : spec.outcomes.length = outcomes.length := by
    simpa using congrArg List.length hreads
  rw [comboSpecValidate_ok (List.length_pos_iff.mp (hlegs ▸ hn)) (hlegs ▸ hmax), hlegs]
  refine ⟨hlength, fun outcome houtcome => ?_⟩
  have hmem : outcome.predicates.flatMap Binding.legReads ∈
      outcomes.map (fun outcome => outcome.predicates.flatMap reads) := by
    rw [← hreads]
    exact List.mem_map_of_mem houtcome
  obtain ⟨source, hsource, heq⟩ := List.mem_map.mp hmem
  rw [← heq]
  exact honce source hsource

/-! ## The grid -/

/-- Every predicate reads one leg or two. -/
def ReadsOneOrTwo (reads : P → List ℕ) : Prop :=
  ∀ p, 1 ≤ (reads p).length ∧ (reads p).length ≤ 2

theorem legs_length (hreads : ReadsOneOrTwo reads) (ha : a.Lawful reads holds) :
    1 ≤ a.legs.length ∧ a.legs.length ≤ 2 := by
  have hlength : (reads (a.pred 0)).length = a.legs.length := by
    simpa using (ha.pred_reads 0).length_eq
  rw [← hlength]
  exact hreads (a.pred 0)

theorem combined_length (hreads : ReadsOneOrTwo reads) (ha : a.Lawful reads holds)
    (hb : b.Lawful reads holds) : (a.legs ++ b.legs).length ≤ maxLegs := by
  have hlenA := (legs_length hreads ha).2
  have hlenB := (legs_length hreads hb).2
  rw [List.length_append]
  unfold maxLegs
  omega

theorem grid_ok (hdisjoint : DisjointFamilies a b)
    (hlength : (a.legs ++ b.legs).length ≤ maxLegs)
    (overlapText : String → String) (tooManyText : ℕ → String) :
    grid overlapText tooManyText a b = .ok (a.legs ++ b.legs, gridOutcomes a b) := by
  obtain ⟨famA, famB, hfa, hfb, hfam⟩ := hdisjoint
  have hoverlap : famA.filter (fun f => famB.contains f) = [] := by
    rw [List.filter_eq_nil_iff]
    intro f hf hcontains
    exact hfam hf (List.contains_iff_mem.mp hcontains)
  simp only [grid, bind_eq_ok, require_eq_ok, pure_eq_ok]
  exact ⟨famA, hfa, famB, hfb, .unit, hoverlap, .unit, hlength, trivial⟩

theorem grid_settles (hreads : ReadsOneOrTwo reads) (ha : a.Lawful reads holds)
    (hb : b.Lawful reads holds) (hlegs : legs.length = a.legs.length + b.legs.length) :
    Settles reads holds legs (gridOutcomes a b) := by
  have hpos : 0 < a.legs.length + b.legs.length :=
    Nat.add_pos_left (legs_length hreads ha).1 _
  have hmax : a.legs.length + b.legs.length ≤ maxLegs := by
    simpa using combined_length hreads ha hb
  have honce := gridOutcomes_once ha hb
  exact ⟨rfl, hlegs ▸ honce, fun spec hspec hsame =>
    validate_ok hpos hmax honce (hspec.trans hlegs) hsame, gridOutcomes_one ha hb⟩

theorem grid_distinct (ha : a.Lawful reads holds) (hb : b.Lawful reads holds)
    (hdisjoint : DisjointFamilies a b) : (a.legs ++ b.legs).Nodup :=
  List.nodup_append'.mpr ⟨ha.distinct, hb.distinct, legs_disjoint hdisjoint⟩

theorem readsOneOrTwo_leg : ReadsOneOrTwo LegPredicate.reads := by
  intro p
  cases p <;> simp [LegPredicate.reads]

theorem readsOneOrTwo_stat : ReadsOneOrTwo StatPredicate.reads := fun p => readsOneOrTwo_leg p.leg

/-- The keeper's grid, also on the period of a fixture's own proof. -/
theorem parlayGrid_ok {a b : Condition LegPredicate}
    (ha : a.Lawful LegPredicate.reads LegPredicate.holds)
    (hb : b.Lawful LegPredicate.reads LegPredicate.holds) (hdisjoint : DisjointFamilies a b)
    (type : ℕ) (slug : String) :
    ∃ market, parlayGrid type slug a b = .ok market ∧ market.legs.Nodup ∧
      Settles LegPredicate.reads LegPredicate.holds market.legs market.outcomes ∧
      ∀ period, period.isFinite = true → ∃ rebound, withPeriod market period = .ok rebound ∧
        Settles LegPredicate.reads LegPredicate.holds rebound.legs rebound.outcomes := by
  simp only [parlayGrid, grid_ok hdisjoint (combined_length readsOneOrTwo_leg ha hb)]
  refine ⟨_, rfl, grid_distinct ha hb hdisjoint,
    grid_settles readsOneOrTwo_leg ha hb List.length_append, fun period hperiod => ?_⟩
  cases period with
  | nan => cases hperiod
  | inf negative => cases hperiod
  | finite q =>
      exact ⟨_, rfl, grid_settles readsOneOrTwo_leg ha hb
        ((List.length_map _).trans List.length_append)⟩

theorem parlay_ok {a b : Condition StatPredicate}
    (ha : a.Lawful StatPredicate.reads StatPredicate.holds)
    (hb : b.Lawful StatPredicate.reads StatPredicate.holds) (hdisjoint : DisjointFamilies a b) :
    ∃ market, parlay a b = .ok market ∧ market.legs.Nodup ∧
      Settles StatPredicate.reads StatPredicate.holds market.legs market.outcomes := by
  simp only [parlay, grid_ok hdisjoint (combined_length readsOneOrTwo_stat ha hb)]
  exact ⟨_, rfl, grid_distinct ha hb hdisjoint,
    grid_settles readsOneOrTwo_stat ha hb List.length_append⟩

/-! ## The conditions -/

/-- A line whose floor and its successor are exact, or an infinite one. -/
def Line.Exact (line : Line) : Prop :=
  line.value ≠ .nan ∧ ∀ q, line.value = .finite q → -(2 ^ 53) ≤ ⌊q⌋ ∧ ⌊q⌋ < 2 ^ 53

/-- Above the floor of a line, or below the number after it. -/
theorem over_complementary {line : Line} (h : line.Exact) (sum : ℤ) :
    cmp (.int sum) .lessThan (line.value.floor.add (.int 1)) =
      !cmp (.int sum) .greaterThan line.value.floor := by
  obtain ⟨hnan, hexact⟩ := h
  cases hvalue : line.value with
  | nan => exact absurd hvalue hnan
  | inf negative => cases negative <;> rfl
  | finite q =>
      obtain ⟨hlow, hhigh⟩ := hexact q hvalue
      have hsucc : |⌊q⌋ + 1| ≤ 2 ^ 53 := by
        rw [abs_le]
        omega
      rw [Number.floor_finite, add_int hsucc]
      simp only [cmp, Number.lt_int, ← decide_not]
      congr 1
      rw [eq_iff_iff]
      omega

theorem win_complementary (difference : ℤ) :
    cmp (.int difference) .lessThan (.int 1) = !cmp (.int difference) .greaterThan (.int 0) := by
  simp only [cmp, Number.lt_int, ← decide_not]
  congr 1
  rw [eq_iff_iff]
  omega

/-- A way to write a predicate over two legs, with its meaning. -/
structure ReadsPair (reads : P → List ℕ) (holds : (ℕ → ℤ) → P → Bool) (binary : Binary P) :
    Prop where
  reads : ∀ i j op comparison threshold, reads (binary i j op comparison threshold) = [i, j]
  holds : ∀ values i j op comparison threshold,
    holds values (binary i j op comparison threshold) =
      cmp (.int (apply op (values i) (values j))) comparison threshold

theorem readsPair_keeper : ReadsPair LegPredicate.reads LegPredicate.holds .binary where
  reads _ _ _ _ _ := rfl
  holds _ _ _ _ _ _ := rfl

theorem readsPair_sdk : ReadsPair StatPredicate.reads StatPredicate.holds sdkBinary where
  reads _ _ _ _ _ := rfl
  holds _ _ _ _ _ _ := rfl

variable {binary : Binary P}

theorem winCondition_lawful (h : ReadsPair reads holds binary) :
    (winCondition binary).Lawful reads holds where
  distinct := by simp [winCondition, finalLegs]
  pred_reads _ := by simp [winCondition, h.reads, finalLegs, List.range'_succ]
  neg_reads _ := by simp [winCondition, h.reads, finalLegs, List.range'_succ]
  complementary _ _ := by
    rw [winCondition, h.holds, h.holds]
    exact win_complementary _

theorem overCondition_lawful (h : ReadsPair reads holds binary) {keys : ℕ × ℕ}
    (hkeys : keys.1 ≠ keys.2) {line : Line} (hline : line.Exact) (noun : String) :
    (overCondition binary keys noun line).Lawful reads holds where
  distinct := by simp [overCondition, finalLegs, hkeys]
  pred_reads _ := by simp [overCondition, h.reads, finalLegs, List.range'_succ]
  neg_reads _ := by simp [overCondition, h.reads, finalLegs, List.range'_succ]
  complementary _ _ := by
    rw [overCondition, h.holds, h.holds]
    exact over_complementary hline _

/-- The conditions of the keeper and of the SDK. -/
theorem conditions_lawful :
    homeWin.Lawful LegPredicate.reads LegPredicate.holds ∧
      sdkHomeWin.Lawful StatPredicate.reads StatPredicate.holds ∧
      ∀ line : Line, line.Exact →
        (∀ condition ∈ [overGoals, overCorners, overYellows],
          (condition line).Lawful LegPredicate.reads LegPredicate.holds) ∧
        ∀ condition ∈ [sdkOverGoals, sdkOverCorners, sdkOverCards],
          (condition line).Lawful StatPredicate.reads StatPredicate.holds := by
  refine ⟨winCondition_lawful readsPair_keeper, winCondition_lawful readsPair_sdk, ?_⟩
  intro line hline
  constructor
  · simp only [List.forall_mem_cons, List.not_mem_nil, false_implies, implies_true, and_true]
    exact ⟨overCondition_lawful readsPair_keeper (by decide) hline _,
      overCondition_lawful readsPair_keeper (by decide) hline _,
      overCondition_lawful readsPair_keeper (by decide) hline _⟩
  · simp only [List.forall_mem_cons, List.not_mem_nil, false_implies, implies_true, and_true]
    exact ⟨overCondition_lawful readsPair_sdk (by decide) hline _,
      overCondition_lawful readsPair_sdk (by decide) hline _,
      overCondition_lawful readsPair_sdk (by decide) hline _⟩

/-! ## The catalogue -/

/-- One outcome of a definition holds on every vector of counts. -/
def OneOnCounts (market : MarketTypeDef) : Prop :=
  ∀ values : ℕ → ℤ, (∀ i, 0 ≤ values i) → OneHolds LegPredicate.holds market.outcomes values

theorem holds_margin (values : ℕ → ℤ) (label : String) (comparison : Comparison) (t : ℤ) :
    (Outcome.mk label (margin comparison t)).holds LegPredicate.holds values =
      cmp (.int (values 0 - values 1)) comparison (.int t) := by
  simp [Outcome.holds, margin, LegPredicate.holds, apply]

theorem holds_total (values : ℕ → ℤ) (label : String) (comparison : Comparison) (t : ℤ) :
    (Outcome.mk label (total comparison t)).holds LegPredicate.holds values =
      cmp (.int (values 0 + values 1)) comparison (.int t) := by
  simp [Outcome.holds, total, LegPredicate.holds, apply]

theorem holds_scored (values : ℕ → ℤ) (label : String) (home away : Comparison) :
    (Outcome.mk label (scored home away)).holds LegPredicate.holds values =
      (cmp (.int (values 0)) home (.int 0) && cmp (.int (values 1)) away (.int 0)) := by
  simp [Outcome.holds, scored, LegPredicate.holds]

/-- Positive and zero are complementary on counts. -/
theorem scored_complementary {count : ℤ} (h : 0 ≤ count) :
    cmp (.int count) .equalTo (.int 0) = !cmp (.int count) .greaterThan (.int 0) := by
  simp only [cmp, Number.lt_int, Number.eq_int, ← decide_not]
  congr 1
  rw [eq_iff_iff]
  omega

theorem result_one {market : MarketTypeDef} {home draw away : String}
    (h : market.outcomes = [⟨home, margin .greaterThan 0⟩, ⟨draw, margin .equalTo 0⟩,
      ⟨away, margin .lessThan 0⟩]) : OneOnCounts market := by
  intro values _
  rw [oneHolds_iff, h]
  simpa [holds_margin, cmp, ladder] using exactlyOne_ladder (values 0 - values 1) 0 1

theorem total_one {market : MarketTypeDef} {above below : String} {t : ℤ}
    (h : market.outcomes = [⟨above, total .greaterThan t⟩, ⟨below, total .lessThan (t + 1)⟩]) :
    OneOnCounts market := by
  intro values _
  rw [oneHolds_iff, h]
  simpa [holds_total, cmp, ladder] using exactlyOne_ladder (values 0 + values 1) t 0

theorem winningMargin_one : OneOnCounts winningMargin := by
  intro values _
  rw [oneHolds_iff]
  simpa [winningMargin, holds_margin, cmp, ladder, List.range_succ] using
    exactlyOne_ladder (values 0 - values 1) 1 3

/-- The four ways the two sides score or do not, in some order. -/
theorem scored_one {market : MarketTypeDef} {both home away neither : String}
    (h : market.outcomes.Perm [⟨both, scored .greaterThan .greaterThan⟩,
      ⟨home, scored .greaterThan .equalTo⟩, ⟨away, scored .equalTo .greaterThan⟩,
      ⟨neither, scored .equalTo .equalTo⟩]) : OneOnCounts market := by
  intro values hvalues
  rw [oneHolds_iff]
  apply ExactlyOne.perm ?_ (h.map _).symm
  simp only [List.map_cons, List.map_nil, holds_scored, scored_complementary (hvalues 0),
    scored_complementary (hvalues 1)]
  exact (exactlyOne_complement _).conjunctions (exactlyOne_complement _)

theorem exact_of_floor {line : Line} {q : ℚ} {t : ℤ} (hq : line.value = .finite q)
    (ht : ⌊q⌋ = t) (hlow : -(2 ^ 53) ≤ t) (hhigh : t < 2 ^ 53) : line.Exact := by
  rw [Line.Exact, hq]
  refine ⟨by simp, fun q' hq' => ?_⟩
  injection hq' with hq'
  rw [← hq', ht]
  exact ⟨hlow, hhigh⟩

theorem line95_exact : line95.Exact := by
  apply exact_of_floor rfl (t := 9) <;> norm_num [Int.floor_eq_iff]

theorem line35_exact : line35.Exact := by
  apply exact_of_floor rfl (t := 3) <;> norm_num [Int.floor_eq_iff]

theorem line25_exact : line25.Exact := by
  apply exact_of_floor rfl (t := 2) <;> norm_num [Int.floor_eq_iff]

/-- Families of a condition on two keys of one family. -/
theorem finalLegs_families {c : Condition P} {keys : ℕ × ℕ} {family : String}
    (hlegs : c.legs = finalLegs keys) (h₁ : familyOf keys.1 = .ok family)
    (h₂ : familyOf keys.2 = .ok family) : c.families = .ok [family] := by
  simp [Condition.families, hlegs, finalLegs, h₁, h₂, bind, Except.bind, pure, Except.pure,
    List.eraseDups_cons]

theorem finalLegs_disjoint {a b : Condition P} {keysA keysB : ℕ × ℕ} {famA famB : String}
    (hlegsA : a.legs = finalLegs keysA) (hlegsB : b.legs = finalLegs keysB)
    (hA : familyOf keysA.1 = .ok famA ∧ familyOf keysA.2 = .ok famA)
    (hB : familyOf keysB.1 = .ok famB ∧ familyOf keysB.2 = .ok famB) (hne : famA ≠ famB) :
    DisjointFamilies a b :=
  ⟨[famA], [famB], finalLegs_families hlegsA hA.1 hA.2, finalLegs_families hlegsB hB.1 hB.2,
    by simpa using hne.symm⟩

theorem parlayGrid_one {a b : Condition LegPredicate}
    (ha : a.Lawful LegPredicate.reads LegPredicate.holds)
    (hb : b.Lawful LegPredicate.reads LegPredicate.holds) (hdisjoint : DisjointFamilies a b)
    (type : ℕ) (slug : String) :
    ∃ market, parlayGrid type slug a b = .ok market ∧ OneOnCounts market := by
  obtain ⟨market, hmarket, -, hsettles, -⟩ := parlayGrid_ok ha hb hdisjoint type slug
  exact ⟨market, hmarket, fun values _ => hsettles.one values⟩

theorem goals_family : familyOf 1 = .ok "goals" ∧ familyOf 2 = .ok "goals" := ⟨rfl, rfl⟩
theorem yellows_family : familyOf 3 = .ok "yellows" ∧ familyOf 4 = .ok "yellows" := ⟨rfl, rfl⟩
theorem corners_family : familyOf 7 = .ok "corners" ∧ familyOf 8 = .ok "corners" := ⟨rfl, rfl⟩

theorem catalogue_one : ∃ markets, catalogue = .ok markets ∧ ∀ m ∈ markets, OneOnCounts m := by
  have hwin : homeWin.Lawful LegPredicate.reads LegPredicate.holds :=
    winCondition_lawful readsPair_keeper
  have hcorners : (overCorners line95).Lawful LegPredicate.reads LegPredicate.holds :=
    overCondition_lawful readsPair_keeper (by decide) line95_exact _
  have hyellows : (overYellows line35).Lawful LegPredicate.reads LegPredicate.holds :=
    overCondition_lawful readsPair_keeper (by decide) line35_exact _
  have hgoals : (overGoals line25).Lawful LegPredicate.reads LegPredicate.holds :=
    overCondition_lawful readsPair_keeper (by decide) line25_exact _
  obtain ⟨winCorners, h36, hone36⟩ := parlayGrid_one hwin hcorners
    (finalLegs_disjoint rfl rfl goals_family corners_family (by decide)) 36 "parlay_win_corners"
  obtain ⟨cornersCards, h37, hone37⟩ := parlayGrid_one hcorners hyellows
    (finalLegs_disjoint rfl rfl corners_family yellows_family (by decide)) 37
    "parlay_corners_cards"
  obtain ⟨goalsCards, h38, hone38⟩ := parlayGrid_one hgoals hyellows
    (finalLegs_disjoint rfl rfl goals_family yellows_family (by decide)) 38 "parlay_goals_cards"
  obtain ⟨winCards, h39, hone39⟩ := parlayGrid_one hwin hyellows
    (finalLegs_disjoint rfl rfl goals_family yellows_family (by decide)) 39 "parlay_win_cards"
  have hbtts : OneOnCounts btts := scored_one (.refl _)
  have hperm : cleanSheet.outcomes.Perm
      (⟨"Neither", scored .greaterThan .greaterThan⟩ :: cleanSheet.outcomes.take 3) :=
    List.perm_append_singleton _ (cleanSheet.outcomes.take 3)
  have hclean : OneOnCounts cleanSheet := scored_one hperm
  simp only [catalogue, h36, h37, h38, h39]
  refine ⟨_, rfl, ?_⟩
  simp only [List.forall_mem_cons, List.not_mem_nil, false_implies, implies_true, and_true]
  exact ⟨result_one rfl, total_one rfl, total_one rfl, total_one rfl, hbtts, hclean,
    result_one rfl, winningMargin_one, hone36, hone37, hone38, hone39⟩

/-! ## Creatable markets -/

/-- The grids of lawful conditions over disjoint families settle on every vector of
integers, the built-in conditions are lawful on exact lines, and the catalogue settles
on every vector of counts. -/
theorem grids_settle :
    (∀ a b : Condition LegPredicate, a.Lawful LegPredicate.reads LegPredicate.holds →
      b.Lawful LegPredicate.reads LegPredicate.holds → DisjointFamilies a b →
      ∀ type slug, ∃ market, parlayGrid type slug a b = .ok market ∧ market.legs.Nodup ∧
        Settles LegPredicate.reads LegPredicate.holds market.legs market.outcomes ∧
        ∀ period, period.isFinite = true → ∃ rebound, withPeriod market period = .ok rebound ∧
          Settles LegPredicate.reads LegPredicate.holds rebound.legs rebound.outcomes) ∧
    (∀ a b : Condition StatPredicate, a.Lawful StatPredicate.reads StatPredicate.holds →
      b.Lawful StatPredicate.reads StatPredicate.holds → DisjointFamilies a b →
      ∃ market, parlay a b = .ok market ∧ market.legs.Nodup ∧
        Settles StatPredicate.reads StatPredicate.holds market.legs market.outcomes) ∧
    (homeWin.Lawful LegPredicate.reads LegPredicate.holds ∧
      sdkHomeWin.Lawful StatPredicate.reads StatPredicate.holds ∧
      ∀ line : Line, line.Exact →
        (∀ condition ∈ [overGoals, overCorners, overYellows],
          (condition line).Lawful LegPredicate.reads LegPredicate.holds) ∧
        ∀ condition ∈ [sdkOverGoals, sdkOverCorners, sdkOverCards],
          (condition line).Lawful StatPredicate.reads StatPredicate.holds) ∧
    ∃ markets, catalogue = .ok markets ∧ ∀ market ∈ markets, OneOnCounts market :=
  ⟨fun _ _ ha hb hdisjoint => parlayGrid_ok ha hb hdisjoint,
    fun _ _ ha hb hdisjoint => parlay_ok ha hb hdisjoint, conditions_lawful, catalogue_one⟩

/-- The first line whose successor is lost. -/
def lostLine : Line := ⟨.int (2 ^ 53), "9007199254740992"⟩

theorem lostLine_succ : lostLine.value.floor.add (.int 1) = .int (2 ^ 53) := by
  have hfloor : lostLine.value.floor = .int (2 ^ 53) := by
    simp [lostLine, Number.int, Number.floor]
  rw [hfloor, add_int_round, ← round_two_pow_53_add_one]
  push_cast
  rfl

/-- That many goals of the home side. -/
def lostGoals (i : ℕ) : ℤ := if i = 0 then 2 ^ 53 else 0

/-- Its market has no outcome that holds on them. -/
theorem line_lost : ∃ market,
    parlayGrid 38 "parlay_goals_cards" (overGoals lostLine) (overYellows line35) = .ok market ∧
      ¬ OneHolds LegPredicate.holds market.outcomes lostGoals := by
  have hgrid := @grid_ok _ (overGoals lostLine) (overYellows line35)
    (finalLegs_disjoint rfl rfl goals_family yellows_family (by decide)) (by decide)
  simp only [parlayGrid, hgrid]
  refine ⟨_, rfl, ?_⟩
  have hsum : apply .add (lostGoals 0) (lostGoals 1) = 2 ^ 53 := rfl
  have hpred : ((overGoals lostLine).pred 0).holds lostGoals = false := by
    simp only [overGoals, overCondition, LegPredicate.holds, Nat.zero_add, hsum]
    simp [cmp, lostLine, Number.int, Number.floor, Number.lt]
  have hneg : ((overGoals lostLine).neg 0).holds lostGoals = false := by
    simp only [overGoals, overCondition, LegPredicate.holds, Nat.zero_add, hsum, lostLine_succ]
    simp [cmp]
  rw [oneHolds_iff]
  simp [gridOutcomes, Outcome.holds, hpred, hneg, ExactlyOne]

end ProofBook.Catalogue
