import ProofBook.ClaimedOutcome
import ProofBook.Positions

/-!
# The catalogue's check of itself

When the keeper loads its catalogue it compares each definition with the
registry that names markets for users, and counts how often each outcome reads
each leg. What passes is what the program accepts at creation.
-/
namespace ProofBook.Catalogue
open Addresses OracleWire Checked Coverage Binary64 OracleSound CoverageChecks Binding Positions

/-! ## The registry -/

/-- What the check reads of a registered market type. -/
structure MarketTypeInfo where
  slug : String
  outcomes : List String
deriving Repr, DecidableEq

def typeSlug : ℕ → Option String
  | 0 => some "match_result_g0"
  | 1 => some "match_result_g1"
  | 2 => some "match_result_g2"
  | 3 => some "match_result_g3"
  | 4 => some "match_result_g4"
  | 28 => some "match_result"
  | 29 => some "goals_ou_25"
  | 30 => some "corners_ou_95"
  | 31 => some "cards_ou_35"
  | 32 => some "btts"
  | 33 => some "clean_sheet"
  | 34 => some "ht_result"
  | 35 => some "winning_margin"
  | 36 => some "parlay_win_corners"
  | 37 => some "parlay_corners_cards"
  | 38 => some "parlay_goals_cards"
  | 39 => some "parlay_win_cards"
  | _ => none

def marketTypes (type : ℕ) : Option MarketTypeInfo :=
  (typeSlug type).map fun slug => ⟨slug, typeOutcomes type⟩

/-! ## The check -/

/-- The labels from outcome `i` on. -/
def checkLabels (m : MarketTypeDef) (info : MarketTypeInfo) :
    ℕ → List (Outcome LegPredicate) → Except String PUnit.{1}
  | _, [] => pure .unit
  | i, o :: outcomes => do
      let registered := info.outcomes[i]?.getD "undefined"
      require (info.outcomes[i]? = some o.label)
        (s!"type {m.type} ({m.slug}) outcome {i}: registry says " ++
          s!"\"{registered}\", the predicate proves \"{o.label}\"")
      checkLabels m info (i + 1) outcomes

def checkRegistry (registry : ℕ → Option MarketTypeInfo) :
    List MarketTypeDef → Except String PUnit.{1}
  | [] => pure .unit
  | m :: markets => do
      let info ← demand (registry m.type)
        (s!"market type {m.type} ({m.slug}) is not in shared/markets.ts — the API " ++
          "would render it with no outcome labels")
      require (info.slug = m.slug) s!"type {m.type}: slug \"{info.slug}\" != \"{m.slug}\""
      require (info.outcomes.length = m.outcomes.length)
        (s!"type {m.type} ({m.slug}): registry has {info.outcomes.length} labels, " ++
          s!"the catalogue has {m.outcomes.length} outcomes")
      checkLabels m info 0 m.outcomes
      checkRegistry registry markets

/-- The counts from leg `i` on. -/
def checkCover (m : MarketTypeDef) (label : String) : ℕ → List ℕ → Except String PUnit.{1}
  | _, [] => pure .unit
  | i, c :: cover => do
      let key := (m.legs[i]?.map (·.key)).getD 0
      require (c ≠ 0) s!"{m.slug}/{label}: leg {i} (key {key}) is never evaluated — TxLINE 6071"
      require (c ≤ 1) s!"{m.slug}/{label}: leg {i} (key {key}) evaluated {c}x — TxLINE 6070"
      checkCover m label (i + 1) cover

def checkOutcomes (m : MarketTypeDef) : List (Outcome LegPredicate) → Except String PUnit.{1}
  | [] => pure .unit
  | o :: outcomes => do
      let cover ← countEach m.legs.length
        (fun i => s!"{m.slug}/{o.label}: leg index {i} out of range")
        (List.replicate m.legs.length 0) (o.predicates.flatMap LegPredicate.reads)
      checkCover m o.label 0 cover
      checkOutcomes m outcomes

/-- Every leg must be provable. -/
def checkFamilies : List Leg → Except String PUnit.{1}
  | [] => pure .unit
  | leg :: legs => do
      let _ ← familyOf leg.key
      checkFamilies legs

def checkDefs : List ℕ → List MarketTypeDef → Except String PUnit.{1}
  | _, [] => pure .unit
  | seen, m :: markets => do
      require (16 ≤ m.type) s!"{m.slug}: compound types must be >= 16"
      require (m.type ∉ seen) s!"duplicate market_type {m.type}"
      require (1 ≤ m.legs.length ∧ m.legs.length ≤ 5)
        s!"{m.slug}: {m.legs.length} legs, max is 5"
      checkFamilies m.legs
      require (2 ≤ m.outcomes.length ∧ m.outcomes.length ≤ 12)
        s!"{m.slug}: {m.outcomes.length} outcomes, must be 2..12"
      checkOutcomes m m.outcomes
      checkDefs (m.type :: seen) markets

def assertCatalogue (registry : ℕ → Option MarketTypeInfo) (markets : List MarketTypeDef) :
    Except String PUnit.{1} := do
  checkRegistry registry markets
  checkDefs [] markets

/-! ## What passes -/

/-- The registry names the outcomes as the definition does. -/
def Registered (registry : ℕ → Option MarketTypeInfo) (m : MarketTypeDef) : Prop :=
  registry m.type = some ⟨m.slug, m.outcomes.map (·.label)⟩

/-- A compound type with up to five provable legs and two to twelve outcomes. -/
structure Sized (m : MarketTypeDef) : Prop where
  compound : comboMarketTypeMin ≤ m.type
  legs : 1 ≤ m.legs.length ∧ m.legs.length ≤ maxLegs
  provable : ∀ leg ∈ m.legs, ∃ family, familyOf leg.key = .ok family
  outcomes : 2 ≤ m.outcomes.length ∧ m.outcomes.length ≤ 12

/-- Every outcome reads every leg once. -/
def ReadsOnce (m : MarketTypeDef) : Prop :=
  ∀ o ∈ m.outcomes, ExactlyOnce m.legs.length (o.predicates.flatMap LegPredicate.reads)

variable {registry : ℕ → Option MarketTypeInfo} {m : MarketTypeDef} {markets : List MarketTypeDef}
  {u : PUnit.{1}}

theorem checkLabels_ok {info : MarketTypeInfo} {i : ℕ} {outcomes : List (Outcome LegPredicate)} :
    checkLabels m info i outcomes = .ok u ↔
      ∀ j o, outcomes[j]? = some o → info.outcomes[i + j]? = some o.label := by
  induction outcomes generalizing i with
  | nil => simp [checkLabels, pure, Except.pure]
  | cons o outcomes ih =>
      simp only [checkLabels, bind_eq_ok, require_eq_ok, ih]
      constructor
      · rintro ⟨_, hhead, htail⟩ j p hp
        cases j with
        | zero =>
            obtain rfl := Option.some.inj hp
            exact hhead
        | succ j =>
            have := htail j p hp
            rwa [Nat.add_right_comm] at this
      · intro h
        refine ⟨.unit, h 0 o rfl, fun j p hp => ?_⟩
        have := h (j + 1) p hp
        rwa [Nat.add_right_comm]

theorem checkRegistry_ok :
    checkRegistry registry markets = .ok u ↔ ∀ m ∈ markets, Registered registry m := by
  induction markets with
  | nil => simp [checkRegistry, pure, Except.pure]
  | cons m markets ih =>
      simp only [checkRegistry, bind_eq_ok, demand_eq_ok, require_eq_ok, checkLabels_ok, ih,
        List.forall_mem_cons]
      constructor
      · rintro ⟨⟨slug, labels⟩, hinfo, _, rfl, _, hlength, _, hlabels, h⟩
        refine ⟨?_, h⟩
        have hmap : labels = m.outcomes.map (·.label) := by
          refine List.ext_getElem (by simpa using hlength) fun j hj hj' => ?_
          have hj'' : j < m.outcomes.length := by simpa using hj'
          have := hlabels j _ (List.getElem?_eq_getElem hj'')
          rw [Nat.zero_add, List.getElem?_eq_getElem hj] at this
          simpa using this
        rw [Registered, hinfo, hmap]
      · rintro ⟨hm, h⟩
        refine ⟨_, hm, .unit, rfl, .unit, by simp, .unit, fun j o ho => ?_, h⟩
        simp [ho]

theorem checkCover_ok {label : String} {i : ℕ} {cover : List ℕ} :
    checkCover m label i cover = .ok u ↔ ∀ c ∈ cover, c = 1 := by
  induction cover generalizing i with
  | nil => simp [checkCover, pure, Except.pure]
  | cons c cover ih =>
      simp only [checkCover, bind_eq_ok, require_eq_ok, List.forall_mem_cons, ih]
      constructor
      · rintro ⟨_, hpos, _, hle, h⟩
        exact ⟨by omega, h⟩
      · rintro ⟨hc, h⟩
        exact ⟨.unit, by omega, .unit, by omega, h⟩

theorem checkOutcomes_ok {outcomes : List (Outcome LegPredicate)} :
    checkOutcomes m outcomes = .ok u ↔ ∀ o ∈ outcomes,
      ExactlyOnce m.legs.length (o.predicates.flatMap LegPredicate.reads) := by
  induction outcomes with
  | nil => simp [checkOutcomes, pure, Except.pure]
  | cons o outcomes ih =>
      simp only [checkOutcomes, bind_eq_ok, checkCover_ok, List.forall_mem_cons, ih]
      rw [← (countEach_once : _ ↔ ExactlyOnce m.legs.length (o.predicates.flatMap _))]
      constructor
      · rintro ⟨cover, hcover, _, hone, h⟩
        exact ⟨⟨cover, hcover, hone⟩, h⟩
      · rintro ⟨⟨cover, hcover, hone⟩, h⟩
        exact ⟨cover, hcover, .unit, hone, h⟩

theorem checkFamilies_ok {legs : List Leg} :
    checkFamilies legs = .ok u ↔ ∀ leg ∈ legs, ∃ family, familyOf leg.key = .ok family := by
  induction legs with
  | nil => simp [checkFamilies, pure, Except.pure]
  | cons leg legs ih => simp [checkFamilies, bind_eq_ok, ih]

theorem checkDefs_ok {seen : List ℕ} :
    checkDefs seen markets = .ok u ↔ (markets.map (·.type)).Nodup ∧
      (∀ m ∈ markets, m.type ∉ seen) ∧ ∀ m ∈ markets, Sized m ∧ ReadsOnce m := by
  induction markets generalizing seen with
  | nil => simp [checkDefs, pure, Except.pure]
  | cons m markets ih =>
      simp only [checkDefs, bind_eq_ok, require_eq_ok, checkFamilies_ok, checkOutcomes_ok, ih,
        List.map_cons, List.nodup_cons, List.forall_mem_cons]
      simp only [List.mem_cons, not_or]
      constructor
      · rintro ⟨_, htype, _, hfresh, _, hlegs, _, hfamilies, _, houtcomes, _, honce, hnd, hseen, h⟩
        refine ⟨⟨fun hmem => ?_, hnd⟩, ⟨hfresh, fun m' hm' => (hseen m' hm').2⟩,
          ⟨⟨htype, hlegs, hfamilies, houtcomes⟩, honce⟩, h⟩
        obtain ⟨m', hm', he⟩ := List.mem_map.mp hmem
        exact (hseen m' hm').1 he
      · rintro ⟨⟨hnew, hnd⟩, ⟨hfresh, hseen⟩, ⟨hm, honce⟩, h⟩
        refine ⟨.unit, hm.compound, .unit, hfresh, .unit, hm.legs, .unit, hm.provable, .unit,
          hm.outcomes, .unit, honce, hnd, fun m' hm' => ⟨fun he => ?_, hseen m' hm'⟩, h⟩
        exact hnew (List.mem_map.mpr ⟨m', hm', he⟩)

theorem assertCatalogue_ok : assertCatalogue registry markets = .ok u ↔
    (∀ m ∈ markets, Registered registry m) ∧ (markets.map (·.type)).Nodup ∧
      ∀ m ∈ markets, Sized m ∧ ReadsOnce m := by
  simp only [assertCatalogue, bind_eq_ok, checkRegistry_ok, checkDefs_ok, List.not_mem_nil,
    not_false_eq_true, implies_true, true_and]
  exact ⟨fun ⟨_, h⟩ => h, fun h => ⟨.unit, h⟩⟩

/-! ## The program agrees -/

theorem stored_readsOnce {spec : State.ComboSpec} (h : Stored m spec) : ReadsOnce m ↔
    ∀ o ∈ spec.outcomes, ExactlyOnce spec.legs.length (o.predicates.flatMap legReads) := by
  have houtcomes := h.outcomes
  rw [ReadsOnce, h.legs.length_eq]
  generalize m.outcomes = outcomes at houtcomes ⊢
  generalize spec.outcomes = stored at houtcomes ⊢
  induction houtcomes with
  | nil => simp
  | cons hhead _ ih =>
      rw [List.forall_mem_cons, List.forall_mem_cons, stored_reads hhead]
      exact and_congr_right fun _ => ih

theorem Sized.accepted_iff {spec : State.ComboSpec} (hm : Sized m) (h : Stored m spec) :
    spec.validate m.outcomes.length = .ok .unit ↔ ReadsOnce m := by
  have hlegs := h.legs.length_eq
  have hne : spec.legs ≠ [] := List.length_pos_iff.mp (by have := hm.legs.1; omega)
  rw [comboSpecValidate_ok hne (hlegs ▸ hm.legs.2), stored_readsOnce h]
  exact and_iff_right h.outcomes.length_eq.symm

/-- Definitions of the right size under registered names and types of their own
pass the check exactly if the program accepts the spec of each, which then gets a
verdict on every outcome from any values. -/
theorem self_check_agrees (registry : ℕ → Option MarketTypeInfo) (markets : List MarketTypeDef)
    (specOf : MarketTypeDef → State.ComboSpec) (hspec : ∀ m ∈ markets, Stored m (specOf m)) :
    (assertCatalogue registry markets = .ok .unit ↔
      (∀ m ∈ markets, Registered registry m) ∧ (markets.map (·.type)).Nodup ∧
        ∀ m ∈ markets, Sized m ∧ (specOf m).validate m.outcomes.length = .ok .unit) ∧
    (assertCatalogue registry markets = .ok .unit → ∀ m ∈ markets, ∀ o ∈ (specOf m).outcomes,
      Evaluates (specOf m).legs o.predicates) := by
  have hagree : ∀ m ∈ markets, (Sized m ∧ (specOf m).validate m.outcomes.length = .ok .unit ↔
      Sized m ∧ ReadsOnce m) := fun m hm =>
    and_congr_right fun hsized => hsized.accepted_iff (hspec m hm)
  rw [assertCatalogue_ok, forall₂_congr hagree]
  refine ⟨Iff.rfl, ?_⟩
  rintro ⟨-, -, hall⟩ m hm o ho
  obtain ⟨hsized, honce⟩ := hall m hm
  have hlegs := (hspec m hm).legs.length_eq
  rw [evaluates_iff (hlegs ▸ hsized.legs.2)]
  exact (stored_readsOnce (hspec m hm)).mp honce o ho

/-- Its types, labels and counts: the catalogue the keeper ships passes. -/
theorem catalogue_passes : ∃ markets, catalogue = .ok markets ∧
    assertCatalogue marketTypes markets = .ok .unit := by
  have hpass : (do let markets ← catalogue; assertCatalogue marketTypes markets) = .ok .unit := by
    decide +kernel
  obtain ⟨markets, hmarkets, h⟩ := bind_eq_ok.mp hpass
  exact ⟨markets, hmarkets, h⟩

theorem self_check_agrees_matchResult :
    matchResultSpec.validate 3 = .ok .unit ∧ ∀ o ∈ matchResultSpec.outcomes,
      Evaluates matchResultSpec.legs o.predicates := by
  have hspec : ∀ m ∈ [matchResult], Stored m matchResultSpec :=
    List.forall_mem_singleton.mpr matchResult_stored
  obtain ⟨hiff, hverdict⟩ := self_check_agrees marketTypes [matchResult] (fun _ => matchResultSpec)
    hspec
  have hpass : assertCatalogue marketTypes [matchResult] = .ok .unit := by decide +kernel
  exact ⟨((hiff.mp hpass).2.2 matchResult List.mem_cons_self).2,
    hverdict hpass matchResult List.mem_cons_self⟩

end ProofBook.Catalogue
