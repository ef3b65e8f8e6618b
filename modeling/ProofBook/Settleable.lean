import ProofBook.Binding

/-!
# Which accepted rules can be settled

Creation checks that the predicates read each leg index once. Settlement needs
each leg at its own position of the published event tree, so a rule that names
one stat twice is accepted and can never settle; any other rule can.
-/
namespace ProofBook.Settleable
open Addresses OracleWire State Checked Coverage Merkle OracleAdapter MockOracle OracleSound Binding
open Instructions.PropVaults

variable {D : Type}

/-! ## The published event tree -/

def statOf (value : StatLeg → Int32) (leg : StatLeg) : ScoreStat := ⟨leg.key, value leg, leg.period⟩

theorem statOf_injective (value : StatLeg → Int32) : Function.Injective (statOf value) := by
  rintro ⟨key, period⟩ ⟨key', period'⟩ h
  simp only [statOf, ScoreStat.mk.injEq] at h
  rw [h.1, h.2.2]

/-- The leaves of the event tree: the stats in order, then empty leaves. -/
def eventLeaves (value : StatLeg → Int32) (order : List StatLeg) (i : ℕ) : List UInt8 :=
  ((order[i]?).map fun leg => borshScoreStat (statOf value leg)).getD []

/-- The root over the smallest power of two that holds all stats. -/
def eventRoot (H : Keccak D) (value : StatLeg → Int32) (order : List StatLeg) : D :=
  perfect (scheme H) (eventLeaves value order) (Nat.clog 2 order.length) 0

/-- The day's root commits to the fixture, and the fixture's events root is that
of the tree over exactly the distinct stats of the legs. -/
structure Published (H : Keccak D) (view : RootsView D) (fixtureId : Int64)
    (legs : List StatLeg) (value : StatLeg → Int32) (ts : Int64)
    (summary : ScoresBatchSummary D) (fixtureProof mainTreeProof : List (ProofNode D)) : Prop where
  fixture : summary.fixtureId = fixtureId
  roots : ∃ roots, RootsOf view (dailyScoresPda mockOracleId ts) ts roots ∧
    foldProof H (foldProof H (leafHash H (borshSummary H summary)) fixtureProof) mainTreeProof =
      roots.root
  events : ∃ order : List StatLeg, order.Nodup ∧ (∀ leg, leg ∈ order ↔ leg ∈ legs) ∧
    summary.eventsSubTreeRoot = eventRoot H value order

/-- The proof a resolver assembles from the published data. -/
abbrev legProof (legs : List StatLeg) (value : StatLeg → Int32) (ts : Int64)
    (summary : ScoresBatchSummary D) (fixtureProof mainTreeProof : List (ProofNode D))
    (leafIndices : List UInt32) (multiproofHashes : List (ProofNode D)) : SettlementProofV3 D :=
  ⟨ts, summary, fixtureProof, mainTreeProof, summary.eventsSubTreeRoot, legs.map value,
    multiproofHashes, leafIndices⟩

/-- Some indices and some multiproof make the oracle return the conjunction of
the predicates over the values. -/
def Settles [DecidableEq D] (H : Keccak D) (view : RootsView D) (fixtureId : Int64)
    (legs : List StatLeg) (predicates : List LegPredicate) (value : StatLeg → Int32) (ts : Int64)
    (summary : ScoresBatchSummary D) (fixtureProof mainTreeProof : List (ProofNode D)) : Prop :=
  ∃ leafIndices multiproofHashes holds,
    buildAndVerifyV3Legs (mockOracle H) view mockOracleId (dailyScoresPda mockOracleId ts) fixtureId
      legs predicates (legProof legs value ts summary fixtureProof mainTreeProof leafIndices
        multiproofHashes) = .ok holds ∧
      (holds = true ↔ ∀ p ∈ predicates, LegHolds (legs.map value) p)

/-! ## Creation -/

theorem markAll_eq (nLegs : ℕ) (seen : List Bool) (predicates : List LegPredicate) :
    markAll nLegs seen predicates = markEach nLegs .invalidComboSpec .duplicateLegCoverage seen
      (predicates.flatMap legReads) := by
  induction predicates generalizing seen with
  | nil => rfl
  | cons p predicates ih =>
      have hp : p.mark seen nLegs =
          markEach nLegs .invalidComboSpec .duplicateLegCoverage seen (legReads p) := by
        cases p <;> simp [LegPredicate.mark, legReads, markEach, touch, bind_assoc]
      rw [markAll, hp, List.flatMap_cons, markEach_append]
      exact bind_congr fun seen => ih seen

/-- What creation checks of a conjunction of predicates. -/
theorem coverLegs_iff {nLegs : ℕ} (h : nLegs ≤ maxLegs) {predicates : List LegPredicate} :
    coverLegs nLegs predicates = .ok .unit ↔
      ExactlyOnce nLegs (predicates.flatMap legReads) := by
  simp only [coverLegs, markAll_eq, bind_eq_ok, require_eq_ok]
  exact coverage_iff h

theorem validateOutcomes_covers {nLegs : ℕ} {outcomes : List ComboOutcome} {u : PUnit.{1}}
    (h : validateOutcomes nLegs outcomes = .ok u) :
    ∀ outcome ∈ outcomes, coverLegs nLegs outcome.predicates = .ok .unit := by
  induction outcomes with
  | nil => simp
  | cons outcome outcomes ih =>
      simp only [validateOutcomes, bind_eq_ok, require_eq_ok] at h
      obtain ⟨_, -, _, hc, h⟩ := h
      exact List.forall_mem_cons.mpr ⟨hc, ih h⟩

/-! ## Verifying a prefix of a perfect tree -/

/-- The nodes at a height from one index on. -/
def nodes (H : Keccak D) (leaves : ℕ → List UInt8) (height start count : ℕ) : Level D :=
  (List.range' start count).map fun i => (i, perfect (scheme H) leaves height i)

/-- The sibling that an odd number of nodes needs. -/
def fed (H : Keccak D) (leaves : ℕ → List UInt8) (height start count : ℕ) : List (ProofNode D) :=
  if count % 2 = 1 then [⟨perfect (scheme H) leaves height (start + count), true⟩] else []

/-- The siblings that the whole climb needs. -/
def supplied (H : Keccak D) (leaves : ℕ → List UInt8) : ℕ → ℕ → ℕ → List (ProofNode D)
  | 0, _, _ => []
  | n + 1, height, count =>
      if count ≤ 1 then [] else
        fed H leaves height 0 count ++ supplied H leaves n (height + 1) ((count + 1) / 2)

variable {H : Keccak D} {leaves : ℕ → List UInt8} {height start count n : ℕ}

theorem nodes_ascending : Ascending (nodes H leaves height start count) := by
  refine List.pairwise_map.mpr ?_
  exact List.pairwise_lt_range'

theorem parentHash_perfect (a : ℕ) :
    parentHash H (2 * a) (perfect (scheme H) leaves height (2 * a))
      (perfect (scheme H) leaves height (2 * a + 1)) =
        perfect (scheme H) leaves (height + 1) a := by
  rw [parentHash, if_pos (by omega)]
  rfl

/-- One pass over consecutive nodes that start at a left child. -/
theorem climb_nodes (a : ℕ) (rest : List (ProofNode D)) :
    climb H (nodes H leaves height (2 * a) count) (fed H leaves height (2 * a) count ++ rest) =
      .ok (nodes H leaves (height + 1) a ((count + 1) / 2), rest) := by
  induction count using Nat.twoStepInduction generalizing a with
  | zero => rfl
  | one =>
      simp [nodes, fed, climb, feed, bind, Except.bind, pure, Except.pure, parentHash_perfect]
  | more count ih _ =>
      have hsib : 2 * a + 1 = (2 * a) ^^^ 1 := by rw [sibling_eq, if_pos (by omega)]
      have hfed : fed H leaves height (2 * a) (count + 2) =
          fed H leaves height (2 * (a + 1)) count := by
        simp only [fed, Nat.add_mod_right]
        rw [show 2 * a + (count + 2) = 2 * (a + 1) + count by omega]
      have ih := ih (a + 1)
      rw [← hfed] at ih
      have hrest : nodes H leaves height (2 * a) (count + 2) =
          (2 * a, perfect (scheme H) leaves height (2 * a)) ::
            (2 * a + 1, perfect (scheme H) leaves height (2 * a + 1)) ::
              nodes H leaves height (2 * (a + 1)) count := by
        simp [nodes, List.range'_succ, Nat.mul_add]
      rw [hrest, climb, if_pos hsib, ih]
      simp [nodes, bind, Except.bind, pure, Except.pure, parentHash_perfect, List.range'_succ,
        show (count + 2 + 1) / 2 = (count + 1) / 2 + 1 by omega]

theorem walk_nodes (hpos : 1 ≤ count) (hcount : count ≤ 2 ^ n) :
    walk H n (nodes H leaves height 0 count) (supplied H leaves n height count) =
      .ok ([(0, perfect (scheme H) leaves (height + Nat.clog 2 count) 0)], []) := by
  induction n generalizing height count with
  | zero =>
      obtain rfl : count = 1 := by simpa using le_antisymm hcount hpos
      simp [walk, supplied, nodes, pure, Except.pure]
  | succ n ih =>
      by_cases hone : count = 1
      · subst hone
        simp [walk, supplied, nodes, atRoot, pure, Except.pure]
      · have hroot : atRoot (nodes H leaves height 0 count) = false := by
          simp [atRoot, nodes]
          omega
        have hclimb : climb H (nodes H leaves height (2 * 0) count)
            (fed H leaves height (2 * 0) count ++
              supplied H leaves n (height + 1) ((count + 1) / 2)) =
            .ok (nodes H leaves (height + 1) 0 ((count + 1) / 2),
              supplied H leaves n (height + 1) ((count + 1) / 2)) := climb_nodes 0 _
        rw [Nat.mul_zero] at hclimb
        have hsupplied : supplied H leaves (n + 1) height count =
            fed H leaves height 0 count ++ supplied H leaves n (height + 1) ((count + 1) / 2) :=
          if_neg (by omega)
        have hclog := Nat.clog_of_two_le (b := 2) (n := count) (by omega) (by omega)
        have hhalf : (count + 1) / 2 ≤ 2 ^ n := by
          rw [pow_succ] at hcount
          omega
        have hnext : walk H n (nodes H leaves (height + 1) 0 ((count + 1) / 2))
            (supplied H leaves n (height + 1) ((count + 1) / 2)) =
            .ok ([(0, perfect (scheme H) leaves
              (height + 1 + Nat.clog 2 ((count + 1) / 2)) 0)], []) := ih (by omega) hhalf
        rw [hsupplied, walk, hroot, hclog,
          show height + (Nat.clog 2 ((count + 2 - 1) / 2) + 1) =
            height + 1 + Nat.clog 2 ((count + 1) / 2) by
              rw [show count + 2 - 1 = count + 1 by omega]
              omega]
        simp only [Bool.false_eq_true, if_false, hclimb, bind, Except.bind,
          sortLevel_eq nodes_ascending, dedupLevel_eq nodes_ascending, hnext]

theorem sortLevel_of_perm {level : Level D}
    (h : level.Perm (nodes H leaves height start count)) :
    sortLevel level = nodes H leaves height start count := by
  have hperm : (sortLevel level).Perm (nodes H leaves height start count) :=
    (List.perm_insertionSort _ level).trans h
  refine List.Perm.eq_of_pairwise ?_ (sortLevel_sorted level)
    (nodes_ascending.imp fun hab => hab.le) hperm
  intro a b ha hb hab hba
  obtain ⟨i, -, rfl⟩ := List.mem_map.mp (hperm.mem_iff.mp ha)
  obtain ⟨j, -, rfl⟩ := List.mem_map.mp hb
  obtain rfl : i = j := le_antisymm hab hba
  rfl

/-! ## Settling -/

variable {value : StatLeg → Int32} {order legs : List StatLeg}

/-- Each stat of the tree is the leaf of its place in the order. -/
theorem nodes_order (hnd : order.Nodup) :
    nodes H (eventLeaves value order) 0 0 order.length = order.map fun leg =>
      (order.idxOf leg, leafHash H (borshScoreStat (statOf value leg))) := by
  refine List.ext_getElem (by simp [nodes]) fun i hi hi' => ?_
  have hlt : i < order.length := by simpa using hi'
  simp [nodes, perfect, scheme, eventLeaves, hnd.idxOf_getElem i hlt, hlt]

variable [DecidableEq D]

/-- Legs that are all different verify at their places in the tree. -/
theorem verifyMultiproof_order (hne : legs ≠ []) (hlen : legs.length ≤ maxLegs)
    (hlegs : legs.Nodup) (hnd : order.Nodup) (hmem : ∀ leg, leg ∈ order ↔ leg ∈ legs) :
    verifyMultiproof H (legs.map fun leg => leafHash H (borshScoreStat (statOf value leg)))
      (legs.map fun leg => UInt32.ofNat (order.idxOf leg))
      (supplied H (eventLeaves value order) 32 0 order.length) (eventRoot H value order) =
        .ok .unit := by
  have hperm : legs.Perm order := (List.perm_ext_iff_of_nodup hlegs hnd).mpr fun leg =>
    (hmem leg).symm
  have hsmall : order.length ≤ maxLegs := hperm.length_eq ▸ hlen
  have hpos : 1 ≤ order.length := by
    rw [← hperm.length_eq]
    exact List.length_pos_iff.mpr hne
  have hindex : ∀ leg ∈ legs, (UInt32.ofNat (order.idxOf leg)).toNat = order.idxOf leg := by
    intro leg hleg
    have := List.idxOf_lt_length_iff.mpr ((hmem leg).mpr hleg)
    unfold maxLegs at hsmall
    rw [UInt32.toNat_ofNat']
    exact Nat.mod_eq_of_lt (by omega)
  have hlevel : ((legs.map fun leg => UInt32.ofNat (order.idxOf leg)).map (·.toNat)).zip
      (legs.map fun leg => leafHash H (borshScoreStat (statOf value leg))) =
        legs.map fun leg => (order.idxOf leg, leafHash H (borshScoreStat (statOf value leg))) := by
    rw [List.map_map, List.zip_map']
    refine List.map_congr_left fun leg hleg => ?_
    rw [Function.comp_apply, hindex leg hleg]
  have hsort : sortLevel (legs.map fun leg =>
      (order.idxOf leg, leafHash H (borshScoreStat (statOf value leg)))) =
        nodes H (eventLeaves value order) 0 0 order.length :=
    sortLevel_of_perm (by rw [nodes_order hnd]; exact hperm.map _)
  have hwalk : walk H 32 (nodes H (eventLeaves value order) 0 0 order.length)
      (supplied H (eventLeaves value order) 32 0 order.length) =
      .ok ([(0, perfect (scheme H) (eventLeaves value order) (0 + Nat.clog 2 order.length) 0)],
        []) := walk_nodes hpos (hsmall.trans (by decide))
  have hdistinct : (nodes H (eventLeaves value order) 0 0 order.length).IsChain
      fun a b => a.1 ≠ b.1 := (nodes_ascending.imp fun hab => hab.ne).isChain
  simp only [verifyMultiproof, bind_eq_ok, require_eq_ok, hlevel, hsort]
  refine ⟨.unit, by simpa using hne, .unit, hdistinct, _, hwalk, .unit, rfl, ?_⟩
  simp [eventRoot]

/-- A multiproof that verifies puts each leg at its own place in the tree. -/
theorem nodup_of_verifyMultiproof (hH : CollisionFree H) (hnd : order.Nodup)
    {leafIndices : List UInt32} {multiproof : List (ProofNode D)} {u : PUnit.{1}}
    (hlen : leafIndices.length = legs.length)
    (h : verifyMultiproof H (legs.map fun leg => leafHash H (borshScoreStat (statOf value leg)))
      leafIndices multiproof (eventRoot H value order) = .ok u) : legs.Nodup := by
  obtain ⟨hindices, d, hat⟩ := verifyMultiproof_at h (by simpa using hlen.symm)
  have hplace : ∀ n (hn : n < legs.length), order[leafIndices[n].toNat]? = some legs[n] := by
    intro n hn
    have hleaf := hat (leafIndices[n].toNat, leafHash H (borshScoreStat (statOf value legs[n])))
      (List.mem_iff_getElem.mpr ⟨n, by simp; omega, by simp⟩)
    have hbytes := At.perfect_leaf hH.scheme hleaf
    cases hget : order[leafIndices[n].toNat]? with
    | none =>
        have := congrArg List.length hbytes
        simp [eventLeaves, hget, borshScoreStat, leBytes_length] at this
    | some leg =>
        simp only [eventLeaves, hget, Option.map_some, Option.getD_some] at hbytes
        rw [statOf_injective value (borshScoreStat_injective hbytes)]
  rw [List.nodup_iff_injective_getElem]
  rintro ⟨i, hi⟩ ⟨j, hj⟩ hij
  have hi' := hplace i hi
  have hj' := hplace j hj
  simp only at hij
  rw [hij, ← hj'] at hi'
  have hlt : leafIndices[i].toNat < order.length := by
    by_contra hge
    rw [List.getElem?_eq_none (by omega)] at hi'
    rw [← hi'] at hj'
    cases hj'
  have hidx := (List.getElem?_inj hlt hnd).mp hi'
  have := (List.Nodup.getElem_inj_iff hindices).mp (UInt32.toNat_inj.mp hidx)
  exact Fin.ext this

variable {view : RootsView D} {fixtureId ts : Int64} {predicates : List LegPredicate}
  {summary : ScoresBatchSummary D} {fixtureProof mainTreeProof : List (ProofNode D)}

omit [DecidableEq D] in
theorem legLeaves_hashes :
    ((legLeaves (D := D) legs (legs.map value)).map fun leaf =>
      leafHash H (borshScoreStat leaf.stat)) =
        legs.map fun leg => leafHash H (borshScoreStat (statOf value leg)) := by
  induction legs with
  | nil => rfl
  | cons leg legs ih => exact congrArg (_ :: ·) ih

/-- A covered conjunction settles exactly when its legs are different stats. -/
theorem settles_iff (hH : CollisionFree H) (hne : legs ≠ []) (hlen : legs.length ≤ maxLegs)
    (hcover : ExactlyOnce legs.length (predicates.flatMap legReads))
    (hpub : Published H view fixtureId legs value ts summary fixtureProof mainTreeProof) :
    Settles H view fixtureId legs predicates value ts summary fixtureProof mainTreeProof ↔
      legs.Nodup := by
  obtain ⟨order, hnd, hmem, hroot⟩ := hpub.events
  have hvalues : (legs.map value).length = legs.length := List.length_map _
  simp only [Settles, buildAndVerifyV3Legs, invokeValidateStatV3_eq, validateStatV3,
    legPayload, bind_eq_ok, mapError_eq_ok, require_eq_ok, loadRoots_ok, evaluateStrategy_ok,
    refs_toStat, List.length_map, legLeaves_length hvalues, legLeaves_hashes,
    legLeaves_values hvalues, List.forall_mem_map, statHolds_toStat]
  constructor
  · rintro ⟨leafIndices, multiproof, holds, ⟨_, -, _, -, _, hindices, _, -, roots, -, _, -, _, -, _,
      hmulti, -⟩, -⟩
    rw [hroot] at hmulti
    exact nodup_of_verifyMultiproof hH hnd hindices hmulti
  · intro hlegs
    obtain ⟨roots, hroots, hfold⟩ := hpub.roots
    have hverdict : ∃ holds : Bool, (holds = true ↔
        ∀ p ∈ predicates, LegHolds (legs.map value) p) := by
      by_cases hall : ∀ p ∈ predicates, LegHolds (legs.map value) p
      · exact ⟨true, by simpa using hall⟩
      · exact ⟨false, by simpa using hall⟩
    obtain ⟨holds, hholds⟩ := hverdict
    have hmulti : verifyMultiproof H
        (legs.map fun leg => leafHash H (borshScoreStat (statOf value leg)))
        (legs.map fun leg => UInt32.ofNat (order.idxOf leg))
        (supplied H (eventLeaves value order) 32 0 order.length) summary.eventsSubTreeRoot =
          .ok .unit := hroot ▸ verifyMultiproof_order hne hlen hlegs hnd hmem
    refine ⟨_, _, holds, ⟨.unit, hpub.fixture, .unit, trivial, .unit, List.length_map _, .unit,
      trivial, roots, hroots, .unit, trivial, .unit, (List.length_map _).symm, .unit, hmulti, .unit,
      ?_, ?_, hcover, hholds⟩, hholds⟩
    · simpa [verifyFixture] using hfold
    · unfold maxLegs at hlen
      omega

/-- Every outcome of an accepted compound spec, and every accepted vault, has a
proof that settles it exactly when its legs are different stats. -/
theorem settleable_iff (hH : CollisionFree H)
    (hpub : Published H view fixtureId legs value ts summary fixtureProof mainTreeProof) :
    (∀ (s : ComboSpec) numOutcomes, s.legs = legs → s.validate numOutcomes = .ok .unit →
      ∀ outcome ∈ s.outcomes,
        (Settles H view fixtureId legs outcome.predicates value ts summary fixtureProof
          mainTreeProof ↔ legs.Nodup)) ∧
    (∀ v : PropVault D, v.legs = legs → v.validate = .ok .unit →
      (Settles H view fixtureId legs v.predicates value ts summary fixtureProof mainTreeProof ↔
        legs.Nodup)) := by
  constructor
  · rintro s numOutcomes rfl hvalid outcome houtcome
    simp only [ComboSpec.validate, bind_eq_ok, require_eq_ok] at hvalid
    obtain ⟨_, ⟨hne, hlen⟩, _, -, hvalid⟩ := hvalid
    have hcover := validateOutcomes_covers hvalid outcome houtcome
    exact settles_iff hH hne hlen ((coverLegs_iff hlen).mp hcover) hpub
  · rintro v rfl hvalid
    simp only [PropVault.validate, bind_eq_ok, require_eq_ok] at hvalid
    obtain ⟨_, ⟨hne, hlen⟩, _, -, hcover⟩ := hvalid
    exact settles_iff hH hne hlen ((coverLegs_iff hlen).mp hcover) hpub

/-! ## A vault that names one stat twice -/

/-- A summary of fixture 7 over the tree of some stats. -/
def treeSummary (value : StatLeg → Int32) (order : List StatLeg) :
    ScoresBatchSummary (List UInt8) :=
  ⟨7, ⟨1, 0, 0⟩, eventRoot plainHash value order⟩

/-- Day zero holds this summary only. -/
def treeView (value : StatLeg → Int32) (order : List StatLeg) : RootsView (List UInt8) :=
  fun k => if k = dailyScoresPda mockOracleId 0 then
    some ⟨0, leafHash plainHash (borshSummary plainHash (treeSummary value order))⟩ else none

theorem treeView_published (value : StatLeg → Int32) {legs order : List StatLeg}
    (hnd : order.Nodup) (hmem : ∀ leg, leg ∈ order ↔ leg ∈ legs) :
    Published plainHash (treeView value order) 7 legs value 0 (treeSummary value order) [] [] where
  fixture := rfl
  roots := ⟨_, ⟨if_pos rfl, (by decide : (0 : UInt16) = epochDayOf 0)⟩, rfl⟩
  events := ⟨order, hnd, hmem, rfl⟩

/-- A vault whose predicates each read their own leg. -/
def vaultOver (legs : List StatLeg) : PropVault (List UInt8) :=
  newPropVault (mockOracle plainHash) ⟨.key 12, .key 1, .key 2⟩
    ⟨0, legs, [.single 0 .greaterThan 0, .single 1 .greaterThan 0], 7, 500, .key 13, 100, 50⟩

def goalLegs : List StatLeg := [⟨1, 100⟩, ⟨2, 100⟩]

def homeTwice : List StatLeg := [⟨1, 100⟩, ⟨1, 100⟩]

theorem settleable_iff_goals :
    Settles plainHash (treeView (fun _ => 3) goalLegs) 7 goalLegs (vaultOver goalLegs).predicates
      (fun _ => 3) 0 (treeSummary (fun _ => 3) goalLegs) [] [] :=
  ((settleable_iff plainHash_collisionFree
    (treeView_published (fun _ => 3) (by decide) fun _ => Iff.rfl)).2 (vaultOver goalLegs) rfl
      (by decide)).mpr (by decide)

/-- An accepted vault that no proof settles: both legs are the home goals. -/
theorem accepted_not_settleable :
    ¬ ∀ (v : PropVault (List UInt8)) view value ts summary fixtureProof mainTreeProof,
      v.validate = .ok .unit →
      Published plainHash view v.fixtureId v.legs value ts summary fixtureProof mainTreeProof →
      Settles plainHash view v.fixtureId v.legs v.predicates value ts summary fixtureProof
        mainTreeProof := by
  intro h
  have hmem : ∀ leg, leg ∈ [(⟨1, 100⟩ : StatLeg)] ↔ leg ∈ homeTwice := by simp [homeTwice]
  have hpub := treeView_published (fun _ => 3) (by decide) hmem
  have hset := h (vaultOver homeTwice) _ _ _ _ _ _ (by decide) hpub
  have hcover : coverLegs homeTwice.length (vaultOver homeTwice).predicates = .ok .unit := by
    decide
  have hnd := (settles_iff plainHash_collisionFree (by decide) (by decide)
    ((coverLegs_iff (by decide)).mp hcover) hpub).mp hset
  exact absurd hnd (by decide)

end ProofBook.Settleable
