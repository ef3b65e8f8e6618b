import ProofBook.Multiproof
import Mathlib.Logic.Relation

/-!
# The loops of the multiproof

The two loops of `verify_multiproof` as they are written, with every access to a slice
checked: past its end the program panics. From distinct indices the loops end after 32
levels at most, no access is past the end, and the parents of a level ascend strictly,
so that sorting and deduplicating them changes nothing.
-/
namespace ProofBook.MultiproofLoop
open OracleWire Checked MockOracle OracleSound Binding Relation

variable {D : Type}

/-! ## The function -/

/-- A requirement that failed, or the panic of an access past the end. -/
inductive Stop
  | requires (e : MockOracleError)
  | outOfRange
deriving DecidableEq

/-- What a slice holds at an index. -/
def entry {A : Type} (xs : List A) (i : ℕ) : Except Stop A := demand xs[i]? .outOfRange

/-- Before the condition of the loop over the levels, or of the loop over the nodes of
one level; `fed` counts the hashes that were used. -/
inductive Place (D : Type)
  | levels (level : Level D) (fed : ℕ)
  | nodes (level next : Level D) (i fed : ℕ)

inductive Turn (D : Type)
  | goes (p : Place D)
  | leaves (level : Level D) (fed : ℕ)

section
variable (H : Keccak D) (multiproof : List (ProofNode D))

/-- The hash of the entry after `i`, if it is the sibling of `idx`. -/
def knownSibling (level : Level D) (i idx : ℕ) : Except Stop (Option D) :=
  if i + 1 < level.length then do
    let (j, known) ← entry level (i + 1)
    pure (if j = idx ^^^ 1 then some known else none)
  else pure none

/-- One turn of a loop. -/
def turn : Place D → Except Stop (Turn D)
  | .levels level fed => do
      let above ← if 1 < level.length then pure true else do
        let (idx, _) ← entry level 0
        pure (decide (idx ≠ 0))
      pure (if above then .goes (.nodes level [] 0 fed) else .leaves level fed)
  | .nodes level next i fed =>
      if i < level.length then do
        let (idx, hash) ← entry level i
        match ← knownSibling level i idx with
        | some known =>
            let parent := (idx / 2, parentHash H idx hash known)
            pure (.goes (.nodes level (next ++ [parent]) (i + 2) fed))
        | none => do
            require (fed < multiproof.length) (.requires .statProofMismatch)
            let p ← entry multiproof fed
            let parent := (idx / 2, parentHash H idx hash p.hash)
            pure (.goes (.nodes level (next ++ [parent]) (i + 1) (fed + 1)))
      else pure (.goes (.levels (dedupLevel (sortLevel next)) fed))

/-- The loop over the levels from a place on, with the number of levels it takes. -/
inductive Loop : ℕ → Place D → Except Stop (Level D × ℕ) → Prop
  | stops {p : Place D} {e : Stop} : turn H multiproof p = .error e → Loop 0 p (.error e)
  | leaves {p : Place D} {level : Level D} {fed : ℕ} :
      turn H multiproof p = .ok (.leaves level fed) → Loop 0 p (.ok (level, fed))
  | enters {level : Level D} {fed n : ℕ} {q : Place D} {r : Except Stop (Level D × ℕ)} :
      turn H multiproof (.levels level fed) = .ok (.goes q) → Loop n q r →
      Loop (n + 1) (.levels level fed) r
  | goes {level next : Level D} {i fed n : ℕ} {q : Place D} {r : Except Stop (Level D × ℕ)} :
      turn H multiproof (.nodes level next i fed) = .ok (.goes q) → Loop n q r →
      Loop n (.nodes level next i fed) r

/-- The places the loops come to. -/
def Reached (p q : Place D) : Prop :=
  ReflTransGen (fun p q => turn H multiproof p = .ok (.goes q)) p q

/-- Up to the loop. -/
def enter (leafHashes : List D) (leafIndices : List UInt32) : Except Stop (Level D) := do
  require (leafHashes ≠ []) (.requires .missingStat)
  let level := sortLevel ((leafIndices.map (·.toNat)).zip leafHashes)
  require (level.IsChain fun a b => a.1 ≠ b.1) (.requires .duplicateStatCoverage)
  pure level

variable [DecidableEq D]

/-- After the loop. -/
def leave (root : D) (level : Level D) (fed : ℕ) : Except Stop PUnit.{1} := do
  require (fed = multiproof.length) (.requires .statProofMismatch)
  let (_, hash) ← entry level 0
  require (hash = root) (.requires .statProofMismatch)

/-- The whole function, with the number of levels it climbs. -/
inductive Verifies (leafHashes : List D) (leafIndices : List UInt32) (root : D) :
    ℕ → Except Stop PUnit.{1} → Prop
  | rejected {e : Stop} : enter leafHashes leafIndices = .error e →
      Verifies leafHashes leafIndices root 0 (.error e)
  | stopped {level : Level D} {n : ℕ} {e : Stop} : enter leafHashes leafIndices = .ok level →
      Loop H multiproof n (.levels level 0) (.error e) →
      Verifies leafHashes leafIndices root n (.error e)
  | left {level top : Level D} {n fed : ℕ} : enter leafHashes leafIndices = .ok level →
      Loop H multiproof n (.levels level 0) (.ok (top, fed)) →
      Verifies leafHashes leafIndices root n (leave multiproof root top fed)

end

/-! ## One turn -/

variable {H : Keccak D} {multiproof : List (ProofNode D)} {level next : Level D} {i fed : ℕ}

theorem entry_of_drop {A : Type} {xs l : List A} {x : A} (h : xs.drop i = x :: l) :
    entry xs i = .ok x := by
  have hx : xs[i]? = some x := by rw [← List.head?_drop, h, List.head?_cons]
  rw [entry, hx]
  rfl

theorem lt_of_drop {A : Type} {xs l : List A} {x : A} (h : xs.drop i = x :: l) :
    i < xs.length := by
  by_contra hle
  rw [List.drop_of_length_le (not_lt.mp hle)] at h
  cases h

theorem drop_succ_of_drop {A : Type} {xs l : List A} {x : A} (h : xs.drop i = x :: l) :
    xs.drop (i + 1) = l := by
  rw [← List.drop_drop, h, List.drop_one, List.tail_cons]

/-- The condition of the loop over the levels. -/
theorem turn_levels (hne : level ≠ []) : turn H multiproof (.levels level fed) =
    .ok (if atRoot level then .leaves level fed else .goes (.nodes level [] 0 fed)) := by
  cases level with
  | nil => exact absurd rfl hne
  | cons e level =>
      cases level with
      | nil =>
          by_cases h : e.1 = 0 <;>
            simp [turn, entry, demand, atRoot, h, bind, Except.bind, pure, Except.pure]
      | cons e' level => simp [turn, atRoot, bind, Except.bind, pure, Except.pure]

/-- The loop over the nodes ends. -/
theorem turn_end (h : level.drop i = []) : turn H multiproof (.nodes level next i fed) =
    .ok (.goes (.levels (dedupLevel (sortLevel next)) fed)) := by
  rw [turn, if_neg (not_lt.mpr (List.drop_eq_nil_iff.mp h))]
  rfl

/-- Two siblings next to each other. -/
theorem turn_pair {idx : ℕ} {hash known : D} {l : Level D}
    (h : level.drop i = (idx, hash) :: (idx ^^^ 1, known) :: l) :
    turn H multiproof (.nodes level next i fed) =
      .ok (.goes (.nodes level (next ++ [(idx / 2, parentHash H idx hash known)]) (i + 2)
        fed)) := by
  have htail := drop_succ_of_drop h
  have hknown : knownSibling level i idx = .ok (some known) := by
    rw [knownSibling, if_pos (lt_of_drop htail), entry_of_drop htail]
    simp [bind, Except.bind, pure, Except.pure]
  rw [turn, if_pos (lt_of_drop h), entry_of_drop h]
  simp [bind, Except.bind, hknown, pure, Except.pure]

/-- A node whose sibling is not next to it. -/
theorem turn_single {idx : ℕ} {hash : D} {l : Level D} (h : level.drop i = (idx, hash) :: l)
    (hl : ∀ e ∈ l.head?, e.1 ≠ idx ^^^ 1) : turn H multiproof (.nodes level next i fed) =
      match multiproof.drop fed with
      | [] => .error (.requires .statProofMismatch)
      | p :: _ => .ok (.goes (.nodes level
          (next ++ [(idx / 2, parentHash H idx hash p.hash)]) (i + 1) (fed + 1))) := by
  have htail := drop_succ_of_drop h
  have hknown : knownSibling level i idx = .ok none := by
    unfold knownSibling
    split
    next hlt =>
      cases l with
      | nil => exact absurd (List.drop_eq_nil_iff.mp htail) (not_le.mpr hlt)
      | cons e l =>
          rw [entry_of_drop htail]
          simp [bind, Except.bind, pure, Except.pure, hl e rfl]
    · rfl
  rw [turn, if_pos (lt_of_drop h), entry_of_drop h]
  simp only [bind, Except.bind, hknown]
  cases hfed : multiproof.drop fed with
  | nil =>
      rw [require, if_neg (not_lt.mpr (List.drop_eq_nil_iff.mp hfed))]
  | cons p rest =>
      rw [require, if_pos (lt_of_drop hfed), entry_of_drop hfed]
      rfl

/-! ## One level -/

theorem drop_add_two {A : Type} {xs l : List A} {x y : A} (h : xs.drop i = x :: y :: l) :
    xs.drop (i + 2) = l := drop_succ_of_drop (drop_succ_of_drop h)

/-- The loop over the nodes refuses where a pass does, and else comes to the parents that
the pass gives. -/
def Passes (H : Keccak D) (multiproof : List (ProofNode D)) (level next : Level D) (i fed : ℕ) :
    Except MockOracleError (Level D × List (ProofNode D)) → Prop
  | .error e => Loop H multiproof 0 (.nodes level next i fed) (.error (.requires e))
  | .ok (parents, rest) => ∃ fed' ≤ multiproof.length, multiproof.drop fed' = rest ∧
      ∀ n r, Loop H multiproof n (.levels (dedupLevel (sortLevel (next ++ parents))) fed') r →
        Loop H multiproof n (.nodes level next i fed) r

/-- One more parent. -/
theorem Passes.goes {parent : ℕ × D} {i' fed' : ℕ}
    {result : Except MockOracleError (Level D × List (ProofNode D))}
    (hturn : turn H multiproof (.nodes level next i fed) =
      .ok (.goes (.nodes level (next ++ [parent]) i' fed')))
    (h : Passes H multiproof level (next ++ [parent]) i' fed' result) :
    Passes H multiproof level next i fed (do
      let (parents, rest) ← result
      pure (parent :: parents, rest)) := by
  cases result with
  | error e => exact Loop.goes hturn h
  | ok result =>
      obtain ⟨fed'', hle, hrest, hloop⟩ := h
      refine ⟨fed'', hle, hrest, fun n r hr => Loop.goes hturn (hloop n r ?_)⟩
      rwa [List.append_assoc]

theorem loop_nodes {l : Level D} {proof : List (ProofNode D)} (hl : level.drop i = l)
    (hp : multiproof.drop fed = proof) (hfed : fed ≤ multiproof.length) :
    Passes H multiproof level next i fed (climb H l proof) := by
  fun_induction climb H l proof generalizing i fed next with
  | case1 proof =>
      refine ⟨fed, hfed, hp, fun n r h => ?_⟩
      rw [List.append_nil] at h
      exact Loop.goes (turn_end hl) h
  | case2 idx hash proof =>
      have hturn := @turn_single _ H multiproof level next i fed idx hash [] hl (by simp)
      rw [hp] at hturn
      cases proof with
      | nil => exact Loop.stops hturn
      | cons p rest =>
          refine ⟨fed + 1, lt_of_drop hp, drop_succ_of_drop hp, fun n r h => ?_⟩
          exact Loop.goes hturn (.goes (turn_end (drop_succ_of_drop hl)) h)
  | case3 idx hash known level' proof ih =>
      apply Passes.goes (turn_pair hl)
      exact ih (drop_add_two hl) hp hfed
  | case4 idx hash j known level' proof hj ih =>
      have hturn := @turn_single _ H multiproof level next i fed idx hash _ hl (by simpa using hj)
      rw [hp] at hturn
      cases proof with
      | nil => exact Loop.stops hturn
      | cons p rest =>
          apply Passes.goes hturn
          exact ih rest (drop_succ_of_drop hl) (drop_succ_of_drop hp) (lt_of_drop hp)

/-! ## The walk -/

/-- The parents of a level that ascends, bounded by half its bound. -/
theorem climb_below {n : ℕ} (hclimb : Climbed H level next) (hne : level ≠ [])
    (hb : ∀ e ∈ level, e.1 < 2 ^ (n + 1)) :
    next ≠ [] ∧ ∀ e ∈ next, e.1 < 2 ^ n := by
  constructor
  · obtain ⟨e, he⟩ := List.exists_mem_of_ne_nil _ hne
    obtain ⟨sibling, hs⟩ := hclimb.parents e he
    exact List.ne_nil_of_mem hs
  · intro e he
    obtain ⟨c, hc, hec⟩ := hclimb.children e he
    have hlt := hb c hc
    rw [pow_succ] at hlt
    omega

theorem loop_leaves (hne : level ≠ []) (hroot : atRoot level = true) :
    Loop H multiproof 0 (.levels level fed) (.ok (level, fed)) := by
  apply Loop.leaves
  rw [turn_levels hne, if_pos hroot]

/-- What the loop ends with is what the walk gives. -/
def Answers (multiproof : List (ProofNode D)) :
    Except MockOracleError (Level D × List (ProofNode D)) → Except Stop (Level D × ℕ) → Prop
  | .error e, r => r = .error (.requires e)
  | .ok (top, unfed), r =>
      ∃ fed ≤ multiproof.length, multiproof.drop fed = unfed ∧ r = .ok (top, fed)

/-- Below `2 ^ n` the loop ends after at most `n` levels. -/
theorem loop_levels {n : ℕ} (ha : Ascending level) (hne : level ≠ [])
    (hb : ∀ e ∈ level, e.1 < 2 ^ n) (hfed : fed ≤ multiproof.length) :
    ∃ m ≤ n, ∃ r, Loop H multiproof m (.levels level fed) r ∧
      Answers multiproof (walk H n level (multiproof.drop fed)) r := by
  induction n generalizing level fed with
  | zero =>
      obtain ⟨root, rfl⟩ := eq_root_of_bound ha hb hne
      exact ⟨0, le_rfl, _, loop_leaves hne rfl, fed, hfed, rfl, rfl⟩
  | succ n ih =>
      rw [walk]
      split_ifs with hroot
      · exact ⟨0, Nat.zero_le _, _, loop_leaves hne hroot, fed, hfed, rfl, rfl⟩
      · have henter :
            turn H multiproof (.levels level fed) = .ok (.goes (.nodes level [] 0 fed)) := by
          rw [turn_levels hne, if_neg hroot]
        have hpass := @loop_nodes _ H multiproof level [] 0 fed _ _ rfl rfl hfed
        rw [List.drop_zero] at hpass
        cases hclimb : climb H level (multiproof.drop fed) with
        | error e =>
            rw [hclimb] at hpass
            exact ⟨1, by omega, _, .enters henter hpass, rfl⟩
        | ok result =>
            obtain ⟨parents, rest⟩ := result
            rw [hclimb] at hpass
            obtain ⟨fed', hle, rfl, hloop⟩ := hpass
            have hclimbed := climb_ok hclimb ha
            obtain ⟨hparents, hbelow⟩ := climb_below hclimbed hne hb
            simp only [bind, Except.bind]
            rw [List.nil_append, sortLevel_eq hclimbed.ascending,
              dedupLevel_eq hclimbed.ascending] at hloop
            rw [sortLevel_eq hclimbed.ascending, dedupLevel_eq hclimbed.ascending]
            obtain ⟨m, hm, r, hr, hanswer⟩ := ih hclimbed.ascending hparents hbelow hle
            exact ⟨m + 1, by omega, r, .enters henter (hloop m r hr), hanswer⟩

/-! ## Every place -/

/-- What is left of a level gives the parents that are not made yet. -/
def PlaceOk (H : Keccak D) (multiproof : List (ProofNode D)) : Place D → Prop
  | .levels level _ => Ascending level ∧ level ≠ []
  | .nodes level next i fed => Ascending level ∧ level ≠ [] ∧ ∃ proof, ∀ parents rest,
      climb H (level.drop i) (multiproof.drop fed) = .ok (parents, rest) →
        climb H level proof = .ok (next ++ parents, rest)

theorem nodes_end {level next : Level D} (h : PlaceOk H multiproof (.nodes level next i fed))
    (hi : level.length ≤ i) : Climbed H level next := by
  obtain ⟨ha, -, proof, hclimb⟩ := h
  have hdone : climb H (level.drop i) (multiproof.drop fed) = .ok ([], multiproof.drop fed) := by
    rw [List.drop_of_length_le hi]
    rfl
  have hnext := hclimb [] _ hdone
  rw [List.append_nil] at hnext
  exact climb_ok hnext ha

theorem climb_single {idx : ℕ} {hash : D} {l parents : Level D} {p : ProofNode D}
    {unfed rest : List (ProofNode D)} (hhead : ∀ e ∈ l.head?, e.1 ≠ idx ^^^ 1)
    (h : climb H l unfed = .ok (parents, rest)) :
    climb H ((idx, hash) :: l) (p :: unfed) =
      .ok ((idx / 2, parentHash H idx hash p.hash) :: parents, rest) := by
  cases l with
  | nil =>
      cases h
      rfl
  | cons e l =>
      rw [climb, if_neg (hhead e rfl)]
      simp [feed, bind, Except.bind, h, pure, Except.pure]

/-- One more parent is made. -/
theorem PlaceOk.parent {parent : ℕ × D} {i' fed' : ℕ}
    (h : PlaceOk H multiproof (.nodes level next i fed))
    (hparent : ∀ parents rest,
      climb H (level.drop i') (multiproof.drop fed') = .ok (parents, rest) →
        climb H (level.drop i) (multiproof.drop fed) = .ok (parent :: parents, rest)) :
    PlaceOk H multiproof (.nodes level (next ++ [parent]) i' fed') := by
  obtain ⟨ha, hne, proof, hclimb⟩ := h
  refine ⟨ha, hne, proof, fun parents rest hrest => ?_⟩
  have hall := hclimb _ rest (hparent parents rest hrest)
  rwa [List.append_assoc]

/-- A turn keeps what is left, and makes no access past an end. -/
theorem PlaceOk.turn {p : Place D} (h : PlaceOk H multiproof p) :
    turn H multiproof p ≠ .error .outOfRange ∧
      ∀ q, turn H multiproof p = .ok (.goes q) → PlaceOk H multiproof q := by
  cases p with
  | levels level fed =>
      obtain ⟨ha, hne⟩ := h
      rw [turn_levels hne]
      refine ⟨by simp, fun q hq => ?_⟩
      split_ifs at hq with hroot
      · cases hq
      · cases hq
        exact ⟨ha, hne, multiproof.drop fed, fun parents rest hclimb => hclimb⟩
  | nodes level next i fed =>
      cases hl : level.drop i with
      | nil =>
          have hclimbed := nodes_end h (List.drop_eq_nil_iff.mp hl)
          rw [turn_end hl, sortLevel_eq hclimbed.ascending, dedupLevel_eq hclimbed.ascending]
          refine ⟨by simp, fun q hq => ?_⟩
          cases hq
          obtain ⟨e, he⟩ := List.exists_mem_of_ne_nil _ h.2.1
          obtain ⟨sibling, hs⟩ := hclimbed.parents e he
          exact ⟨hclimbed.ascending, List.ne_nil_of_mem hs⟩
      | cons e l =>
          obtain ⟨idx, hash⟩ := e
          by_cases hpair : ∃ known l', l = (idx ^^^ 1, known) :: l'
          · obtain ⟨known, l', rfl⟩ := hpair
            rw [turn_pair hl]
            refine ⟨by simp, fun q hq => ?_⟩
            cases hq
            apply h.parent
            intro parents rest hrest
            rw [drop_add_two hl] at hrest
            rw [hl, climb, if_pos rfl, hrest]
            rfl
          · have hhead : ∀ e ∈ l.head?, e.1 ≠ idx ^^^ 1 := by
              intro e he hidx
              obtain ⟨l', rfl⟩ := List.head?_eq_some_iff.mp he
              exact hpair ⟨e.2, l', by rw [← hidx]⟩
            rw [turn_single hl hhead]
            cases hfed : multiproof.drop fed with
            | nil => exact ⟨by simp, fun q hq => by cases hq⟩
            | cons p unfed =>
                refine ⟨by simp, fun q hq => ?_⟩
                cases hq
                apply h.parent
                intro parents rest hrest
                rw [drop_succ_of_drop hl, drop_succ_of_drop hfed] at hrest
                rw [hl, hfed, climb_single hhead hrest]

/-- What is reached from a level that ascends. -/
theorem PlaceOk.reached {p q : Place D} (h : PlaceOk H multiproof p)
    (hreached : Reached H multiproof p q) : PlaceOk H multiproof q := by
  induction hreached with
  | refl => exact h
  | tail _ hturn ih => exact ih.turn.2 _ hturn

/-! ## The function ends -/

variable {leafHashes : List D} {leafIndices : List UInt32} {root : D}

/-- Distinct indices make a level that ascends. -/
theorem sorted_leaves (hlen : leafIndices.length = leafHashes.length) (hnd : leafIndices.Nodup) :
    Ascending (sortLevel ((leafIndices.map (·.toNat)).zip leafHashes)) := by
  have hfst : ((leafIndices.map (·.toNat)).zip leafHashes).map Prod.fst =
      leafIndices.map (·.toNat) := List.map_fst_zip (by simp [hlen])
  have hnodup : ((leafIndices.map (·.toNat)).zip leafHashes).Pairwise fun a b => a.1 ≠ b.1 := by
    apply List.pairwise_map.mp
    rw [hfst]
    exact hnd.map fun a b => UInt32.toNat_inj.mp
  have hperm : (sortLevel ((leafIndices.map (·.toNat)).zip leafHashes)).Perm _ :=
    List.perm_insertionSort _ _
  have hdistinct := (hperm.pairwise_iff fun h => Ne.symm h).mpr hnodup
  exact (hdistinct.and (sortLevel_sorted _)).imp fun h => lt_of_le_of_ne h.2 h.1

theorem enter_ok (hne : leafHashes ≠ []) (hlen : leafIndices.length = leafHashes.length)
    (hnd : leafIndices.Nodup) : ∃ start, enter leafHashes leafIndices = .ok start ∧
      start = sortLevel ((leafIndices.map (·.toNat)).zip leafHashes) ∧ Ascending start ∧
      start ≠ [] ∧ ∀ e ∈ start, e.1 < 2 ^ 32 := by
  have ha := sorted_leaves hlen hnd
  have hperm : (sortLevel ((leafIndices.map (·.toNat)).zip leafHashes)).Perm _ :=
    List.perm_insertionSort _ _
  refine ⟨_, ?_, rfl, ha, fun hnil => hne ?_, fun e he => ?_⟩
  · simp only [enter, require, if_pos hne, if_pos (ha.imp fun hab => hab.ne).isChain]
    rfl
  · rw [hnil] at hperm
    have hzip := congrArg List.length hperm.nil_eq
    rw [List.length_nil, List.length_zip, List.length_map, hlen, min_self] at hzip
    exact List.length_eq_zero_iff.mp hzip.symm
  · obtain ⟨i, -, hi⟩ := List.mem_map.mp (List.of_mem_zip (hperm.mem_iff.mp he)).1
    rw [← hi]
    exact i.toNat_lt

theorem Loop.unique {p : Place D} {n n' : ℕ} {r r' : Except Stop (Level D × ℕ)}
    (h : Loop H multiproof n p r) (h' : Loop H multiproof n' p r') : n = n' ∧ r = r' := by
  induction h generalizing n' r' with
  | stops hturn =>
      cases h' with
      | stops hturn' => exact ⟨rfl, congrArg _ (Except.error.inj (hturn.symm.trans hturn'))⟩
      | leaves hturn' | enters hturn' | goes hturn' => cases hturn.symm.trans hturn'
  | leaves hturn =>
      cases h' with
      | leaves hturn' =>
          cases hturn.symm.trans hturn'
          exact ⟨rfl, rfl⟩
      | stops hturn' | enters hturn' | goes hturn' => cases hturn.symm.trans hturn'
  | enters hturn _ ih =>
      cases h' with
      | enters hturn' hloop =>
          cases hturn.symm.trans hturn'
          obtain ⟨rfl, rfl⟩ := ih hloop
          exact ⟨rfl, rfl⟩
      | stops hturn' | leaves hturn' => cases hturn.symm.trans hturn'
  | goes hturn _ ih =>
      cases h' with
      | goes hturn' hloop =>
          cases hturn.symm.trans hturn'
          exact ih hloop
      | stops hturn' | leaves hturn' => cases hturn.symm.trans hturn'

variable [DecidableEq D]

theorem Verifies.unique {n n' : ℕ} {r r' : Except Stop PUnit}
    (h : Verifies H multiproof leafHashes leafIndices root n r)
    (h' : Verifies H multiproof leafHashes leafIndices root n' r') : n = n' ∧ r = r' := by
  cases h with
  | rejected he =>
      cases h' with
      | rejected he' => exact ⟨rfl, congrArg _ (Except.error.inj (he.symm.trans he'))⟩
      | stopped he' | left he' => cases he.symm.trans he'
  | stopped he hloop =>
      cases h' with
      | rejected he' => cases he.symm.trans he'
      | stopped he' hloop' =>
          cases he.symm.trans he'
          obtain ⟨rfl, hr⟩ := hloop.unique hloop'
          exact ⟨rfl, congrArg _ (Except.error.inj hr)⟩
      | left he' hloop' =>
          cases he.symm.trans he'
          cases (hloop.unique hloop').2
  | left he hloop =>
      cases h' with
      | rejected he' => cases he.symm.trans he'
      | stopped he' hloop' =>
          cases he.symm.trans he'
          cases (hloop.unique hloop').2
      | left he' hloop' =>
          cases he.symm.trans he'
          obtain ⟨rfl, hr⟩ := hloop.unique hloop'
          cases hr
          exact ⟨rfl, rfl⟩

/-- The requirements after the loop. -/
theorem leave_eq {top : Level D} {unfed : List (ProofNode D)} (htop : top ≠ [])
    (hfed : fed ≤ multiproof.length) (hunfed : multiproof.drop fed = unfed) :
    leave multiproof root top fed = mapError .requires (do
      require (unfed = []) .statProofMismatch
      require (top.head?.map (·.2) = some root) .statProofMismatch) := by
  have hlast : unfed = [] ↔ fed = multiproof.length := by
    rw [← hunfed, List.drop_eq_nil_iff]
    omega
  cases top with
  | nil => exact absurd rfl htop
  | cons e top =>
      by_cases hl : fed = multiproof.length
      · by_cases hr : e.2 = root <;>
          simp [leave, entry, demand, require, bind, Except.bind, hlast, hl, hr, mapError]
      · simp [leave, require, bind, Except.bind, hlast, hl, mapError]

/-- The function as it is written ends as the walk of 32 levels says. -/
theorem verifies_walk (hlen : leafIndices.length = leafHashes.length) (hnd : leafIndices.Nodup) :
    ∃ n ≤ 32, Verifies H multiproof leafHashes leafIndices root n
      (mapError .requires (verifyMultiproof H leafHashes leafIndices multiproof root)) := by
  by_cases hne : leafHashes = []
  · refine ⟨0, Nat.zero_le _, ?_⟩
    rw [verifyMultiproof, require, if_neg (not_not.mpr hne)]
    apply Verifies.rejected
    rw [enter, require, if_neg (not_not.mpr hne)]
    rfl
  · obtain ⟨start, henter, hstart, ha, hstart_ne, hbelow⟩ := enter_ok hne hlen hnd
    obtain ⟨n, hn, r, hloop, hanswer⟩ :=
      @loop_levels _ H multiproof start 0 32 ha hstart_ne hbelow (Nat.zero_le _)
    have hchain : start.IsChain fun a b => a.1 ≠ b.1 := (ha.imp fun hab => hab.ne).isChain
    refine ⟨n, hn, ?_⟩
    rw [verifyMultiproof, ← hstart]
    simp only [require, if_pos hne, if_pos hchain, bind, Except.bind]
    rw [List.drop_zero] at hanswer
    cases hwalk : walk H 32 start multiproof with
    | error e =>
        rw [hwalk] at hanswer
        cases hanswer
        exact .stopped henter hloop
    | ok result =>
        obtain ⟨top, unfed⟩ := result
        rw [hwalk] at hanswer
        obtain ⟨fed, hfed, hunfed, rfl⟩ := hanswer
        obtain ⟨_, rfl, -⟩ := walk_at hwalk ha hbelow hstart_ne
        have hverifies : Verifies H multiproof leafHashes leafIndices root n _ :=
          .left henter hloop
        rw [leave_eq (List.cons_ne_nil _ _) hfed hunfed] at hverifies
        exact hverifies

/-- The parents of a level when its loop is over: in strictly increasing order, so that
sorting and deduplicating change nothing, and with one above every node. -/
structure Merged (level next : Level D) : Prop where
  ascending : next.Pairwise fun a b => a.1 < b.1
  sorted : sortLevel next = next
  deduplicated : dedupLevel next = next
  kept : ∀ e ∈ level, e.1 / 2 ∈ (dedupLevel (sortLevel next)).map Prod.fst

omit [DecidableEq D] in
theorem merged_of_climbed (h : Climbed H level next) : Merged level next where
  ascending := h.ascending
  sorted := sortLevel_eq h.ascending
  deduplicated := dedupLevel_eq h.ascending
  kept e he := by
    rw [sortLevel_eq h.ascending, dedupLevel_eq h.ascending]
    obtain ⟨sibling, hs⟩ := h.parents e he
    exact List.mem_map.mpr ⟨_, hs, rfl⟩

/-- From distinct indices the function ends, after 32 levels at most and without an
access past an end, and no level loses a node. -/
theorem verify_multiproof_ends (H : Keccak D) (multiproof : List (ProofNode D)) (root : D)
    {leafHashes : List D} {leafIndices : List UInt32}
    (hlen : leafIndices.length = leafHashes.length) (hnd : leafIndices.Nodup) :
    (∃ n r, Verifies H multiproof leafHashes leafIndices root n r) ∧
      (∀ n r, Verifies H multiproof leafHashes leafIndices root n r →
        n ≤ 32 ∧ r ≠ .error .outOfRange) ∧
      ∀ start level next i fed, enter leafHashes leafIndices = .ok start →
        Reached H multiproof (.levels start 0) (.nodes level next i fed) → level.length ≤ i →
          Merged level next := by
  obtain ⟨n, hn, hverifies⟩ := @verifies_walk _ H multiproof _ _ root _ hlen hnd
  refine ⟨⟨n, _, hverifies⟩, fun m r hr => ?_, fun start level next i fed henter hreached hi => ?_⟩
  · obtain ⟨rfl, rfl⟩ := hverifies.unique hr
    refine ⟨hn, fun hrange => ?_⟩
    obtain ⟨e, -, he⟩ := mapError_eq_error.mp hrange
    cases he
  · have hne : leafHashes ≠ [] := by
      simp only [enter, bind_eq_ok, require_eq_ok] at henter
      exact henter.choose_spec.1
    obtain ⟨_, henter', -, ha, hstart, -⟩ := enter_ok hne hlen hnd
    cases henter.symm.trans henter'
    have hok : PlaceOk H multiproof (.levels start 0) := ⟨ha, hstart⟩
    exact merged_of_climbed (nodes_end (hok.reached hreached) hi)

/-- Leaves 3 and 0 of a tree with four, with the siblings that the prover supplies. -/
theorem verify_multiproof_ends_corners :
    let multiproof := Multiproof.buildProof plainHash (fun i => [UInt8.ofNat i]) 2 [3, 0]
    let root := Multiproof.treeNode plainHash (fun i => [UInt8.ofNat i]) 2 0
    ∃ n r, Verifies plainHash multiproof [[3], [0]] [3, 0] root n r ∧ n ≤ 32 ∧
      r ≠ .error .outOfRange := by
  intro multiproof root
  obtain ⟨⟨n, r, hr⟩, hbound, -⟩ :=
    @verify_multiproof_ends _ _ plainHash multiproof root [[3], [0]] [3, 0] rfl (by decide)
  exact ⟨n, r, hr, hbound n r hr⟩

end ProofBook.MultiproofLoop
