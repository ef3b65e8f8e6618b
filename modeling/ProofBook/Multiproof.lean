import ProofBook.Binding

/-!
# Which honest multiproofs are accepted

A prover that knows a whole perfect tree walks its levels and supplies every
sibling that is not known itself. The verifier stops at the first level where only
index zero is left, which need not be the root: the leftmost node of a lower level
has that index too. So it accepts the multiproof exactly when some leaf lies in the
right half of the tree.
-/
namespace ProofBook.Multiproof
open OracleWire Checked Merkle MockOracle OracleSound Binding

variable {D : Type}

/-! ## The prover -/

/-- The node of the tree over the given leaf hashes. -/
def treeNode (H : Keccak D) (leafHashes : ℕ → D) (height i : ℕ) : D :=
  perfect ⟨id, nodeHash H⟩ leafHashes height i

/-- The siblings that are not known, from the known indices in increasing order. -/
def missing : List ℕ → List ℕ
  | [] => []
  | [i] => [i ^^^ 1]
  | i :: j :: known =>
      if j = i ^^^ 1 then missing known else (i ^^^ 1) :: missing (j :: known)

/-- What is known one level up. -/
def parents : List ℕ → List ℕ
  | [] => []
  | [i] => [i / 2]
  | i :: j :: known =>
      if j = i ^^^ 1 then i / 2 :: parents known else i / 2 :: parents (j :: known)

/-- The siblings of the levels from one height on. -/
def collect (H : Keccak D) (leafHashes : ℕ → D) : ℕ → ℕ → List ℕ → List (ProofNode D)
  | 0, _, _ => []
  | n + 1, height, known =>
      ((missing known).map fun j => ⟨treeNode H leafHashes height j, j % 2 = 1⟩) ++
        collect H leafHashes n (height + 1) (parents known)

/-- The indices the prover and the verifier start from. -/
def sortedIndices (leafIndices : List UInt32) : List ℕ :=
  (leafIndices.map (·.toNat)).insertionSort (· ≤ ·)

/-- The multiproof for some leaves of a tree with `2 ^ depth` of them. -/
def buildProof (H : Keccak D) (leafHashes : ℕ → D) (depth : ℕ) (leafIndices : List UInt32) :
    List (ProofNode D) :=
  collect H leafHashes depth 0 (sortedIndices leafIndices)

/-! ## One level -/

variable {H : Keccak D} {leafHashes : ℕ → D} {height n m i j : ℕ} {known : List ℕ}

theorem sibling_half (i : ℕ) : (i ^^^ 1) / 2 = i / 2 := by
  rw [sibling_eq]
  split_ifs <;> omega

theorem half_lt (hij : i < j) (hj : j ≠ i ^^^ 1) : i / 2 < j / 2 := by
  rw [sibling_eq] at hj
  split_ifs at hj <;> omega

theorem even_of_sibling (hij : i < i ^^^ 1) : i % 2 = 0 := by
  rw [sibling_eq] at hij
  split_ifs at hij with hi
  · exact hi
  · omega

theorem mem_parents : i ∈ parents known ↔ ∃ k ∈ known, i = k / 2 := by
  fun_induction parents known with
  | case1 => simp
  | case2 k => simp
  | case3 k known ih => simp [ih, sibling_half]
  | case4 k j known hj ih => simp [ih]

theorem parents_sorted (h : known.Pairwise (· < ·)) : (parents known).Pairwise (· < ·) := by
  fun_induction parents known with
  | case1 => exact .nil
  | case2 => exact List.pairwise_singleton ..
  | case3 k known ih =>
      obtain ⟨hk, htail⟩ := List.pairwise_cons.mp h
      obtain ⟨hj, hknown⟩ := List.pairwise_cons.mp htail
      refine List.pairwise_cons.mpr ⟨fun p hp => ?_, ih hknown⟩
      obtain ⟨l, hl, rfl⟩ := mem_parents.mp hp
      have heven := even_of_sibling (hk _ List.mem_cons_self)
      have hlt := hj l hl
      rw [sibling_eq, if_pos heven] at hlt
      omega
  | case4 k j known hj ih =>
      obtain ⟨hk, htail⟩ := List.pairwise_cons.mp h
      refine List.pairwise_cons.mpr ⟨fun p hp => ?_, ih htail⟩
      obtain ⟨l, hl, rfl⟩ := mem_parents.mp hp
      have hkj : k / 2 < j / 2 := half_lt (hk j List.mem_cons_self) hj
      rcases List.mem_cons.mp hl with rfl | hl
      · exact hkj
      · exact hkj.trans_le (Nat.div_le_div_right ((List.pairwise_cons.mp htail).1 l hl).le)

/-- The known nodes of a level. -/
def levelOf (H : Keccak D) (leafHashes : ℕ → D) (height : ℕ) (known : List ℕ) : Level D :=
  known.map fun i => (i, treeNode H leafHashes height i)

theorem levelOf_ascending (h : known.Pairwise (· < ·)) :
    Ascending (levelOf H leafHashes height known) :=
  List.pairwise_map.mpr h

/-- The parent of a node and its sibling is the node above both. -/
theorem parentHash_treeNode (i : ℕ) :
    parentHash H i (treeNode H leafHashes height i) (treeNode H leafHashes height (i ^^^ 1)) =
      treeNode H leafHashes (height + 1) (i / 2) := by
  rw [parentHash, sibling_eq]
  split_ifs with hi
  · change _ = nodeHash H (treeNode H leafHashes height (2 * (i / 2)))
      (treeNode H leafHashes height (2 * (i / 2) + 1))
    rw [show 2 * (i / 2) = i by omega]
  · change _ = nodeHash H (treeNode H leafHashes height (2 * (i / 2)))
      (treeNode H leafHashes height (2 * (i / 2) + 1))
    rw [show 2 * (i / 2) = i - 1 by omega, show i - 1 + 1 = i by omega]

/-- One pass of the verifier takes exactly the siblings the prover supplied for it. -/
theorem climb_levelOf (known : List ℕ) (rest : List (ProofNode D)) :
    climb H (levelOf H leafHashes height known)
      (((missing known).map fun j => ⟨treeNode H leafHashes height j, j % 2 = 1⟩) ++ rest) =
        .ok (levelOf H leafHashes (height + 1) (parents known), rest) := by
  fun_induction missing known with
  | case1 => rfl
  | case2 i =>
      simp [levelOf, parents, climb, feed, bind, Except.bind, pure, Except.pure,
        parentHash_treeNode]
  | case3 i known ih =>
      simp only [levelOf, List.map_cons, climb, parents, if_true] at ih ⊢
      simp [ih, bind, Except.bind, pure, Except.pure, parentHash_treeNode]
  | case4 i j known hj ih =>
      simp only [levelOf, List.map_cons, climb, parents, if_neg hj] at ih ⊢
      simp [ih, feed, bind, Except.bind, pure, Except.pure, parentHash_treeNode]

/-! ## The walk -/

/-- Some leaf below the known nodes is in the right half of the `2 ^ n` positions,
unless there is one position only. -/
def RightHalf (n : ℕ) (known : List ℕ) : Prop := n = 0 ∨ ∃ i ∈ known, 2 ^ (n - 1) ≤ i

theorem rightHalf_parents (hlt : ∀ i ∈ known, i < 2 ^ (n + 1)) (hne : ∃ i ∈ known, i ≠ 0) :
    RightHalf n (parents known) ↔ RightHalf (n + 1) known := by
  cases n with
  | zero =>
      obtain ⟨i, hi, hpos⟩ := hne
      exact ⟨fun _ => .inr ⟨i, hi, Nat.one_le_iff_ne_zero.mpr hpos⟩, fun _ => .inl rfl⟩
  | succ n =>
      simp only [RightHalf, Nat.succ_ne_zero, false_or, Nat.add_sub_cancel, mem_parents]
      constructor
      · rintro ⟨p, ⟨i, hi, rfl⟩, hle⟩
        exact ⟨i, hi, by rw [pow_succ]; omega⟩
      · rintro ⟨i, hi, hle⟩
        exact ⟨i / 2, ⟨i, hi, rfl⟩, by rw [pow_succ] at hle; omega⟩

theorem atRoot_levelOf : atRoot (levelOf H leafHashes height known) = true ↔ known = [0] := by
  rw [atRoot_iff]
  constructor
  · rintro ⟨root, h⟩
    obtain ⟨i, rfl, hi⟩ := List.map_eq_singleton_iff.mp h
    rw [(Prod.mk.inj hi).1]
  · rintro rfl
    exact ⟨_, rfl⟩

/-- Where the walk stops, what it has not been fed, and the node it holds then. -/
structure Walked (H : Keccak D) (leafHashes : ℕ → D) (height n : ℕ) (known : List ℕ)
    (level : Level D) (rest : List (ProofNode D)) : Prop where
  fed : rest = [] ↔ RightHalf n known
  root : RightHalf n known → level = [(0, treeNode H leafHashes (height + n) 0)]

/-- At index zero the walk stops, whatever levels are left. -/
theorem walked_zero (height n : ℕ) :
    Walked H leafHashes height n [0] (levelOf H leafHashes height [0])
      (collect H leafHashes n height [0]) := by
  cases n with
  | zero => exact ⟨⟨fun _ => .inl rfl, fun _ => rfl⟩, fun _ => rfl⟩
  | succ n =>
      have hleft : ¬ RightHalf (n + 1) [0] := by simp [RightHalf]
      exact ⟨⟨fun h => by simp [collect, missing] at h, fun h => absurd h hleft⟩,
        fun h => absurd h hleft⟩

theorem eq_zero_of_forall (hsorted : known.Pairwise (· < ·)) (hne : known ≠ [])
    (h : ∀ i ∈ known, i = 0) : known = [0] := by
  cases known with
  | nil => exact absurd rfl hne
  | cons i known =>
      have hnil : known = [] := by
        refine List.eq_nil_iff_forall_not_mem.mpr fun j hj => ?_
        have hij := (List.pairwise_cons.mp hsorted).1 j hj
        have hzero := h j (List.mem_cons_of_mem _ hj)
        omega
      rw [hnil, h i List.mem_cons_self]

theorem walk_collect {fuel : ℕ} (hsorted : known.Pairwise (· < ·)) (hne : known ≠ [])
    (hfuel : ∀ i ∈ known, i < 2 ^ fuel) (hlt : ∀ i ∈ known, i < 2 ^ n) :
    ∃ level rest, walk H fuel (levelOf H leafHashes height known)
        (collect H leafHashes n height known) = .ok (level, rest) ∧
      Walked H leafHashes height n known level rest := by
  induction fuel generalizing height n known with
  | zero =>
      obtain rfl := eq_zero_of_forall hsorted hne fun i hi => by simpa using hfuel i hi
      exact ⟨_, _, rfl, walked_zero height n⟩
  | succ fuel ih =>
      by_cases hzero : known = [0]
      · subst hzero
        exact ⟨_, _, rfl, walked_zero height n⟩
      · have hpos : ∃ i ∈ known, i ≠ 0 := by
          by_contra hall
          push Not at hall
          exact hzero (eq_zero_of_forall hsorted hne hall)
        have hroot : atRoot (levelOf H leafHashes height known) = false := by
          rw [← Bool.not_eq_true, atRoot_levelOf]
          exact hzero
        cases n with
        | zero =>
            obtain ⟨i, hi, hi0⟩ := hpos
            exact absurd (hlt i hi) (by simpa using hi0)
        | succ n =>
            have hup : (parents known).Pairwise (· < ·) := parents_sorted hsorted
            have hbelow (e : ℕ) (h : ∀ i ∈ known, i < 2 ^ (e + 1)) :
                ∀ p ∈ parents known, p < 2 ^ e := by
              intro p hp
              obtain ⟨i, hi, rfl⟩ := mem_parents.mp hp
              have := h i hi
              rw [pow_succ] at this
              omega
            have hup0 : parents known ≠ [] := by
              obtain ⟨i, hi, -⟩ := hpos
              exact List.ne_nil_of_mem (mem_parents.mpr ⟨i, hi, rfl⟩)
            obtain ⟨level, rest, hwalk, hwalked⟩ :=
              @ih (height + 1) n (parents known) hup hup0 (hbelow fuel hfuel) (hbelow n hlt)
            refine ⟨level, rest, ?_, ?_⟩
            · rw [walk, hroot, collect, climb_levelOf]
              simp only [Bool.false_eq_true, if_false, bind, Except.bind,
                sortLevel_eq (levelOf_ascending hup), dedupLevel_eq (levelOf_ascending hup), hwalk]
            · have hiff := rightHalf_parents hlt hpos
              refine ⟨hwalked.fed.trans hiff, fun h => ?_⟩
              rw [hwalked.root (hiff.mpr h), Nat.add_right_comm, Nat.add_assoc]

/-! ## Verification -/

theorem mem_sortedIndices {leafIndices : List UInt32} :
    i ∈ sortedIndices leafIndices ↔ ∃ k ∈ leafIndices, k.toNat = i := by
  rw [sortedIndices, (List.perm_insertionSort _ _).mem_iff, List.mem_map]

theorem sortedIndices_sorted {leafIndices : List UInt32} (h : leafIndices.Nodup) :
    (sortedIndices leafIndices).Pairwise (· < ·) := by
  have hnodup : (sortedIndices leafIndices).Nodup :=
    (List.perm_insertionSort _ _).nodup_iff.mpr (h.map fun _ _ => UInt32.toNat_inj.mp)
  exact (List.pairwise_insertionSort (· ≤ ·) _).imp₂ (fun _ _ => lt_of_le_of_ne) hnodup

/-- The verifier starts from the known leaves of the tree. -/
theorem sortLevel_leaves (leafIndices : List UInt32) :
    sortLevel ((leafIndices.map (·.toNat)).zip (leafIndices.map fun i => leafHashes i.toNat)) =
      levelOf H leafHashes 0 (sortedIndices leafIndices) := by
  have hzip : (leafIndices.map (·.toNat)).zip (leafIndices.map fun i => leafHashes i.toNat) =
      (leafIndices.map (·.toNat)).map fun i => (i, leafHashes i) := by
    rw [List.zip_map', List.map_map]
    rfl
  rw [hzip, sortLevel, levelOf, sortedIndices]
  refine (List.map_insertionSort (· ≤ ·) (fun a b : ℕ × D => a.1 ≤ b.1) _ _ ?_).symm
  exact fun _ _ _ _ => Iff.rfl

/-- The honest multiproof for some leaves of a perfect tree is accepted exactly when
the tree is a single leaf or one of them is in its right half. -/
theorem honest_accepted_iff [DecidableEq D] (H : Keccak D) (leafHashes : ℕ → D) (depth : ℕ)
    {leafIndices : List UInt32} (hne : leafIndices ≠ []) (hdistinct : leafIndices.Nodup)
    (hlt : ∀ i ∈ leafIndices, i.toNat < 2 ^ depth) :
    verifyMultiproof H (leafIndices.map fun i => leafHashes i.toNat) leafIndices
        (buildProof H leafHashes depth leafIndices) (treeNode H leafHashes depth 0) = .ok .unit ↔
      depth = 0 ∨ ∃ i ∈ leafIndices, 2 ^ (depth - 1) ≤ i.toNat := by
  have hsorted := sortedIndices_sorted hdistinct
  have hmem {bound : ℕ} (h : ∀ i ∈ leafIndices, i.toNat < bound) :
      ∀ i ∈ sortedIndices leafIndices, i < bound := by
    intro i hi
    obtain ⟨k, hk, rfl⟩ := mem_sortedIndices.mp hi
    exact h k hk
  have hstart : sortedIndices leafIndices ≠ [] := by
    obtain ⟨k, hk⟩ := List.exists_mem_of_ne_nil _ hne
    exact List.ne_nil_of_mem (mem_sortedIndices.mpr ⟨k, hk, rfl⟩)
  have hright : RightHalf depth (sortedIndices leafIndices) ↔
      depth = 0 ∨ ∃ i ∈ leafIndices, 2 ^ (depth - 1) ≤ i.toNat := by
    simp [RightHalf, mem_sortedIndices]
  have hchain : (levelOf H leafHashes 0 (sortedIndices leafIndices)).IsChain
      fun a b => a.1 ≠ b.1 := ((levelOf_ascending hsorted).imp fun hab => hab.ne).isChain
  obtain ⟨level, rest, hwalk, hwalked⟩ : ∃ level rest,
      walk H 32 (levelOf H leafHashes 0 (sortedIndices leafIndices))
        (buildProof H leafHashes depth leafIndices) = .ok (level, rest) ∧
      Walked H leafHashes 0 depth (sortedIndices leafIndices) level rest :=
    walk_collect hsorted hstart (hmem fun i _ => i.toNat_lt) (hmem hlt)
  rw [← hright, ← hwalked.fed]
  simp only [verifyMultiproof, sortLevel_leaves (H := H), bind_eq_ok, require_eq_ok, hwalk,
    Prod.exists]
  constructor
  · rintro ⟨_, -, _, -, _, _, h, _, hrest, -⟩
    injection h with h
    exact (Prod.mk.inj h).2.trans hrest
  · intro hrest
    have hlevel := hwalked.root (hwalked.fed.mp hrest)
    rw [Nat.zero_add] at hlevel
    exact ⟨.unit, by simpa using hne, .unit, hchain, level, rest, rfl, .unit, hrest,
      by rw [hlevel]; rfl⟩

/-- Leaves 3 and 0 of a tree with four. -/
theorem honest_accepted_iff_corners :
    verifyMultiproof plainHash ([3, 0].map fun i : UInt32 => [UInt8.ofNat i.toNat]) [3, 0]
      (buildProof plainHash (fun i => [UInt8.ofNat i]) 2 [3, 0])
      (treeNode plainHash (fun i => [UInt8.ofNat i]) 2 0) = .ok .unit :=
  (honest_accepted_iff plainHash (fun i => [UInt8.ofNat i]) 2 (by decide) (by decide)
    (by simp)).mpr (by simp)

/-- Of two leaves the left one cannot be proven alone: the walk stops before its
sibling is used. -/
theorem left_leaf_rejected :
    ¬ ∀ (leafHashes : ℕ → List UInt8) (depth : ℕ) (leafIndices : List UInt32), leafIndices ≠ [] →
      leafIndices.Nodup → (∀ i ∈ leafIndices, i.toNat < 2 ^ depth) →
      verifyMultiproof plainHash (leafIndices.map fun i => leafHashes i.toNat) leafIndices
        (buildProof plainHash leafHashes depth leafIndices)
        (treeNode plainHash leafHashes depth 0) = .ok .unit := by
  intro h
  have hok := h (fun i => [UInt8.ofNat i]) 1 [0] (by decide) (by decide) (by simp)
  have hsibling : buildProof plainHash (fun i => [UInt8.ofNat i]) 1 [0] = [⟨[1], true⟩] := by rfl
  rw [hsibling] at hok
  cases hok

end ProofBook.Multiproof
