import ProofBook.MockOracle
import ProofBook.OracleAdapter

/-!
# What the oracle authenticates

Every accepted path and every accepted multiproof places its leaves under the
root, whatever hashes and indices the caller supplied. The verdict is the
conjunction of the predicates over the authenticated values.
-/
namespace ProofBook.OracleSound
open Addresses OracleWire State Checked Coverage Merkle OracleAdapter MockOracle

variable {D : Type}

/-! ## Collision freedom -/

/-- No two inputs share a digest, and the bytes of two digests split in one
way. A fixed digest length would give the second but contradict the first. -/
structure CollisionFree (H : Keccak D) : Prop where
  hash : Function.Injective H.hash
  pair : ∀ {a b c d}, H.bytes a ++ H.bytes b = H.bytes c ++ H.bytes d → a = c ∧ b = d

/-- The oracle's leaf and node hashing as a Merkle scheme. -/
def scheme (H : Keccak D) : Scheme (List UInt8) D := ⟨leafHash H, nodeHash H⟩

variable {H : Keccak D}

theorem CollisionFree.bytes (h : CollisionFree H) : Function.Injective H.bytes :=
  fun _ _ hab => (h.pair (congrArg₂ (· ++ ·) hab hab)).1

theorem CollisionFree.scheme (h : CollisionFree H) : (scheme H).CollisionFree where
  leaf _ _ hab := List.append_cancel_left (h.hash hab)
  node hab := by
    have hb := h.hash hab
    rw [List.append_assoc, List.append_assoc] at hb
    exact h.pair (List.append_cancel_left hb)
  separate b l r hbn := by
    have hb := h.hash hbn
    simp [leafTag, nodeTag] at hb

/-! ## Serialization -/

theorem leBytes_length (n v : ℕ) : (leBytes n v).length = n := by
  induction n generalizing v with
  | zero => rfl
  | succ n ih => simp [leBytes, ih]

theorem leBytes_injective {n v u : ℕ} (hv : v < 256 ^ n) (hu : u < 256 ^ n)
    (h : leBytes n v = leBytes n u) : v = u := by
  induction n generalizing v u with
  | zero => simp at hv hu; omega
  | succ n ih =>
      simp only [leBytes, List.cons.injEq] at h
      have hmod : v % 256 = u % 256 := by simpa using congrArg UInt8.toNat h.1
      have hdiv := ih (v := v / 256) (u := u / 256) (by rw [pow_succ] at hv; omega)
        (by rw [pow_succ] at hu; omega) h.2
      omega

theorem i32Bytes_injective : Function.Injective i32Bytes := by
  intro a b h
  have := leBytes_injective (n := 4) a.toUInt32.toNat_lt b.toUInt32.toNat_lt h
  exact congrArg Int32.ofUInt32 (UInt32.toNat_inj.mp this)

theorem i64Bytes_injective : Function.Injective i64Bytes := by
  intro a b h
  have := leBytes_injective (n := 8) a.toUInt64.toNat_lt b.toUInt64.toNat_lt h
  exact congrArg Int64.ofUInt64 (UInt64.toNat_inj.mp this)

theorem borshScoreStat_injective : Function.Injective borshScoreStat := by
  rintro ⟨key, value, period⟩ ⟨key', value', period'⟩ h
  simp only [borshScoreStat, List.append_assoc] at h
  obtain ⟨hk, h⟩ := List.append_inj h (by simp [leBytes_length])
  obtain ⟨hv, hp⟩ := List.append_inj h (by simp [i32Bytes, leBytes_length])
  have hkey := leBytes_injective (n := 4) key.toNat_lt key'.toNat_lt hk
  rw [UInt32.toNat_inj.mp hkey, i32Bytes_injective hv, i32Bytes_injective hp]

theorem borshSummary_injective (hH : CollisionFree H) : Function.Injective (borshSummary H) := by
  rintro ⟨id, ⟨count, first, last⟩, root⟩ ⟨id', ⟨count', first', last'⟩, root'⟩ h
  simp only [borshSummary, List.append_assoc] at h
  obtain ⟨h₁, h⟩ := List.append_inj h (by simp [i64Bytes, leBytes_length])
  obtain ⟨h₂, h⟩ := List.append_inj h (by simp [i32Bytes, leBytes_length])
  obtain ⟨h₃, h⟩ := List.append_inj h (by simp [i64Bytes, leBytes_length])
  obtain ⟨h₄, h₅⟩ := List.append_inj h (by simp [i64Bytes, leBytes_length])
  rw [i64Bytes_injective h₁, i32Bytes_injective h₂, i64Bytes_injective h₃, i64Bytes_injective h₄,
    hH.bytes h₅]

/-! ## Paths -/

/-- A path places its start under the node it folds to. -/
theorem foldProof_at (node : D) (proof : List (ProofNode D)) :
    ∃ d i, At (scheme H) (foldProof H node proof) d i node := by
  induction proof generalizing node with
  | nil => exact ⟨0, 0, .root⟩
  | cons p proof ih =>
      simp only [foldProof, List.foldl_cons] at ih ⊢
      split_ifs
      · obtain ⟨d, i, h⟩ := ih (nodeHash H node p.hash)
        exact ⟨d + 1, 2 * i, .left h⟩
      · obtain ⟨d, i, h⟩ := ih (nodeHash H p.hash node)
        exact ⟨d + 1, 2 * i + 1, .right h⟩

/-- Whatever sits under a root has a path to it. -/
theorem At.foldProof {root x : D} {d i : ℕ} (h : At (scheme H) root d i x) :
    ∃ proof, foldProof H x proof = root := by
  induction h with
  | root => exact ⟨[], rfl⟩
  | @left d i l r _ ih =>
      obtain ⟨proof, hp⟩ := ih
      exact ⟨⟨r, true⟩ :: proof, hp⟩
  | @right d i l r _ ih =>
      obtain ⟨proof, hp⟩ := ih
      exact ⟨⟨l, false⟩ :: proof, hp⟩

theorem foldProof_append (node : D) (p q : List (ProofNode D)) :
    foldProof H (foldProof H node p) q = foldProof H node (p ++ q) := by
  simp [foldProof]

theorem verifyStatLeaves_commits [DecidableEq D] {root : D} {leaves : List (StatLeaf D)}
    {u : PUnit.{1}} (h : verifyStatLeaves H root leaves = .ok u) :
    ∀ leaf ∈ leaves, Commits (scheme H) root (borshScoreStat leaf.stat) := by
  induction leaves with
  | nil => simp
  | cons leaf leaves ih =>
      simp only [verifyStatLeaves, verifyStatLeaf, bind_eq_ok, require_eq_ok] at h
      obtain ⟨_, hleaf, h⟩ := h
      refine List.forall_mem_cons.mpr ⟨?_, ih h⟩
      have := foldProof_at (H := H) (leafHash H (borshScoreStat leaf.stat)) leaf.statProof
      rwa [hleaf] at this

theorem verifyFixture_commits [DecidableEq D] {root : D} {summary : ScoresBatchSummary D}
    {p q : List (ProofNode D)} {u : PUnit.{1}} (h : verifyFixture H root summary p q = .ok u) :
    Commits (scheme H) root (borshSummary H summary) := by
  simp only [verifyFixture, require_eq_ok, foldProof_append] at h
  have := foldProof_at (H := H) (leafHash H (borshSummary H summary)) (p ++ q)
  rwa [h] at this

/-! ## The multiproof -/

/-- The indices of a level ascend. -/
def Ascending (level : Level D) : Prop := level.Pairwise fun a b => a.1 < b.1

theorem sibling_eq (i : ℕ) : i ^^^ 1 = if i % 2 = 0 then i + 1 else i - 1 := by
  split_ifs with h
  · exact Nat.xor_one_of_even (Nat.even_iff.mpr h)
  · exact Nat.xor_one_of_odd (Nat.odd_iff.mpr (by omega))

theorem sortLevel_eq {level : Level D} (h : Ascending level) : sortLevel level = level :=
  List.Pairwise.insertionSort_eq (h.imp fun hab => hab.le)

theorem dedupLevel_eq {level : Level D} (h : Ascending level) : dedupLevel level = level :=
  List.destutter_of_isChain _ _ (h.imp fun hab => hab.ne).isChain

theorem ascending_of_sorted {level : Level D} (hs : level.Pairwise fun a b => a.1 ≤ b.1)
    (hd : level.IsChain fun a b => a.1 ≠ b.1) : Ascending level := by
  induction level with
  | nil => exact .nil
  | cons a level ih =>
      rw [List.pairwise_cons] at hs
      have htail := ih hs.2 hd.tail
      refine List.pairwise_cons.mpr ⟨?_, htail⟩
      cases level with
      | nil => simp
      | cons c level =>
          have hac : a.1 < c.1 :=
            lt_of_le_of_ne (hs.1 c List.mem_cons_self) (List.isChain_cons_cons.mp hd).1
          refine List.forall_mem_cons.mpr ⟨hac, fun b hb => ?_⟩
          exact hac.trans ((List.pairwise_cons.mp htail).1 b hb)

theorem sortLevel_sorted (level : Level D) :
    (sortLevel level).Pairwise fun a b => a.1 ≤ b.1 := by
  have htrans : IsTrans (ℕ × D) fun a b => a.1 ≤ b.1 := ⟨fun _ _ _ => le_trans⟩
  have htotal : Std.Total fun a b : ℕ × D => a.1 ≤ b.1 := ⟨fun a b => le_total a.1 b.1⟩
  exact List.pairwise_insertionSort _ level

/-- The levels the verifier accepts after sorting ascend. -/
theorem sortLevel_ascending {level : Level D}
    (h : (sortLevel level).IsChain fun a b => a.1 ≠ b.1) : Ascending (sortLevel level) :=
  ascending_of_sorted (sortLevel_sorted level) h

/-- One pass sends each node to a parent at half its index, in order. -/
structure Climbed (H : Keccak D) (level next : Level D) : Prop where
  ascending : Ascending next
  parents : ∀ e ∈ level, ∃ sibling, (e.1 / 2, parentHash H e.1 e.2 sibling) ∈ next
  children : ∀ e ∈ next, ∃ c ∈ level, e.1 = c.1 / 2

variable {level next : Level D}

theorem Climbed.single (h : Climbed H level next) {idx : ℕ} (hash sibling : D)
    (hgap : ∀ e ∈ level, idx / 2 < e.1 / 2) :
    Climbed H ((idx, hash) :: level) ((idx / 2, parentHash H idx hash sibling) :: next) where
  ascending := by
    refine List.pairwise_cons.mpr ⟨fun e he => ?_, h.ascending⟩
    obtain ⟨c, hc, hec⟩ := h.children e he
    rw [hec]
    exact hgap c hc
  parents := by
    refine List.forall_mem_cons.mpr ⟨⟨sibling, List.mem_cons_self⟩, fun e he => ?_⟩
    obtain ⟨s, hs⟩ := h.parents e he
    exact ⟨s, List.mem_cons_of_mem _ hs⟩
  children := by
    refine List.forall_mem_cons.mpr ⟨⟨_, List.mem_cons_self, rfl⟩, fun e he => ?_⟩
    obtain ⟨c, hc, hec⟩ := h.children e he
    exact ⟨c, List.mem_cons_of_mem _ hc, hec⟩

/-- The second of two siblings shares the parent of the first. -/
theorem Climbed.pair {idx : ℕ} {hash known : D} (hidx : idx % 2 = 0)
    (h : Climbed H ((idx, hash) :: level) ((idx / 2, parentHash H idx hash known) :: next)) :
    Climbed H ((idx, hash) :: (idx + 1, known) :: level)
      ((idx / 2, parentHash H idx hash known) :: next) where
  ascending := h.ascending
  parents := by
    obtain ⟨hhead, htail⟩ := List.forall_mem_cons.mp h.parents
    refine List.forall_mem_cons.mpr ⟨hhead, List.forall_mem_cons.mpr ⟨⟨hash, ?_⟩, htail⟩⟩
    have hodd : (idx + 1) % 2 ≠ 0 := by omega
    have hhalf : (idx + 1) / 2 = idx / 2 := by omega
    simp [parentHash, hidx, hodd, hhalf]
  children e he := by
    obtain ⟨c, hc, hec⟩ := h.children e he
    rcases List.mem_cons.mp hc with rfl | hc
    · exact ⟨_, List.mem_cons_self, hec⟩
    · exact ⟨c, List.mem_cons_of_mem _ (List.mem_cons_of_mem _ hc), hec⟩

theorem climb_ok {proof rest : List (ProofNode D)}
    (h : climb H level proof = .ok (next, rest)) (ha : Ascending level) :
    Climbed H level next := by
  fun_induction climb H level proof generalizing next rest with
  | case1 proof =>
      simp only [pure_eq_ok, Prod.mk.injEq] at h
      obtain ⟨rfl, -⟩ := h
      exact ⟨.nil, by simp, by simp⟩
  | case2 idx hash proof =>
      simp only [bind_eq_ok, pure_eq_ok, Prod.mk.injEq, Prod.exists] at h
      obtain ⟨sibling, _, -, rfl, -⟩ := h
      exact Climbed.single ⟨.nil, by simp, by simp⟩ hash sibling (by simp)
  | case3 idx hash known level proof ih =>
      simp only [bind_eq_ok, pure_eq_ok, Prod.mk.injEq, Prod.exists] at h
      obtain ⟨next, _, h, rfl, -⟩ := h
      obtain ⟨hhead, hrest⟩ := List.pairwise_cons.mp ha
      obtain ⟨hknown, hlevel⟩ := List.pairwise_cons.mp hrest
      have hlt : idx < idx ^^^ 1 := hhead _ List.mem_cons_self
      have hidx : idx % 2 = 0 := by
        rw [sibling_eq] at hlt
        split_ifs at hlt with hi
        · exact hi
        · omega
      have hsib : idx ^^^ 1 = idx + 1 := by rw [sibling_eq, if_pos hidx]
      simp only [hsib] at hknown ⊢
      refine Climbed.pair hidx (Climbed.single (ih h hlevel) hash known fun e he => ?_)
      have := hknown e he
      omega
  | case4 idx hash j known level proof hj ih =>
      simp only [bind_eq_ok, pure_eq_ok, Prod.mk.injEq, Prod.exists] at h
      obtain ⟨sibling, _, -, next, _, h, rfl, -⟩ := h
      obtain ⟨hhead, hrest⟩ := List.pairwise_cons.mp ha
      refine Climbed.single (ih _ h hrest) hash sibling fun e he => ?_
      have hej : j ≤ e.1 := by
        rcases List.mem_cons.mp he with rfl | he
        · exact le_rfl
        · exact ((List.pairwise_cons.mp hrest).1 e he).le
      have hlt : idx < j := hhead _ List.mem_cons_self
      rw [sibling_eq] at hj
      split_ifs at hj <;> omega

/-- A level that ends the loop is one node, at index zero. -/
theorem atRoot_iff : atRoot level = true ↔ ∃ root, level = [(0, root)] := by
  constructor
  · intro h
    simp only [atRoot, Bool.and_eq_true, decide_eq_true_eq, beq_iff_eq] at h
    cases level with
    | nil => simp at h
    | cons e level =>
        obtain ⟨idx, root⟩ := e
        have hnil : level = [] := List.length_eq_zero_iff.mp (by simpa using h.1)
        have hidx : idx = 0 := by simpa using h.2
        exact ⟨root, by rw [hnil, hidx]⟩
  · rintro ⟨root, rfl⟩
    rfl

theorem At.of_parent {root x sibling : D} {d i : ℕ}
    (h : At (scheme H) root d (i / 2) (parentHash H i x sibling)) :
    At (scheme H) root (d + 1) i x := by
  unfold parentHash at h
  split_ifs at h with hi
  · have := At.child (S := scheme H) h
    rwa [if_pos hi] at this
  · have := At.child (S := scheme H) h
    rwa [if_neg hi] at this

/-- Only the root can be left when no index is above zero. -/
theorem eq_root_of_bound (ha : Ascending level) (hb : ∀ e ∈ level, e.1 < 2 ^ 0)
    (hne : level ≠ []) : ∃ root, level = [(0, root)] := by
  have hz : ∀ e ∈ level, e.1 = 0 := fun e he => by simpa using hb e he
  cases level with
  | nil => exact absurd rfl hne
  | cons e level =>
      have hnil : level = [] := by
        refine List.eq_nil_iff_forall_not_mem.mpr fun c hc => ?_
        have hlt := (List.pairwise_cons.mp ha).1 c hc
        have := hz c (List.mem_cons_of_mem _ hc)
        omega
      exact ⟨e.2, by rw [hnil, ← hz e List.mem_cons_self]⟩

/-- The loop reaches a root, and every node it started from sits below that
root at its index. -/
theorem walk_at {n : ℕ} {level' : Level D} {proof rest : List (ProofNode D)}
    (h : walk H n level proof = .ok (level', rest)) (ha : Ascending level)
    (hb : ∀ e ∈ level, e.1 < 2 ^ n) (hne : level ≠ []) :
    ∃ root, level' = [(0, root)] ∧ ∃ d, ∀ e ∈ level, At (scheme H) root d e.1 e.2 := by
  have stop : ∀ root : D, ∃ d, ∀ e ∈ [(0, root)], At (scheme H) root d e.1 e.2 :=
    fun root => ⟨0, List.forall_mem_singleton.mpr .root⟩
  induction n generalizing level proof with
  | zero =>
      simp only [walk, pure_eq_ok, Prod.mk.injEq] at h
      obtain ⟨rfl, -⟩ := h
      obtain ⟨root, rfl⟩ := eq_root_of_bound ha hb hne
      exact ⟨root, rfl, stop root⟩
  | succ n ih =>
      simp only [walk] at h
      split_ifs at h with hr
      · simp only [pure_eq_ok, Prod.mk.injEq] at h
        obtain ⟨rfl, -⟩ := h
        obtain ⟨root, rfl⟩ := atRoot_iff.mp hr
        exact ⟨root, rfl, stop root⟩
      · simp only [bind_eq_ok, Prod.exists] at h
        obtain ⟨next, proof', hc, h⟩ := h
        have hclimb := climb_ok hc ha
        rw [sortLevel_eq hclimb.ascending, dedupLevel_eq hclimb.ascending] at h
        have hbound : ∀ e ∈ next, e.1 < 2 ^ n := by
          intro e he
          obtain ⟨c, hcmem, hec⟩ := hclimb.children e he
          have := hb c hcmem
          rw [pow_succ] at this
          omega
        have hnext : next ≠ [] := by
          obtain ⟨e, he⟩ := List.exists_mem_of_ne_nil _ hne
          obtain ⟨s, hs⟩ := hclimb.parents e he
          exact List.ne_nil_of_mem hs
        obtain ⟨root, hlevel', d, hat⟩ := ih h hclimb.ascending hbound hnext
        refine ⟨root, hlevel', d + 1, fun e he => ?_⟩
        obtain ⟨s, hs⟩ := hclimb.parents e he
        exact At.of_parent (hat _ hs)

/-- Accepted leaves sit at their distinct indices under the root. -/
theorem verifyMultiproof_at [DecidableEq D] {leafHashes : List D} {leafIndices : List UInt32}
    {multiproof : List (ProofNode D)} {root : D} {u : PUnit.{1}}
    (h : verifyMultiproof H leafHashes leafIndices multiproof root = .ok u)
    (hlen : leafHashes.length = leafIndices.length) :
    leafIndices.Nodup ∧ ∃ d, ∀ e ∈ (leafIndices.map (·.toNat)).zip leafHashes,
      At (scheme H) root d e.1 e.2 := by
  simp only [verifyMultiproof, bind_eq_ok, require_eq_ok, Prod.exists] at h
  obtain ⟨_, hne, _, hd, level', unfed, hw, _, -, hroot⟩ := h
  have ha := sortLevel_ascending hd
  have hperm : (sortLevel ((leafIndices.map (·.toNat)).zip leafHashes)).Perm
      ((leafIndices.map (·.toNat)).zip leafHashes) := List.perm_insertionSort _ _
  have hfst : ((leafIndices.map (·.toNat)).zip leafHashes).map (·.1) =
      leafIndices.map (·.toNat) := by
    rw [← List.unzip_fst, List.unzip_zip (by simp [hlen])]
  have hnodup : (leafIndices.map (·.toNat)).Nodup := by
    rw [← hfst, ← (hperm.map _).nodup_iff]
    exact List.pairwise_map.mpr (ha.imp fun hab => hab.ne)
  have hbound : ∀ e ∈ sortLevel ((leafIndices.map (·.toNat)).zip leafHashes), e.1 < 2 ^ 32 := by
    intro e he
    have hmem := List.mem_map_of_mem (f := (·.1)) (hperm.mem_iff.mp he)
    rw [hfst] at hmem
    obtain ⟨i, -, hi⟩ := List.mem_map.mp hmem
    exact hi ▸ i.toNat_lt
  have hnonempty : sortLevel ((leafIndices.map (·.toNat)).zip leafHashes) ≠ [] := by
    intro hnil
    rw [hnil] at hperm
    have := hperm.length_eq
    cases leafHashes with
    | nil => exact hne rfl
    | cons x xs => simp [hlen.symm] at this
  obtain ⟨r, rfl, d, hat⟩ := walk_at hw ha hbound hnonempty
  obtain rfl : r = root := by simpa using hroot
  exact ⟨hnodup.of_map, d, fun e he => hat e (hperm.mem_iff.mpr he)⟩

theorem verifyMultiproof_commits [DecidableEq D] {leaves : List (StatLeaf D)}
    {leafIndices : List UInt32} {multiproof : List (ProofNode D)} {root : D} {u : PUnit.{1}}
    (h : verifyMultiproof H (leaves.map fun leaf => leafHash H (borshScoreStat leaf.stat))
      leafIndices multiproof root = .ok u) (hlen : leaves.length = leafIndices.length) :
    ∀ leaf ∈ leaves, Commits (scheme H) root (borshScoreStat leaf.stat) := by
  obtain ⟨-, d, hat⟩ := verifyMultiproof_at h (by simpa using hlen)
  intro leaf hleaf
  obtain ⟨n, hn, rfl⟩ := List.mem_iff_getElem.mp hleaf
  refine ⟨d, leafIndices[n].toNat, hat (leafIndices[n].toNat, _) ?_⟩
  refine List.mem_iff_getElem.mpr ⟨n, by simp; omega, ?_⟩
  simp [scheme]

/-! ## Predicates -/

/-- The value a rule reads at an index. -/
def valueAt (values : List Int32) (i : ℕ) : ℤ := ((values[i]?).map Int32.toInt).getD 0

def Relates (comparison : Comparison) (value threshold : ℤ) : Prop :=
  match comparison with
  | .greaterThan => threshold < value
  | .lessThan => value < threshold
  | .equalTo => value = threshold

def apply (op : BinaryExpression) (a b : ℤ) : ℤ :=
  match op with
  | .add => a + b
  | .subtract => a - b

/-- The meaning of a leg predicate over the values of the legs. -/
def LegHolds (values : List Int32) : LegPredicate → Prop
  | .single index comparison threshold =>
      Relates comparison (valueAt values index) threshold.toInt
  | .binary indexA indexB op comparison threshold =>
      Relates comparison (apply op (valueAt values indexA) (valueAt values indexB))
        threshold.toInt

/-- The meaning of an outcome spec over the values of its one or two stats. -/
def OutcomeHolds (values : List Int32) (spec : OutcomeSpec) : Prop :=
  if spec.hasStatB then
    Relates spec.comparison
      (apply (spec.op.getD .subtract) (valueAt values 0) (valueAt values 1)) spec.threshold.toInt
  else Relates spec.comparison (valueAt values 0) spec.threshold.toInt

def StatHolds (values : List Int32) : StatPredicate → Prop
  | .single index p => Relates p.comparison (valueAt values index) p.threshold.toInt
  | .binary indexA indexB op p =>
      Relates p.comparison (apply op (valueAt values indexA) (valueAt values indexB))
        p.threshold.toInt

theorem statHolds_toStat (values : List Int32) (p : LegPredicate) :
    StatHolds values (LegPredicate.toStat p) ↔ LegHolds values p := by
  cases p <;> rfl

theorem statHolds_specPredicates (values : List Int32) (spec : OutcomeSpec) :
    (∀ p ∈ specPredicates spec, StatHolds values p) ↔ OutcomeHolds values spec := by
  unfold specPredicates OutcomeHolds
  split_ifs <;> simp [StatHolds]

theorem compare_iff (value threshold : ℤ) (comparison : Comparison) :
    MockOracle.compare value threshold comparison = true ↔
      Relates comparison value threshold := by
  cases comparison <;> simp [MockOracle.compare, Relates]

theorem val_eq (stats : List ScoreStat) (i : ℕ) :
    val stats i = valueAt (stats.map (·.value)) i := by
  unfold val valueAt
  rw [List.getElem?_map]
  cases stats[i]? <;> rfl

theorem valueAt_bounds (values : List Int32) (i : ℕ) :
    -(2 ^ 31) ≤ valueAt values i ∧ valueAt values i < 2 ^ 31 := by
  unfold valueAt
  cases values[i]? with
  | none => simp
  | some v => exact ⟨Int32.le_toInt v, Int32.toInt_lt v⟩

/-- Combining two 32-bit values does not overflow 64 bits. -/
theorem combine_eq (op : BinaryExpression) (values : List Int32) (i j : ℕ) :
    combine op (valueAt values i) (valueAt values j) =
      .ok (apply op (valueAt values i) (valueAt values j)) := by
  have hi := valueAt_bounds values i
  have hj := valueAt_bounds values j
  have fits : ∀ {x : ℤ}, -(2 ^ 63) ≤ x → x < 2 ^ 63 → checkedI64 x = .ok x := by
    intro x hlo hhi
    exact if_pos ⟨hlo, by unfold i64Max; omega⟩
  cases op with
  | add => exact fits (by omega) (by omega)
  | subtract => exact fits (by omega) (by omega)

theorem evaluatePredicate_eq (stats : List ScoreStat) (p : StatPredicate) :
    ∃ holds, evaluatePredicate stats p = .ok holds ∧
      (holds = true ↔ StatHolds (stats.map (·.value)) p) := by
  cases p with
  | single index p => exact ⟨_, rfl, by rw [compare_iff, val_eq]; rfl⟩
  | binary indexA indexB op p =>
      refine ⟨_, ?_, compare_iff _ _ _⟩
      simp only [evaluatePredicate, val_eq, combine_eq]
      rfl

theorem evaluateAll_eq (stats : List ScoreStat) (ps : List StatPredicate) :
    ∃ holds, evaluateAll stats ps = .ok holds ∧
      (holds = true ↔ ∀ p ∈ ps, StatHolds (stats.map (·.value)) p) := by
  induction ps with
  | nil => exact ⟨true, rfl, by simp⟩
  | cons p ps ih =>
      obtain ⟨first, hf, hp⟩ := evaluatePredicate_eq stats p
      obtain ⟨rest, hr, hps⟩ := ih
      cases first with
      | false =>
          refine ⟨false, by simp [evaluateAll, hf, bind, Except.bind, pure, Except.pure], ?_⟩
          simp only [Bool.false_eq_true, false_iff] at hp ⊢
          exact fun h => hp (h p List.mem_cons_self)
      | true =>
          refine ⟨rest, by simp [evaluateAll, hf, hr, bind, Except.bind], ?_⟩
          rw [hps, List.forall_mem_cons]
          exact ⟨fun h => ⟨hp.mp rfl, h⟩, fun h => h.2⟩

/-- A strategy of predicates alone returns their conjunction exactly when they
read each stat once. -/
theorem evaluateStrategy_ok {stats : List ScoreStat} {ps : List StatPredicate} {holds : Bool} :
    evaluateStrategy stats (discreteStrategy ps) = .ok holds ↔
      stats.length ≤ 32 ∧ ExactlyOnce stats.length (ps.flatMap StatPredicate.refs) ∧
        (holds = true ↔ ∀ p ∈ ps, StatHolds (stats.map (·.value)) p) := by
  obtain ⟨verdict, hv, hverdict⟩ := evaluateAll_eq stats ps
  have hcover : (∃ seen, markEach stats.length MockOracleError.missingStat .duplicateStatCoverage
      (List.replicate stats.length false) (ps.flatMap StatPredicate.refs) = .ok seen ∧
        ∀ c ∈ seen.take stats.length, c = true) ↔
      ExactlyOnce stats.length (ps.flatMap StatPredicate.refs) := coverage_iff le_rfl
  have htake : ∀ {seen : List Bool}, markEach stats.length MockOracleError.missingStat
      .duplicateStatCoverage (List.replicate stats.length false) (ps.flatMap StatPredicate.refs) =
        .ok seen → seen.take stats.length = seen := by
    intro seen h
    have := (markEach_flags (by simp) h).1
    exact List.take_of_length_le (by simp [this])
  simp only [evaluateStrategy, discreteStrategy, NDimensionalStrategy.refs, List.map_nil,
    List.nil_append, withinDistance, if_true, bind_eq_ok, require_eq_ok, pure_eq_ok, hv]
  constructor
  · rintro ⟨_, hlen, seen, hseen, _, hall, near, rfl, h⟩
    simp only [if_true, Except.ok.injEq] at h
    subst h
    exact ⟨hlen, hcover.mp ⟨seen, hseen, by rwa [htake hseen]⟩, hverdict⟩
  · rintro ⟨hlen, honce, hholds⟩
    obtain ⟨seen, hseen, hall⟩ := hcover.mpr honce
    rw [htake hseen] at hall
    refine ⟨.unit, hlen, seen, hseen, .unit, hall, true, rfl, ?_⟩
    simp only [if_true, Except.ok.injEq]
    exact Bool.eq_iff_iff.mpr (hverdict.trans hholds.symm)

/-! ## The two calls -/

theorem decodeVerdict_returnBool (verdict : Bool) :
    decodeVerdict mockOracleId (some (returnBool verdict)) = .ok verdict := by
  cases verdict <;> rfl

variable [DecidableEq D] {view : RootsView D} {account : Pubkey} {holds : Bool}

theorem invokeValidateStatV2_eq (payload : StatValidationInput D)
    (strategy : NDimensionalStrategy) :
    invokeValidateStatV2 (mockOracle H) view mockOracleId account payload strategy =
      mapError .oracle (validateStatV2 H view account payload strategy) := by
  simp only [invokeValidateStatV2, mockOracle]
  cases validateStatV2 H view account payload strategy with
  | error e => rfl
  | ok verdict => exact decodeVerdict_returnBool verdict

theorem invokeValidateStatV3_eq (payload : StatValidationInputV3 D)
    (strategy : NDimensionalStrategy) :
    invokeValidateStatV3 (mockOracle H) view mockOracleId account payload strategy =
      mapError .oracle (validateStatV3 H view account payload strategy) := by
  simp only [invokeValidateStatV3, mockOracle]
  cases validateStatV3 H view account payload strategy with
  | error e => rfl
  | ok verdict => exact decodeVerdict_returnBool verdict

/-- The roots account of the day and what it commits to. -/
def RootsOf (view : RootsView D) (account : Pubkey) (ts : Int64)
    (roots : DailyScoresMerkleRoots D) : Prop :=
  view account = some roots ∧ roots.epochDay = epochDayOf ts

omit [DecidableEq D] in
theorem loadRoots_ok {ts : Int64} {roots : DailyScoresMerkleRoots D} :
    loadRoots view account ts = .ok roots ↔ RootsOf view account ts roots := by
  simp only [loadRoots, RootsOf, bind_eq_ok, demand_eq_ok, require_eq_ok, pure_eq_ok]
  constructor
  · rintro ⟨r, hr, _, he, rfl⟩
    exact ⟨hr, he⟩
  · rintro ⟨hr, he⟩
    exact ⟨roots, hr, .unit, he, rfl⟩

end ProofBook.OracleSound
