import ProofBook.Lib.Checked

/-!
# Exact coverage

A list of flags records which indices were read. Reading refuses an index out
of range or read before; in the end every flag must be set. Together the two
checks say that the indices read are those below the bound, each once. Counting
the reads and asking for one each is the same check.
-/
namespace ProofBook.Coverage
open Checked

variable {E : Type}

def markEach (n : ℕ) (range duplicate : E) : List Bool → List ℕ → Except E (List Bool)
  | seen, [] => pure seen
  | seen, i :: is => do
      require (i < n) range
      require (seen.getD i false = false) duplicate
      markEach n range duplicate (seen.set i true) is

/-- The indices below a bound, each once. -/
def ExactlyOnce (n : ℕ) (is : List ℕ) : Prop := is.Nodup ∧ ∀ i, i ∈ is ↔ i < n

variable {n : ℕ} {range duplicate incomplete : E} {seen seen' : List Bool} {is : List ℕ}

theorem markEach_append (js : List ℕ) : markEach n range duplicate seen (is ++ js) =
    (markEach n range duplicate seen is >>= fun seen => markEach n range duplicate seen js) := by
  induction is generalizing seen with
  | nil => rfl
  | cons i is ih => simp only [List.cons_append, markEach, ih, bind_assoc]

theorem getD_set (hn : n ≤ seen.length) {i : ℕ} (hi : i < n) (j : ℕ) :
    (seen.set i true).getD j false = true ↔ j = i ∨ seen.getD j false = true := by
  by_cases h : j = i
  · subst h
    simp [List.getD, show j < seen.length by omega]
  · simp [List.getD, h, Ne.symm h]

/-- Marking succeeds exactly on new indices in range, and sets their flags. -/
theorem markEach_ok (hn : n ≤ seen.length) :
    (∃ seen', markEach n range duplicate seen is = .ok seen') ↔
      is.Nodup ∧ ∀ i ∈ is, i < n ∧ seen.getD i false = false := by
  induction is generalizing seen with
  | nil => simp [markEach, pure, Except.pure]
  | cons i is ih =>
      have hset : n ≤ (seen.set i true).length := by simpa using hn
      simp only [markEach, bind_eq_ok, require_eq_ok, List.nodup_cons, List.forall_mem_cons]
      constructor
      · rintro ⟨seen', _, hi, _, hf, h⟩
        obtain ⟨hnd, hall⟩ := (ih hset).mp ⟨seen', h⟩
        refine ⟨⟨fun hmem => ?_, hnd⟩, ⟨hi, hf⟩, fun j hj => ⟨(hall j hj).1, ?_⟩⟩
        · have := (hall i hmem).2
          rw [Bool.eq_false_iff] at this
          exact this ((getD_set hn hi i).mpr (.inl rfl))
        · have := (hall j hj).2
          rw [Bool.eq_false_iff] at this ⊢
          exact fun hs => this ((getD_set hn hi j).mpr (.inr hs))
      · rintro ⟨⟨hmem, hnd⟩, ⟨hi, hf⟩, hall⟩
        have hnew : ∀ j ∈ is, j < n ∧ (seen.set i true).getD j false = false := by
          intro j hj
          have := (hall j hj).2
          rw [Bool.eq_false_iff] at this
          refine ⟨(hall j hj).1, Bool.eq_false_iff.mpr fun hs => ?_⟩
          exact ((getD_set hn hi j).mp hs).elim (fun he => hmem (he ▸ hj)) this
        obtain ⟨seen', h⟩ := (ih hset).mpr ⟨hnd, hnew⟩
        exact ⟨seen', .unit, hi, .unit, hf, h⟩

theorem markEach_flags (hn : n ≤ seen.length)
    (h : markEach n range duplicate seen is = .ok seen') :
    seen'.length = seen.length ∧
      ∀ j, seen'.getD j false = true ↔ j ∈ is ∨ seen.getD j false = true := by
  induction is generalizing seen with
  | nil =>
      simp only [markEach, pure_eq_ok] at h
      subst h
      simp
  | cons i is ih =>
      simp only [markEach, bind_eq_ok, require_eq_ok] at h
      obtain ⟨_, hi, _, -, h⟩ := h
      have hset : n ≤ (seen.set i true).length := by simpa using hn
      obtain ⟨hl, hf⟩ := ih hset h
      refine ⟨by simpa using hl, fun j => ?_⟩
      rw [hf, getD_set hn hi]
      simp only [List.mem_cons]
      tauto

/-- Marking from scratch and finding every flag set. -/
theorem coverage_iff {m : ℕ} (hm : n ≤ m) :
    (∃ seen, markEach n range duplicate (List.replicate m false) is = .ok seen ∧
      ∀ c ∈ seen.take n, c = true) ↔ ExactlyOnce n is := by
  have hn : n ≤ (List.replicate m false).length := by simpa using hm
  have hfalse : ∀ j, (List.replicate m false).getD j false = false := by
    intro j
    simp [List.getD, List.getElem?_replicate]
    split <;> rfl
  have flags : ∀ {seen : List Bool}, n ≤ seen.length →
      ((∀ c ∈ seen.take n, c = true) ↔ ∀ j < n, seen.getD j false = true) := by
    intro seen hl
    constructor
    · intro h j hj
      refine h _ ?_
      rw [List.getD_eq_getElem _ _ (by omega), List.mem_take_iff_getElem]
      exact ⟨j, by omega, rfl⟩
    · intro h c hc
      obtain ⟨j, hj, rfl⟩ := List.mem_take_iff_getElem.mp hc
      have := h j (by omega)
      rwa [List.getD_eq_getElem _ _ (by omega)] at this
  constructor
  · rintro ⟨seen, h, hall⟩
    obtain ⟨hnd, hr⟩ := (markEach_ok hn).mp ⟨seen, h⟩
    obtain ⟨hl, hf⟩ := markEach_flags hn h
    refine ⟨hnd, fun i => ⟨fun hi => (hr i hi).1, fun hi => ?_⟩⟩
    have := (flags (by omega)).mp hall i hi
    rw [hf, hfalse] at this
    simpa using this
  · rintro ⟨hnd, hall⟩
    obtain ⟨seen, h⟩ : ∃ seen, markEach n range duplicate (List.replicate m false) is = .ok seen :=
      (markEach_ok hn).mpr ⟨hnd, fun i hi => ⟨(hall i).mp hi, hfalse i⟩⟩
    obtain ⟨hl, hf⟩ := markEach_flags hn h
    exact ⟨seen, h, (flags (by omega)).mpr fun j hj => (hf j).mpr (.inl ((hall j).mpr hj))⟩

/-! ## Counting -/

/-- The reads of each index, added to a list of counts. -/
def countEach (n : ℕ) (range : ℕ → E) : List ℕ → List ℕ → Except E (List ℕ)
  | seen, [] => pure seen
  | seen, i :: is => do
      require (i < n) (range i)
      countEach n range (seen.modify i (· + 1)) is

variable {outOf : ℕ → E} {counts counts' : List ℕ}

theorem countEach_append (js : List ℕ) : countEach n outOf counts (is ++ js) =
    (countEach n outOf counts is >>= fun counts => countEach n outOf counts js) := by
  induction is generalizing counts with
  | nil => rfl
  | cons i is ih => simp only [List.cons_append, countEach, ih, bind_assoc]

theorem countEach_ok :
    (∃ counts', countEach n outOf counts is = .ok counts') ↔ ∀ i ∈ is, i < n := by
  induction is generalizing counts with
  | nil => simp [countEach, pure, Except.pure]
  | cons i is ih =>
      simp only [countEach, bind_eq_ok, require_eq_ok, List.forall_mem_cons]
      constructor
      · rintro ⟨counts', _, hi, h⟩
        exact ⟨hi, ih.mp ⟨counts', h⟩⟩
      · rintro ⟨hi, hall⟩
        obtain ⟨counts', h⟩ := ih.mpr hall
        exact ⟨counts', .unit, hi, h⟩

theorem countEach_counts (h : countEach n outOf counts is = .ok counts') :
    counts'.length = counts.length ∧
      ∀ j, counts'[j]? = counts[j]?.map (· + is.count j) := by
  induction is generalizing counts with
  | nil =>
      simp only [countEach, pure_eq_ok] at h
      subst h
      simp
  | cons i is ih =>
      simp only [countEach, bind_eq_ok, require_eq_ok] at h
      obtain ⟨_, -, h⟩ := h
      obtain ⟨hl, hc⟩ := ih h
      refine ⟨by simpa using hl, fun j => ?_⟩
      rw [hc, List.getElem?_modify, List.count_cons]
      by_cases hij : i = j
      · subst hij
        simp [Function.comp_def, Nat.add_assoc, Nat.add_comm 1]
      · simp [hij]

theorem exactlyOnce_iff_count :
    ExactlyOnce n is ↔ (∀ i ∈ is, i < n) ∧ ∀ j < n, is.count j = 1 := by
  constructor
  · rintro ⟨hnd, hall⟩
    refine ⟨fun i hi => (hall i).mp hi, fun j hj => ?_⟩
    exact List.count_eq_one_of_mem hnd ((hall j).mpr hj)
  · rintro ⟨hlt, hone⟩
    have hmem : ∀ j < n, j ∈ is := by
      intro j hj
      exact List.count_pos_iff.mp (by rw [hone j hj]; exact Nat.one_pos)
    refine ⟨List.nodup_iff_count_le_one.mpr fun j => ?_, fun j => ⟨hlt j, hmem j⟩⟩
    by_cases hj : j ∈ is
    · exact (hone j (hlt j hj)).le
    · rw [List.count_eq_zero_of_not_mem hj]
      exact Nat.zero_le 1

/-- Counting from scratch and finding one read of each index. -/
theorem countEach_once :
    (∃ counts, countEach n outOf (List.replicate n 0) is = .ok counts ∧ ∀ c ∈ counts, c = 1) ↔
      ExactlyOnce n is := by
  have hcounts : ∀ {counts}, countEach n outOf (List.replicate n 0) is = .ok counts →
      ((∀ c ∈ counts, c = 1) ↔ ∀ j < n, is.count j = 1) := by
    intro counts h
    obtain ⟨hl, hc⟩ := countEach_counts h
    rw [List.length_replicate] at hl
    have hget : ∀ j (hj : j < counts.length), counts[j] = is.count j := by
      intro j hj
      have := hc j
      rw [List.getElem?_eq_getElem hj, List.getElem?_replicate, if_pos (hl ▸ hj)] at this
      simpa using this
    rw [List.forall_mem_iff_forall_getElem]
    constructor
    · intro hall j hj
      have hj : j < counts.length := hl ▸ hj
      rw [← hget j hj]
      exact hall j hj
    · intro hall j hj
      rw [hget j hj]
      exact hall j (hl ▸ hj)
  rw [exactlyOnce_iff_count]
  constructor
  · rintro ⟨counts, h, hall⟩
    exact ⟨countEach_ok.mp ⟨counts, h⟩, (hcounts h).mp hall⟩
  · rintro ⟨hlt, hone⟩
    obtain ⟨counts, h⟩ : ∃ counts, countEach n outOf (List.replicate n 0) is = .ok counts :=
      countEach_ok.mpr hlt
    exact ⟨counts, h, (hcounts h).mpr hone⟩

end ProofBook.Coverage
