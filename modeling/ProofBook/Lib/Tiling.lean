import Mathlib

/-!
# Exactly one of several tests

Tests that tile their inputs: on each of them exactly one holds. A test and its
negation tile, a ladder of comparisons tiles the integers, and the conjunctions of
two tilings are a tiling.
-/
namespace ProofBook.Tiling

def ExactlyOne (tests : List Bool) : Prop := tests.count true = 1

variable {tests as bs : List Bool}

theorem exactlyOne_iff : ExactlyOne tests ↔ ∃! i : ℕ, tests[i]? = some true := by
  induction tests with
  | nil => simp [ExactlyOne]
  | cons b tests ih =>
      cases b with
      | false =>
          rw [ExactlyOne, List.count_cons_of_ne (by simp), ← ExactlyOne, ih]
          constructor
          · rintro ⟨i, hi, huniq⟩
            refine ⟨i + 1, hi, fun j hj => ?_⟩
            cases j with
            | zero => simp at hj
            | succ j => exact congrArg _ (huniq j hj)
          · rintro ⟨i, hi, huniq⟩
            cases i with
            | zero => simp at hi
            | succ i => exact ⟨i, hi, fun j hj => Nat.succ.inj (huniq (j + 1) hj)⟩
      | true =>
          rw [ExactlyOne, List.count_cons_self]
          constructor
          · intro h
            have hnone : true ∉ tests := List.count_eq_zero.mp (by omega)
            refine ⟨0, rfl, fun j hj => ?_⟩
            cases j with
            | zero => rfl
            | succ j =>
                rw [List.getElem?_cons_succ] at hj
                exact absurd (List.mem_of_getElem? hj) hnone
          · rintro ⟨i, -, huniq⟩
            have hnone : true ∉ tests := by
              intro hmem
              obtain ⟨j, hj⟩ := List.mem_iff_getElem?.mp hmem
              have h0 : 0 = i := huniq 0 rfl
              have h1 : j + 1 = i := huniq (j + 1) hj
              omega
            rw [List.count_eq_zero.mpr hnone]

theorem ExactlyOne.perm (h : ExactlyOne as) (hp : as.Perm bs) : ExactlyOne bs :=
  (hp.count_eq true).symm.trans h

theorem exactlyOne_complement (b : Bool) : ExactlyOne [b, !b] := by cases b <;> rfl

/-! ## Conjunctions -/

/-- Each test of the first list with each of the second. -/
def conjunctions (as bs : List Bool) : List Bool := as.flatMap fun a => bs.map (a && ·)

theorem count_conjunctions (as bs : List Bool) :
    (conjunctions as bs).count true = as.count true * bs.count true := by
  induction as with
  | nil => simp [conjunctions]
  | cons a as ih =>
      rw [conjunctions] at ih
      rw [conjunctions, List.flatMap_cons, List.count_append, ih]
      cases a with
      | false => simp [List.count_eq_zero.mpr]
      | true => simp [Nat.succ_mul, Nat.add_comm]

theorem ExactlyOne.conjunctions (ha : ExactlyOne as) (hb : ExactlyOne bs) :
    ExactlyOne (conjunctions as bs) := by
  rw [ExactlyOne, count_conjunctions, ha, hb]

/-! ## Ladders -/

/-- Above the top, at each of the rungs going down from it, and below the last. -/
def ladder (x top : ℤ) (rungs : ℕ) : List Bool :=
  decide (top < x) ::
    ((List.range rungs).map fun i : ℕ => decide (x = top - i)) ++ [decide (x < top - rungs + 1)]

theorem count_rungs (x top : ℤ) (rungs : ℕ) :
    ((List.range rungs).map fun i : ℕ => decide (x = top - i)).count true =
      if top - rungs < x ∧ x ≤ top then 1 else 0 := by
  induction rungs with
  | zero =>
      rw [if_neg (by omega)]
      rfl
  | succ rungs ih =>
      rw [List.range_succ, List.map_append, List.count_append, ih]
      by_cases hx : x = top - rungs
      · rw [if_neg (by omega), if_pos (by omega)]
        simp [hx]
      · simp only [List.map_cons, List.map_nil, hx, decide_false, List.count_singleton,
          Nat.cast_succ]
        split_ifs <;> first | rfl | omega | simp_all

theorem exactlyOne_ladder (x top : ℤ) (rungs : ℕ) : ExactlyOne (ladder x top rungs) := by
  simp only [ExactlyOne, ladder, List.cons_append, List.count_cons, List.count_append, count_rungs,
    List.count_nil, beq_true, decide_eq_true_eq]
  split_ifs <;> omega

end ProofBook.Tiling
