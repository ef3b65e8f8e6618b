import ProofBook.Lib.Totals

/-!
# Pro-rata distribution with floors

A pot `D` is divided over stakes that sum to `W`: a stake `s` earns the floor of
`s * D / W`. Floors never overspend the pot, and they fall short of it by less
than one unit for each stake that is not zero. A remainder rule that pays the
last stake what is left therefore pays at least its floor.
-/
namespace ProofBook.ProRata
open Totals

def share (D W s : ℕ) : ℕ := s * D / W

@[simp] theorem share_zero (D W : ℕ) : share D W 0 = 0 := by simp [share]

theorem share_le (D : ℕ) {W s : ℕ} (h : s ≤ W) : share D W s ≤ D :=
  Nat.div_le_of_le_mul (Nat.mul_le_mul_right D h)

theorem mul_lt_share_succ (D s : ℕ) {W : ℕ} (hW : 0 < W) : s * D < (share D W s + 1) * W := by
  rw [Nat.mul_comm _ W]
  exact Nat.lt_mul_div_succ _ hW

theorem share_eq_iff {D W s n : ℕ} (hW : 0 < W) :
    share D W s = n ↔ W * n ≤ s * D ∧ s * D < W * (n + 1) := by
  unfold share
  rw [Nat.div_eq_iff hW, Nat.mul_comm n W, Nat.mul_add]
  omega

/-- A larger pot leaves a share as it was exactly when the remainder has room for
what the stake gains. -/
theorem share_add_pot_eq_iff (D gap s : ℕ) {W : ℕ} (hW : 0 < W) :
    share (D + gap) W s = share D W s ↔ s * D % W + s * gap < W := by
  have hmod := Nat.div_add_mod (s * D) W
  rw [share_eq_iff hW, Nat.mul_add s, Nat.mul_add W, Nat.mul_one]
  unfold share
  omega

/-- Flooring after adding loses no more than flooring before. -/
theorem share_add_le (D W a b : ℕ) : share D W a + share D W b ≤ share D W (a + b) := by
  unfold share
  rw [Nat.add_mul]
  exact Nat.div_add_div_le_add_div

theorem sum_share_le (D W : ℕ) (l : List ℕ) :
    (l.map (share D W)).sum ≤ share D W l.sum := by
  induction l with
  | nil => simp
  | cons a l ih =>
      simp only [List.map_cons, List.sum_cons]
      exact (Nat.add_le_add_left ih _).trans (share_add_le D W a l.sum)

/-- One unit is lost at most for each stake that earns something. -/
theorem sum_mul_le_sum_share (D : ℕ) {W : ℕ} (hW : 0 < W) (l : List ℕ) :
    l.sum * D ≤ (l.map (share D W)).sum * W + l.countP (0 < ·) * (W - 1) := by
  induction l with
  | nil => simp
  | cons a l ih =>
      simp only [List.map_cons, List.sum_cons, List.countP_cons, Nat.add_mul, decide_eq_true_eq]
      rcases Nat.eq_zero_or_pos a with rfl | ha
      · simpa using ih
      · have h := mul_lt_share_succ D a hW
        rw [Nat.add_mul] at h
        simp only [ha, if_true]
        omega

/-- Stakes that sum to the whole weight leave less than their number behind. -/
theorem lt_sum_share_add_card (D : ℕ) {W : ℕ} (l : List ℕ) (hl : l.sum = W) (hW : 0 < W) :
    D < (l.map (share D W)).sum + l.countP (0 < ·) := by
  have h := sum_mul_le_sum_share D hW l
  rw [hl] at h
  have hc : 0 < l.countP (0 < ·) := by
    rw [List.countP_pos_iff]
    by_contra hn
    push Not at hn
    have : l.sum = 0 := List.sum_eq_zero fun x hx => by simpa using hn x hx
    omega
  generalize (l.map (share D W)).sum = A at h ⊢
  generalize l.countP (0 < ·) = n at h hc ⊢
  by_contra hn
  have hD : (A + n) * W ≤ W * D := by
    rw [Nat.mul_comm W D]
    exact Nat.mul_le_mul_right W (Nat.not_lt.mp hn)
  have hlt : n * (W - 1) < n * W := Nat.mul_lt_mul_of_pos_left (by omega) hc
  rw [Nat.add_mul] at hD
  omega

section Maps
variable {K V : Type*}

theorem total_share_le (D W : ℕ) (f : K → V → ℕ) (m : FMap K V) :
    total (fun k v => share D W (f k v)) m ≤ share D W (total f m) := by
  unfold total
  have h := sum_share_le D W (m.entries.map fun e : Sigma fun _ : K => V => f e.1 e.2)
  simpa only [List.map_map, Function.comp_def] using h

theorem lt_total_share_add_card (D : ℕ) {W : ℕ} (f : K → V → ℕ) (m : FMap K V)
    (hf : total f m = W) (hW : 0 < W) :
    D < total (fun k v => share D W (f k v)) m +
      total (fun k v => if 0 < f k v then 1 else 0) m := by
  unfold total at hf ⊢
  have h := lt_sum_share_add_card D _ hf hW
  have hc : ∀ es : List (Sigma fun _ : K => V),
      (es.map fun e => f e.1 e.2).countP (0 < ·) =
        (es.map fun e => if 0 < f e.1 e.2 then 1 else 0).sum := by
    intro es
    induction es with
    | nil => rfl
    | cons e es ih =>
        simp only [List.map_cons, List.countP_cons, ih, List.sum_cons, decide_eq_true_eq]
        omega
  rw [hc] at h
  simpa only [List.map_map, Function.comp_def] using h

end Maps
end ProofBook.ProRata
