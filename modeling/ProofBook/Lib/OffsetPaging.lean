import Mathlib

/-!
# Paging by offset

Rows are sorted by a key that rows may share, anew for each page, and rows that tie come
in any order. The pages put together are the rows if no tie reaches across the end of a
page, and only then whatever the orders are.
-/
namespace ProofBook.OffsetPaging

universe u v
variable {α : Type u} {κ : Type v} [LinearOrder κ] (key : α → κ)

/-- The rows in some order of their keys. -/
structure Orders (rows order : List α) : Prop where
  perm : order.Perm rows
  sorted : order.Pairwise fun x y => key x ≤ key y

/-- How many rows come before the row in every order. -/
def before (rows : List α) (x : α) : ℕ := rows.countP (key · < key x)

/-- How many rows come up to the row and those it ties with. -/
def upTo (rows : List α) (x : α) : ℕ := rows.countP (key · ≤ key x)

/-- The rows that tie with this one are on both sides of a position. -/
def Straddles (rows : List α) (b : ℕ) (x : α) : Prop := before key rows x < b ∧ b < upTo key rows x

instance (rows : List α) (b : ℕ) (x : α) : Decidable (Straddles key rows b x) :=
  inferInstanceAs (Decidable (_ ∧ _))

/-- Pages of one size, each cut from an order of its own. -/
def pages (orders : ℕ → List α) (size count : ℕ) : List α :=
  (List.range count).flatMap fun k => ((orders (size * k)).drop (size * k)).take size

variable {key} {rows order : List α} {b : ℕ} {x : α}

theorem upTo_eq (rows : List α) (x : α) :
    upTo key rows x = before key rows x + (rows.map key).count (key x) := by
  induction rows with
  | nil => rfl
  | cons a rows ih =>
      simp only [upTo, before, List.countP_cons, List.map_cons, List.count_cons] at ih ⊢
      rcases lt_trichotomy (key a) (key x) with h | h | h
      · simp [h, h.le, h.ne]
        omega
      · simp [h]
        omega
      · simp [h.not_ge, h.not_gt, h.ne']
        omega

/-- Rows of different keys are never on both sides. -/
theorem not_straddles_of_nodup (h : (rows.map key).Nodup) : ¬ Straddles key rows b x := by
  intro ⟨hbefore, hupTo⟩
  have hone := List.nodup_iff_count_le_one.mp h (key x)
  rw [upTo_eq] at hupTo
  omega

/-- What holds of a row and all before it holds at the positions below its count. -/
theorem lt_countP_iff {P : α → Bool} (hmono : order.Pairwise fun x y => P y = true → P x = true)
    {i : ℕ} (hx : order[i]? = some x) : P x = true ↔ i < order.countP P := by
  induction order generalizing i with
  | nil => cases hx
  | cons a order ih =>
      obtain ⟨ha, hmono⟩ := List.pairwise_cons.mp hmono
      cases i with
      | zero =>
          cases hx
          cases hP : P x with
          | true => simp [hP]
          | false =>
              have hnone : order.countP P = 0 := by
                rw [List.countP_eq_zero]
                intro y hy hPy
                rw [ha y hy hPy] at hP
                cases hP
              simp [hP, hnone]
      | succ i =>
          rw [List.getElem?_cons_succ] at hx
          have hmem := List.mem_of_getElem? hx
          cases hP : P a with
          | true =>
              rw [List.countP_cons_of_pos hP, ih hmono hx]
              omega
          | false =>
              have hnot : P x ≠ true := by
                intro hPx
                rw [ha x hmem hPx] at hP
                cases hP
              have hle : order.countP P ≤ i := by
                rw [← not_lt, ← ih hmono hx]
                exact hnot
              rw [List.countP_cons_of_neg (by simp [hP])]
              exact iff_of_false hnot (by omega)

theorem Orders.countP_eq (h : Orders key rows order) (P : α → Bool) :
    order.countP P = rows.countP P := h.perm.countP_eq P

theorem Orders.le_iff (h : Orders key rows order) {i : ℕ} {y : α} (hy : order[i]? = some y) :
    key y ≤ key x ↔ i < upTo key rows x := by
  have hmono : order.Pairwise fun u v =>
      decide (key v ≤ key x) = true → decide (key u ≤ key x) = true := by
    refine h.sorted.imp fun huv => ?_
    simpa using huv.trans
  have hcount := lt_countP_iff hmono hy
  rw [h.countP_eq, decide_eq_true_iff] at hcount
  exact hcount

theorem Orders.lt_iff (h : Orders key rows order) {i : ℕ} {y : α} (hy : order[i]? = some y) :
    key y < key x ↔ i < before key rows x := by
  have hmono : order.Pairwise fun u v =>
      decide (key v < key x) = true → decide (key u < key x) = true := by
    refine h.sorted.imp fun huv => ?_
    simpa using huv.trans_lt
  have hcount := lt_countP_iff hmono hy
  rw [h.countP_eq, decide_eq_true_iff] at hcount
  exact hcount

/-- Every order has a row between those before it and those up to it. -/
theorem Orders.position (h : Orders key rows order) {i : ℕ} (hx : order[i]? = some x) :
    before key rows x ≤ i ∧ i < upTo key rows x :=
  ⟨not_lt.mp fun hlt => lt_irrefl _ ((h.lt_iff hx).mpr hlt), (h.le_iff hx).mp le_rfl⟩

theorem mem_take_iff {l : List α} : x ∈ l.take b ↔ ∃ i < b, l[i]? = some x := by
  rw [List.mem_iff_getElem?]
  constructor
  · intro ⟨i, hi⟩
    rw [List.getElem?_take] at hi
    split_ifs at hi with hlt
    exact ⟨i, hlt, hi⟩
  · intro ⟨i, hlt, hi⟩
    exact ⟨i, by rw [List.getElem?_take, if_pos hlt, hi]⟩

/-- Without a tie across a position, the rows before it are the same in every order. -/
theorem Orders.mem_take (h : Orders key rows order) (hx : x ∈ rows)
    (hb : ¬ Straddles key rows b x) : x ∈ order.take b ↔ upTo key rows x ≤ b := by
  rw [mem_take_iff]
  constructor
  · intro ⟨i, hi, hget⟩
    have hpos := (h.position hget).1
    exact not_lt.mp fun hlt => hb ⟨by omega, hlt⟩
  · intro hle
    obtain ⟨i, hget⟩ := List.mem_iff_getElem?.mp (h.perm.mem_iff.mpr hx)
    exact ⟨i, (h.position hget).2.trans_le hle, hget⟩

theorem Orders.take_perm (h : Orders key rows order) (hnd : rows.Nodup)
    (hb : ∀ x ∈ rows, ¬ Straddles key rows b x) :
    (order.take b).Perm (rows.filter (upTo key rows · ≤ b)) := by
  have hnd' : order.Nodup := h.perm.nodup_iff.mpr hnd
  rw [List.perm_ext_iff_of_nodup (hnd'.sublist (List.take_sublist _ _)) (hnd.filter _)]
  intro x
  rw [List.mem_filter, decide_eq_true_iff]
  constructor
  · intro hx
    have hmem := h.perm.mem_iff.mp (List.mem_of_mem_take hx)
    exact ⟨hmem, (h.mem_take hmem (hb x hmem)).mp hx⟩
  · intro ⟨hmem, hle⟩
    exact (h.mem_take hmem (hb x hmem)).mpr hle

/-! ## The pages together -/

variable {orders : ℕ → List α} {size count : ℕ}

theorem pages_succ (orders : ℕ → List α) (size count : ℕ) :
    pages orders size (count + 1) = pages orders size count ++
      ((orders (size * count)).drop (size * count)).take size := by
  simp [pages, List.range_succ]

theorem Orders.length_eq (h : Orders key rows order) : order.length = rows.length :=
  h.perm.length_eq

/-- All pages but the last are full. -/
theorem pages_length (h : ∀ b, Orders key rows (orders b)) :
    (pages orders size count).length = min (size * count) rows.length := by
  induction count with
  | zero => simp [pages]
  | succ count ih =>
      rw [pages_succ, List.length_append, ih, List.length_take, List.length_drop, (h _).length_eq,
        Nat.mul_succ]
      omega

theorem take_add_page (l : List α) (b size : ℕ) :
    l.take (b + size) = l.take b ++ (l.drop b).take size := List.take_add

/-- Without ties across their ends the pages are the rows they have room for. -/
theorem pages_perm_filter (h : ∀ b, Orders key rows (orders b)) (hnd : rows.Nodup)
    (hb : ∀ k, ∀ x ∈ rows, ¬ Straddles key rows (size * k) x) :
    (pages orders size count).Perm (rows.filter (upTo key rows · ≤ size * count)) := by
  induction count with
  | zero =>
      have htake := (h 0).take_perm (b := 0) hnd fun x _ hs => absurd hs.1 (Nat.not_lt_zero _)
      simpa [pages] using htake
  | succ count ih =>
      rw [pages_succ]
      have hlow := (h (size * count)).take_perm hnd (hb count)
      have hhigh := (h (size * count)).take_perm hnd (hb (count + 1))
      rw [Nat.mul_succ, take_add_page] at hhigh
      rw [Nat.mul_succ]
      exact ((ih.trans hlow.symm).append_right _).trans hhigh

theorem pages_perm (h : ∀ b, Orders key rows (orders b)) (hnd : rows.Nodup)
    (hcount : rows.length ≤ size * count)
    (hb : ∀ k, ∀ x ∈ rows, ¬ Straddles key rows (size * k) x) :
    (pages orders size count).Perm rows := by
  have hall : rows.filter (upTo key rows · ≤ size * count) = rows := by
    rw [List.filter_eq_self]
    intro x _
    exact decide_eq_true (List.countP_le_length.trans hcount)
  have hperm := @pages_perm_filter _ _ _ _ _ _ _ count h hnd hb
  rwa [hall] at hperm

/-! ## A tie across the end of a page -/

variable (key)

theorem exists_orders (rows : List α) : ∃ order, Orders key rows order := by
  refine ⟨rows.insertionSort fun x y => key x ≤ key y, List.perm_insertionSort _ _, ?_⟩
  have htotal : Std.Total fun x y : α => key x ≤ key y := ⟨fun x y => le_total _ _⟩
  have htrans : IsTrans α fun x y => key x ≤ key y := ⟨fun _ _ _ => le_trans⟩
  exact List.pairwise_insertionSort _ _

variable {key}

/-- Two rows that tie may change places. -/
theorem Orders.swap {xs ys : List α} {y z : α} (h : Orders key rows (xs ++ y :: z :: ys))
    (hyz : key y = key z) : Orders key rows (xs ++ z :: y :: ys) where
  perm := ((List.Perm.swap y z ys).append_left xs).trans h.perm
  sorted := by
    have hsorted := List.pairwise_map.mpr h.sorted
    apply List.pairwise_map.mp
    simpa [hyz] using hsorted

/-- Around the position are two rows that tie. -/
theorem Straddles.split (hs : Straddles key rows b x) (h : Orders key rows order) :
    ∃ xs y z ys, order = xs ++ y :: z :: ys ∧ xs.length + 1 = b ∧ key y = key z := by
  obtain ⟨hbefore, hupTo⟩ := hs
  have hlen : b < order.length := by
    rw [h.length_eq]
    exact hupTo.trans_le List.countP_le_length
  have htie : ∀ i y, order[i]? = some y → before key rows x ≤ i → i ≤ b → key y = key x := by
    intro i y hy hlow hhigh
    apply le_antisymm ((h.le_iff hy).mpr (by omega))
    exact not_lt.mp fun hlt => absurd ((h.lt_iff hy).mp hlt) (by omega)
  obtain ⟨c, rfl⟩ : ∃ c, b = c + 1 := Nat.exists_eq_succ_of_ne_zero (by omega)
  obtain ⟨y, hy⟩ : ∃ y, order[c]? = some y := ⟨_, List.getElem?_eq_getElem (by omega)⟩
  obtain ⟨z, hz⟩ : ∃ z, order[c + 1]? = some z := ⟨_, List.getElem?_eq_getElem hlen⟩
  refine ⟨order.take c, y, z, order.drop (c + 2), ?_, ?_, ?_⟩
  · have hdrop := List.drop_eq_getElem?_toList_append (l := order) (i := c)
    have hdrop' := List.drop_eq_getElem?_toList_append (l := order) (i := c + 1)
    rw [hy] at hdrop
    rw [hz] at hdrop'
    rw [hdrop'] at hdrop
    exact (List.take_append_drop c order).symm.trans (congrArg _ hdrop)
  · rw [List.length_take]
    omega
  · rw [htie c y hy (by omega) (by omega), htie (c + 1) z hz (by omega) le_rfl]

theorem mem_page {l : List α} {i : ℕ} {y : α} (hy : l[b + i]? = some y) (hi : i < size) :
    y ∈ (l.drop b).take size := by
  apply List.mem_of_getElem? (i := i)
  rw [List.getElem?_take, if_pos hi, List.getElem?_drop, hy]

/-- A tie across the end of a page can show one row on both pages. -/
theorem Straddles.exists_repeats {k : ℕ} (hsize : 0 < size)
    (hs : Straddles key rows (size * (k + 1)) x) (hk : k + 1 < count) :
    ∃ orders, (∀ b, Orders key rows (orders b)) ∧ ¬ (pages orders size count).Nodup := by
  obtain ⟨order, h⟩ := exists_orders key rows
  obtain ⟨xs, y, z, ys, rfl, hlen, hyz⟩ := hs.split h
  have hswap := h.swap hyz
  refine ⟨fun b => if b = size * (k + 1) then xs ++ z :: y :: ys else xs ++ y :: z :: ys, ?_, ?_⟩
  · intro b
    dsimp only
    split_ifs
    · exact hswap
    · exact h
  · intro hnd
    rw [Nat.mul_succ] at hlen
    rw [pages, List.nodup_flatMap] at hnd
    have hdisjoint := List.pairwise_iff_getElem.mp hnd.2 k (k + 1)
      (by rw [List.length_range]; omega) (by rw [List.length_range]; omega) (Nat.lt_succ_self k)
    rw [List.getElem_range, List.getElem_range] at hdisjoint
    apply @hdisjoint y
    · dsimp only
      rw [if_neg (by rw [Nat.mul_succ]; omega)]
      apply mem_page (i := size - 1) _ (by omega)
      rw [show size * k + (size - 1) = xs.length by omega]
      simp
    · dsimp only
      rw [if_pos rfl]
      apply mem_page (i := 0) _ hsize
      rw [Nat.mul_succ, show size * k + size + 0 = xs.length + 1 by omega]
      simp

/-- Whatever the orders, the pages are the rows, if and only if no tie reaches across the
end of a page. -/
theorem pages_perm_iff (hnd : rows.Nodup) (hsize : 0 < size) (hcount : rows.length ≤ size * count) :
    (∀ orders, (∀ b, Orders key rows (orders b)) → (pages orders size count).Perm rows) ↔
      ∀ k, ∀ x ∈ rows, ¬ Straddles key rows (size * k) x := by
  constructor
  · intro hall k x _ hs
    cases k with
    | zero => exact absurd hs.1 (Nat.not_lt_zero _)
    | succ k =>
        have hlt : size * (k + 1) < size * count :=
          hs.2.trans_le (List.countP_le_length.trans hcount)
        obtain ⟨orders, horders, hrepeats⟩ :=
          hs.exists_repeats hsize (Nat.lt_of_mul_lt_mul_left hlt)
        exact hrepeats ((hall orders horders).nodup_iff.mpr hnd)
  · intro hb orders horders
    exact pages_perm horders hnd hcount hb

end ProofBook.OffsetPaging
