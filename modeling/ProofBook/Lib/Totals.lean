import Mathlib

/-!
# Totals over finite maps

A finite map is Mathlib's `AList` with a constant value type. A total adds a
natural number for each entry. The update rule says how one insertion moves the
total; everything else about sums over a growing map follows from it.
-/
namespace ProofBook.Totals

universe u v

/-- Finite maps: association lists without a repeated key. -/
abbrev FMap (K : Type u) (V : Type v) := AList (fun _ : K => V)

variable {K : Type u} {V : Type v}

def total (f : K → V → ℕ) (m : FMap K V) : ℕ := (m.entries.map fun e => f e.1 e.2).sum

@[simp] theorem total_empty (f : K → V → ℕ) : total f (∅ : FMap K V) = 0 := rfl

theorem total_add (f g : K → V → ℕ) (m : FMap K V) :
    total (fun k v => f k v + g k v) m = total f m + total g m := by
  simp [total, List.sum_map_add]

theorem total_sum {I : Type*} (f : I → K → V → ℕ) (s : Finset I) (m : FMap K V) :
    total (fun k v => ∑ j ∈ s, f j k v) m = ∑ j ∈ s, total (f j) m := by
  classical
  induction s using Finset.induction_on with
  | empty => simp [total]
  | insert j s hj ih =>
      simp only [Finset.sum_insert hj, ← ih]
      exact total_add (f j) (fun k v => ∑ j ∈ s, f j k v) m

section
variable [DecidableEq K]

theorem mem_entries {m : FMap K V} {k : K} {v : V} :
    (⟨k, v⟩ : Sigma fun _ : K => V) ∈ m.entries ↔ m.lookup k = some v :=
  (AList.mem_lookup_iff (s := m)).symm

theorem total_congr {f g : K → V → ℕ} {m : FMap K V}
    (h : ∀ k v, m.lookup k = some v → f k v = g k v) : total f m = total g m := by
  unfold total
  congr 1
  exact List.map_congr_left fun e he => h e.1 e.2 (mem_entries.mp he)

theorem total_le_total {f g : K → V → ℕ} {m : FMap K V}
    (h : ∀ k v, m.lookup k = some v → f k v ≤ g k v) : total f m ≤ total g m := by
  unfold total
  exact List.sum_le_sum fun e he => h e.1 e.2 (mem_entries.mp he)

theorem total_eq_zero {f : K → V → ℕ} {m : FMap K V}
    (h : ∀ k v, m.lookup k = some v → f k v = 0) : total f m = 0 := by
  rw [total_congr h]
  simp [total]

theorem perm_of_lookup {m : FMap K V} {k : K} {v : V} (h : m.lookup k = some v) :
    m.entries.Perm (⟨k, v⟩ :: m.entries.kerase k) := by
  obtain ⟨b, l₁, l₂, hk, he, hr⟩ := List.exists_of_kerase (a := k) (l := m.entries)
    (List.mem_keys_of_mem (mem_entries.mpr h))
  have hb : b = v := by
    have : (⟨k, b⟩ : Sigma fun _ : K => V) ∈ m.entries := by simp [he]
    rw [mem_entries, h] at this
    exact (Option.some.inj this).symm
  subst hb
  rw [hr, he]
  exact List.perm_middle

theorem total_of_lookup (f : K → V → ℕ) {m : FMap K V} {k : K} {v : V}
    (h : m.lookup k = some v) :
    total f m = f k v + ((m.entries.kerase k).map fun e => f e.1 e.2).sum := by
  unfold total
  rw [((perm_of_lookup h).map _).sum_eq]
  rfl

/-- Overwriting an entry moves the total by the difference of the two charges. -/
theorem total_insert_of_lookup (f : K → V → ℕ) {m : FMap K V} {k : K} {v : V} (v' : V)
    (h : m.lookup k = some v) :
    total f (m.insert k v') + f k v = total f m + f k v' := by
  rw [total_of_lookup f h]
  simp only [total, AList.entries_insert, List.map_cons, List.sum_cons]
  omega

/-- A fresh entry adds its charge. -/
theorem total_insert_of_none (f : K → V → ℕ) {m : FMap K V} {k : K} (v : V)
    (h : m.lookup k = none) : total f (m.insert k v) = total f m + f k v := by
  have hk : k ∉ m := AList.lookup_eq_none.mp h
  simp only [total, AList.entries_insert_of_notMem hk, List.map_cons, List.sum_cons]
  omega

theorem le_total_of_lookup (f : K → V → ℕ) {m : FMap K V} {k : K} {v : V}
    (h : m.lookup k = some v) : f k v ≤ total f m := by
  rw [total_of_lookup f h]
  omega

theorem add_le_total_of_lookup (f : K → V → ℕ) {m : FMap K V} {k j : K} {v w : V}
    (hkj : k ≠ j) (hk : m.lookup k = some v) (hj : m.lookup j = some w) :
    f k v + f j w ≤ total f m := by
  rw [total_of_lookup f hk]
  have hj' : (⟨j, w⟩ : Sigma fun _ : K => V) ∈ m.entries.kerase k := by
    have hp := (perm_of_lookup hk).mem_iff.mp (mem_entries.mpr hj)
    rcases List.mem_cons.mp hp with he | he
    · exact absurd (congrArg Sigma.fst he).symm hkj
    · exact he
  have hw : f j w ≤ ((m.entries.kerase k).map fun e => f e.1 e.2).sum :=
    List.single_le_sum (fun _ _ => Nat.zero_le _) _
      (List.mem_map.mpr ⟨⟨j, w⟩, hj', rfl⟩)
  omega

end
end ProofBook.Totals
