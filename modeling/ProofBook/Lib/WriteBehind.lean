import Mathlib

/-!
# Writing behind

A store holds values in memory and rows elsewhere, and writes the rows later. A
view says of each key which values its row shows; a write replaces what the row
of its key shows. Once the pending writes are made, in order, the view is the one
after them, and making the first of them does not change that view.
-/
namespace ProofBook.WriteBehind

universe u v

/-- Which values the row of a key shows. -/
abbrev View (κ : Type u) (ν : Type v) := κ → ν → Bool

/-- A write of the row of a key, and which values the new row shows. -/
abbrev Write (κ : Type u) (ν : Type v) := κ × (ν → Bool)

variable {κ : Type u} {ν : Type v} [DecidableEq κ]

def View.write (e : View κ ν) (w : Write κ ν) : View κ ν := Function.update e w.1 w.2

/-- The view once the writes are made. -/
def View.after (e : View κ ν) (ws : List (Write κ ν)) : View κ ν := ws.foldl View.write e

@[simp] theorem View.after_nil (e : View κ ν) : e.after [] = e := rfl

@[simp] theorem View.after_cons (e : View κ ν) (w : Write κ ν) (ws : List (Write κ ν)) :
    e.after (w :: ws) = (e.write w).after ws := rfl

/-- Every value in memory is shown by its row. -/
def View.Shows (e : View κ ν) (memory : List (κ × ν)) : Prop :=
  ∀ x ∈ memory, e x.1 x.2 = true

instance (e : View κ ν) (memory : List (κ × ν)) : Decidable (e.Shows memory) :=
  inferInstanceAs (Decidable (∀ x ∈ memory, e x.1 x.2 = true))

/-- What one view shows, the other shows too. -/
def View.Le (e e' : View κ ν) : Prop := ∀ k v, e k v = true → e' k v = true

omit [DecidableEq κ] in
theorem View.Le.shows {e e' : View κ ν} (h : e.Le e') {memory : List (κ × ν)}
    (hs : e.Shows memory) : e'.Shows memory := fun x hx => h _ _ (hs x hx)

theorem View.Le.write {e e' : View κ ν} (h : e.Le e') (w : Write κ ν) :
    (e.write w).Le (e'.write w) := by
  intro k v hv
  by_cases hk : k = w.1
  · subst hk
    simpa [View.write] using hv
  · simp only [View.write, Function.update_of_ne hk] at hv ⊢
    exact h k v hv

theorem View.Le.after {e e' : View κ ν} (h : e.Le e') (ws : List (Write κ ν)) :
    (e.after ws).Le (e'.after ws) := by
  induction ws generalizing e e' with
  | nil => exact h
  | cons w ws ih => exact ih (h.write w)

/-- A write that shows less than another of the same row. -/
theorem View.write_le (e : View κ ν) {k : κ} {p q : ν → Bool} (h : ∀ v, p v = true → q v = true) :
    (e.write (k, p)).Le (e.write (k, q)) := by
  intro k' v hv
  by_cases hk : k' = k
  · subst hk
    simpa [View.write] using h v (by simpa [View.write] using hv)
  · simpa [View.write, hk] using hv

/-- A write that shows no more than the row it replaces can be left out. -/
theorem View.write_le_self (e : View κ ν) {w : Write κ ν} (h : ∀ v, w.2 v = true → e w.1 v = true) :
    (e.write w).Le e := by
  intro k v hv
  by_cases hk : k = w.1
  · subst hk
    exact h v (by simpa [View.write] using hv)
  · simpa [View.write, hk] using hv

/-- A value is shown once every write of its key shows it, if there is one. -/
theorem View.after_of_forall {e : View κ ν} {ws : List (Write κ ν)} {k : κ} {v : ν}
    (hall : ∀ w ∈ ws, w.1 = k → w.2 v = true)
    (hsome : (∃ w ∈ ws, w.1 = k) ∨ e k v = true) : e.after ws k v = true := by
  induction ws generalizing e with
  | nil => simpa using hsome
  | cons w ws ih =>
      refine ih (fun x hx => hall x (List.mem_cons_of_mem _ hx)) ?_
      by_cases hk : k = w.1
      · right
        subst hk
        simpa [View.write] using hall w List.mem_cons_self rfl
      · rcases hsome with ⟨x, hx, rfl⟩ | he
        · rcases List.mem_cons.mp hx with rfl | hx
          · exact absurd rfl hk
          · exact .inl ⟨x, hx, rfl⟩
        · exact .inr (by simpa [View.write, hk] using he)

end ProofBook.WriteBehind
