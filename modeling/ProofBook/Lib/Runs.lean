import Mathlib

/-!
# Runs of a machine that may refuse an operation

A machine has one partial step. A refused operation leaves the state as it was,
so a run is total: it folds the step over a list of operations. Invariants are
proved once for the step and then hold at every state a run reaches. Ghost
quantities that the state does not carry are summed along the run.
-/
namespace ProofBook.Runs

universe u v w

/-- A partial step; the error says why an operation was refused. -/
structure Machine (S : Type u) (I : Type v) (E : Type w) where
  step : S → I → Except E S

namespace Machine
variable {S : Type u} {I : Type v} {E : Type w} (M : Machine S I E)

/-- A refused operation has no effect. -/
def apply (s : S) (i : I) : S :=
  match M.step s i with
  | .ok t => t
  | .error _ => s

def run (s : S) (is : List I) : S := is.foldl M.apply s

@[simp] theorem run_nil (s : S) : M.run s [] = s := rfl

@[simp] theorem run_cons (s : S) (i : I) (is : List I) :
    M.run s (i :: is) = M.run (M.apply s i) is := rfl

theorem run_append (s : S) (is js : List I) :
    M.run s (is ++ js) = M.run (M.run s is) js := by
  simp [run, List.foldl_append]

variable {M}

theorem apply_of_ok {s t : S} {i : I} (h : M.step s i = .ok t) : M.apply s i = t := by
  simp [apply, h]

theorem apply_of_error {s : S} {i : I} {e : E} (h : M.step s i = .error e) :
    M.apply s i = s := by
  simp [apply, h]

/-- Every operation either takes a step or is refused. -/
theorem apply_cases (s : S) (i : I) :
    M.step s i = .ok (M.apply s i) ∨ ((∃ e, M.step s i = .error e) ∧ M.apply s i = s) := by
  cases h : M.step s i with
  | ok t => exact .inl (by rw [apply_of_ok h])
  | error e => exact .inr ⟨⟨e, rfl⟩, apply_of_error h⟩

variable (M)

/-- The states that runs from `Init` can reach. -/
def Reachable (Init : S → Prop) (s : S) : Prop :=
  ∃ s₀ is, Init s₀ ∧ M.run s₀ is = s

variable {M} {Init : S → Prop}

theorem Reachable.init {s : S} (h : Init s) : M.Reachable Init s := ⟨s, [], h, rfl⟩

theorem Reachable.run {s : S} (h : M.Reachable Init s) (is : List I) :
    M.Reachable Init (M.run s is) := by
  obtain ⟨s₀, js, h₀, rfl⟩ := h
  exact ⟨s₀, js ++ is, h₀, M.run_append s₀ js is⟩

theorem Reachable.step {s t : S} {i : I} (h : M.Reachable Init s) (hs : M.step s i = .ok t) :
    M.Reachable Init t := by
  have := h.run [i]
  rwa [run_cons, apply_of_ok hs, run_nil] at this

/-- What one step preserves, a run preserves. -/
theorem run_preserves {P : S → Prop} (hstep : ∀ s i t, P s → M.step s i = .ok t → P t)
    {s : S} (hs : P s) (is : List I) : P (M.run s is) := by
  induction is generalizing s with
  | nil => exact hs
  | cons i is ih =>
      rw [run_cons]
      rcases M.apply_cases s i with h | ⟨_, h⟩
      · exact ih (hstep s i _ hs h)
      · rw [h]
        exact ih hs

/-- The invariant rule: it holds initially and each step preserves it. -/
theorem Reachable.invariant {P : S → Prop} (hinit : ∀ s, Init s → P s)
    (hstep : ∀ s i t, P s → M.step s i = .ok t → P t) {s : S}
    (h : M.Reachable Init s) : P s := by
  obtain ⟨s₀, is, h₀, rfl⟩ := h
  exact run_preserves hstep (hinit s₀ h₀) is

variable (M)

/-- A quantity charged at each operation, summed along the run. -/
def accumulate (f : S → I → ℕ) : S → List I → ℕ
  | _, [] => 0
  | s, i :: is => f s i + accumulate f (M.apply s i) is

@[simp] theorem accumulate_nil (f : S → I → ℕ) (s : S) : M.accumulate f s [] = 0 := rfl

@[simp] theorem accumulate_cons (f : S → I → ℕ) (s : S) (i : I) (is : List I) :
    M.accumulate f s (i :: is) = f s i + M.accumulate f (M.apply s i) is := rfl

theorem accumulate_add (f g : S → I → ℕ) (s : S) (is : List I) :
    M.accumulate (fun s i => f s i + g s i) s is = M.accumulate f s is + M.accumulate g s is := by
  induction is generalizing s with
  | nil => rfl
  | cons i is ih =>
      simp only [accumulate_cons, ih]
      omega

/-- The invariant rule with a ghost quantity: a step may charge it, a refused
operation must not. -/
theorem run_accumulates {f : S → I → ℕ} {P : S → ℕ → Prop}
    (hstep : ∀ s i t n, P s n → M.step s i = .ok t → P t (n + f s i))
    (herr : ∀ s i e, M.step s i = .error e → f s i = 0)
    {s : S} {n : ℕ} (hs : P s n) (is : List I) :
    P (M.run s is) (n + M.accumulate f s is) := by
  induction is generalizing s n with
  | nil => exact hs
  | cons i is ih =>
      rw [run_cons, accumulate_cons, ← Nat.add_assoc]
      rcases M.apply_cases s i with h | ⟨⟨e, he⟩, h⟩
      · exact ih (hstep s i _ n hs h)
      · rw [h, herr s i e he]
        exact ih hs

/-- Every operation of the run meets a condition on the state it is applied to. -/
def Along (C : S → I → Prop) : S → List I → Prop
  | _, [] => True
  | s, i :: is => C s i ∧ Along C (M.apply s i) is

instance Along.decidable (C : S → I → Prop) [∀ s i, Decidable (C s i)] :
    ∀ s is, Decidable (M.Along C s is)
  | _, [] => inferInstanceAs (Decidable True)
  | s, i :: is =>
      have := Along.decidable C (M.apply s i) is
      inferInstanceAs (Decidable (C s i ∧ M.Along C (M.apply s i) is))

variable {M}

/-- Condition by condition: what each operation meets in the state before it. -/
theorem along_iff {C : S → I → Prop} {s : S} {is : List I} :
    M.Along C s is ↔ ∀ js i ks, is = js ++ i :: ks → C (M.run s js) i := by
  induction is generalizing s with
  | nil => simp [Along]
  | cons j is ih =>
      rw [Along, ih]
      constructor
      · rintro ⟨hj, h⟩ js i ks he
        cases js with
        | nil =>
            obtain ⟨rfl, -⟩ := List.cons.inj he
            exact hj
        | cons j' js =>
            obtain ⟨rfl, hrest⟩ := List.cons.inj he
            exact h js i ks hrest
      · intro h
        exact ⟨h [] j is rfl, fun js i ks he => h (j :: js) i ks (by rw [he]; rfl)⟩

/-- A charge that is never above another sums to no more. -/
theorem Along.accumulate_le {f g : S → I → ℕ} {s : S} {is : List I}
    (h : M.Along (fun s i => f s i ≤ g s i) s is) :
    M.accumulate f s is ≤ M.accumulate g s is := by
  induction is generalizing s with
  | nil => exact le_rfl
  | cons i is ih => exact Nat.add_le_add h.1 (ih h.2)

theorem Along.prefix {C : S → I → Prop} {s : S} {is js : List I}
    (h : M.Along C s (is ++ js)) : M.Along C s is := by
  induction is generalizing s with
  | nil => trivial
  | cons i is ih => exact ⟨h.1, ih h.2⟩

theorem Along.last {C : S → I → Prop} {s : S} {is : List I} {i : I}
    (h : M.Along C s (is ++ [i])) : C (M.run s is) i := by
  induction is generalizing s with
  | nil => exact h.1
  | cons j is ih => exact ih h.2

/-- The invariant rule for runs whose operations all meet a condition. -/
theorem Along.preserves {C : S → I → Prop} {P : S → Prop}
    (hstep : ∀ s i t, P s → C s i → M.step s i = .ok t → P t)
    {s : S} {is : List I} (h : M.Along C s is) (hs : P s) : P (M.run s is) := by
  induction is generalizing s with
  | nil => exact hs
  | cons i is ih =>
      rw [run_cons]
      rcases M.apply_cases s i with hi | ⟨_, hi⟩
      · exact ih h.2 (hstep s i _ hs h.1 hi)
      · refine ih h.2 ?_
        rw [hi]
        exact hs

/-- What holds between the states before and after each step of such a run. -/
theorem Along.steps {C : S → I → Prop} {P : S → Prop} {R : S → S → Prop}
    (hstep : ∀ s i t, P s → C s i → M.step s i = .ok t → P t ∧ R s t)
    (hrefl : ∀ s, P s → R s s) {s : S} {is : List I} (h : M.Along C s is) (hs : P s) :
    M.Along (fun s i => R s (M.apply s i)) s is := by
  induction is generalizing s with
  | nil => trivial
  | cons i is ih =>
      rcases M.apply_cases s i with hi | ⟨_, hi⟩
      · obtain ⟨ht, hr⟩ := hstep s i _ hs h.1 hi
        exact ⟨hr, ih h.2 ht⟩
      · have h2 := h.2
        rw [hi] at h2
        have hr : R s (M.apply s i) := hi.symm ▸ hrefl s hs
        exact ⟨hr, hi.symm ▸ ih h2 hs⟩

end Machine
end ProofBook.Runs
