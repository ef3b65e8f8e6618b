import ProofBook.Store

/-!
# Projected receipts

A sync writes a receipt for every settled market that has none, and heals those
that show no score. Both take the score from the row of the fixture, and only
when that row is marked proven. The readers of the API take it the same way.
-/
namespace ProofBook.Store

/-- The score that standings, bracket and listings take from a row. -/
def shownScore (r : FixtureRow) : Option Score :=
  if r.proofStatus = .proven then loadScore r.provenP1 r.provenP2 else none

/-- A fixture that a blank receipt is healed from. -/
def Healable (f : FixtureRow) : Prop := f.proofStatus = .proven ∧ f.provenP1 ≠ none

instance (f : FixtureRow) : Decidable (Healable f) := inferInstanceAs (Decidable (_ ∧ _))

/-- The columns a projected receipt takes from the row of its fixture, if there is one. -/
def projectedScore (fixture : Option FixtureRow) : Option ℤ × Option ℤ :=
  match fixture with
  | some f => if Healable f then (f.provenP1, f.provenP2) else (none, none)
  | none => (none, none)

/-- The receipt of a settled market; `onchain` is what its account says. -/
def projectReceipt (onchain : ReceiptRow) (fixture : Option FixtureRow) : ReceiptRow :=
  { onchain with
    provenP1 := (projectedScore fixture).1
    provenP2 := (projectedScore fixture).2
    statPeriod := some 100 }

/-- A blank receipt is healed only from a proven fixture with a score. -/
def heal (f : FixtureRow) (r : ReceiptRow) : ReceiptRow :=
  if Healable f then { r with provenP1 := f.provenP1, provenP2 := f.provenP2 } else r

@[simp] theorem heal_marketPda (f : FixtureRow) (r : ReceiptRow) :
    (heal f r).marketPda = r.marketPda := by
  unfold heal
  split <;> rfl

@[simp] theorem heal_fixtureId (f : FixtureRow) (r : ReceiptRow) :
    (heal f r).fixtureId = r.fixtureId := by
  unfold heal
  split <;> rfl

end ProofBook.Store
