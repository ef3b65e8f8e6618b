import ProofBook.Store

/-!
# The feed

`ingest` merges a score update into its fixture, drops what is stale, and takes
the first record with status 100 as the final one. Fixture discovery names the
fixture of a market it creates.
-/
namespace ProofBook.Store

/-- The scores of an update; a side that did not score is often left out. -/
structure PartialScore where
  p1 : Option ℤ
  p2 : Option ℤ
deriving Repr, DecidableEq

structure ScoreUpdate where
  fixtureId : ℤ
  seq : ℤ
  ts : ℤ
  statusId : Option ℤ
  score : Option PartialScore
deriving Repr, DecidableEq

/-- `game_finalised`. -/
def finalStatus : ℤ := 100

/-- An old sequence number, unless it is a final record. -/
def Stale (fx : FixtureLive) (u : ScoreUpdate) : Prop :=
  fx.lastSeq.any (u.seq ≤ ·) = true ∧ u.statusId ≠ some finalStatus

instance (fx : FixtureLive) (u : ScoreUpdate) : Decidable (Stale fx u) :=
  inferInstanceAs (Decidable (_ ∧ _))

/-- The score after an update, side by side. -/
def mergeScore (score : Option Score) (u : PartialScore) : Score where
  p1 := (u.p1.orElse fun _ => score.map (·.p1)).getD 0
  p2 := (u.p2.orElse fun _ => score.map (·.p2)).getD 0

/-- What a fixture takes from an update that is not stale. -/
def observe (fx : FixtureLive) (u : ScoreUpdate) : FixtureLive :=
  { fx with
    lastSeq := some u.seq
    lastTs := some u.ts
    statusId := u.statusId.orElse fun _ => fx.statusId
    score := (u.score.map (mergeScore fx.score)).orElse fun _ => fx.score }

/-- The first final record of a fixture. -/
def Finalises (fx : FixtureLive) (u : ScoreUpdate) : Prop :=
  u.statusId = some finalStatus ∧ fx.finalisedSeq = none

instance (fx : FixtureLive) (u : ScoreUpdate) : Decidable (Finalises fx u) :=
  inferInstanceAs (Decidable (_ ∧ _))

/-- The fixture after an update that is not stale. -/
def ingestFixture (fx : FixtureLive) (u : ScoreUpdate) : FixtureLive :=
  if Finalises fx u then { observe fx u with finalisedSeq := some u.seq } else observe fx u

/-- A stale update still creates the object of its fixture. -/
def ingest (d : StoreData) (u : ScoreUpdate) : StoreData :=
  let fx := d.fixture u.fixtureId
  { d with fixtures := d.fixtures.set (if Stale fx u then fx else ingestFixture fx u) }

structure FixtureInfo where
  fixtureId : ℤ
  name : Option String
  p1Name : Option String
  p2Name : Option String
  /-- In seconds. -/
  kickoffTs : Option ℤ
  competitionId : Option ℤ
deriving Repr, DecidableEq

/-- The fixture of a market that was just created. -/
def describe (fs : FixtureLive) (info : FixtureInfo) (lockTime : ℤ) : FixtureLive :=
  { fs with
    name := info.name.orElse fun _ => fs.name
    homeName := info.p1Name.orElse fun _ => fs.homeName
    awayName := info.p2Name.orElse fun _ => fs.awayName
    kickoffTs := some lockTime
    proofStatus := some (fs.proofStatus.getD .upcoming)
    competitionId := info.competitionId.orElse fun _ => fs.competitionId }

@[simp] theorem observe_fixtureId (fx : FixtureLive) (u : ScoreUpdate) :
    (observe fx u).fixtureId = fx.fixtureId := rfl

@[simp] theorem ingestFixture_fixtureId (fx : FixtureLive) (u : ScoreUpdate) :
    (ingestFixture fx u).fixtureId = fx.fixtureId := by
  unfold ingestFixture
  split <;> rfl

@[simp] theorem ingestFixture_proofStatus (fx : FixtureLive) (u : ScoreUpdate) :
    (ingestFixture fx u).proofStatus = fx.proofStatus := by
  unfold ingestFixture
  split <;> rfl

@[simp] theorem ingestFixture_score (fx : FixtureLive) (u : ScoreUpdate) :
    (ingestFixture fx u).score = (observe fx u).score := by
  unfold ingestFixture
  split <;> rfl

end ProofBook.Store
