import Mathlib

/-!
# The Settlement Theater

The live feed of a fixture takes the score events as they arrive, the replay plays an
archive of them on a clock. A score object may give one side only: the live handler
carries the other one on, the replay takes 0 for it. A final status counts live on any
event, and in the replay on one with a score. A receipt that the replay has fetched sets
the score to the proven one and finalises as well.
-/
namespace ProofBook.Theater

/-! ## The feed -/

structure Score where
  p1 : ℤ
  p2 : ℤ
deriving DecidableEq

/-- The score object of an event. -/
structure FeedScore where
  p1 : Option ℤ
  p2 : Option ℤ
deriving DecidableEq

structure ScoreEvent where
  fixtureId : ℤ
  score : Option FeedScore
  statusId : Option ℤ
deriving DecidableEq

structure TheaterSettlement where
  fixtureId : ℤ
  provenScore : Option Score
  proofRef : String
deriving DecidableEq

structure TheaterFeed where
  score : Option Score
  finalised : Bool
  settlement : Option TheaterSettlement
deriving DecidableEq

def TheaterFeed.empty : TheaterFeed := ⟨none, false, none⟩

/-- The live handler of a score event. -/
def onScore (fixtureId : ℤ) (f : TheaterFeed) (e : ScoreEvent) : TheaterFeed :=
  if e.fixtureId = fixtureId then
    { f with
      score :=
        match e.score with
        | some s =>
            some ⟨s.p1.getD ((f.score.map (·.p1)).getD 0), s.p2.getD ((f.score.map (·.p2)).getD 0)⟩
        | none => f.score
      finalised := f.finalised || e.statusId == some 100 }
  else f

/-! ## The archive -/

inductive Payload
  | score (e : ScoreEvent)
  | receipt (r : TheaterSettlement)

/-- A recorded event; its time is in seconds. -/
structure ArchiveEvent where
  time : ℤ
  payload : Payload

def ArchiveEvent.fixtureId (ev : ArchiveEvent) : ℤ :=
  match ev.payload with
  | .score e => e.fixtureId
  | .receipt r => r.fixtureId

structure Archive where
  kickoffTs : ℤ
  settledAt : Option ℤ
  events : List ArchiveEvent

def getArchive (fixtureId kickoffTs : ℤ) (rows : List ArchiveEvent) : Archive :=
  let events := rows.filter (·.fixtureId = fixtureId)
  { kickoffTs
    settledAt := events.findSome? fun ev =>
      match ev.payload with
      | .receipt _ => some ev.time
      | .score _ => none
    events }

/-! ## The replay -/

/-- The moments that a replay begins and ends at. -/
structure Clock where
  t0 : ℤ
  t1 : ℤ

def Archive.clock (a : Archive) : Clock :=
  let t0 := (a.events.head?.map (·.time)).getD a.kickoffTs
  ⟨t0, a.settledAt.getD ((a.events.getLast?.map (·.time)).getD (t0 + 1))⟩

structure Timeline extends Clock where
  finalisedAt : Option ℤ
  receipt : Option TheaterSettlement
  scores : List (ℤ × Score)

/-- The loop over the recorded events takes one of them. -/
def Timeline.extract (tl : Timeline) (ev : ArchiveEvent) : Timeline :=
  match ev.payload with
  | .score e =>
      match e.score with
      | some s =>
          { tl with
            scores := tl.scores ++ [(ev.time, ⟨s.p1.getD 0, s.p2.getD 0⟩)]
            finalisedAt :=
              if e.statusId = some 100 ∧ tl.finalisedAt = none then some ev.time
              else tl.finalisedAt }
      | none => tl
  | .receipt r =>
      if r.proofRef ≠ "" ∧ tl.receipt = none then { tl with receipt := some r } else tl

/-- The timeline of an archive; a receipt that is missing may be fetched. -/
def timeline (a : Archive) (fetched : Option TheaterSettlement) : Timeline :=
  let tl := a.events.foldl Timeline.extract ⟨a.clock, none, none, []⟩
  { tl with receipt := tl.receipt <|> fetched }

inductive Beat
  | score (s : Score)
  | finalise
  | receipt (r : TheaterSettlement)
deriving DecidableEq

def play (f : TheaterFeed) : Beat → TheaterFeed
  | .score s => { f with score := some s }
  | .finalise => { f with finalised := true }
  | .receipt r =>
      { f with finalised := true, score := r.provenScore <|> f.score, settlement := some r }

/-- A timer is due after whole milliseconds, one with a negative delay at once. -/
def dueMs (delay : ℚ) : ℤ := max 0 ⌊delay⌋

/-- One timer is due no later than another. -/
def Due (a b : ℚ × Beat) : Prop := dueMs a.1 ≤ dueMs b.1

instance : DecidableRel Due := fun a b => inferInstanceAs (Decidable (dueMs a.1 ≤ dueMs b.1))

section
variable (durationMs : ℚ) (c : Clock) (tl : Timeline)

/-- When a moment of the match is played. -/
def playedAt (unixSec : ℤ) : ℚ :=
  let span := max 1 (c.t1 - c.t0)
  max 0 (min 1 ((unixSec - c.t0 : ℚ) / span)) * durationMs

/-- The receipt is played near the end. -/
def receiptMs : ℚ := max (playedAt durationMs c c.t1 - 400) (durationMs * (18 / 25))

def finalMs : ℚ :=
  match tl.finalisedAt with
  | some time => playedAt durationMs tl.toClock time
  | none => durationMs * (2 / 5)

/-- The timers of the scores. -/
def ticks : List (ℚ × Beat) :=
  tl.scores.map fun s => (playedAt durationMs tl.toClock s.1, .score s.2)

/-- The timers, as they are set. -/
def timers : List (ℚ × Beat) :=
  ticks durationMs tl ++ [(finalMs durationMs tl, .finalise)] ++
    (tl.receipt.map fun r => (receiptMs durationMs tl.toClock, .receipt r)).toList

/-- The timers in the order they fire, those due together as they were set. -/
def fired : List (ℚ × Beat) := (timers durationMs tl).insertionSort Due

end

/-! ## What is shown -/

/-- The scores after the inputs that set one. -/
def scoresShown {A : Type} (step : TheaterFeed → A → TheaterFeed) (sets : TheaterFeed → A → Bool) :
    TheaterFeed → List A → List Score
  | _, [] => []
  | f, a :: as =>
      let g := step f a
      (if sets f a then g.score.toList else []) ++ scoresShown step sets g as

def setsScore (fixtureId : ℤ) (_ : TheaterFeed) (e : ScoreEvent) : Bool :=
  e.fixtureId == fixtureId && e.score.isSome

/-- A receipt counts when it changes the score that is shown. -/
def Beat.setsScore (f : TheaterFeed) : Beat → Bool
  | .score _ => true
  | .finalise => false
  | .receipt r => (play f (.receipt r)).score != f.score

def liveScores (fixtureId : ℤ) (events : List ScoreEvent) : List Score :=
  scoresShown (onScore fixtureId) (setsScore fixtureId) .empty events

def replayScores (durationMs : ℚ) (tl : Timeline) : List Score :=
  scoresShown play Beat.setsScore .empty ((fired durationMs tl).map (·.2))

/-- The first timer after which the replay is finalised, and when it is due. -/
def finalisedMs : TheaterFeed → List (ℚ × Beat) → Option ℤ
  | _, [] => none
  | f, b :: bs =>
      let g := play f b.2
      if g.finalised then some (dueMs b.1) else finalisedMs g bs

def replayFinalisedMs (durationMs : ℚ) (tl : Timeline) : Option ℤ :=
  finalisedMs .empty (fired durationMs tl)

/-- A score event with the time it was recorded at. -/
structure Recorded where
  time : ℤ
  event : ScoreEvent
deriving DecidableEq

def Recorded.row (r : Recorded) : ArchiveEvent := ⟨r.time, .score r.event⟩

/-- The time of the first event after which the live feed is finalised. -/
def liveFinalisedAt (fixtureId : ℤ) : TheaterFeed → List Recorded → Option ℤ
  | _, [] => none
  | f, r :: rs =>
      let g := onScore fixtureId f r.event
      if g.finalised then some r.time else liveFinalisedAt fixtureId g rs

/-! ## The condition -/

/-- The score events of a fixture. -/
def own (fixtureId : ℤ) (events : List Recorded) : List Recorded :=
  events.filter (·.event.fixtureId = fixtureId)

/-- The value of a side that was given last. -/
def latest (side : FeedScore → Option ℤ) (events : List Recorded) : Option ℤ :=
  (events.filterMap fun r => r.event.score.bind side).getLast?

/-- A score object leaves out a side only while it is 0. -/
def GivesSides (events : List Recorded) : Prop :=
  ∀ before r after s, events = before ++ r :: after → r.event.score = some s →
    (s.p1 = none → (latest (·.p1) before).getD 0 = 0) ∧
      (s.p2 = none → (latest (·.p2) before).getD 0 = 0)

/-- At the time of the first final status there is one with a score object. -/
def FinalScored (events : List Recorded) : Prop :=
  ∀ r, events.find? (·.event.statusId = some 100) = some r →
    ∃ r' ∈ events, r'.event.statusId = some 100 ∧ r'.event.score.isSome ∧ r'.time = r.time

/-- What the replay takes from a score event. -/
def Recorded.tick (r : Recorded) : Option (ℤ × Score) :=
  r.event.score.map fun s => (r.time, ⟨s.p1.getD 0, s.p2.getD 0⟩)

/-- A receipt that is fetched shows the score that is shown when it is played, and is
played no earlier than the first final status. -/
def ReceiptFits (durationMs : ℚ) (c : Clock) (events : List Recorded)
    (fetched : Option TheaterSettlement) : Prop :=
  ∀ r ∈ fetched,
    (∀ p ∈ r.provenScore, ((events.filterMap Recorded.tick).filter fun s =>
      dueMs (playedAt durationMs c s.1) ≤ dueMs (receiptMs durationMs c)).getLast?.map (·.2) =
        some p) ∧
    ∀ e ∈ events.find? (·.event.statusId = some 100),
      dueMs (playedAt durationMs c e.time) ≤ dueMs (receiptMs durationMs c)

variable {fixtureId kickoffTs : ℤ} {f : TheaterFeed} {durationMs : ℚ} {c : Clock} {tl : Timeline}

/-! ## The live feed -/

theorem own_cons_self {r : Recorded} (h : r.event.fixtureId = fixtureId) (events : List Recorded) :
    own fixtureId (r :: events) = r :: own fixtureId events :=
  List.filter_cons_of_pos (by simpa using h)

theorem own_cons_other {r : Recorded} (h : r.event.fixtureId ≠ fixtureId)
    (events : List Recorded) : own fixtureId (r :: events) = own fixtureId events :=
  List.filter_cons_of_neg (by simpa using h)

theorem onScore_other {e : ScoreEvent} (h : e.fixtureId ≠ fixtureId) :
    onScore fixtureId f e = f := if_neg h

/-- Events of other fixtures show nothing. -/
theorem liveScores_own (events : List Recorded) :
    scoresShown (onScore fixtureId) (setsScore fixtureId) f (events.map (·.event)) =
      scoresShown (onScore fixtureId) (setsScore fixtureId) f
        ((own fixtureId events).map (·.event)) := by
  induction events generalizing f with
  | nil => rfl
  | cons r events ih =>
      by_cases h : r.event.fixtureId = fixtureId
      · rw [own_cons_self h, List.map_cons, List.map_cons, scoresShown, scoresShown, ih]
      · rw [own_cons_other h, List.map_cons, scoresShown, onScore_other h, ih]
        simp [setsScore, h]

/-- Live is finalised at the first final status. -/
theorem liveFinalisedAt_own (events : List Recorded) (hf : f.finalised = false) :
    liveFinalisedAt fixtureId f events =
      ((own fixtureId events).find? (·.event.statusId = some 100)).map (·.time) := by
  induction events generalizing f with
  | nil => rfl
  | cons r events ih =>
      rw [liveFinalisedAt]
      by_cases h : r.event.fixtureId = fixtureId
      · rw [own_cons_self h]
        by_cases hfinal : r.event.statusId = some 100
        · rw [List.find?_cons_of_pos (by simpa using hfinal)]
          simp [onScore, h, hfinal]
        · rw [List.find?_cons_of_neg (by simpa using hfinal)]
          have hg : (onScore fixtureId f r.event).finalised = false := by
            simp [onScore, h, hf, hfinal]
          rw [← ih hg, hg]
          rfl
      · rw [own_cons_other h, onScore_other h, hf]
        exact ih hf

/-! ## The timeline -/

/-- A final status on an event with a score. -/
def Recorded.ends (r : Recorded) : Bool := r.event.statusId == some 100 && r.event.score.isSome

theorem extract_row (r : Recorded) :
    (tl.extract r.row).scores = tl.scores ++ r.tick.toList ∧
      (tl.extract r.row).finalisedAt =
        (tl.finalisedAt <|> if r.ends then some r.time else none) ∧
      (tl.extract r.row).receipt = tl.receipt ∧ (tl.extract r.row).toClock = tl.toClock := by
  cases hs : r.event.score with
  | none => simp [Timeline.extract, Recorded.row, Recorded.tick, Recorded.ends, hs]
  | some s =>
      cases hf : tl.finalisedAt <;>
        simp [Timeline.extract, Recorded.row, Recorded.tick, Recorded.ends, hs, hf]

theorem foldl_extract (events : List Recorded) :
    ((events.map Recorded.row).foldl Timeline.extract tl).scores =
        tl.scores ++ events.filterMap Recorded.tick ∧
      ((events.map Recorded.row).foldl Timeline.extract tl).finalisedAt =
        (tl.finalisedAt <|> (events.find? Recorded.ends).map (·.time)) ∧
      ((events.map Recorded.row).foldl Timeline.extract tl).receipt = tl.receipt ∧
      ((events.map Recorded.row).foldl Timeline.extract tl).toClock = tl.toClock := by
  induction events generalizing tl with
  | nil => simp
  | cons r events ih =>
      obtain ⟨hscores, hfinal, hreceipt, hclock⟩ := @extract_row tl r
      obtain ⟨ihscores, ihfinal, ihreceipt, ihclock⟩ := @ih (tl.extract r.row)
      rw [List.map_cons, List.foldl_cons, ihscores, ihfinal, ihreceipt, ihclock, hscores, hfinal]
      refine ⟨?_, ?_, hreceipt, hclock⟩
      · cases htick : r.tick <;> simp [htick]
      · cases hends : r.ends <;> cases tl.finalisedAt <;> simp [hends]

theorem getArchive_events (events : List Recorded) :
    (getArchive fixtureId kickoffTs (events.map Recorded.row)).events =
      (own fixtureId events).map Recorded.row := by
  simp only [getArchive, own, List.filter_map]
  rfl

/-- The timeline of recorded score events. -/
theorem timeline_recorded (events : List Recorded) (fetched : Option TheaterSettlement) :
    let a := getArchive fixtureId kickoffTs (events.map Recorded.row)
    timeline a fetched =
      ⟨a.clock, ((own fixtureId events).find? Recorded.ends).map (·.time), fetched,
        (own fixtureId events).filterMap Recorded.tick⟩ := by
  intro a
  have hevents : a.events = (own fixtureId events).map Recorded.row := getArchive_events events
  obtain ⟨hscores, hfinal, hreceipt, hclock⟩ :=
    @foldl_extract ⟨a.clock, none, none, []⟩ (own fixtureId events)
  rw [← hevents] at hscores hfinal hreceipt hclock
  unfold timeline
  cases htl : a.events.foldl Timeline.extract ⟨a.clock, none, none, []⟩ with
  | mk clock finalisedAt receipt scores =>
      rw [htl] at hscores hfinal hreceipt hclock
      dsimp only at hscores hfinal hreceipt hclock
      simp [hscores, hfinal, hreceipt, hclock]

/-! ## The timers -/

theorem playedAt_mono (hduration : 0 ≤ durationMs) {a b : ℤ} (h : a ≤ b) :
    playedAt durationMs c a ≤ playedAt durationMs c b := by
  have hspan : (0 : ℚ) ≤ (max 1 (c.t1 - c.t0) : ℤ) := by
    exact_mod_cast zero_le_one.trans (le_max_left 1 (c.t1 - c.t0))
  have hab : (a - c.t0 : ℚ) ≤ b - c.t0 := by
    have : (a : ℚ) ≤ b := by exact_mod_cast h
    linarith
  unfold playedAt
  dsimp only
  gcongr

/-- Later moments are not due earlier, whatever the duration. -/
theorem dueMs_mono {a b : ℤ} (h : a ≤ b) :
    dueMs (playedAt durationMs c a) ≤ dueMs (playedAt durationMs c b) := by
  rcases le_total 0 durationMs with hduration | hduration
  · exact max_le_max le_rfl (Int.floor_le_floor (playedAt_mono hduration h))
  · have hlate : ∀ time, dueMs (playedAt durationMs c time) = 0 := by
      intro time
      have hle : playedAt durationMs c time ≤ 0 :=
        mul_nonpos_of_nonneg_of_nonpos (le_max_left _ _) hduration
      exact max_eq_left (Int.floor_nonpos hle)
    rw [hlate, hlate]

theorem Due.trans {a b t : ℚ × Beat} (hab : Due a b) (hbt : Due b t) : Due a t :=
  Int.le_trans hab hbt

instance : IsTrans (ℚ × Beat) Due := ⟨fun _ _ _ => Due.trans⟩

instance : Std.Total Due := ⟨fun a b => le_total (dueMs a.1) (dueMs b.1)⟩

theorem orderedInsert_before {x t : ℚ × Beat} (h : Due x t) (l l' : List (ℚ × Beat)) :
    (l ++ t :: l').orderedInsert Due x = l.orderedInsert Due x ++ t :: l' := by
  induction l with
  | nil => simp [h]
  | cons b l ih =>
      by_cases hb : Due x b
      · simp [hb]
      · simp [hb, ih]

theorem orderedInsert_after {x t : ℚ × Beat} (h : ¬ Due x t) {l : List (ℚ × Beat)}
    (hl : ∀ b ∈ l, Due b t) (l' : List (ℚ × Beat)) :
    (l ++ t :: l').orderedInsert Due x = l ++ t :: l'.orderedInsert Due x := by
  induction l with
  | nil => simp [h]
  | cons b l ih =>
      obtain ⟨hb, hl⟩ := List.forall_mem_cons.mp hl
      have hx : ¬ Due x b := fun hx => h (hx.trans hb)
      simp [hx, ih hl]

/-- The timer that is set last fires between those due by then and the others. -/
theorem insertionSort_concat (l : List (ℚ × Beat)) (t : ℚ × Beat) :
    (l ++ [t]).insertionSort Due = (l.filter (Due · t)).insertionSort Due ++
      t :: (l.filter fun x => ¬ Due x t).insertionSort Due := by
  induction l with
  | nil => rfl
  | cons x l ih =>
      rw [List.cons_append, List.insertionSort_cons, ih]
      by_cases h : Due x t
      · rw [List.filter_cons_of_pos (by simpa using h), List.filter_cons_of_neg (by simpa using h),
          List.insertionSort_cons, orderedInsert_before h]
      · rw [List.filter_cons_of_neg (by simpa using h), List.filter_cons_of_pos (by simpa using h),
          List.insertionSort_cons, orderedInsert_after h]
        intro b hb
        simpa using (List.mem_filter.mp ((List.mem_insertionSort Due).mp hb)).2

/-! ## The scores of the replay -/

def scoreOf : Beat → Option Score
  | .score s => some s
  | _ => none

theorem filterMap_scoreOf {l : List (ℚ × Beat)} : l.filterMap (scoreOf ·.2) =
    (l.filter fun b => (scoreOf b.2).isSome).filterMap (scoreOf ·.2) := by
  rw [List.filterMap_filter]
  refine List.filterMap_congr fun b _ => ?_
  cases scoreOf b.2 <;> rfl

theorem sorted_ticks {events : List Recorded} (h : events.Pairwise fun a b => a.time ≤ b.time) :
    (events.filterMap Recorded.tick).Pairwise fun a b => a.1 ≤ b.1 := by
  rw [List.pairwise_filterMap]
  refine h.imp fun hab x hx y hy => ?_
  obtain ⟨_, -, rfl⟩ := Option.map_eq_some_iff.mp hx
  obtain ⟨_, -, rfl⟩ := Option.map_eq_some_iff.mp hy
  exact hab

/-- Scores that are due in the order in which they were set fire in that order. -/
theorem sorted_scores {l : List (ℚ × Beat)}
    (h : (l.filter fun b => (scoreOf b.2).isSome).Pairwise Due) :
    (l.insertionSort Due).filterMap (scoreOf ·.2) = l.filterMap (scoreOf ·.2) := by
  have hsub := List.sublist_insertionSort h List.filter_sublist
  have hlength := ((List.perm_insertionSort Due l).filterMap (scoreOf ·.2)).length_eq
  have heq := (hsub.filterMap (scoreOf ·.2)).eq_of_length (by rw [← filterMap_scoreOf, hlength])
  rw [← heq, ← filterMap_scoreOf]

theorem scoresShown_append {A : Type} (step : TheaterFeed → A → TheaterFeed)
    (sets : TheaterFeed → A → Bool) (as bs : List A) :
    scoresShown step sets f (as ++ bs) =
      scoresShown step sets f as ++ scoresShown step sets (as.foldl step f) bs := by
  induction as generalizing f with
  | nil => rfl
  | cons a as ih =>
      simp only [List.cons_append, scoresShown, ih, List.foldl_cons, List.append_assoc]

/-- Without a receipt the replay shows the scores of the timers. -/
theorem scoresShown_play {beats : List Beat} (h : ∀ r, .receipt r ∉ beats) :
    scoresShown play Beat.setsScore f beats = beats.filterMap scoreOf := by
  induction beats generalizing f with
  | nil => rfl
  | cons b beats ih =>
      rw [scoresShown, ih fun r hr => h r (List.mem_cons_of_mem b hr)]
      cases b with
      | receipt r => exact absurd List.mem_cons_self (h r)
      | _ => rfl

theorem foldl_play_score {beats : List Beat} (h : ∀ r, .receipt r ∉ beats) :
    (beats.foldl play f).score = ((beats.filterMap scoreOf).getLast? <|> f.score) := by
  induction beats generalizing f with
  | nil => simp
  | cons b beats ih =>
      rw [List.foldl_cons, ih fun r hr => h r (List.mem_cons_of_mem b hr)]
      cases b with
      | receipt r => exact absurd List.mem_cons_self (h r)
      | score s => cases hl : (beats.filterMap scoreOf).getLast? <;>
          simp [play, scoreOf, List.getLast?_cons, hl]
      | finalise => rfl

/-- The timers but that of the receipt. -/
def feedTimers (durationMs : ℚ) (tl : Timeline) : List (ℚ × Beat) :=
  ticks durationMs tl ++ [(finalMs durationMs tl, .finalise)]

theorem receipt_notMem_feedTimers {l : List (ℚ × Beat)}
    (h : ∀ b ∈ l, b ∈ feedTimers durationMs tl) (r : TheaterSettlement) :
    .receipt r ∉ l.map (·.2) := by
  intro hr
  obtain ⟨b, hb, heq⟩ := List.mem_map.mp hr
  have hmem := h b hb
  simp only [feedTimers, ticks, List.mem_append, List.mem_map, List.mem_singleton] at hmem
  rcases hmem with ⟨s, -, rfl⟩ | rfl <;> cases heq

theorem scores_feedTimers (keep : ℚ × Beat → Bool) :
    ((feedTimers durationMs tl).filter keep).filterMap (scoreOf ·.2) =
      (tl.scores.filter fun s => keep (playedAt durationMs tl.toClock s.1, .score s.2)).map
        (·.2) := by
  simp only [feedTimers, ticks, List.filter_append, List.filterMap_append]
  have hfinal : ([(finalMs durationMs tl, Beat.finalise)].filter keep).filterMap (scoreOf ·.2) =
      [] := by
    cases h : keep (finalMs durationMs tl, Beat.finalise) <;> simp [h, scoreOf]
  rw [hfinal, List.append_nil, List.filter_map, List.filterMap_map]
  simp [Function.comp_def, scoreOf]

/-- The scores are due in the order in which they were recorded. -/
def InTurn (tl : Timeline) : Prop := tl.scores.Pairwise fun a b => a.1 ≤ b.1

theorem InTurn.ticks (h : InTurn tl) : (ticks durationMs tl).Pairwise Due :=
  List.pairwise_map.mpr (h.imp dueMs_mono)

theorem InTurn.sorted (h : InTurn tl) (keep : ℚ × Beat → Bool) :
    (((feedTimers durationMs tl).filter keep).insertionSort Due).filterMap (scoreOf ·.2) =
      (tl.scores.filter fun s => keep (playedAt durationMs tl.toClock s.1, .score s.2)).map
        (·.2) := by
  rw [sorted_scores, scores_feedTimers]
  refine (@InTurn.ticks durationMs tl h).sublist ?_
  have hfinal : (feedTimers durationMs tl).filter (fun b => (scoreOf b.2).isSome) =
      Theater.ticks durationMs tl := by
    rw [feedTimers, List.filter_append, List.filter_eq_self.mpr]
    · exact List.append_nil _
    · intro b hb
      obtain ⟨s, -, rfl⟩ := List.mem_map.mp hb
      rfl
  rw [← hfinal]
  exact List.filter_sublist.filter _

theorem fired_without (h : tl.receipt = none) :
    fired durationMs tl = (feedTimers durationMs tl).insertionSort Due := by
  rw [fired, timers, h]
  exact congrArg (List.insertionSort Due) (List.append_nil _)

/-- The timers that fire before the receipt, and those that fire after it. -/
def firedBefore (durationMs : ℚ) (tl : Timeline) : List (ℚ × Beat) :=
  ((feedTimers durationMs tl).filter fun b =>
    dueMs b.1 ≤ dueMs (receiptMs durationMs tl.toClock)).insertionSort Due

def firedAfter (durationMs : ℚ) (tl : Timeline) : List (ℚ × Beat) :=
  ((feedTimers durationMs tl).filter fun b =>
    ¬ dueMs b.1 ≤ dueMs (receiptMs durationMs tl.toClock)).insertionSort Due

theorem fired_with {r : TheaterSettlement} (h : tl.receipt = some r) :
    fired durationMs tl = firedBefore durationMs tl ++
      (receiptMs durationMs tl.toClock, .receipt r) :: firedAfter durationMs tl := by
  rw [fired, timers, h]
  exact insertionSort_concat (feedTimers durationMs tl) _

theorem receipt_notMem_before (r : TheaterSettlement) :
    .receipt r ∉ (firedBefore durationMs tl).map (·.2) :=
  receipt_notMem_feedTimers
    (fun _ hb => List.mem_of_mem_filter ((List.mem_insertionSort Due).mp hb)) r

theorem receipt_notMem_after (r : TheaterSettlement) :
    .receipt r ∉ (firedAfter durationMs tl).map (·.2) :=
  receipt_notMem_feedTimers
    (fun _ hb => List.mem_of_mem_filter ((List.mem_insertionSort Due).mp hb)) r

/-- The scores that are shown when the receipt is played. -/
def shownBefore (durationMs : ℚ) (tl : Timeline) : List (ℤ × Score) :=
  tl.scores.filter fun s =>
    dueMs (playedAt durationMs tl.toClock s.1) ≤ dueMs (receiptMs durationMs tl.toClock)

theorem InTurn.before (h : InTurn tl) :
    ((firedBefore durationMs tl).map (·.2)).filterMap scoreOf =
      (shownBefore durationMs tl).map (·.2) := by
  rw [List.filterMap_map]
  exact h.sorted _

theorem InTurn.score_before (h : InTurn tl) :
    (((firedBefore durationMs tl).map (·.2)).foldl play .empty).score =
      ((shownBefore durationMs tl).map (·.2)).getLast? := by
  rw [foldl_play_score receipt_notMem_before, h.before]
  cases ((shownBefore durationMs tl).map (·.2)).getLast? <;> rfl

theorem InTurn.fired_scores (h : InTurn tl) :
    ((fired durationMs tl).map (·.2)).filterMap scoreOf = tl.scores.map (·.2) := by
  have hscores : (fired durationMs tl).filterMap (scoreOf ·.2) = tl.scores.map (·.2) := by
    rw [fired, sorted_scores]
    · cases hr : tl.receipt <;> simp [timers, Theater.ticks, hr, scoreOf, List.filterMap_map]
    · refine (@InTurn.ticks durationMs tl h).sublist ?_
      cases hr : tl.receipt <;>
        simp [timers, Theater.ticks, hr, scoreOf, List.filter_append]
  rw [List.filterMap_map]
  exact hscores

/-- The score that a receipt adds. -/
def added (f : TheaterFeed) (r : TheaterSettlement) : List Score :=
  if Beat.setsScore f (.receipt r) then (play f (.receipt r)).score.toList else []

theorem added_eq_nil (r : TheaterSettlement) :
    added f r = [] ↔ ∀ p ∈ r.provenScore, f.score = some p := by
  unfold added
  cases hp : r.provenScore with
  | none => simp [Beat.setsScore, play, hp]
  | some p =>
      by_cases heq : f.score = some p
      · simp [Beat.setsScore, play, hp, heq]
      · simp [Beat.setsScore, play, hp, heq, Ne.symm heq]

/-- With a receipt the replay shows the scores of the timers before and after it, and
in between what the receipt adds. -/
theorem replayScores_with {r : TheaterSettlement} (hr : tl.receipt = some r) :
    replayScores durationMs tl =
      ((firedBefore durationMs tl).map (·.2)).filterMap scoreOf ++
        added (((firedBefore durationMs tl).map (·.2)).foldl play .empty) r ++
          ((firedAfter durationMs tl).map (·.2)).filterMap scoreOf := by
  rw [replayScores, fired_with hr, List.map_append, scoresShown_append,
    scoresShown_play receipt_notMem_before, List.map_cons, scoresShown,
    scoresShown_play receipt_notMem_after, List.append_assoc]
  rfl

theorem replayScores_without (h : InTurn tl) (hr : tl.receipt = none) :
    replayScores durationMs tl = tl.scores.map (·.2) := by
  rw [replayScores, scoresShown_play, h.fired_scores]
  rw [fired_without hr]
  exact receipt_notMem_feedTimers fun b hb => (List.mem_insertionSort Due).mp hb

/-- The replay shows the scores, and one more when a receipt changes what is shown. -/
theorem replayScores_iff (h : InTurn tl) {live : List Score}
    (hlength : live.length = tl.scores.length) :
    replayScores durationMs tl = live ↔ tl.scores.map (·.2) = live ∧
      ∀ r ∈ tl.receipt, ∀ p ∈ r.provenScore,
        ((shownBefore durationMs tl).map (·.2)).getLast? = some p := by
  cases hr : tl.receipt with
  | none => simp [replayScores_without h hr]
  | some r =>
      have hall := @InTurn.fired_scores durationMs tl h
      rw [fired_with hr, List.map_append, List.filterMap_append] at hall
      have hbefore := @InTurn.score_before durationMs tl h
      have hreplay := @replayScores_with durationMs tl r hr
      generalize ((firedBefore durationMs tl).map (·.2)).foldl play .empty = f at hbefore hreplay
      have hadded := @added_eq_nil f r
      rw [hbefore] at hadded
      simp only [Option.mem_def, Option.some.injEq, forall_eq'] at hadded ⊢
      rw [← hadded, hreplay, ← hall]
      constructor
      · intro heq
        have hnone : added f r = [] := by
          have hlen := congrArg List.length heq
          have hlen' := congrArg List.length hall
          simp only [List.map_cons, scoreOf, List.filterMap_cons, List.length_append,
            List.length_map] at hlen hlen'
          exact List.length_eq_zero_iff.mp (by omega)
        rw [hnone, List.append_nil] at heq
        exact ⟨heq, hnone⟩
      · rintro ⟨heq, hnone⟩
        rw [hnone, List.append_nil]
        exact heq

/-! ## The finalisation of the replay -/

def Beat.finalises : Beat → Bool
  | .score _ => false
  | .finalise | .receipt _ => true

@[simp] theorem finalises_score (s : Score) : (Beat.score s).finalises = false := rfl
@[simp] theorem finalises_finalise : Beat.finalise.finalises = true := rfl
@[simp] theorem finalises_receipt (r : TheaterSettlement) : (Beat.receipt r).finalises = true := rfl

theorem finalisedMs_eq {beats : List (ℚ × Beat)} (hf : f.finalised = false) :
    finalisedMs f beats = (beats.find? (·.2.finalises)).map (dueMs ·.1) := by
  induction beats generalizing f with
  | nil => rfl
  | cons b beats ih =>
      obtain ⟨delay, beat⟩ := b
      cases beat with
      | score s =>
          have hplay : (play f (.score s)).finalised = false := hf
          rw [finalisedMs, List.find?_cons_of_neg (by simp), ← ih hplay]
          exact if_neg (by simp [hplay])
      | finalise => simp [finalisedMs, play]
      | receipt r => simp [finalisedMs, play]

/-- Of the timers of the feed one finalises. -/
theorem finalises_feedTimers {b : ℚ × Beat} (h : b ∈ feedTimers durationMs tl) :
    b.2.finalises = true ↔ b = (finalMs durationMs tl, .finalise) := by
  simp only [feedTimers, Theater.ticks, List.mem_append, List.mem_map, List.mem_singleton] at h
  rcases h with ⟨s, -, rfl⟩ | rfl
  · simp
  · simp

theorem find_finalises {l : List (ℚ × Beat)} (hl : ∀ b ∈ l, b ∈ feedTimers durationMs tl)
    (hfinal : (finalMs durationMs tl, .finalise) ∈ l) :
    l.find? (·.2.finalises) = some (finalMs durationMs tl, .finalise) := by
  have hsome : (l.find? (·.2.finalises)).isSome := List.find?_isSome.mpr ⟨_, hfinal, by simp⟩
  obtain ⟨b, hb⟩ := Option.isSome_iff_exists.mp hsome
  have hfinalises : b.2.finalises = true := by simpa using List.find?_some hb
  rw [hb, (finalises_feedTimers (hl b (List.mem_of_find?_eq_some hb))).mp hfinalises]

/-- The replay is finalised by its finalisation, or by a receipt that is due before. -/
theorem replayFinalisedMs_eq : replayFinalisedMs durationMs tl = some
    (if tl.receipt.isSome ∧ dueMs (receiptMs durationMs tl.toClock) < dueMs (finalMs durationMs tl)
      then dueMs (receiptMs durationMs tl.toClock) else dueMs (finalMs durationMs tl)) := by
  have hmem : (finalMs durationMs tl, .finalise) ∈ feedTimers durationMs tl :=
    List.mem_append_right _ List.mem_cons_self
  rw [replayFinalisedMs, finalisedMs_eq rfl]
  cases hr : tl.receipt with
  | none =>
      rw [fired_without hr, find_finalises (fun b hb => (List.mem_insertionSort Due).mp hb)
        ((List.mem_insertionSort Due).mpr hmem)]
      simp
  | some r =>
      have hsub : ∀ b ∈ firedBefore durationMs tl, b ∈ feedTimers durationMs tl :=
        fun _ hb => List.mem_of_mem_filter ((List.mem_insertionSort Due).mp hb)
      rw [fired_with hr, List.find?_append]
      by_cases hlt : dueMs (receiptMs durationMs tl.toClock) < dueMs (finalMs durationMs tl)
      · have hnone : (firedBefore durationMs tl).find? (·.2.finalises) = none := by
          rw [List.find?_eq_none]
          intro b hb hfinal
          obtain rfl := (finalises_feedTimers (hsub b hb)).mp hfinal
          have hdue := (List.mem_filter.mp ((List.mem_insertionSort Due).mp hb)).2
          simp only [decide_eq_true_eq] at hdue
          omega
        simp [hnone, hlt]
      · have hbefore : (finalMs durationMs tl, .finalise) ∈ firedBefore durationMs tl := by
          refine (List.mem_insertionSort Due).mpr (List.mem_filter.mpr ⟨hmem, ?_⟩)
          simpa using hlt
        rw [find_finalises hsub hbefore]
        simp [hlt]

/-! ## Live and replay -/

theorem latest_append (side : FeedScore → Option ℤ) (seen : List Recorded) (r : Recorded) :
    latest side (seen ++ [r]) = (r.event.score.bind side <|> latest side seen) := by
  unfold latest
  rw [List.filterMap_append]
  cases h : r.event.score.bind side <;> simp [h]

/-- The condition for the events after those seen. -/
def GivesAfter (seen events : List Recorded) : Prop :=
  ∀ before r after s, events = before ++ r :: after → r.event.score = some s →
    (s.p1 = none → (latest (·.p1) (seen ++ before)).getD 0 = 0) ∧
      (s.p2 = none → (latest (·.p2) (seen ++ before)).getD 0 = 0)

theorem givesAfter_nil {seen : List Recorded} : GivesAfter seen [] := by
  intro before r after s hevents
  cases before <;> cases hevents

theorem givesAfter_cons {seen events : List Recorded} {r : Recorded} :
    GivesAfter seen (r :: events) ↔
      (∀ s, r.event.score = some s → (s.p1 = none → (latest (·.p1) seen).getD 0 = 0) ∧
        (s.p2 = none → (latest (·.p2) seen).getD 0 = 0)) ∧ GivesAfter (seen ++ [r]) events := by
  constructor
  · intro h
    constructor
    · intro s hs
      simpa using h [] r events s rfl hs
    · intro before r' after s hevents hs
      rw [List.append_assoc]
      exact h (r :: before) r' after s (by rw [hevents, List.cons_append]) hs
  · intro ⟨hhead, htail⟩ before r' after s hevents hs
    cases before with
    | nil =>
        cases hevents
        simpa using hhead s hs
    | cons r'' before =>
        cases hevents
        have := htail before r' after s rfl hs
        rwa [List.append_assoc] at this

/-- What live carries on are the sides given last. -/
structure Carries (f : TheaterFeed) (seen : List Recorded) : Prop where
  p1 : (f.score.map (·.p1)).getD 0 = (latest (·.p1) seen).getD 0
  p2 : (f.score.map (·.p2)).getD 0 = (latest (·.p2) seen).getD 0

theorem Carries.onScore {seen : List Recorded} {r : Recorded} (h : Carries f seen)
    (hr : r.event.fixtureId = fixtureId) :
    Carries (onScore fixtureId f r.event) (seen ++ [r]) := by
  unfold Theater.onScore
  rw [if_pos hr]
  constructor
  · rw [latest_append]
    cases hs : r.event.score with
    | none => exact h.p1
    | some s => cases hp : s.p1 <;> simp [hp, h.p1]
  · rw [latest_append]
    cases hs : r.event.score with
    | none => exact h.p2
    | some s => cases hp : s.p2 <;> simp [hp, h.p2]

theorem getD_eq_zero {side : Option ℤ} {c : ℤ} :
    side.getD c = side.getD 0 ↔ (side = none → c = 0) := by
  cases side <;> simp

theorem live_eq_iff {seen events : List Recorded} (h : Carries f seen)
    (hown : ∀ r ∈ events, r.event.fixtureId = fixtureId) :
    (events.filterMap Recorded.tick).map (·.2) =
        scoresShown (onScore fixtureId) (setsScore fixtureId) f (events.map (·.event)) ↔
      GivesAfter seen events := by
  induction events generalizing f seen with
  | nil => exact iff_of_true rfl givesAfter_nil
  | cons r events ih =>
      obtain ⟨hr, hown⟩ := List.forall_mem_cons.mp hown
      have ih := @ih (onScore fixtureId f r.event) (seen ++ [r]) (h.onScore hr) hown
      rw [givesAfter_cons, ← ih, List.map_cons, scoresShown]
      cases hs : r.event.score with
      | none =>
          have htick : r.tick = none := by simp [Recorded.tick, hs]
          simp [htick, setsScore, hs]
      | some s =>
          have htick : r.tick = some (r.time, ⟨s.p1.getD 0, s.p2.getD 0⟩) := by
            simp [Recorded.tick, hs]
          have hshown : (onScore fixtureId f r.event).score =
              some ⟨s.p1.getD ((latest (·.p1) seen).getD 0),
                s.p2.getD ((latest (·.p2) seen).getD 0)⟩ := by
            rw [← h.p1, ← h.p2, onScore, if_pos hr, hs]
          simp only [List.filterMap_cons, htick, setsScore, hs, hr, hshown, List.map_cons,
            beq_self_eq_true, Option.isSome_some, Bool.and_self, if_true, Option.toList_some,
            List.singleton_append, List.cons.injEq, Score.mk.injEq, Option.some.injEq,
            forall_eq', ← getD_eq_zero]
          exact and_congr_left fun _ => and_congr eq_comm eq_comm

theorem length_live {events : List Recorded} (hown : ∀ r ∈ events, r.event.fixtureId = fixtureId) :
    (scoresShown (onScore fixtureId) (setsScore fixtureId) f (events.map (·.event))).length =
      (events.filterMap Recorded.tick).length := by
  induction events generalizing f with
  | nil => rfl
  | cons r events ih =>
      obtain ⟨hr, hown⟩ := List.forall_mem_cons.mp hown
      rw [List.map_cons, scoresShown, List.length_append, ih hown]
      cases hs : r.event.score <;> simp [setsScore, hr, hs, onScore, Recorded.tick, Nat.add_comm]

theorem fixtureId_of_own {events : List Recorded} : ∀ r ∈ own fixtureId events,
    r.event.fixtureId = fixtureId :=
  fun _ hr => by simpa using (List.mem_filter.mp hr).2

/-- Replay and live show the same scores exactly where no side is left out that is not
0, and no receipt changes what is shown. -/
theorem scores_agree_iff {events : List Recorded} (h : InTurn tl)
    (hscores : tl.scores = (own fixtureId events).filterMap Recorded.tick) :
    replayScores durationMs tl = liveScores fixtureId (events.map (·.event)) ↔
      GivesSides (own fixtureId events) ∧ ∀ r ∈ tl.receipt, ∀ p ∈ r.provenScore,
        ((shownBefore durationMs tl).map (·.2)).getLast? = some p := by
  have hown := @fixtureId_of_own fixtureId events
  have hlive : liveScores fixtureId (events.map (·.event)) =
      scoresShown (onScore fixtureId) (setsScore fixtureId) .empty
        ((own fixtureId events).map (·.event)) := liveScores_own events
  rw [replayScores_iff h, hlive, hscores]
  · exact and_congr_left fun _ => @live_eq_iff fixtureId .empty [] _ ⟨rfl, rfl⟩ hown
  · rw [hlive, hscores]
    exact length_live hown

/-! ## The finalisation -/

/-- The first of its kind is not later than another. -/
theorem time_le_of_find {events : List Recorded} (h : events.Pairwise fun a b => a.time ≤ b.time)
    {kind : Recorded → Bool} {r r' : Recorded} (hfind : events.find? kind = some r)
    (hr' : r' ∈ events) (hkind : kind r' = true) : r.time ≤ r'.time := by
  obtain ⟨-, before, after, rfl, hbefore⟩ := List.find?_eq_some_iff_append.mp hfind
  rcases List.mem_append.mp hr' with hmem | hmem
  · exact absurd hkind (by simpa using hbefore r' hmem)
  · rcases List.mem_cons.mp hmem with rfl | hmem
    · exact le_rfl
    · exact List.rel_of_pairwise_cons (List.pairwise_append.mp h).2.1 hmem

theorem ends_iff {r : Recorded} :
    r.ends = true ↔ r.event.statusId = some 100 ∧ r.event.score.isSome = true := by
  simp [Recorded.ends]

theorem find_ends_iff {events : List Recorded} (h : events.Pairwise fun a b => a.time ≤ b.time) :
    (events.find? Recorded.ends).map (·.time) =
        (events.find? (·.event.statusId = some 100)).map (·.time) ↔ FinalScored events := by
  constructor
  · intro htimes r hr
    rw [hr] at htimes
    obtain ⟨r', hr', htime⟩ := Option.map_eq_some_iff.mp htimes
    obtain ⟨hfinal, hscore⟩ := ends_iff.mp (List.find?_some hr')
    exact ⟨r', List.mem_of_find?_eq_some hr', hfinal, hscore, htime⟩
  · intro hscored
    cases hr : events.find? (·.event.statusId = some 100) with
    | none =>
        have hnone : events.find? Recorded.ends = none := by
          rw [List.find?_eq_none] at hr ⊢
          intro r hmem hends
          exact hr r hmem (decide_eq_true (ends_iff.mp hends).1)
        rw [hnone]
    | some r =>
        obtain ⟨r', hmem, hfinal, hscore, htime⟩ := hscored r hr
        have hends := ends_iff.mpr ⟨hfinal, hscore⟩
        obtain ⟨r₀, hr₀⟩ := Option.isSome_iff_exists.mp (List.find?_isSome.mpr ⟨r', hmem, hends⟩)
        have hle : r₀.time ≤ r.time := htime ▸ time_le_of_find h hr₀ hmem hends
        have hge : r.time ≤ r₀.time := by
          apply time_le_of_find h hr (List.mem_of_find?_eq_some hr₀)
          exact decide_eq_true (ends_iff.mp (List.find?_some hr₀)).1
        rw [hr₀, Option.map_some, Option.map_some, le_antisymm hle hge]

/-- The replay is finalised in the moment of its finalisation exactly when no receipt is
due before. -/
theorem finalised_in_time_iff {time : ℤ} (h : tl.finalisedAt = some time) :
    replayFinalisedMs durationMs tl = some (dueMs (playedAt durationMs tl.toClock time)) ↔
      (tl.receipt.isSome → dueMs (playedAt durationMs tl.toClock time) ≤
        dueMs (receiptMs durationMs tl.toClock)) := by
  have hfinal : finalMs durationMs tl = playedAt durationMs tl.toClock time := by
    rw [finalMs, h]
  rw [replayFinalisedMs_eq, hfinal, Option.some.injEq]
  split
  next hearly =>
    refine iff_of_false hearly.2.ne fun hlate => ?_
    exact absurd (hlate hearly.1) (not_le.mpr hearly.2)
  next hlate => exact iff_of_true rfl fun hr => not_lt.mp fun hlt => hlate ⟨hr, hlt⟩

/-- For score events with times that do not decrease, the replay shows the scores that
live showed and is finalised in the moment that live was, exactly where score objects
give every side that is not 0, the first final status comes with one, and a receipt that
is fetched changes neither. -/
theorem replay_shows_live (fixtureId kickoffTs : ℤ) (durationMs : ℚ) {events : List Recorded}
    (h : events.Pairwise fun a b => a.time ≤ b.time) (fetched : Option TheaterSettlement) :
    let a := getArchive fixtureId kickoffTs (events.map Recorded.row)
    let tl := timeline a fetched
    (replayScores durationMs tl = liveScores fixtureId (events.map (·.event)) ∧
        tl.finalisedAt = liveFinalisedAt fixtureId .empty events ∧
        ∀ time ∈ liveFinalisedAt fixtureId .empty events,
          replayFinalisedMs durationMs tl = some (dueMs (playedAt durationMs a.clock time))) ↔
      GivesSides (own fixtureId events) ∧ FinalScored (own fixtureId events) ∧
        ReceiptFits durationMs a.clock (own fixtureId events) fetched := by
  intro a tl
  have htl : tl = ⟨a.clock, ((own fixtureId events).find? Recorded.ends).map (·.time), fetched,
      (own fixtureId events).filterMap Recorded.tick⟩ := timeline_recorded events fetched
  have hown : (own fixtureId events).Pairwise fun a b => a.time ≤ b.time := h.filter _
  have hturn : InTurn tl := by
    rw [htl]
    exact sorted_ticks hown
  have hscores := @scores_agree_iff fixtureId durationMs tl events hturn (by rw [htl])
  have hlive := @liveFinalisedAt_own fixtureId .empty events rfl
  have hfinal : tl.finalisedAt = liveFinalisedAt fixtureId .empty events ↔
      FinalScored (own fixtureId events) := by
    rw [hlive, ← find_ends_iff hown, htl]
  have hclock : tl.toClock = a.clock := by rw [htl]
  have hreceipt : tl.receipt = fetched := by rw [htl]
  have hmoment (hagree : tl.finalisedAt = liveFinalisedAt fixtureId .empty events) :
      (∀ time ∈ liveFinalisedAt fixtureId .empty events,
        replayFinalisedMs durationMs tl = some (dueMs (playedAt durationMs a.clock time))) ↔
      ∀ r ∈ fetched, ∀ e ∈ (own fixtureId events).find? (·.event.statusId = some 100),
        dueMs (playedAt durationMs a.clock e.time) ≤ dueMs (receiptMs durationMs a.clock) := by
    rw [hlive] at hagree ⊢
    cases he : (own fixtureId events).find? (·.event.statusId = some 100) with
    | none => simp
    | some e =>
        rw [he] at hagree
        have hiff := @finalised_in_time_iff durationMs tl e.time hagree
        rw [hclock, hreceipt] at hiff
        simp [hiff, Option.isSome_iff_exists]
  have hshown : shownBefore durationMs tl =
      ((own fixtureId events).filterMap Recorded.tick).filter fun s =>
        dueMs (playedAt durationMs a.clock s.1) ≤ dueMs (receiptMs durationMs a.clock) := by
    rw [htl]
    rfl
  rw [hscores, hreceipt, hshown, hfinal]
  simp only [ReceiptFits, List.getLast?_map]
  constructor
  · rintro ⟨⟨hgives, hproven⟩, hscored, htime⟩
    have htime := (hmoment (hfinal.mpr hscored)).mp htime
    exact ⟨hgives, hscored, fun r hr => ⟨hproven r hr, htime r hr⟩⟩
  · rintro ⟨hgives, hscored, hfits⟩
    refine ⟨⟨hgives, fun r hr => (hfits r hr).1⟩, hscored, ?_⟩
    exact (hmoment (hfinal.mpr hscored)).mpr fun r hr => (hfits r hr).2

/-- A goal of the home side, one of the away side, the final status, and once more. -/
def fullScores : List Recorded :=
  [⟨1000, 7, some ⟨some 1, none⟩, some 2⟩, ⟨2000, 7, some ⟨some 1, some 1⟩, some 4⟩,
    ⟨3000, 7, some ⟨some 1, some 1⟩, some 100⟩, ⟨4000, 7, some ⟨some 1, some 1⟩, some 100⟩]

def drawReceipt : TheaterSettlement := ⟨7, some ⟨1, 1⟩, "ab"⟩

theorem fullScores_fit : GivesSides (own 7 fullScores) ∧ FinalScored (own 7 fullScores) ∧
    ReceiptFits 18000 (getArchive 7 0 (fullScores.map Recorded.row)).clock (own 7 fullScores)
      (some drawReceipt) := by
  refine ⟨?_, fun r hr => ?_, ?_⟩
  · change GivesAfter [] fullScores
    simp [fullScores, givesAfter_cons, givesAfter_nil, latest]
  · simp only [own, fullScores] at hr
    cases hr
    exact ⟨⟨3000, 7, some ⟨some 1, some 1⟩, some 100⟩, by decide⟩
  · rintro r ⟨⟩
    constructor
    · rintro p ⟨⟩
      decide +kernel
    · decide +kernel

theorem replay_shows_live_full :
    let tl := timeline (getArchive 7 0 (fullScores.map Recorded.row)) (some drawReceipt)
    replayScores 18000 tl = liveScores 7 (fullScores.map (·.event)) ∧
      liveFinalisedAt 7 .empty fullScores = some 3000 ∧
      replayFinalisedMs 18000 tl = some 12000 := by
  have h := (replay_shows_live 7 0 18000 (by decide) (some drawReceipt)).mpr fullScores_fit
  have hmoment := h.2.2 3000 (by decide +kernel)
  exact ⟨h.1, by decide +kernel, hmoment.trans (by decide +kernel)⟩

/-- Of the second goal only the side that scored is recorded, of the end no score. -/
def partialScores : List Recorded :=
  [⟨1000, 7, some ⟨some 1, none⟩, some 2⟩, ⟨2000, 7, some ⟨none, some 1⟩, some 4⟩,
    ⟨3000, 7, none, some 100⟩]

/-- The side left out is forgotten and the final status is not seen; a receipt comes
before a final status at the very end. -/
theorem replay_forgets :
    let tl := timeline (getArchive 7 0 (partialScores.map Recorded.row)) none
    let whole := timeline (getArchive 7 0 ((fullScores.take 3).map Recorded.row)) (some drawReceipt)
    (partialScores.Pairwise fun a b => a.time ≤ b.time) ∧
      liveScores 7 (partialScores.map (·.event)) = [⟨1, 0⟩, ⟨1, 1⟩] ∧
      replayScores 18000 tl = [⟨1, 0⟩, ⟨0, 1⟩] ∧
      liveFinalisedAt 7 .empty partialScores = some 3000 ∧ tl.finalisedAt = none ∧
      liveFinalisedAt 7 .empty (fullScores.take 3) = some 3000 ∧
      dueMs (playedAt 18000 whole.toClock 3000) = 18000 ∧
      replayFinalisedMs 18000 whole = some 17600 := by
  decide +kernel

end ProofBook.Theater
