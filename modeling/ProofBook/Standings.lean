import ProofBook.Lib.Components
import ProofBook.Lib.ObjectMap

/-!
# Group tables from proven results

Groups are the components of who played whom among the group fixtures whose teams are
known. A row counts the proven fixtures of its team with both scores, and the table is
sorted by points, goal difference, goals for and code. Codes have two orders, by code
unit and by locale; numbers are exact integers.
-/
namespace ProofBook.Standings
open Components Objects

inductive ProofStatus
  | proven
  | noProof
  | upcoming
deriving Repr, DecidableEq

/-- What the teams table holds besides the code, its primary key. -/
structure TeamDetails where
  name : String
  iso : String
  chip : String
deriving Repr, DecidableEq

structure TeamRef (C : Type) where
  code : C
  name : String
  iso : String
  chip : String
  unknown : Bool
deriving Repr, DecidableEq

/-- A fixture with the codes of the teams it is joined to. -/
structure Fixture (C : Type) where
  stage : String
  homeTeam : Option C
  awayTeam : Option C
  proofStatus : ProofStatus
  provenP1 : Option ℤ
  provenP2 : Option ℤ
deriving Repr, DecidableEq

/-- A fixture with both teams. -/
structure Game (C : Type) where
  home : C
  away : C
  proofStatus : ProofStatus
  provenP1 : Option ℤ
  provenP2 : Option ℤ
deriving Repr, DecidableEq

structure Row (C : Type) where
  team : TeamRef C
  played : ℤ
  won : ℤ
  drawn : ℤ
  lost : ℤ
  gf : ℤ
  ga : ℤ
  gd : ℤ
  points : ℤ
deriving Repr, DecidableEq

/-- A group; the label is a string of code units. -/
structure GroupView (C : Type) where
  label : List UInt16
  rows : List (Row C)
  provenCount : ℕ
  totalCount : ℕ
deriving Repr, DecidableEq

variable {C : Type}

def Fixture.resolve (f : Fixture C) : Option (Game C) :=
  match f.homeTeam, f.awayTeam with
  | some home, some away => some ⟨home, away, f.proofStatus, f.provenP1, f.provenP2⟩
  | _, _ => none

def resolved (fixtures : List (Fixture C)) : List (Game C) :=
  (fixtures.filter fun f => f.stage = "Group").filterMap Fixture.resolve

/-- The score that counts; all other games count as unplayed. -/
def Game.score (m : Game C) : Option (ℤ × ℤ) :=
  match m.proofStatus, m.provenP1, m.provenP2 with
  | .proven, some p1, some p2 => some (p1, p2)
  | _, _, _ => none

/-! ## Groups -/

structure Neighbours (C : Type) where
  code : C
  next : List C

abbrev Adjacency (C : Type) := ObjectMap fun n : Neighbours C => n.code

variable [LinearOrder C]

def nextOf (adj : Adjacency C) (code : C) : List C := ((adj.get code).map (·.next)).getD []

def link (adj : Adjacency C) (a b : C) : Adjacency C :=
  adj.set ⟨a, if b ∈ nextOf adj a then nextOf adj a else nextOf adj a ++ [b]⟩

def linkGame (adj : Adjacency C) (m : Game C) : Adjacency C :=
  link (link adj m.home m.away) m.away m.home

def adjacency (games : List (Game C)) : Adjacency C := games.foldl linkGame .empty

def codesOf (adj : Adjacency C) : List C := adj.values.map (·.code)

/-- By the first code of each; no group is empty. -/
def firstBefore (localeCompare : C → C → ℤ) : List C → List C → Bool
  | [], _ => true
  | _ :: _, [] => false
  | x :: _, y :: _ => decide (localeCompare x y ≤ 0)

def groupCodes (localeCompare : C → C → ℤ) (games : List (Game C)) : List (List C) :=
  let adj := adjacency games
  ((components (nextOf adj) (codesOf adj)).map sort).mergeSort (firstBefore localeCompare)

/-! ## Rows -/

variable (teams : C → TeamDetails)

def teamRef (code : C) : TeamRef C :=
  ⟨code, (teams code).name, (teams code).iso, (teams code).chip, false⟩

def emptyRow (code : C) : Row C := ⟨teamRef teams code, 0, 0, 0, 0, 0, 0, 0, 0⟩

abbrev Rows (C : Type) := ObjectMap fun r : Row C => r.team.code

def rowFor (rows : Rows C) (code : C) : Rows C :=
  if (rows.get code).isSome then rows else rows.set (emptyRow teams code)

def Row.result (r : Row C) (scored conceded : ℤ) : Row C :=
  let r := { r with
    played := r.played + 1
    gf := r.gf + scored
    ga := r.ga + conceded }
  if scored > conceded then { r with won := r.won + 1, points := r.points + 3 }
  else if scored < conceded then { r with lost := r.lost + 1 }
  else { r with drawn := r.drawn + 1, points := r.points + 1 }

/-- Changes the row of a code, which is created when it is missing. -/
def changeRow (rows : Rows C) (code : C) (change : Row C → Row C) : Rows C :=
  rows.set (change ((rows.get code).getD (emptyRow teams code)))

def countGame (rows : Rows C) (m : Game C) : Rows C :=
  match m.score with
  | some (p1, p2) =>
      changeRow teams (changeRow teams rows m.home (·.result p1 p2)) m.away (·.result p2 p1)
  | none => rows

def gameRows (rows : Rows C) (m : Game C) : Rows C :=
  rowFor teams (rowFor teams rows m.home) m.away

def compareRows (localeCompare : C → C → ℤ) (x y : Row C) : ℤ :=
  if y.points - x.points ≠ 0 then y.points - x.points
  else if y.gd - x.gd ≠ 0 then y.gd - x.gd
  else if y.gf - x.gf ≠ 0 then y.gf - x.gf
  else localeCompare x.team.code y.team.code

def rowBefore (localeCompare : C → C → ℤ) (x y : Row C) : Bool :=
  decide (compareRows localeCompare x y ≤ 0)

def groupLabel (i : ℕ) : List UInt16 :=
  "Group ".toList.map (fun c => UInt16.ofNat c.toNat) ++ [UInt16.ofNat (65 + i)]

def groupGames (games : List (Game C)) (codes : List C) : List (Game C) :=
  games.filter fun m => decide (m.home ∈ codes) && decide (m.away ∈ codes)

def groupRows (games : List (Game C)) : Rows C :=
  games.foldl (countGame teams) (games.foldl (gameRows teams) .empty)

def groupView (localeCompare : C → C → ℤ) (games : List (Game C)) (i : ℕ) (codes : List C) :
    GroupView C :=
  let games := groupGames games codes
  let list := (groupRows teams games).values.map fun r => { r with gd := r.gf - r.ga }
  { label := groupLabel i
    rows := list.mergeSort (rowBefore localeCompare)
    provenCount := (games.filter fun m => m.proofStatus = .proven).length
    totalCount := games.length }

def getStandings (localeCompare : C → C → ℤ) (fixtures : List (Fixture C)) :
    List (GroupView C) :=
  let games := resolved fixtures
  (groupCodes localeCompare games).mapIdx (groupView teams localeCompare games)

/-! ## Who played whom -/

/-- The two met, on either side. -/
def Plays (games : List (Game C)) (a b : C) : Prop :=
  ∃ m ∈ games, (m.home = a ∧ m.away = b) ∨ (m.away = a ∧ m.home = b)

def Appears (games : List (Game C)) (code : C) : Prop :=
  ∃ m ∈ games, m.home = code ∨ m.away = code

variable {teams} {adj : Adjacency C} {games : List (Game C)} {a b c d : C}

theorem nextOf_link_self : nextOf (link adj a b) a =
    if b ∈ nextOf adj a then nextOf adj a else nextOf adj a ++ [b] :=
  congrArg (fun found => (found.map fun n : Neighbours C => n.next).getD [])
    (ObjectMap.get_set_self adj ⟨a, _⟩)

theorem nextOf_link_of_ne (h : c ≠ a) : nextOf (link adj a b) c = nextOf adj c := by
  rw [nextOf, link, ObjectMap.get_set_of_ne h]
  rfl

theorem mem_nextOf_link : d ∈ nextOf (link adj a b) c ↔ d ∈ nextOf adj c ∨ a = c ∧ b = d := by
  by_cases hc : c = a
  · subst hc
    rw [nextOf_link_self]
    split_ifs with hb
    · constructor
      · exact .inl
      · rintro (h | ⟨-, rfl⟩)
        · exact h
        · exact hb
    · simp [eq_comm]
  · rw [nextOf_link_of_ne hc]
    simp [Ne.symm hc]

theorem mem_codesOf_link : c ∈ codesOf (link adj a b) ↔ c ∈ codesOf adj ∨ a = c := by
  simp only [codesOf, List.mem_map, link, ObjectMap.mem_set]
  constructor
  · rintro ⟨n, rfl | ⟨hn, -⟩, rfl⟩
    · exact .inr rfl
    · exact .inl ⟨n, hn, rfl⟩
  · intro h
    by_cases hc : a = c
    · exact ⟨_, .inl rfl, hc⟩
    · obtain ⟨n, hn, rfl⟩ := h.resolve_right hc
      exact ⟨n, .inr ⟨hn, Ne.symm hc⟩, rfl⟩

theorem mem_nextOf_foldl :
    b ∈ nextOf (games.foldl linkGame adj) a ↔ b ∈ nextOf adj a ∨ Plays games a b := by
  induction games generalizing adj with
  | nil => simp [Plays]
  | cons m games ih =>
      simp only [List.foldl_cons, ih, linkGame, mem_nextOf_link, Plays, List.mem_cons,
        exists_eq_or_imp, or_assoc]

theorem mem_codesOf_foldl :
    c ∈ codesOf (games.foldl linkGame adj) ↔ c ∈ codesOf adj ∨ Appears games c := by
  induction games generalizing adj with
  | nil => simp [Appears]
  | cons m games ih =>
      simp only [List.foldl_cons, ih, linkGame, mem_codesOf_link, Appears, List.mem_cons,
        exists_eq_or_imp, or_assoc]

theorem adjacent_eq : Adjacent (nextOf (adjacency games)) = Plays games := by
  funext a b
  rw [Adjacent, adjacency, mem_nextOf_foldl, eq_iff_iff]
  exact or_iff_right (by simp [nextOf, ObjectMap.empty, ObjectMap.get])

theorem mem_codesOf : c ∈ codesOf (adjacency games) ↔ Appears games c := by
  rw [adjacency, mem_codesOf_foldl]
  exact or_iff_right (by simp [codesOf, ObjectMap.empty])

omit [LinearOrder C] in
theorem Plays.symm (h : Plays games a b) : Plays games b a := by
  obtain ⟨m, hm, h⟩ := h
  exact ⟨m, hm, h.symm.imp And.symm And.symm⟩

omit [LinearOrder C] in
theorem Plays.appears (h : Plays games a b) : Appears games b := by
  obtain ⟨m, hm, h⟩ := h
  exact ⟨m, hm, h.symm.imp And.right And.right⟩

theorem adjacency_symmetric :
    Symmetric (nextOf (adjacency games)) (codesOf (adjacency games)) := by
  have hplays : ∀ {a b}, b ∈ nextOf (adjacency games) a ↔ Plays games a b := by
    intro a b
    rw [← adjacent_eq]
    rfl
  refine ⟨(adjacency games).nodup, fun a _ b hb => ?_, fun hb => ?_⟩
  · exact mem_codesOf.mpr (hplays.mp hb).appears
  · exact hplays.mpr (hplays.mp hb).symm

end ProofBook.Standings
