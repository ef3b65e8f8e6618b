import ProofBook.GroupTables

/-!
# Faithful standings

The groups are the components of who played whom, with every team in exactly one. The
components and the recounts depend on the fixtures only up to their order, and both
sorts are by total orders, so the standings do not depend on the order in which the
fixtures are listed.
-/
namespace ProofBook.Standings
open Components

variable {C : Type}

/-! ## Order of the fixtures -/

theorem resolved_perm {fixtures fixtures' : List (Fixture C)} (h : fixtures.Perm fixtures') :
    (resolved fixtures).Perm (resolved fixtures') :=
  (h.filter _).filterMap _

variable [LinearOrder C] {teams : C → TeamDetails} {localeCompare : C → C → ℤ}
  {games games' : List (Game C)} {codes : List C}

theorem recount_perm (h : games.Perm games') (code : C) :
    recount teams games code = recount teams games' code :=
  tally_perm (h.filterMap _)

omit [LinearOrder C] in
theorem plays_perm (h : games.Perm games') : Plays games = Plays games' := by
  funext a b
  simp only [Plays, h.mem_iff]

omit [LinearOrder C] in
theorem appears_perm (h : games.Perm games') : Appears games = Appears games' := by
  funext code
  simp only [Appears, h.mem_iff]

/-- The sorted components, before they are put in order. -/
def sortedGroups (games : List (Game C)) : List (List C) :=
  (components (nextOf (adjacency games)) (codesOf (adjacency games))).map sort

theorem sortedGroups_decomposes :
    Decomposes (Plays games) (Appears games) (sortedGroups games) := by
  have hsymmetric : Symmetric (nextOf (adjacency games)) (codesOf (adjacency games)) :=
    adjacency_symmetric
  have h := (components_decomposes hsymmetric).sorted
  rw [adjacent_eq] at h
  exact ⟨h.component, h.nodup, fun v => (h.mem v).trans mem_codesOf⟩

theorem sortedGroups_sorted : ∀ codes ∈ sortedGroups games, sort codes = codes := by
  refine List.forall_mem_map.mpr fun codes _ => ?_
  exact sort_eq_of_perm (sort_perm codes)

theorem sortedGroups_perm (h : games.Perm games') :
    (sortedGroups games).Perm (sortedGroups games') := by
  apply Decomposes.unique sortedGroups_decomposes _ sortedGroups_sorted sortedGroups_sorted
  rw [plays_perm h, appears_perm h]
  exact sortedGroups_decomposes

theorem groupCodes_decomposes :
    Decomposes (Plays games) (Appears games) (groupCodes localeCompare games) :=
  sortedGroups_decomposes.perm (List.mergeSort_perm _ _)

theorem groupCodes_isGroup : ∀ codes ∈ groupCodes localeCompare games, IsGroup games codes := by
  have h : Decomposes (Plays games) (Appears games) (groupCodes localeCompare games) :=
    groupCodes_decomposes
  intro codes hcodes
  refine ⟨h.component codes hcodes, fun code hcode => ?_⟩
  exact (h.mem code).mp (List.mem_flatten_of_mem hcodes hcode)

omit [LinearOrder C] in
theorem firstBefore_trans (h : LocaleOrder localeCompare) (x y z : List C)
    (hxy : firstBefore localeCompare x y) (hyz : firstBefore localeCompare y z) :
    firstBefore localeCompare x z := by
  cases x with
  | nil => rfl
  | cons a x =>
      cases y with
      | nil => cases hxy
      | cons b y =>
          cases z with
          | nil => cases hyz
          | cons c z =>
              rw [firstBefore, decide_eq_true_eq] at hxy hyz ⊢
              exact h.trans a b c hxy hyz

omit [LinearOrder C] in
theorem firstBefore_total (h : LocaleOrder localeCompare) (x y : List C) :
    firstBefore localeCompare x y || firstBefore localeCompare y x := by
  cases x with
  | nil => rfl
  | cons a x =>
      cases y with
      | nil => rfl
      | cons b y =>
          rw [Bool.or_eq_true, firstBefore, firstBefore, decide_eq_true_eq, decide_eq_true_eq]
          exact h.total a b

theorem groupCodes_perm (hlocale : LocaleOrder localeCompare) (h : games.Perm games') :
    groupCodes localeCompare games = groupCodes localeCompare games' := by
  have hgroups : Decomposes (Plays games) (Appears games) (sortedGroups games) :=
    sortedGroups_decomposes
  apply mergeSort_eq_of_perm (firstBefore_trans hlocale) (firstBefore_total hlocale)
    (sortedGroups_perm h)
  intro x hx y hy hxy hyx
  cases x with
  | nil => exact absurd rfl (hgroups.component _ hx).nonempty
  | cons a x =>
      cases y with
      | nil => exact absurd rfl (hgroups.component _ hy).nonempty
      | cons b y =>
          rw [firstBefore, decide_eq_true_eq] at hxy hyx
          have hab := hlocale.antisymm a b hxy hyx
          exact hgroups.eq_of_mem hx hy List.mem_cons_self (hab ▸ List.mem_cons_self)

theorem groupView_perm (hlocale : LocaleOrder localeCompare) (h : games.Perm games')
    (hne : ∀ m ∈ games, m.home ≠ m.away) (hcodes : IsGroup games codes) (i : ℕ) :
    groupView teams localeCompare games i codes =
      groupView teams localeCompare games' i codes := by
  have hne' : ∀ m ∈ games', m.home ≠ m.away := fun m hm => hne m (h.mem_iff.mpr hm)
  have hcodes' : IsGroup games' codes := by
    rwa [IsGroup, ← plays_perm h, ← appears_perm h]
  have hgames : (groupGames games codes).Perm (groupGames games' codes) := h.filter _
  have hrows : (groupView teams localeCompare games i codes).rows =
      (groupView teams localeCompare games' i codes).rows := by
    rw [groupView_rows hlocale hne hcodes, groupView_rows hlocale hne' hcodes', tableOf, tableOf,
      List.map_congr_left fun c _ => recount_perm h c]
  rw [GroupView.mk.injEq]
  exact ⟨rfl, hrows, (hgames.filter _).length_eq, hgames.length_eq⟩

/-! ## The standings -/

def GroupView.teamCodes (g : GroupView C) : List C := g.rows.map fun r => r.team.code

/-- What the standings are meant to be. -/
structure Faithful (teams : C → TeamDetails) (localeCompare : C → C → ℤ) (games : List (Game C))
    (groups : List (GroupView C)) : Prop where
  onceEach : (groups.flatMap GroupView.teamCodes).Nodup
  everyTeam : ∀ code, code ∈ groups.flatMap GroupView.teamCodes ↔ Appears games code
  components : ∀ g ∈ groups, IsComponent (Plays games) g.teamCodes
  recounts : ∀ g ∈ groups, ∀ r ∈ g.rows, r = recount teams games r.team.code
  goals : ∀ g ∈ groups, (g.rows.map (·.gf)).sum = (g.rows.map (·.ga)).sum
  differences : ∀ g ∈ groups, (g.rows.map (·.gd)).sum = 0
  wins : ∀ g ∈ groups, (g.rows.map (·.won)).sum = (g.rows.map (·.lost)).sum
  points : ∀ g ∈ groups, (g.rows.map (·.points)).sum =
    3 * (scoresIn games g.teamCodes).countP (fun s => decide (s.1 ≠ s.2)) +
      2 * (scoresIn games g.teamCodes).countP (fun s => decide (s.1 = s.2))
  sorted : ∀ g ∈ groups, g.rows.Pairwise fun x y => compareRows localeCompare x y ≤ 0

theorem scoresIn_congr {codes' : List C} (h : ∀ c, c ∈ codes ↔ c ∈ codes') :
    scoresIn games codes = scoresIn games codes' := by
  simp only [scoresIn, groupGames, h]

omit [LinearOrder C] in
theorem mapIdx_codes {groups : List (List C)} {view : ℕ → List C → GroupView C}
    (h : ∀ i, ∀ codes ∈ groups, (view i codes).teamCodes.Perm codes) :
    ((groups.mapIdx view).flatMap GroupView.teamCodes).Perm groups.flatten := by
  induction groups generalizing view with
  | nil => exact .nil
  | cons codes groups ih =>
      rw [List.mapIdx_cons, List.flatMap_cons, List.flatten_cons]
      apply (h 0 codes List.mem_cons_self).append
      exact ih fun i codes hcodes => h (i + 1) codes (List.mem_cons_of_mem _ hcodes)

section Faithful
variable {fixtures : List (Fixture C)} (hlocale : LocaleOrder localeCompare)
  (hne : ∀ m ∈ resolved fixtures, m.home ≠ m.away)
include hlocale hne

theorem mem_getStandings {g : GroupView C} (hg : g ∈ getStandings teams localeCompare fixtures) :
    ∃ codes, IsGroup (resolved fixtures) codes ∧
      g.rows = tableOf teams localeCompare (resolved fixtures) codes := by
  obtain ⟨i, hi, rfl⟩ := List.mem_mapIdx.mp hg
  have hcodes := groupCodes_isGroup _ (List.getElem_mem hi)
  exact ⟨_, hcodes, groupView_rows hlocale hne hcodes i⟩

theorem getStandings_codes :
    ((getStandings teams localeCompare fixtures).flatMap GroupView.teamCodes).Perm
      (groupCodes localeCompare (resolved fixtures)).flatten := by
  apply mapIdx_codes
  intro i codes hcodes
  rw [GroupView.teamCodes, groupView_rows hlocale hne (groupCodes_isGroup codes hcodes)]
  exact tableOf_codes

theorem getStandings_faithful : Faithful teams localeCompare (resolved fixtures)
    (getStandings teams localeCompare fixtures) := by
  have hflat : ((getStandings teams localeCompare fixtures).flatMap GroupView.teamCodes).Perm
      (groupCodes localeCompare (resolved fixtures)).flatten := getStandings_codes hlocale hne
  have hgroups : Decomposes (Plays (resolved fixtures)) (Appears (resolved fixtures))
    (groupCodes localeCompare (resolved fixtures)) := groupCodes_decomposes
  refine ⟨hflat.nodup_iff.mpr hgroups.nodup, fun c => hflat.mem_iff.trans (hgroups.mem c),
    fun g hg => ?_, fun g hg => ?_, fun g hg => ?_, fun g hg => ?_, fun g hg => ?_,
    fun g hg => ?_, fun g hg => ?_⟩
  all_goals obtain ⟨codes, hcodes, hrows⟩ := mem_getStandings hlocale hne hg
  · rw [GroupView.teamCodes, hrows]
    exact hcodes.1.perm tableOf_codes
  · intro r hr
    rw [hrows, tableOf_perm.mem_iff] at hr
    obtain ⟨c, -, rfl⟩ := List.mem_map.mp hr
    rfl
  · rw [hrows]
    exact table_goals hne hcodes
  · rw [hrows]
    exact table_differences hne hcodes
  · rw [hrows]
    exact table_wins hne hcodes
  · have hsame : ∀ c, c ∈ g.teamCodes ↔ c ∈ codes := by
      intro c
      rw [GroupView.teamCodes, hrows]
      exact tableOf_codes.mem_iff
    rw [scoresIn_congr hsame, hrows]
    exact table_points hne hcodes
  · rw [hrows]
    apply (List.pairwise_mergeSort (rowBefore_trans hlocale) (rowBefore_total hlocale) _).imp
    intro x y hxy
    exact of_decide_eq_true hxy

theorem getStandings_perm {fixtures' : List (Fixture C)} (h : fixtures.Perm fixtures') :
    getStandings teams localeCompare fixtures' = getStandings teams localeCompare fixtures := by
  have hgames := resolved_perm h
  rw [getStandings, getStandings, ← groupCodes_perm hlocale hgames, List.mapIdx_eq_mapIdx_iff]
  intro i hi
  exact (groupView_perm hlocale hgames hne (groupCodes_isGroup _ (List.getElem_mem hi)) i).symm

/-- The tables recount the proven fixtures, whatever the order of the fixtures. -/
theorem standings_recount : Faithful teams localeCompare (resolved fixtures)
      (getStandings teams localeCompare fixtures) ∧
    ∀ fixtures', fixtures.Perm fixtures' →
      getStandings teams localeCompare fixtures' = getStandings teams localeCompare fixtures :=
  ⟨getStandings_faithful hlocale hne, fun _ h => getStandings_perm hlocale hne h⟩

end Faithful

/-- A decided match and a draw, over codes that are numbers. -/
def threeTeams : List (Fixture ℤ) :=
  [⟨"Group", some 1, some 2, .proven, some 2, some 1⟩,
    ⟨"Group", some 3, some 1, .proven, some 0, some 0⟩]

theorem threeTeams_recount : Faithful (fun _ => ⟨"", "", ""⟩) (· - ·) (resolved threeTeams)
      (getStandings (fun _ => ⟨"", "", ""⟩) (· - ·) threeTeams) ∧
    ∀ fixtures', threeTeams.Perm fixtures' →
      getStandings (fun _ => ⟨"", "", ""⟩) (· - ·) fixtures' =
        getStandings (fun _ => ⟨"", "", ""⟩) (· - ·) threeTeams :=
  standings_recount ⟨by omega, by omega, by omega⟩ (by decide)

end ProofBook.Standings
