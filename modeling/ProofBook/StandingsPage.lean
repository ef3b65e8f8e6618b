import ProofBook.Tournament

/-!
# The standings page agrees with the API

The web builds its group tables a second time, from the listed markets instead of
the fixtures. It counts a match once, however many markets the match has, and where
the result markets are settled exactly for the proven matches its tables are those
of the API.
-/
namespace ProofBook.StandingsPage
open State BestPerKey Standings Tournament

variable {C : Type} [LinearOrder C]

/-! ## The page -/

/-- A page fixture as a game: proven means settled, and its score may be missing. -/
def game (f : PageFixture C) : Game C :=
  ⟨f.home.code, f.away.code, if f.proven then .proven else .upcoming, f.score.map (·.1),
    f.score.map (·.2)⟩

def groupStage (codes : Codes C) (fixtures : List (PageFixture C)) : List (PageFixture C) :=
  fixtures.filter fun f => f.stage = "Group" ∧ f.home.code ≠ codes.participant1

/-- A row shows the team that the first match of its code shows; a page team has no
chip. -/
def firstSeen (fixtures : List (PageFixture C)) (code : C) : TeamDetails :=
  match (fixtures.flatMap fun f => [f.home, f.away]).find? (·.code = code) with
  | some team => ⟨team.name, team.iso, ""⟩
  | none => ⟨"", "", ""⟩

def groupsOf (codes : Codes C) (localeCompare : C → C → ℤ) (fixtures : List (PageFixture C)) :
    List (GroupView C) :=
  let gs := groupStage codes fixtures
  (groupCodes localeCompare (gs.map game)).mapIdx fun i members =>
    let fixtures := gs.filter fun f =>
      members.contains f.home.code && members.contains f.away.code
    groupView (firstSeen fixtures) localeCompare (gs.map game) i members

def standingsPage (codes : Codes C) (registry : String → Option (Team C))
    (localeCompare : C → C → ℤ) (markets : List (MarketView C)) : List (GroupView C) :=
  groupsOf codes localeCompare ((headlineMarkets markets).map (toFixture codes registry))

/-! ## Games that count alike -/

variable {teams teams' : C → TeamDetails} {localeCompare : C → C → ℤ} {games : List (Game C)}

/-- A game as the tables read it. -/
def Game.plain (m : Game C) : Game C :=
  ⟨m.home, m.away, if m.proofStatus = .proven then .proven else .upcoming, m.score.map (·.1),
    m.score.map (·.2)⟩

omit [LinearOrder C] in
theorem plain_score (m : Game C) : (Game.plain m).score = m.score := by
  obtain ⟨home, away, proofStatus, p1, p2⟩ := m
  cases proofStatus with
  | proven => cases p1 <;> cases p2 <;> rfl
  | noProof => rfl
  | upcoming => rfl

theorem groupCodes_plain :
    groupCodes localeCompare (games.map Game.plain) = groupCodes localeCompare games := by
  have hadj : adjacency (games.map Game.plain) = adjacency games := by
    rw [adjacency, List.foldl_map]
    rfl
  rw [groupCodes, groupCodes, hadj]

theorem groupGames_plain (members : List C) :
    groupGames (games.map Game.plain) members = (groupGames games members).map Game.plain := by
  rw [groupGames, List.filter_map]
  rfl

theorem groupRows_plain : groupRows teams (games.map Game.plain) = groupRows teams games := by
  have hcount : ∀ (rows : Rows C) (m : Game C),
      countGame teams rows (Game.plain m) = countGame teams rows m := by
    intro rows m
    rw [countGame, countGame, plain_score]
    rfl
  simp only [groupRows, List.foldl_map, hcount]
  rfl

theorem groupView_plain (i : ℕ) (members : List C) :
    groupView teams localeCompare (games.map Game.plain) i members =
      groupView teams localeCompare games i members := by
  have hproven : ∀ m : Game C,
      ((Game.plain m).proofStatus = .proven) = (m.proofStatus = .proven) := by
    intro m
    simp only [Game.plain]
    split_ifs with h <;> simp [h]
  simp only [groupView, groupGames_plain, groupRows_plain, List.filter_map, List.length_map,
    Function.comp_def, hproven]

omit [LinearOrder C] in
theorem emptyRow_congr {code : C} (h : teams code = teams' code) :
    emptyRow teams code = emptyRow teams' code := by
  rw [emptyRow, emptyRow, teamRef, teamRef, h]

theorem groupRows_congr (h : ∀ m ∈ games, teams m.home = teams' m.home ∧
    teams m.away = teams' m.away) : groupRows teams games = groupRows teams' games := by
  have hgame : ∀ (rows : Rows C), ∀ m ∈ games, gameRows teams rows m = gameRows teams' rows m := by
    intro rows m hm
    rw [gameRows, gameRows, rowFor, rowFor, rowFor, rowFor, emptyRow_congr (h m hm).1,
      emptyRow_congr (h m hm).2]
  have hcount : ∀ (rows : Rows C), ∀ m ∈ games,
      countGame teams rows m = countGame teams' rows m := by
    intro rows m hm
    rw [countGame, countGame]
    simp only [changeRow, emptyRow_congr (h m hm).1, emptyRow_congr (h m hm).2]
  rw [groupRows, groupRows, List.foldl_ext _ _ _ hgame, List.foldl_ext _ _ _ hcount]

/-- Only the details of the teams that play are read. -/
theorem groupView_congr (i : ℕ) (members : List C)
    (h : ∀ m ∈ groupGames games members, teams m.home = teams' m.home ∧
      teams m.away = teams' m.away) :
    groupView teams localeCompare games i members =
      groupView teams' localeCompare games i members := by
  simp only [groupView, groupRows_congr h]

/-! ## The page of a database -/

variable {codes : Codes C} {registry : String → Option (Team C)} {b : Board C}

/-- A match of two teams that the page can tell apart: their codes are usable, and the
home team's is not that of a participant without a name. -/
structure Known (codes : Codes C) (f : FixtureRecord C) (home away : C) : Prop extends
    Sides codes f home away where
  named : home ≠ codes.participant1
  ne : home ≠ away

def AllKnown (codes : Codes C) (fixtures : List (FixtureRecord C)) : Prop :=
  ∀ f ∈ fixtures, f.stage = "Group" → ∃ home away, Known codes f home away

/-- A fixture as the page counts it: proven if the market on its result is settled. -/
def listed (f : FixtureRecord C) (settled : Bool) : Fixture C :=
  { f.toFixture with
    proofStatus := if settled then .proven else .upcoming
    provenP1 := if settled then (provenScore f.toFixture).map (·.1) else none
    provenP2 := if settled then (provenScore f.toFixture).map (·.2) else none }

/-- A page team has no chip. -/
def chipless (teams : C → TeamDetails) (code : C) : TeamDetails := { teams code with chip := "" }

omit [LinearOrder C] in
theorem listed_resolve {m : MarketRecord C} {home away : C}
    (h : Known codes m.fixture home away) :
    (listed m.fixture (m.status = .settled)).resolve =
      some (game (pageFixture codes registry teams m)) := by
  rw [pageFixture_sides h.toSides]
  simp only [listed, Fixture.resolve, h.homeTeam, h.awayTeam, game, decide_eq_true_eq]
  by_cases hst : m.status = .settled <;> simp only [hst, if_true, if_false, Option.map_none]

omit [LinearOrder C] in
theorem resolved_group {f : Fixture C} {fixtures : List (Fixture C)} (h : f.stage = "Group") :
    resolved (f :: fixtures) = f.resolve.toList ++ resolved fixtures := by
  rw [resolved, List.filter_cons, if_pos (decide_eq_true h), List.filterMap_cons]
  cases f.resolve <;> rfl

omit [LinearOrder C] in
theorem resolved_other {f : Fixture C} {fixtures : List (Fixture C)} (h : f.stage ≠ "Group") :
    resolved (f :: fixtures) = resolved fixtures := by
  rw [resolved, List.filter_cons, if_neg (by rwa [decide_eq_true_eq]), resolved]

theorem groupStage_games (ms : List (MarketRecord C))
    (h : AllKnown codes (ms.map (·.fixture))) :
    (groupStage codes (ms.map (pageFixture codes registry teams))).map game =
      resolved (ms.map fun m => listed m.fixture (m.status = .settled)) := by
  induction ms with
  | nil => rfl
  | cons m ms ih =>
      specialize ih fun f hf => h f (List.mem_cons_of_mem _ hf)
      rw [groupStage, List.map_cons, List.filter_cons, List.map_cons]
      by_cases hstage : m.fixture.stage = "Group"
      · obtain ⟨home, away, hknown⟩ := h m.fixture List.mem_cons_self hstage
        have hpage : (pageFixture codes registry teams m).stage = "Group" ∧
            (pageFixture codes registry teams m).home.code ≠ codes.participant1 := by
          rw [pageFixture_sides hknown.toSides]
          exact ⟨hstage, hknown.named⟩
        have hlisted : (listed m.fixture (m.status = .settled)).stage = "Group" := hstage
        rw [if_pos (decide_eq_true hpage), List.map_cons, resolved_group hlisted,
          listed_resolve hknown, ← ih]
        rfl
      · have hpage : ¬((pageFixture codes registry teams m).stage = "Group" ∧
            (pageFixture codes registry teams m).home.code ≠ codes.participant1) :=
          fun hpage => hstage hpage.1
        have hlisted : (listed m.fixture (m.status = .settled)).stage ≠ "Group" := hstage
        rw [if_neg (by rwa [decide_eq_true_eq]), resolved_other hlisted, ← ih]
        rfl

/-- Every team of the page is shown with the details of its code. -/
theorem firstSeen_eq {fixtures : List (PageFixture C)} {code : C}
    (hdetails : ∀ f ∈ fixtures, ∀ t ∈ [f.home, f.away],
      TeamDetails.mk t.name t.iso "" = chipless teams t.code)
    (hcode : ∃ f ∈ fixtures, f.home.code = code ∨ f.away.code = code) :
    firstSeen fixtures code = chipless teams code := by
  rw [firstSeen]
  split
  next team hfind =>
    obtain ⟨f, hf, ht⟩ := List.mem_flatMap.mp (List.mem_of_find?_eq_some hfind)
    have hteam : team.code = code := by simpa using List.find?_some hfind
    rw [hdetails f hf team ht, hteam]
  next hfind =>
    obtain ⟨f, hf, hc⟩ := hcode
    rw [List.find?_eq_none] at hfind
    have hmem : ∀ t ∈ [f.home, f.away], t.code ≠ code := fun t ht hc =>
      hfind t (List.mem_flatMap.mpr ⟨f, hf, ht⟩) (decide_eq_true hc)
    rcases hc with hc | hc
    · exact absurd hc (hmem _ List.mem_cons_self)
    · exact absurd hc (hmem _ (List.mem_cons_of_mem _ List.mem_cons_self))

theorem firstSeen_group {gs : List (PageFixture C)} {members : List C}
    (hdetails : ∀ f ∈ gs, ∀ t ∈ [f.home, f.away],
      TeamDetails.mk t.name t.iso "" = chipless teams t.code) :
    ∀ g ∈ groupGames (gs.map game) members, ∀ code, g.home = code ∨ g.away = code →
      firstSeen (gs.filter fun f =>
        members.contains f.home.code && members.contains f.away.code) code =
          chipless teams code := by
  intro g hg code hcode
  obtain ⟨hg, hmembers⟩ := List.mem_filter.mp hg
  obtain ⟨f, hf, rfl⟩ := List.mem_map.mp hg
  rw [← List.contains_eq_mem, ← List.contains_eq_mem] at hmembers
  exact firstSeen_eq (fun f hf => hdetails f (List.mem_filter.mp hf).1)
    ⟨f, List.mem_filter.mpr ⟨hf, hmembers⟩, hcode⟩

/-- The tables of one result market a fixture. -/
theorem groupsOf_eq (ms : List (MarketRecord C)) (h : AllKnown codes (ms.map (·.fixture))) :
    groupsOf codes localeCompare (ms.map (pageFixture codes registry teams)) =
      getStandings (chipless teams) localeCompare
        (ms.map fun m => listed m.fixture (m.status = .settled)) := by
  have hdetails : ∀ f ∈ groupStage codes (ms.map (pageFixture codes registry teams)),
      ∀ t ∈ [f.home, f.away], TeamDetails.mk t.name t.iso "" = chipless teams t.code := by
    intro f hf t ht
    obtain ⟨hf, hstage⟩ := List.mem_filter.mp hf
    obtain ⟨m, hm, rfl⟩ := List.mem_map.mp hf
    obtain ⟨home, away, hknown⟩ := h m.fixture (List.mem_map_of_mem hm) (of_decide_eq_true hstage).1
    rw [pageFixture_sides hknown.toSides] at ht
    fin_cases ht <;> rfl
  rw [groupsOf, getStandings, ← groupStage_games ms h, List.mapIdx_eq_mapIdx_iff]
  intro i hi
  refine groupView_congr i _ fun g hg => ⟨?_, ?_⟩
  · exact firstSeen_group hdetails g hg _ (.inl rfl)
  · exact firstSeen_group hdetails g hg _ (.inr rfl)

/-! ## The two pages -/

/-- A fixture as the page counts it. -/
def listedOn (b : Board C) (f : FixtureRecord C) : Fixture C := listed f (HasSettled b f)

theorem headlines_listed : ((headlines b.markets).map fun m =>
    listed m.fixture (m.status = .settled)) =
      ((headlines b.markets).map (·.fixture)).map (listedOn b) := by
  rw [List.map_map]
  refine List.map_congr_left fun m hm => ?_
  rw [Function.comp, listedOn, Bool.decide_congr (mem_headlines hm).2]

theorem resolved_listed_ne {fixtures : List (FixtureRecord C)} (h : AllKnown codes fixtures) :
    ∀ g ∈ resolved (fixtures.map (listedOn b)), g.home ≠ g.away := by
  intro g hg
  obtain ⟨r, hr, hresolve⟩ := List.mem_filterMap.mp hg
  obtain ⟨hr, hstage⟩ := List.mem_filter.mp hr
  obtain ⟨f, hf, rfl⟩ := List.mem_map.mp hr
  obtain ⟨home, away, hknown⟩ := h f hf (of_decide_eq_true hstage)
  simp only [listedOn, listed, Fixture.resolve, hknown.homeTeam, hknown.awayTeam,
    Option.some.injEq] at hresolve
  subst hresolve
  exact hknown.ne

/-- Every group match has a market on its result, which is settled exactly when the
match is proven. -/
def Synced (b : Board C) (fixtures : List (FixtureRecord C)) : Prop :=
  ∀ f ∈ fixtures, f.stage = "Group" →
    HasResult b f ∧ (HasSettled b f ↔ f.proofStatus = .proven)

theorem listed_plain {f : FixtureRecord C} {home away : C} (h : Known codes f home away)
    (hsettled : HasSettled b f ↔ f.proofStatus = .proven) :
    (listedOn b f).resolve = f.toFixture.resolve.map Game.plain := by
  have hscore : provenScore f.toFixture =
      Game.score ⟨home, away, f.proofStatus, f.provenP1, f.provenP2⟩ := rfl
  simp only [listedOn, listed, Fixture.resolve, h.homeTeam, h.awayTeam, Option.map_some,
    Game.plain, ← hscore, decide_eq_true_eq, hsettled]
  by_cases hproven : f.proofStatus = .proven
  · simp only [hproven, if_true]
  · have hnone : provenScore f.toFixture = none := by
      cases hst : f.proofStatus with
      | proven => exact absurd hst hproven
      | noProof => rw [provenScore, hst]
      | upcoming => rw [provenScore, hst]
    simp only [hproven, if_false, hnone, Option.map_none]

theorem resolved_plain {fixtures : List (FixtureRecord C)}
    (hknown : AllKnown codes fixtures) (hsynced : Synced b fixtures) :
    resolved ((fixtures.filter (HasResult b ·)).map (listedOn b)) =
      (resolved (fixtures.map (·.toFixture))).map Game.plain := by
  induction fixtures with
  | nil => rfl
  | cons f fixtures ih =>
      specialize ih (fun f hf => hknown f (List.mem_cons_of_mem _ hf))
        fun f hf => hsynced f (List.mem_cons_of_mem _ hf)
      rw [List.filter_cons, List.map_cons]
      by_cases hstage : f.stage = "Group"
      · obtain ⟨home, away, hf⟩ := hknown f List.mem_cons_self hstage
        obtain ⟨hresult, hsettled⟩ := hsynced f List.mem_cons_self hstage
        rw [if_pos (decide_eq_true hresult), List.map_cons, resolved_group hstage,
          resolved_group (f := listedOn b f) hstage, List.map_append, ih, listed_plain hf hsettled]
        cases f.toFixture.resolve <;> rfl
      · rw [resolved_other hstage, ← ih]
        split_ifs
        · rw [List.map_cons, resolved_other (f := listedOn b f) hstage]
        · rfl

/-- The page shows the API's tables of the matches with a market on their result, and
where every group match has one and is settled when proven, the API's tables. -/
theorem standingsPage_agrees (hlocale : LocaleOrder localeCompare)
    (hknown : AllKnown codes (b.fixtures.filter (HasResult b ·))) :
    standingsPage codes registry localeCompare (b.markets.map (toMarketView codes teams)) =
        getStandings (chipless teams) localeCompare
          ((b.fixtures.filter (HasResult b ·)).map (listedOn b)) ∧
      (Synced b b.fixtures →
        standingsPage codes registry localeCompare (b.markets.map (toMarketView codes teams)) =
          getStandings (chipless teams) localeCompare (b.fixtures.map (·.toFixture))) := by
  have hperm := headlines_perm b
  have hpage : standingsPage codes registry localeCompare
      (b.markets.map (toMarketView codes teams)) =
        getStandings (chipless teams) localeCompare
          ((b.fixtures.filter (HasResult b ·)).map (listedOn b)) := by
    rw [standingsPage, headlineMarkets_view, List.map_map]
    refine (groupsOf_eq _ fun f hf => hknown f (hperm.mem_iff.mp hf)).trans ?_
    rw [headlines_listed]
    exact getStandings_perm hlocale (resolved_listed_ne hknown) (hperm.map _).symm
  refine ⟨hpage, fun hsynced => hpage.trans ?_⟩
  have hall : AllKnown codes b.fixtures := fun f hf hstage =>
    hknown f (List.mem_filter.mpr ⟨hf, decide_eq_true (hsynced f hf hstage).1⟩) hstage
  rw [getStandings, getStandings, resolved_plain hall hsynced, groupCodes_plain,
    List.mapIdx_eq_mapIdx_iff]
  exact fun i _ => groupView_plain i _

/-- A proven match with a market on its corners and two on its result, one of them
settled, a match to come, and a tie whose sides are not known. -/
def sampleFixtures : List (FixtureRecord ℤ) :=
  [⟨⟨"Group", some 1, some 2, .proven, some 2, some 1⟩, 71, "One", "Two", 0⟩,
    ⟨⟨"Group", some 3, some 1, .upcoming, none, none⟩, 72, "Three", "One", 3600⟩,
    ⟨⟨"Final", none, none, .upcoming, none, none⟩, 73, "", "", 7200⟩]

def sampleMarkets : List (MarketRecord ℤ) :=
  sampleFixtures.flatMap fun f =>
    [⟨"corners", 30, .settled, some 0, f⟩, ⟨"result", 28, .opened, none, f⟩] ++
      if f.proofStatus = .proven then [⟨"old", 3, .settled, some 0, f⟩] else []

def sampleBoard : Board ℤ := ⟨sampleFixtures, sampleMarkets, by decide, by decide⟩

theorem standingsPage_agrees_sample :
    standingsPage sampleCodes (fun _ => none) (· - ·)
        (sampleBoard.markets.map (toMarketView sampleCodes fun _ => ⟨"", "", "chip"⟩)) =
      getStandings (chipless fun _ => ⟨"", "", "chip"⟩) (· - ·)
        (sampleBoard.fixtures.map (·.toFixture)) := by
  have hknown : AllKnown sampleCodes sampleBoard.fixtures := by
    intro f hf hstage
    fin_cases hf
    · exact ⟨1, 2, ⟨rfl, rfl, by decide⟩, by decide, by decide⟩
    · exact ⟨3, 1, ⟨rfl, rfl, by decide⟩, by decide, by decide⟩
    · exact absurd hstage (by decide)
  refine (standingsPage_agrees ⟨by omega, by omega, by omega⟩ fun f hf =>
    hknown f (List.mem_filter.mp hf).1).2 ?_
  unfold Synced
  decide

end ProofBook.StandingsPage
