import ProofBook.Lib.ObjectMap
import ProofBook.Tournament

/-!
# The bracket page agrees with the API

The API draws the knockout rounds from the fixtures and names the winner of a proven
tie from a market on its result. The web draws them again from the listed markets.
Where every tie has such a market, settled exactly when the score is proven, the two
brackets hold the same ties with the same scores and winners.
-/
namespace ProofBook.BracketPage
open State BestPerKey Objects Standings Tournament

variable {C : Type}

/-! ## The bracket of the API -/

def koOrder : List String := ["R32", "R16", "QF", "SF", "3rd", "Final"]

structure BracketTie (C : Type) where
  marketPda : Option String
  fixtureId : ℤ
  stage : String
  kickoffTs : ℤ
  home : TeamRef C
  away : TeamRef C
  score : Option (ℤ × ℤ)
  proven : Bool
  gap : Bool
  winner : Option C
deriving DecidableEq

structure BracketRound (C : Type) where
  stage : String
  ties : List (BracketTie C)
deriving DecidableEq

/-- The side of a result outcome; a draw has none. -/
def sideOf {α : Type} (outcome : Option ℕ) (home away : α) : Option α :=
  match outcome with
  | some 0 => some home
  | some 2 => some away
  | _ => none

def resultMarket (markets : List (MarketRecord C)) : Option (MarketRecord C) :=
  let oneXtwo := markets.filter fun m => m.marketType ∈ resultTypes
  (oneXtwo.find? fun m => m.status = .settled).or oneXtwo.head?

def bracketTie (codes : Codes C) (teams : C → TeamDetails) (f : FixtureRecord C)
    (markets : List (MarketRecord C)) : BracketTie C :=
  let home := teamRefOf codes teams f.homeTeam f.homeName
  let away := teamRefOf codes teams f.awayTeam f.awayName
  let market := resultMarket markets
  let score := provenScore f.toFixture
  { marketPda := market.map (·.pda)
    fixtureId := f.id
    stage := f.stage
    kickoffTs := f.kickoffTs
    home := home
    away := away
    score := score
    proven := score.isSome
    gap := f.proofStatus = .noProof
    winner := if score.isSome then sideOf (market.bind (·.winningOutcome)) home.code away.code
      else none }

abbrev Rounds (C : Type) := ObjectMap fun r : BracketRound C => r.stage

def pushTie (byStage : Rounds C) (tie : BracketTie C) : Rounds C :=
  byStage.set ⟨tie.stage, ((byStage.get tie.stage).map (·.ties)).getD [] ++ [tie]⟩

def getBracket (codes : Codes C) (teams : C → TeamDetails)
    (rows : List (FixtureRecord C × List (MarketRecord C))) : List (BracketRound C) :=
  let byStage := (rows.map fun r => bracketTie codes teams r.1 r.2).foldl pushTie .empty
  koOrder.filterMap byStage.get

/-- What the query returns: the knockout fixtures by kickoff, each with its markets.
Neither order is fixed further. -/
structure Returned (b : Board C) (rows : List (FixtureRecord C × List (MarketRecord C))) :
    Prop where
  fixtures : (rows.map (·.1)).Perm (b.fixtures.filter (·.stage ∈ koOrder))
  markets : ∀ r ∈ rows, ∀ m, m ∈ r.2 ↔ m ∈ b.markets ∧ m.fixture = r.1
  ordered : rows.Pairwise fun r r' => r.1.kickoffTs ≤ r'.1.kickoffTs

/-! ## The bracket of the web -/

def bracketOf (fixtures : List (PageFixture C)) : List (String × List (PageFixture C)) :=
  (koOrder.map fun stage =>
    (stage, (fixtures.filter (·.stage = stage)).mergeSort fun x y =>
      decide (x.market.kickoffTs ≤ y.market.kickoffTs))).filter fun r => 0 < r.2.length

def winnerOf (f : PageFixture C) : Option (Team C) :=
  if f.proven then sideOf f.market.winningOutcome f.home f.away else none

def bracketPage (codes : Codes C) (registry : String → Option (Team C))
    (markets : List (MarketView C)) : List (String × List (PageFixture C)) :=
  bracketOf ((headlineMarkets markets).map (toFixture codes registry))

/-! ## What both show of a tie -/

structure TieView (C : Type) where
  fixtureId : ℤ
  kickoffTs : ℤ
  home : C
  away : C
  score : Option (ℤ × ℤ)
  proven : Bool
  gap : Bool
  winner : Option C
deriving DecidableEq

def BracketTie.view (t : BracketTie C) : TieView C :=
  ⟨t.fixtureId, t.kickoffTs, t.home.code, t.away.code, t.score, t.proven, t.gap, t.winner⟩

def tieView (f : PageFixture C) : TieView C :=
  ⟨f.market.fixtureId, f.market.kickoffTs, f.home.code, f.away.code, f.score, f.proven, f.gap,
    (winnerOf f).map (·.code)⟩

theorem sideOf_map {α β : Type} (g : α → β) (outcome : Option ℕ) (home away : α) :
    (sideOf outcome home away).map g = sideOf outcome (g home) (g away) := by
  unfold sideOf
  split <;> rfl

/-! ## Rounds -/

variable {codes : Codes C} {teams : C → TeamDetails} {registry : String → Option (Team C)}
  {ties : List (BracketTie C)} {b : Board C}

/-- The round of a stage, if it has a tie. -/
def roundOf (ties : List (BracketTie C)) (stage : String) : Option (BracketRound C) :=
  if ties.filter (·.stage = stage) = [] then none
  else some ⟨stage, ties.filter (·.stage = stage)⟩

theorem roundOf_ties (stage : String) :
    ((roundOf ties stage).map (·.ties)).getD [] = ties.filter (·.stage = stage) := by
  rw [roundOf]
  split_ifs with h
  · exact h.symm
  · rfl

theorem pushTie_roundOf {byStage : Rounds C} (h : ∀ stage, byStage.get stage = roundOf ties stage)
    (tie : BracketTie C) (stage : String) :
    (pushTie byStage tie).get stage = roundOf (ties ++ [tie]) stage := by
  rw [pushTie, h, roundOf_ties]
  by_cases hstage : stage = tie.stage
  · subst hstage
    refine (ObjectMap.get_set_self byStage ⟨tie.stage, _⟩).trans ?_
    simp [roundOf]
  · rw [ObjectMap.get_set_of_ne (m := byStage) (v := ⟨tie.stage, _⟩) hstage, h]
    simp [roundOf, Ne.symm hstage]

theorem foldl_pushTie (ties : List (BracketTie C)) (stage : String) :
    (ties.foldl pushTie (.empty : Rounds C)).get stage = roundOf ties stage := by
  induction ties using List.reverseRecOn generalizing stage with
  | nil => rfl
  | append_singleton ties tie ih =>
      rw [List.foldl_append]
      exact pushTie_roundOf ih tie stage

theorem getBracket_eq (rows : List (FixtureRecord C × List (MarketRecord C))) :
    getBracket codes teams rows =
      koOrder.filterMap (roundOf (rows.map fun r => bracketTie codes teams r.1 r.2)) := by
  rw [getBracket]
  exact congrArg (koOrder.filterMap ·) (funext (foldl_pushTie _))

/-! ## One tie on both brackets -/

/-- Every tie has two teams and a market on its result, settled exactly when the score is
proven, and the settled markets of a tie name one outcome. -/
structure Consistent (codes : Codes C) (b : Board C) : Prop where
  sides : ∀ f ∈ b.fixtures, f.stage ∈ koOrder → ∃ home away, Sides codes f home away
  listed : ∀ f ∈ b.fixtures, f.stage ∈ koOrder → HasResult b f
  settled : ∀ f ∈ b.fixtures, f.stage ∈ koOrder →
    (HasSettled b f ↔ (provenScore f.toFixture).isSome)
  outcome : ∀ f m m', IsResult b f m → IsResult b f m' → m.status = .settled →
    m'.status = .settled → m.winningOutcome = m'.winningOutcome

variable {f : FixtureRecord C} {markets : List (MarketRecord C)}

theorem resultMarket_settled (hmarkets : ∀ m, m ∈ markets ↔ m ∈ b.markets ∧ m.fixture = f)
    (h : HasSettled b f) :
    ∃ m, resultMarket markets = some m ∧ IsResult b f m ∧ m.status = .settled := by
  obtain ⟨m, ⟨hm, htype, hf⟩, hst⟩ := h
  have hmem : m ∈ markets.filter fun m => m.marketType ∈ resultTypes :=
    List.mem_filter.mpr ⟨(hmarkets m).mpr ⟨hm, hf⟩, decide_eq_true htype⟩
  obtain ⟨z, hz⟩ := Option.isSome_iff_exists.mp
    (List.find?_isSome.mpr ⟨m, hmem, decide_eq_true hst⟩ :
      ((markets.filter fun m => m.marketType ∈ resultTypes).find?
        fun m => m.status = .settled).isSome)
  obtain ⟨hzmem, hztype⟩ := List.mem_filter.mp (List.mem_of_find?_eq_some hz)
  obtain ⟨hzb, hzf⟩ := (hmarkets z).mp hzmem
  have hzst : z.status = .settled := by simpa using List.find?_some hz
  exact ⟨z, by rw [resultMarket, hz, Option.some_or], ⟨hzb, of_decide_eq_true hztype, hzf⟩, hzst⟩

theorem tie_agrees (registry : String → Option (Team C)) (h : Consistent codes b)
    {m : MarketRecord C} (hm : m ∈ headlines b.markets)
    (hstage : m.fixture.stage ∈ koOrder)
    (hmarkets : ∀ m', m' ∈ markets ↔ m' ∈ b.markets ∧ m'.fixture = m.fixture) :
    tieView (pageFixture codes registry teams m) =
      (bracketTie codes teams m.fixture markets).view := by
  obtain ⟨hresult, hsettled⟩ := mem_headlines hm
  have hf := b.joined m hresult.1
  obtain ⟨home, away, hsides⟩ := h.sides m.fixture hf hstage
  have hproven := hsettled.trans (h.settled m.fixture hf hstage)
  have hscore : (if m.status = .settled then provenScore m.fixture.toFixture else none) =
      provenScore m.fixture.toFixture := by
    split_ifs with hst
    · rfl
    · exact (Option.not_isSome_iff_eq_none.mp (mt hproven.mpr hst)).symm
  have hwinner : (if m.status = .settled then sideOf m.winningOutcome home away else none) =
      (if (provenScore m.fixture.toFixture).isSome then
        sideOf ((resultMarket markets).bind (·.winningOutcome)) home away else none) := by
    by_cases hst : m.status = .settled
    · obtain ⟨z, hz, hzresult, hzst⟩ := resultMarket_settled hmarkets (hsettled.mp hst)
      rw [if_pos hst, if_pos (hproven.mp hst), hz, Option.bind_some,
        h.outcome _ m z hresult hzresult hst hzst]
    · rw [if_neg hst, if_neg (mt hproven.mpr hst)]
  rw [pageFixture_sides hsides]
  simp only [tieView, winnerOf, BracketTie.view, bracketTie, teamRefOf, hsides.homeTeam,
    hsides.awayTeam, Option.map_some, Option.getD_some, Standings.teamRef, TieView.mk.injEq]
  refine ⟨rfl, rfl, trivial, trivial, hscore, ?_, trivial, ?_⟩
  · exact Bool.eq_iff_iff.mpr (decide_eq_true_iff.trans hproven)
  · rw [← hwinner]
    simp only [decide_eq_true_eq]
    split_ifs
    · exact sideOf_map _ _ _ _
    · rfl

/-! ## The two brackets -/

/-- A tie as the API shows it, with the markets in the order of the board. -/
def tieOn (codes : Codes C) (teams : C → TeamDetails) [DecidableEq C] (b : Board C)
    (f : FixtureRecord C) : TieView C :=
  (bracketTie codes teams f (b.markets.filter (·.fixture = f))).view

variable [DecidableEq C]

theorem page_tieOn (h : Consistent codes b) {m : MarketRecord C} (hm : m ∈ headlines b.markets)
    (hstage : m.fixture.stage ∈ koOrder) :
    tieView (pageFixture codes registry teams m) = tieOn codes teams b m.fixture :=
  tie_agrees registry h hm hstage fun m' => by rw [List.mem_filter, decide_eq_true_eq]

theorem row_tieOn (h : Consistent codes b) {rows : List (FixtureRecord C × List (MarketRecord C))}
    (hrows : Returned b rows) : ∀ r ∈ rows,
      (bracketTie codes teams r.1 r.2).view = tieOn codes teams b r.1 := by
  intro r hr
  obtain ⟨hf, hstage⟩ := List.mem_filter.mp (hrows.fixtures.mem_iff.mp (List.mem_map_of_mem hr))
  have hstage := of_decide_eq_true hstage
  have hheadline : r.1 ∈ (headlines b.markets).map (·.fixture) :=
    (headlines_perm b).mem_iff.mpr
      (List.mem_filter.mpr ⟨hf, decide_eq_true (h.listed r.1 hf hstage)⟩)
  obtain ⟨m, hm, hmr⟩ := List.mem_map.mp hheadline
  have hmarkets := hrows.markets r hr
  rw [← hmr] at hmarkets hstage ⊢
  rw [← tie_agrees (fun _ => none) h hm hstage hmarkets, page_tieOn h hm hstage]

/-- The fixtures of a stage. -/
def stageFixtures (b : Board C) (stage : String) : List (FixtureRecord C) :=
  b.fixtures.filter (·.stage = stage)

omit [DecidableEq C] in
theorem stageFixtures_filter {p : FixtureRecord C → Bool} {stage : String}
    (hp : ∀ f ∈ b.fixtures, f.stage = stage → p f) :
    (b.fixtures.filter p).filter (·.stage = stage) = stageFixtures b stage := by
  rw [stageFixtures, List.filter_filter]
  refine List.filter_congr fun f hf => ?_
  by_cases hstage : f.stage = stage
  · simp [hstage, hp f hf hstage]
  · simp [hstage]

theorem page_stage (h : Consistent codes b) {stage : String} (hstage : stage ∈ koOrder) :
    ((((headlines b.markets).map (pageFixture codes registry teams)).filter
      (·.stage = stage)).map tieView).Perm ((stageFixtures b stage).map (tieOn codes teams b)) := by
  have hviews : (((headlines b.markets).map (pageFixture codes registry teams)).filter
      (·.stage = stage)).map tieView =
        (((headlines b.markets).map (·.fixture)).filter (·.stage = stage)).map
          (tieOn codes teams b) := by
    rw [List.filter_map, List.filter_map, List.map_map, List.map_map]
    refine List.map_congr_left fun m hm => ?_
    obtain ⟨hm, hmstage⟩ := List.mem_filter.mp hm
    have hmstage : m.fixture.stage = stage := of_decide_eq_true hmstage
    exact page_tieOn h hm (hmstage ▸ hstage)
  rw [hviews, ← stageFixtures_filter fun f hf hf' =>
    decide_eq_true (h.listed f hf (hf' ▸ hstage))]
  exact ((headlines_perm b).filter _).map _

theorem row_stage (h : Consistent codes b) {stage : String} (hstage : stage ∈ koOrder)
    {rows : List (FixtureRecord C × List (MarketRecord C))} (hrows : Returned b rows) :
    (((rows.map fun r => bracketTie codes teams r.1 r.2).filter
      (·.stage = stage)).map BracketTie.view).Perm
        ((stageFixtures b stage).map (tieOn codes teams b)) := by
  have hviews : ((rows.map fun r => bracketTie codes teams r.1 r.2).filter
      (·.stage = stage)).map BracketTie.view =
        ((rows.map (·.1)).filter (·.stage = stage)).map (tieOn codes teams b) := by
    rw [List.filter_map, List.filter_map, List.map_map, List.map_map]
    exact List.map_congr_left fun r hr => row_tieOn h hrows r (List.mem_filter.mp hr).1
  rw [hviews, ← stageFixtures_filter fun f _ hf => decide_eq_true (hf ▸ hstage)]
  exact (hrows.fixtures.filter _).map _

def pageRound (fixtures : List (PageFixture C)) (stage : String) :
    Option (String × List (PageFixture C)) :=
  if fixtures.filter (·.stage = stage) = [] then none
  else some (stage, (fixtures.filter (·.stage = stage)).mergeSort fun x y =>
    decide (x.market.kickoffTs ≤ y.market.kickoffTs))

omit [DecidableEq C] in
theorem bracketOf_eq (fixtures : List (PageFixture C)) :
    bracketOf fixtures = koOrder.filterMap (pageRound fixtures) := by
  rw [bracketOf, ← List.filterMap_eq_filter, List.filterMap_map]
  refine List.filterMap_congr fun stage _ => ?_
  rw [Function.comp, Option.guard, pageRound, List.length_mergeSort]
  by_cases hempty : fixtures.filter (·.stage = stage) = []
  · rw [if_pos hempty, hempty]
    rfl
  · rw [if_neg hempty, if_pos (decide_eq_true (List.length_pos_iff.mpr hempty))]

/-- A round of the page and one of the API with the same ties, in the same order where
no two of them kick off together. -/
structure SameRound (b : Board C) (page : String × List (PageFixture C))
    (api : BracketRound C) : Prop where
  stage : page.1 = api.stage
  ties : (page.2.map tieView).Perm (api.ties.map BracketTie.view)
  order : (∀ f ∈ stageFixtures b api.stage, ∀ f' ∈ stageFixtures b api.stage,
    f.kickoffTs = f'.kickoffTs → f = f') → page.2.map tieView = api.ties.map BracketTie.view

omit [DecidableEq C] in
theorem kickoff_trans (x y z : PageFixture C)
    (hxy : decide (x.market.kickoffTs ≤ y.market.kickoffTs))
    (hyz : decide (y.market.kickoffTs ≤ z.market.kickoffTs)) :
    decide (x.market.kickoffTs ≤ z.market.kickoffTs) := by
  rw [decide_eq_true_eq] at *
  exact hxy.trans hyz

omit [DecidableEq C] in
theorem kickoff_total (x y : PageFixture C) :
    decide (x.market.kickoffTs ≤ y.market.kickoffTs) ||
      decide (y.market.kickoffTs ≤ x.market.kickoffTs) := by
  rw [Bool.or_eq_true, decide_eq_true_eq, decide_eq_true_eq]
  exact le_total _ _

theorem round_agrees (h : Consistent codes b) {stage : String} (hstage : stage ∈ koOrder)
    {rows : List (FixtureRecord C × List (MarketRecord C))} (hrows : Returned b rows) :
    Option.Rel (SameRound b)
      (pageRound ((headlines b.markets).map (pageFixture codes registry teams)) stage)
      (roundOf (rows.map fun r => bracketTie codes teams r.1 r.2) stage) := by
  set pages := ((headlines b.markets).map (pageFixture codes registry teams)).filter
    (·.stage = stage) with hpages
  set ties := (rows.map fun r => bracketTie codes teams r.1 r.2).filter (·.stage = stage)
    with hties
  have hpage : (pages.map tieView).Perm _ := page_stage h hstage
  have hrow : (ties.map BracketTie.view).Perm _ := row_stage h hstage hrows
  have hperm := hpage.trans hrow.symm
  have hempty : pages = [] ↔ ties = [] := by
    have hlength : pages.length = ties.length := by simpa using hperm.length_eq
    rw [← List.length_eq_zero_iff, ← List.length_eq_zero_iff, hlength]
  rw [pageRound, roundOf, ← hpages, ← hties]
  split_ifs with hp ht ht
  · exact .none
  · exact absurd (hempty.mp hp) ht
  · exact absurd (hempty.mpr ht) hp
  have hsorted := (pages.mergeSort_perm fun x y =>
    decide (x.market.kickoffTs ≤ y.market.kickoffTs)).map tieView
  refine .some ⟨rfl, hsorted.trans hperm, fun hdistinct => ?_⟩
  have hanti : ∀ v w, v ∈ (pages.mergeSort fun x y =>
      decide (x.market.kickoffTs ≤ y.market.kickoffTs)).map tieView →
        w ∈ ties.map BracketTie.view → v.kickoffTs ≤ w.kickoffTs → w.kickoffTs ≤ v.kickoffTs →
          v = w := by
    intro v w hv hw hvw hwv
    obtain ⟨f, hf, rfl⟩ := List.mem_map.mp (hpage.mem_iff.mp (hsorted.mem_iff.mp hv))
    obtain ⟨f', hf', rfl⟩ := List.mem_map.mp (hrow.mem_iff.mp hw)
    rw [hdistinct f hf f' hf' (le_antisymm hvw hwv)]
  refine List.Perm.eq_of_pairwise hanti ?_ ?_ (hsorted.trans hperm)
  · refine List.pairwise_map.mpr ?_
    exact (List.pairwise_mergeSort kickoff_trans kickoff_total pages).imp of_decide_eq_true
  · have hordered : (rows.map fun r => bracketTie codes teams r.1 r.2).Pairwise fun t t' =>
        t.kickoffTs ≤ t'.kickoffTs := List.pairwise_map.mpr hrows.ordered
    exact List.pairwise_map.mpr (hordered.filter _)

/-- Both brackets have the same rounds, each with the same ties. -/
theorem bracketPage_agrees (h : Consistent codes b)
    {rows : List (FixtureRecord C × List (MarketRecord C))} (hrows : Returned b rows) :
    List.Forall₂ (SameRound b)
      (bracketPage codes registry (b.markets.map (toMarketView codes teams)))
      (getBracket codes teams rows) := by
  have hstages : List.Forall₂ (fun stage stage' => stage = stage' ∧ stage ∈ koOrder)
      koOrder koOrder := List.forall₂_same.mpr fun _ hstage => ⟨rfl, hstage⟩
  rw [bracketPage, headlineMarkets_view, List.map_map, bracketOf_eq, getBracket_eq]
  refine List.rel_filterMap (fun {stage stage'} hs => ?_) hstages
  obtain ⟨rfl, hstage⟩ := hs
  exact round_agrees h hstage hrows

/-- Two proven ties of a round, one with an older market still open, and a final to come. -/
def sampleFixtures : List (FixtureRecord ℤ) :=
  [⟨⟨"SF", some 1, some 2, .proven, some 2, some 1⟩, 81, "One", "Two", 0⟩,
    ⟨⟨"SF", some 3, some 4, .proven, some 0, some 1⟩, 82, "Three", "Four", 3600⟩,
    ⟨⟨"Final", some 1, some 4, .upcoming, none, none⟩, 83, "One", "Four", 7200⟩]

def sampleMarkets (f : FixtureRecord ℤ) : List (MarketRecord ℤ) :=
  [⟨"corners", 30, .settled, some 1, f⟩, ⟨"old", 3, .opened, none, f⟩] ++
    match f.provenP1, f.provenP2 with
    | some p1, some p2 => [⟨"result", 28, .settled, some (if p1 > p2 then 0 else 2), f⟩]
    | _, _ => []

def sampleBoard : Board ℤ :=
  ⟨sampleFixtures, sampleFixtures.flatMap sampleMarkets, by decide, by decide⟩

def sampleRows : List (FixtureRecord ℤ × List (MarketRecord ℤ)) :=
  sampleFixtures.map fun f => (f, (sampleMarkets f).reverse)

theorem sampleBoard_consistent : Consistent sampleCodes sampleBoard where
  sides := by
    intro f hf _
    fin_cases hf
    · exact ⟨1, 2, rfl, rfl, by decide⟩
    · exact ⟨3, 4, rfl, rfl, by decide⟩
    · exact ⟨1, 4, rfl, rfl, by decide⟩
  listed := by decide
  settled := by decide
  outcome := by
    have hboard : ∀ m ∈ sampleBoard.markets, ∀ m' ∈ sampleBoard.markets,
        m.marketType ∈ resultTypes → m'.marketType ∈ resultTypes → m.fixture = m'.fixture →
          m.status = .settled → m'.status = .settled → m.winningOutcome = m'.winningOutcome := by
      decide
    intro f m m' hm hm' hst hst'
    exact hboard m hm.1 m' hm'.1 hm.2.1 hm'.2.1 (hm.2.2.trans hm'.2.2.symm) hst hst'

theorem bracketPage_agrees_sample :
    List.Forall₂ (SameRound sampleBoard)
      (bracketPage sampleCodes (fun _ => none)
        (sampleBoard.markets.map (toMarketView sampleCodes fun _ => ⟨"", "", ""⟩)))
      (getBracket sampleCodes (fun _ => ⟨"", "", ""⟩) sampleRows) := by
  refine bracketPage_agrees sampleBoard_consistent ⟨by decide, ?_, by decide⟩
  intro r hr m
  obtain ⟨f, hf, rfl⟩ := List.mem_map.mp hr
  rw [List.mem_reverse]
  have hfixture : ∀ f ∈ sampleFixtures, ∀ m ∈ sampleMarkets f, m.fixture = f := by decide
  constructor
  · intro hm
    exact ⟨List.mem_flatMap.mpr ⟨f, hf, hm⟩, hfixture f hf m hm⟩
  · rintro ⟨hm, rfl⟩
    obtain ⟨f', hf', hm⟩ := List.mem_flatMap.mp hm
    rw [← hfixture f' hf' m hm] at hm
    exact hm

end ProofBook.BracketPage
