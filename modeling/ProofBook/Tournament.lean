import ProofBook.Lib.BestPerKey
import ProofBook.Lib.JsText
import ProofBook.StandingsFaithful
import ProofBook.State

/-!
# The tournament as the web derives it

A fixture has many markets, and only the market on its result says who won. From
the listed markets the web keeps one such market a fixture, a settled one before
any other, and derives its tables and its bracket from these. What a code may look
like and which names the web knows are parameters.
-/
namespace ProofBook.Tournament
open State BestPerKey JsText Standings

variable {C : Type}

/-! ## What the API lists -/

/-- The codes with a meaning: a usable one is set and has no leading question mark. -/
structure Codes (C : Type) where
  /-- `"?"` -/
  unknown : C
  /-- `"P1"` -/
  participant1 : C
  /-- `"P2"` -/
  participant2 : C
  usable : C → Bool
  unknown_unusable : usable unknown = false

/-- Positive numbers as codes. -/
def sampleCodes : Codes ℤ := ⟨0, -1, -2, fun code => decide (0 < code), rfl⟩

structure FixtureRecord (C : Type) extends Standings.Fixture C where
  id : ℤ
  homeName : String
  awayName : String
  /-- In seconds. -/
  kickoffTs : ℤ
deriving DecidableEq

/-- A market with the fixture it is joined to. -/
structure MarketRecord (C : Type) where
  pda : String
  marketType : ℕ
  status : MarketStatus
  winningOutcome : Option ℕ
  fixture : FixtureRecord C
deriving DecidableEq

structure MarketView (C : Type) where
  marketPda : String
  fixtureId : ℤ
  fixtureName : String
  home : TeamRef C
  away : TeamRef C
  stage : String
  kickoffTs : ℤ
  marketType : ℕ
  status : MarketStatus
  proofStatus : ProofStatus
  winningOutcome : Option ℕ
  /-- `live.score` -/
  score : Option (ℤ × ℤ)
deriving DecidableEq

variable (codes : Codes C) (teams : C → TeamDetails)

def unknownTeam (name : String) : TeamRef C :=
  ⟨codes.unknown, if name = "" then "Unknown" else name, "", "", true⟩

def teamRefOf (team : Option C) (fallbackName : String) : TeamRef C :=
  (team.map (Standings.teamRef teams)).getD (unknownTeam codes fallbackName)

/-- A score is shown only when the proof attests it. -/
def provenScore (f : Standings.Fixture C) : Option (ℤ × ℤ) :=
  match f.proofStatus, f.provenP1, f.provenP2 with
  | .proven, some p1, some p2 => some (p1, p2)
  | _, _, _ => none

def toMarketView (m : MarketRecord C) : MarketView C :=
  let f := m.fixture
  let home := teamRefOf codes teams f.homeTeam f.homeName
  let away := teamRefOf codes teams f.awayTeam f.awayName
  { marketPda := m.pda
    fixtureId := f.id
    fixtureName := s!"{if home.unknown then f.homeName else home.name} v " ++
      (if away.unknown then f.awayName else away.name)
    home := home
    away := away
    stage := f.stage
    kickoffTs := f.kickoffTs
    marketType := m.marketType
    status := m.status
    proofStatus := f.proofStatus
    winningOutcome := m.winningOutcome
    score := provenScore f.toFixture }

/-! ## One market a fixture -/

/-- The types whose outcome is the match result: two old generations and the
catalogue's. -/
def resultTypes : List ℕ := [3, 4, 28]

def settledRank (status : MarketStatus) : ℕ := if status = .settled then 1 else 0

def headlineMarkets (markets : List (MarketView C)) : List (MarketView C) :=
  best (·.fixtureId) (fun m => settledRank m.status)
    (markets.filter fun m => m.marketType ∈ resultTypes)

/-! ## Fixtures of the page -/

structure Team (C : Type) where
  code : C
  name : String
  iso : String
deriving DecidableEq

structure PageFixture (C : Type) where
  market : MarketView C
  home : Team C
  away : Team C
  stage : String
  score : Option (ℤ × ℤ)
  proven : Bool
  gap : Bool
deriving DecidableEq

/-- What follows a separator: spaces, a `v` of either case, and spaces. -/
def separator (s : List Char) : Option (List Char) :=
  match s.head?.any isSpace, s.dropWhile isSpace with
  | true, v :: rest =>
      if v.toLower = 'v' ∧ rest.head?.any isSpace then some (rest.dropWhile isSpace) else none
  | _, _ => none

theorem separator_length {s rest : List Char} (h : separator s = some rest) :
    rest.length < s.length := by
  unfold separator at h
  split at h
  next v rest' _ hdrop =>
    split_ifs at h
    obtain rfl := Option.some.inj h
    have hs := (List.dropWhile_suffix isSpace (l := s)).length_le
    have hr := (List.dropWhile_suffix isSpace (l := rest')).length_le
    rw [hdrop, List.length_cons] at hs
    omega
  next => cases h

/-- `split(/\s+v\s+/i)`; the part read so far is reversed. -/
def splitV (s part : List Char) : List String :=
  match s with
  | [] => [String.ofList part.reverse]
  | c :: cs =>
      match h : separator (c :: cs) with
      | some rest =>
          have := separator_length h
          String.ofList part.reverse :: splitV rest []
      | none => splitV cs (c :: part)
termination_by s.length
decreasing_by
  · simp only [List.length_cons] at this ⊢
    omega
  · simp

/-- `registry` finds the team of a name after it is trimmed and put in lower case;
team names are ASCII. -/
def teamByName (registry : String → Option (Team C)) (name : String) : Option (Team C) :=
  if name = "" then none
  else registry (String.ofList ((trim name.toList).map Char.toLower))

def teamsForFixture (registry : String → Option (Team C)) (fixtureName : String)
    (home away : TeamRef C) : Team C × Team C :=
  let usable (t : TeamRef C) : Bool := codes.usable t.code && !t.unknown
  let unknown : Team C := ⟨codes.unknown, "Unknown", ""⟩
  let participants : Team C × Team C :=
    (⟨codes.participant1, "Participant 1", ""⟩, ⟨codes.participant2, "Participant 2", ""⟩)
  if usable home && usable away then
    (⟨home.code, home.name, home.iso⟩, ⟨away.code, away.name, away.iso⟩)
  else
    match splitV fixtureName.toList [] with
    | [h, a] =>
        match teamByName registry h, teamByName registry a with
        | none, none => participants
        | home, away => (home.getD unknown, away.getD unknown)
    | _ => participants

def toFixture (registry : String → Option (Team C)) (m : MarketView C) : PageFixture C :=
  let (home, away) := teamsForFixture codes registry m.fixtureName m.home m.away
  let proven := m.status = .settled
  { market := m
    home := home
    away := away
    stage := m.stage
    score := if proven then m.score else none
    proven := proven
    gap := m.proofStatus = .noProof }

/-! ## Headlines of a database -/

variable {codes teams} {registry : String → Option (Team C)}

/-- Both sides of a match are teams with a usable code. -/
structure Sides (codes : Codes C) (f : FixtureRecord C) (home away : C) : Prop where
  homeTeam : f.homeTeam = some home
  awayTeam : f.awayTeam = some away
  usable : codes.usable home ∧ codes.usable away

def pageFixture (codes : Codes C) (registry : String → Option (Team C))
    (teams : C → TeamDetails) (m : MarketRecord C) : PageFixture C :=
  toFixture codes registry (toMarketView codes teams m)

theorem pageFixture_sides {m : MarketRecord C} {home away : C}
    (h : Sides codes m.fixture home away) : pageFixture codes registry teams m =
      { market := toMarketView codes teams m
        home := ⟨home, (teams home).name, (teams home).iso⟩
        away := ⟨away, (teams away).name, (teams away).iso⟩
        stage := m.fixture.stage
        score := if m.status = .settled then provenScore m.fixture.toFixture else none
        proven := m.status = .settled
        gap := m.fixture.proofStatus = .noProof } := by
  have hhome : teamRefOf codes teams m.fixture.homeTeam m.fixture.homeName =
      Standings.teamRef teams home := by rw [h.homeTeam]; rfl
  have haway : teamRefOf codes teams m.fixture.awayTeam m.fixture.awayName =
      Standings.teamRef teams away := by rw [h.awayTeam]; rfl
  simp only [pageFixture, toFixture, teamsForFixture, toMarketView, hhome, haway]
  simp only [Standings.teamRef, h.usable, Bool.not_false, Bool.and_self, if_true]

/-- The headlines, before they are put in the API's shape. -/
def headlines (markets : List (MarketRecord C)) : List (MarketRecord C) :=
  best (·.fixture.id) (fun m => settledRank m.status)
    (markets.filter fun m => m.marketType ∈ resultTypes)

theorem headlineMarkets_view (markets : List (MarketRecord C)) :
    headlineMarkets (markets.map (toMarketView codes teams)) =
      (headlines markets).map (toMarketView codes teams) := by
  rw [headlineMarkets, List.filter_map, best_map]
  rfl

/-- What the database holds: every market is joined to its fixture. -/
structure Board (C : Type) where
  fixtures : List (FixtureRecord C)
  markets : List (MarketRecord C)
  ids : (fixtures.map (·.id)).Nodup
  joined : ∀ m ∈ markets, m.fixture ∈ fixtures

variable {b : Board C}

/-- A market on the result of the fixture. -/
def IsResult (b : Board C) (f : FixtureRecord C) (m : MarketRecord C) : Prop :=
  m ∈ b.markets ∧ m.marketType ∈ resultTypes ∧ m.fixture = f

def HasResult (b : Board C) (f : FixtureRecord C) : Prop := ∃ m, IsResult b f m

def HasSettled (b : Board C) (f : FixtureRecord C) : Prop :=
  ∃ m, IsResult b f m ∧ m.status = .settled

instance [DecidableEq C] (f : FixtureRecord C) : Decidable (HasResult b f) :=
  inferInstanceAs (Decidable (∃ m ∈ b.markets, m.marketType ∈ resultTypes ∧ m.fixture = f))

instance [DecidableEq C] (f : FixtureRecord C) : Decidable (HasSettled b f) :=
  decidable_of_iff (∃ m ∈ b.markets,
    (m.marketType ∈ resultTypes ∧ m.fixture = f) ∧ m.status = .settled) (by
      simp only [HasSettled, IsResult, and_assoc])

theorem mem_headlines {m : MarketRecord C} (h : m ∈ headlines b.markets) :
    IsResult b m.fixture m ∧ (m.status = .settled ↔ HasSettled b m.fixture) := by
  have htop := (best_kept _).top m h
  obtain ⟨hm, htype⟩ := List.mem_filter.mp htop.mem
  have hresult : IsResult b m.fixture m := ⟨hm, by simpa using htype, rfl⟩
  refine ⟨hresult, fun hst => ⟨m, hresult, hst⟩, ?_⟩
  rintro ⟨m', ⟨hm', htype', hfixture⟩, hst'⟩
  have hle := htop.le m' (List.mem_filter.mpr ⟨hm', by simpa using htype'⟩) (by rw [hfixture])
  by_contra hst
  simp [settledRank, hst, hst'] at hle

/-- The fixtures of the headlines are those with a market on their result, each
once. -/
theorem headlines_perm [DecidableEq C] (b : Board C) :
    ((headlines b.markets).map (·.fixture)).Perm (b.fixtures.filter (HasResult b ·)) := by
  have hkept : Kept (·.fixture.id) (fun m => settledRank m.status)
      (b.markets.filter fun m => m.marketType ∈ resultTypes) (headlines b.markets) := best_kept _
  have hids : ((headlines b.markets).map (·.fixture)).Nodup :=
    List.Nodup.of_map (·.id) (by rw [List.map_map]; exact hkept.keys)
  refine (List.perm_ext_iff_of_nodup hids (b.ids.of_map _ |>.filter _)).mpr fun f => ?_
  simp only [List.mem_map, List.mem_filter, decide_eq_true_eq]
  constructor
  · rintro ⟨m, hm, rfl⟩
    have hresult := (mem_headlines hm).1
    exact ⟨b.joined m hresult.1, m, hresult⟩
  · rintro ⟨hf, m, hm, htype, rfl⟩
    obtain ⟨z, hz, hid⟩ := hkept.covers m (List.mem_filter.mpr ⟨hm, by simpa using htype⟩)
    have hzf := b.joined z (mem_headlines hz).1.1
    exact ⟨z, hz, List.inj_on_of_nodup_map b.ids hzf hf hid⟩

end ProofBook.Tournament
