import ProofBook.DbSync
import ProofBook.WinnerPayouts

/-!
# The positions the API lists

`listPositions` joins a wallet's positions with their markets and projects what
a claim would pay. The listing takes the fee off the losing pool, the program off
the whole pool, and the program's last claimer gets what is left. The listed
payout is the paid one exactly when the two roundings fall together.
-/
namespace ProofBook.Positions
open Addresses State Checked OracleWire OracleAdapter TokenLedger Totals Chain Program Runs Steps
open StepCases PayoutMath ProRata KeyedTable Solvency MarketRuns WinnerPayouts DbSync
open Instructions.Payments

/-! ## Rows -/

structure Team where
  code : String
  name : String
  iso : String
  chip : String

/-- The fixture columns a listing reads, with the two joined teams. -/
structure FixtureRow where
  id : ℤ
  homeName : String
  awayName : String
  homeTeam : Option Team
  awayTeam : Option Team

/-- The address of a position is derived from its market and its owner. -/
structure PositionRow where
  pda : Pubkey × Pubkey
  marketPda : Pubkey
  owner : Pubkey
  outcomeIndex : ℕ
  amount : ℕ
  claimed : Bool
  updatedAt : ℕ

structure ApiDb where
  fixtures : List FixtureRow
  markets : Markets
  positions : List PositionRow
  primary : (positions.map (·.pda)).Nodup

/-- The row that a sync of the positions writes. -/
def syncPosition (pda : Pubkey × Pubkey) (q : Position) (updatedAt : ℕ) : PositionRow :=
  ⟨pda, q.market, q.owner, q.outcomeIndex, q.amount, q.claimed, updatedAt⟩

/-! ## Labels -/

structure TeamRef where
  code : String
  name : String
  iso : String
  chip : Option String
  unknown : Bool

def unknownTeam (name : String) : TeamRef :=
  ⟨"?", if name = "" then "Unknown" else name, "", none, true⟩

def teamRef (team : Option Team) (fallbackName : String) : TeamRef :=
  match team with
  | some t => ⟨t.code, t.name, t.iso, some t.chip, false⟩
  | none => unknownTeam fallbackName

/-- A 2x2 grid: both, the first only, the second only, neither. -/
def parlayOutcomes (a notA b notB : String) : List String :=
  [s!"{a} & {b}", s!"{a} & {notB}", s!"{notA} & {b}", s!"{notA} & {notB}"]

def legacy1X2 : List String := ["Home", "Draw", "Away"]

/-- The outcomes of the market-type registry; none for a type it does not hold. -/
def typeOutcomes : ℕ → List String
  | 0 | 1 | 2 | 3 | 4 | 28 | 34 => legacy1X2
  | 29 => ["Over 2.5", "Under 2.5"]
  | 30 => ["Over 9.5", "Under 9.5"]
  | 31 => ["Over 3.5", "Under 3.5"]
  | 32 => ["Both scored", "Home only", "Away only", "Neither scored"]
  | 33 => ["Home clean sheet", "Away clean sheet", "Both (0-0)", "Neither"]
  | 35 => ["Home by 2+", "Home by 1", "Draw", "Away by 1", "Away by 2+"]
  | 36 => parlayOutcomes "Home win" "No home win" "Over 9.5 corners" "Under 9.5 corners"
  | 37 => parlayOutcomes "Over 9.5 corners" "Under 9.5 corners" "Over 3.5 cards" "Under 3.5 cards"
  | 38 => parlayOutcomes "Over 2.5 goals" "Under 2.5 goals" "Over 3.5 cards" "Under 3.5 cards"
  | 39 => parlayOutcomes "Home win" "No home win" "Over 3.5 cards" "Under 3.5 cards"
  | _ => []

/-- One label for each pool. -/
def outcomeLabels (type numOutcomes : ℕ) : List String :=
  let labels := typeOutcomes type
  if labels.length = numOutcomes then labels
  else (List.range numOutcomes).map fun i => labels.getD i s!"Outcome {i + 1}"

/-! ## The listing -/

inductive Claimable
  | winnings
  | refund
  | lost
  | pending
deriving Repr, DecidableEq

structure PositionView where
  position : Pubkey × Pubkey
  market : Pubkey
  fixtureId : ℤ
  fixtureName : String
  outcomeIndex : ℕ
  outcomeLabel : String
  amount : ℕ
  claimed : Bool
  marketStatus : MarketStatus
  winningOutcome : Option ℕ
  claimable : Claimable
  payout : Option ℤ

/-- Division of a `BigInt` truncates. -/
def projectPayout (stake totalPool winningPool feeBps : ℤ) : ℤ :=
  if winningPool ≤ 0 then 0
  else
    let losing := totalPool - winningPool
    let fee := (losing * feeBps).tdiv 10000
    let distributable := totalPool - fee
    (stake * distributable).tdiv winningPool

/-- What can be claimed, and how much the listing says it is. -/
def claimableOf (p : PositionRow) (m : MarketData) : Claimable × Option ℤ :=
  if p.claimed then (.lost, none)
  else
    match m.status with
    | .settled =>
        if m.winningOutcome = some p.outcomeIndex then
          (.winnings, some (projectPayout p.amount m.totalPool
            (m.totalWinningPool.getD (m.pools.getD p.outcomeIndex 0)) m.feeBps))
        else (.lost, none)
    | .cancelled => (.refund, some p.amount)
    | .opened | .locked => (.pending, none)

def positionView (p : PositionRow) (m : MarketData) (f : FixtureRow) : PositionView where
  position := p.pda
  market := p.marketPda
  fixtureId := f.id
  fixtureName :=
    s!"{(teamRef f.homeTeam f.homeName).name} v {(teamRef f.awayTeam f.awayName).name}"
  outcomeIndex := p.outcomeIndex
  outcomeLabel := (outcomeLabels m.marketType m.pools.length).getD p.outcomeIndex
    s!"Outcome {p.outcomeIndex + 1}"
  amount := p.amount
  claimed := p.claimed
  marketStatus := m.status
  winningOutcome := m.winningOutcome
  claimable := (claimableOf p m).1
  payout := (claimableOf p m).2

/-- The row with its market and the market's fixture, which foreign keys name. -/
def ApiDb.view (db : ApiDb) (p : PositionRow) : Option PositionView := do
  let market ← db.markets.find p.marketPda
  let fixture ← db.fixtures.find? (·.id = market.data.fixtureId)
  pure (positionView p market.data fixture)

/-- The latest update first. -/
def listPositions (db : ApiDb) (owner : Pubkey) : List PositionView :=
  ((db.positions.filter (·.owner = owner)).mergeSort
    fun a b => b.updatedAt ≤ a.updatedAt).filterMap db.view

variable {D : Type}

/-- The account state of a market, its fixture and its positions are in the
tables. -/
structure Mirrored (db : ApiDb) (k : Pubkey) (b : Book D) : Prop where
  market : ∃ row, db.markets.find k = some row ∧ row.data = marketData b.market
  fixture : ∃ f ∈ db.fixtures, f.id = b.market.fixtureId.toInt
  positions : ∀ o q, b.positions.lookup o = some q →
    ∃ updatedAt, syncPosition (k, o) q updatedAt ∈ db.positions

/-- The tables of one market, as the syncs write them. -/
def mirrorDb (k : Pubkey) (b : Book D) : ApiDb where
  fixtures := [⟨b.market.fixtureId.toInt, "", "", none, none⟩]
  markets := ⟨[mirrorRow none b.market], by simp, by simp⟩
  positions := b.positions.entries.map fun e => syncPosition (k, e.1) e.2 0
  primary := by
    have hk : b.positions.entries.keys.Nodup := b.positions.nodupKeys
    have hpair : (b.positions.entries.keys.map fun o => (k, o)).Nodup :=
      hk.map fun o o' h => (Prod.mk.inj h).2
    simpa [List.keys, Function.comp_def, syncPosition] using hpair

section
variable {db : ApiDb} {k o : Pubkey} {b : Book D} {q : Position}

theorem mirrorDb_mirrored (hk : k = marketPda b.market) : Mirrored (mirrorDb k b) k b where
  market := ⟨mirrorRow none b.market, by simp [mirrorDb, Table.find, mirrorRow, hk], rfl⟩
  fixture := ⟨_, List.mem_singleton.mpr rfl, rfl⟩
  positions o q hq := ⟨0, List.mem_map.mpr ⟨⟨o, q⟩, AList.mem_lookup_iff.mp hq, rfl⟩⟩

theorem mem_listPositions {view : PositionView} {owner : Pubkey} :
    view ∈ listPositions db owner ↔
      ∃ p ∈ db.positions, p.owner = owner ∧ db.view p = some view := by
  simp [listPositions, and_assoc]

theorem ApiDb.view_position {p : PositionRow} {view : PositionView}
    (h : db.view p = some view) : view.position = p.pda := by
  simp only [ApiDb.view, Option.bind_eq_bind, Option.bind_eq_some_iff] at h
  obtain ⟨market, -, fixture, -, h⟩ := h
  cases h
  rfl

/-- A mirrored position is listed once, with the payout of its market. -/
theorem Mirrored.listed (h : Mirrored db k b) (hk : q.market = k)
    (hq : b.positions.lookup o = some q) :
    (∃ view ∈ listPositions db q.owner, view.position = (k, o)) ∧
      ∀ view ∈ listPositions db q.owner, view.position = (k, o) → ∃ updatedAt,
        (view.claimable, view.payout) =
          claimableOf (syncPosition (k, o) q updatedAt) (marketData b.market) := by
  obtain ⟨row, hrow, hdata⟩ := h.market
  obtain ⟨updatedAt, hmem⟩ := h.positions o q hq
  obtain ⟨f, hf⟩ : ∃ f, db.fixtures.find? (·.id = row.data.fixtureId) = some f := by
    obtain ⟨f, hf, hid⟩ := h.fixture
    rw [← Option.isSome_iff_exists, List.find?_isSome]
    exact ⟨f, hf, by simpa [hdata, marketData] using hid⟩
  have hview : db.view (syncPosition (k, o) q updatedAt) =
      some (positionView (syncPosition (k, o) q updatedAt) row.data f) := by
    simp [ApiDb.view, syncPosition, hk, hrow, hf]
  refine ⟨⟨_, mem_listPositions.mpr ⟨_, hmem, rfl, hview⟩, rfl⟩, fun view hv hpos => ?_⟩
  obtain ⟨p, hp, -, hpv⟩ := mem_listPositions.mp hv
  have hpda : p.pda = (k, o) := (ApiDb.view_position hpv).symm.trans hpos
  obtain rfl := List.inj_on_of_nodup_map db.primary hp hmem hpda
  rw [hview] at hpv
  cases hpv
  exact ⟨updatedAt, by rw [← hdata]; rfl⟩

end

/-! ## The two rules -/

/-- What the program's fee, on the whole pool, exceeds the listing's by. -/
def feeGap (m : Market D) : ℕ :=
  fee m.totalPool m.feeBps - fee (m.totalPool - m.totalWinningPool) m.feeBps

/-- The roundings fall together: the stake's part of the gap fits in the remainder
of its share; for the last claim, it makes up what earlier claims left behind. -/
def RoundsTogether (m : Market D) (stake : ℕ) : Prop :=
  if m.winningStakeClaimed + stake = m.totalWinningPool then
    m.winningStakeClaimed * distributable m ≤ m.totalWinningPool * m.paidOut + stake * feeGap m ∧
      m.totalWinningPool * m.paidOut + stake * feeGap m <
        m.winningStakeClaimed * distributable m + m.totalWinningPool
  else stake * distributable m % m.totalWinningPool + stake * feeGap m < m.totalWinningPool

instance (m : Market D) (stake : ℕ) : Decidable (RoundsTogether m stake) :=
  inferInstanceAs (Decidable (ite _ _ _))

theorem fee_mono {a b : ℕ} (h : a ≤ b) (feeBps : ℕ) : fee a feeBps ≤ fee b feeBps :=
  Nat.div_le_div_right (Nat.mul_le_mul_right _ h)

/-- The listing shares the pool less the smaller fee. -/
theorem projectPayout_eq {m : Market D} (hpos : 0 < m.totalWinningPool)
    (hle : m.totalWinningPool ≤ m.totalPool) (hfee : m.feeAmount = fee m.totalPool m.feeBps)
    (hbps : m.feeBps ≤ maxFeeBps) (stake : ℕ) :
    projectPayout stake m.totalPool m.totalWinningPool m.feeBps =
      (share (distributable m + feeGap m) m.totalWinningPool stake : ℕ) := by
  have hmono := fee_mono (Nat.sub_le m.totalPool m.totalWinningPool) m.feeBps
  have hcap := fee_le m.totalPool hbps
  have hlosing : ((m.totalPool : ℤ) - m.totalWinningPool) * m.feeBps =
      ((m.totalPool - m.totalWinningPool) * m.feeBps : ℕ) := by
    push_cast [Nat.cast_sub hle]
    rfl
  have hpot : (m.totalPool : ℤ) - (fee (m.totalPool - m.totalWinningPool) m.feeBps : ℕ) =
      (distributable m + feeGap m : ℕ) := by
    unfold distributable feeGap
    rw [hfee]
    omega
  simp only [projectPayout, hlosing]
  rw [if_neg (by omega)]
  change (stake * ((m.totalPool : ℤ) -
    (fee (m.totalPool - m.totalWinningPool) m.feeBps : ℕ))).tdiv m.totalWinningPool = _
  rw [hpot]
  rfl

/-- What the next claim pays is what the listing shows exactly when the roundings
fall together. -/
theorem share_eq_paid_iff {b : Book D} {q : Position} (hp : Pools b) (hs : SettledBook b)
    {paid : ℕ}
    (hpaid : paid = if b.market.winningStakeClaimed + q.amount = b.market.totalWinningPool then
      distributable b.market - b.market.paidOut else floorShare b.market q.amount) :
    share (distributable b.market + feeGap b.market) b.market.totalWinningPool q.amount = paid ↔
      RoundsTogether b.market q.amount := by
  unfold RoundsTogether
  split_ifs at hpaid ⊢ with hlast
  · have hle := hs.paidOut_le hp
    have hsum : b.market.totalWinningPool * distributable b.market =
        b.market.winningStakeClaimed * distributable b.market +
          q.amount * distributable b.market := by
      rw [← hlast, Nat.add_mul]
    have hcut : b.market.totalWinningPool * paid + b.market.totalWinningPool * b.market.paidOut =
        b.market.totalWinningPool * distributable b.market := by
      rw [hpaid, ← Nat.mul_add, Nat.sub_add_cancel hle]
    rw [share_eq_iff hs.staked, Nat.mul_add q.amount, Nat.mul_add, Nat.mul_one]
    omega
  · rw [hpaid]
    exact share_add_pot_eq_iff _ _ _ hs.staked

/-! ## Listed and paid -/

section
variable [Inhabited D] {O : OracleProgram D} {w w₀ : World D} {k o : Pubkey} {b : Book D}
  {q : Position} {db : ApiDb}

omit [Inhabited D] in
theorem listed_winnings (hset : b.market.status = .settled) (hp : Pools b) (hs : SettledBook b)
    (hsmall : b.market.outcomes.length ≤ maxOutcomes) (ho : Owed b q) (pda : Pubkey × Pubkey)
    (updatedAt : ℕ) : claimableOf (syncPosition pda q updatedAt) (marketData b.market) =
      (Claimable.winnings, some ((share (distributable b.market + feeGap b.market)
        b.market.totalWinningPool q.amount : ℕ) : ℤ)) := by
  have hne : b.market.winningOutcome ≠ unsetOutcome := by
    have := hs.outcome
    unfold maxOutcomes at hsmall
    unfold unsetOutcome
    omega
  simp only [claimableOf, syncPosition, marketData, ho.2, hset, if_neg hne, ho.1, if_true,
    Bool.false_eq_true, if_false, Option.getD_some]
  rw [projectPayout_eq hs.staked (hs.winningPool_le hp) hs.fee hp.feeBps]

/-- For every unclaimed winning position of every reachable settled market: the
next claim pays the same whoever sends it, the mirrored position is listed with a
payout, and the two agree exactly when the roundings fall together. -/
theorem listed_payout_iff (hw : Reachable O w) (hb : w.book? k = some b)
    (hset : b.market.status = .settled) (hq : b.positions.lookup o = some q) (ho : Owed b q)
    (hdb : Mirrored db k b) :
    ∃ paid : ℕ, (∃ claimed, claimPayout b.market q.amount = .ok (claimed, paid)) ∧
      (∀ ctx w', ctx.market = k → ctx.user = o → step O w (.claimWinnings ctx) = .ok w' →
        w'.escrow k + paid = w.escrow k ∧
          w'.ledger.balance ctx.userToken = w.ledger.balance ctx.userToken + paid) ∧
      (∃ view ∈ listPositions db q.owner, view.position = (k, o)) ∧
      ∀ view ∈ listPositions db q.owner, view.position = (k, o) →
        view.claimable = .winnings ∧
          (view.payout = some (paid : ℤ) ↔ RoundsTogether b.market q.amount) := by
  obtain ⟨donated, hsound⟩ := reachable_sound hw hb
  have hp := hsound.pools
  have hs := hsound.settled hset
  have hwin : WinnerChecks b q := ⟨hset, ho.2, ho.1, hs.staked⟩
  have hwf := reachable_wellFormed hw
  obtain ⟨hex, hall⟩ := hdb.listed ((hwf.books k b hb).positions o q hq).1 hq
  refine ⟨_, ⟨_, claimPayout_eq hp hs hq hwin⟩, ?_, hex, fun view hv hpos => ?_⟩
  · rintro ctx w' rfl rfl hstep
    obtain ⟨b', paidIn, paidOut, -, hbs, he⟩ := step_book hwf hstep hb
    cases hbs with
    | idle hi => exact absurd rfl hi
    | settle _ _ hv _ => cases hv
    | claim hk hc hwc hpay hm =>
        obtain rfl := Option.some.inj (hc.found.symm.trans hq)
        rw [← (claimPayout_ok hp hs hq hwin hpay).2]
        exact ⟨he, hm.credit⟩
  · obtain ⟨updatedAt, hview⟩ := hall view hv hpos
    rw [listed_winnings hset hp hs (reachable_outcomes hw hb) ho, Prod.mk.injEq] at hview
    rw [hview.1, hview.2, Option.some.injEq, Nat.cast_inj]
    exact ⟨rfl, share_eq_paid_iff hp hs rfl⟩

end

/-! ## A market where they differ -/

/-- The betting run, settled for the home side; nobody claimed. -/
def settledRun : List (Instruction Unit) :=
  bettingRun ++ [.setClock 100, .lockMarket ⟨sampleMarket, .key 30⟩,
    .settleMarket ⟨.key 30, sampleMarket, .key 9, .dailyScores (.key 9) 0⟩ 0
      ⟨0, ⟨7, ⟨1, 0, 0⟩, ()⟩, [], [], (), 2, [], true, 1, []⟩]

def settledWorld : World Unit := (machine acceptingOracle).run (emptyWorld Unit) settledRun

theorem settledWorld_reachable : Reachable acceptingOracle settledWorld :=
  ⟨_, settledRun, emptyWorld_genesis, rfl⟩

/-- A winner of 500 in pools of 800 and 200, with a fee of 5%. -/
theorem settledWorld_position : ∃ b q, settledWorld.book? sampleMarket = some b ∧
    b.positions.lookup (.key 12) = some q ∧ b.market.status = .settled ∧ Owed b q ∧
      ¬ RoundsTogether b.market q.amount := by
  have h : ((settledWorld.book? sampleMarket).bind fun b =>
      (b.positions.lookup (.key 12)).map fun q => decide (b.market.status = .settled ∧
        (q.outcomeIndex = b.market.winningOutcome ∧ q.claimed = false) ∧
          ¬ RoundsTogether b.market q.amount)) = some true := by
    decide +kernel
  obtain ⟨b, hb, h⟩ := Option.bind_eq_some_iff.mp h
  obtain ⟨q, hq, h⟩ := Option.map_eq_some_iff.mp h
  exact ⟨b, q, hb, hq, by simpa [Owed] using h⟩

theorem settledWorld_pda {b : Book Unit} (hb : settledWorld.book? sampleMarket = some b) :
    sampleMarket = marketPda b.market :=
  ((reachable_wellFormed settledWorld_reachable).books _ b hb).key

theorem listed_payout_iff_settled : ∃ b q paid, settledWorld.book? sampleMarket = some b ∧
    b.positions.lookup (.key 12) = some q ∧
      (∃ claimed, claimPayout b.market q.amount = .ok (claimed, paid)) ∧
        ∃ view ∈ listPositions (mirrorDb sampleMarket b) q.owner,
          view.payout ≠ some (paid : ℤ) := by
  obtain ⟨b, q, hb, hq, hset, ho, hnot⟩ := settledWorld_position
  obtain ⟨paid, hpay, -, ⟨view, hv, hpos⟩, hall⟩ := listed_payout_iff settledWorld_reachable hb
    hset hq ho (mirrorDb_mirrored (settledWorld_pda hb))
  exact ⟨b, q, paid, hb, hq, hpay, view, hv, fun h => hnot ((hall view hv hpos).2.mp h)⟩

/-- The listing promises 618, the claim pays 593. -/
theorem listed_payout_not_paid : ¬ ∀ (w : World Unit) k b o q db paid claimed,
    Reachable acceptingOracle w → w.book? k = some b → b.market.status = .settled →
    b.positions.lookup o = some q → Owed b q → Mirrored db k b →
    claimPayout b.market q.amount = .ok (claimed, paid) →
    ∀ view ∈ listPositions db q.owner, view.position = (k, o) →
      view.payout = some (paid : ℤ) := by
  intro h
  obtain ⟨b, q, hb, hq, hset, ho, hnot⟩ := settledWorld_position
  obtain ⟨donated, hsound⟩ := reachable_sound settledWorld_reachable hb
  have hp := hsound.pools
  have hs := hsound.settled hset
  have hdb := mirrorDb_mirrored (settledWorld_pda hb)
  have hown := (reachable_wellFormed settledWorld_reachable).books _ b hb
  obtain ⟨⟨view, hv, hpos⟩, hall⟩ := hdb.listed (hown.positions _ q hq).1 hq
  have hpaid := h _ _ b _ q _ _ _ settledWorld_reachable hb hset hq ho hdb
    (claimPayout_eq hp hs hq ⟨hset, ho.2, ho.1, hs.staked⟩) view hv hpos
  obtain ⟨updatedAt, hview⟩ := hall view hv hpos
  rw [listed_winnings hset hp hs (reachable_outcomes settledWorld_reachable hb) ho,
    Prod.mk.injEq, hpaid, Option.some.injEq, Nat.cast_inj] at hview
  exact hnot ((share_eq_paid_iff hp hs rfl).mp hview.2.symm)

end ProofBook.Positions
