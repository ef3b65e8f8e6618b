import ProofBook.DbSync
import ProofBook.Lib.ObjectMap

/-!
# The keeper's store

The keeper works on objects in memory; Postgres is read once, at boot, and then
written through. This module has both sides: the objects, the rows, what each
object is loaded from and what is written for it. The code of the team that a
participant's name names is a parameter. A string or a number that is falsy in
JavaScript counts as absent wherever the store tests it so.
-/
namespace ProofBook.Store
open Addresses State KeyedTable Objects DbSync

/-! ## Objects in memory -/

structure Score where
  p1 : ℤ
  p2 : ℤ
deriving Repr, DecidableEq

/-- Whether the result of a fixture can be proven. -/
inductive ProofStatus
  | proven
  | noProof
  | upcoming
deriving Repr, DecidableEq

structure FixtureLive where
  fixtureId : ℤ
  competitionId : Option ℤ
  name : Option String
  homeName : Option String
  awayName : Option String
  stage : Option String
  proofStatus : Option ProofStatus
  gapReason : Option String
  /-- In seconds. -/
  kickoffTs : Option ℤ
  lastSeq : Option ℤ
  lastTs : Option ℤ
  /-- The phase of play; 100 is `game_finalised`. -/
  statusId : Option ℤ
  score : Option Score
  finalisedSeq : Option ℤ
deriving Repr, DecidableEq

inductive MarketPhase
  | created
  | locked
  | settling
  | settled
  | cancelled
  | error
deriving Repr, DecidableEq

structure MarketRecord where
  marketPda : Pubkey
  fixtureId : ℤ
  marketType : ℕ
  phase : MarketPhase
  /-- In seconds, as is the timeout. -/
  lockTime : ℤ
  resolutionTimeout : ℤ
  usdcMint : Pubkey
  createdTx : Option String
  lockTx : Option String
  settleTx : Option String
  cancelTx : Option String
  winningOutcome : Option ℕ
  settleAttempts : ℕ
deriving Repr, DecidableEq

structure ProofReceipt where
  marketPda : Pubkey
  matchId : ℤ
  winningOutcome : ℕ
  /-- What the proof attests, never the feed's score. -/
  provenScore : Option Score
  statPeriod : Option ℤ
  outcomeLabel : String
  oracleProgram : Pubkey
  epochDay : ℕ
  dailyRootsPda : Pubkey
  proofRef : String
  resolver : Pubkey
  settleTx : String
  settledAt : ℤ
  totalPool : ℕ
  totalWinningPool : ℕ
  feeAmount : ℕ
deriving Repr, DecidableEq

inductive KvKey
  | usdcMint
  | txlineJwt
  | txlineApiToken
deriving Repr, DecidableEq

/-- `StoreData`; the escrow mint and the session are kept as key-value pairs. -/
structure StoreData where
  fixtures : ObjectMap FixtureLive.fixtureId
  markets : ObjectMap MarketRecord.marketPda
  receipts : ObjectMap ProofReceipt.marketPda
  kv : KvKey → Option String

namespace StoreData

def empty : StoreData := ⟨.empty, .empty, .empty, fun _ => none⟩

end StoreData

/-- The object that the first access to a fixture creates. -/
def freshFixture (id : ℤ) : FixtureLive :=
  ⟨id, none, none, none, none, none, none, none, none, none, none, none, none, none⟩

/-- `store.fixture`. -/
def StoreData.fixture (d : StoreData) (id : ℤ) : FixtureLive :=
  (d.fixtures.get id).getD (freshFixture id)

theorem StoreData.fixture_fixtureId (d : StoreData) (id : ℤ) : (d.fixture id).fixtureId = id := by
  unfold StoreData.fixture
  cases h : d.fixtures.get id with
  | none => rfl
  | some f => exact ObjectMap.get_key h

def StoreData.marketByFixture (d : StoreData) (fixtureId : ℤ) (marketType : ℕ) :
    Option MarketRecord :=
  d.markets.values.find? fun m => m.fixtureId = fixtureId ∧ m.marketType = marketType

/-! ## Rows -/

structure FixtureRow where
  id : ℤ
  competitionId : Option ℤ
  homeName : String
  awayName : String
  homeCode : Option String
  awayCode : Option String
  stage : String
  /-- In milliseconds. -/
  kickoffTs : ℤ
  proofStatus : ProofStatus
  gapReason : Option String
  statusId : Option ℤ
  provenP1 : Option ℤ
  provenP2 : Option ℤ
  lastSeq : Option ℤ
  lastTs : Option ℤ
  finalisedSeq : Option ℤ
deriving Repr, DecidableEq

structure ReceiptRow where
  marketPda : Pubkey
  fixtureId : ℤ
  winningOutcome : ℕ
  outcomeLabel : String
  provenP1 : Option ℤ
  provenP2 : Option ℤ
  statPeriod : Option ℤ
  oracleProgram : Pubkey
  epochDay : ℕ
  dailyRootsPda : Pubkey
  proofRef : String
  resolver : Pubkey
  settleTx : String
  /-- In milliseconds. -/
  settledAt : ℤ
  totalPool : ℕ
  totalWinningPool : ℕ
  feeAmount : ℕ
deriving Repr, DecidableEq

/-- Every writer of key-value pairs leaves falsy values out. -/
structure KvRow where
  key : KvKey
  value : String
  truthy : value ≠ ""
deriving Repr, DecidableEq

structure Tables where
  fixtures : ObjectMap FixtureRow.id
  markets : Markets
  receipts : ObjectMap ReceiptRow.marketPda
  kv : ObjectMap KvRow.key

/-- A new database. -/
def Tables.empty : Tables := ⟨.empty, default, .empty, .empty⟩

/-! ## What is written -/

/-- Boundaries of the stages, by kickoff in milliseconds. -/
def stageBounds : List (String × ℤ) :=
  [("Group", 1782633600000), ("R32", 1783152000000), ("R16", 1783497600000),
    ("QF", 1783843200000), ("SF", 1784188800000), ("3rd", 1784448000000),
    ("Final", 1798761599000)]

def stageOf (kickoffMs : ℤ) : String :=
  ((stageBounds.find? fun b => kickoffMs ≤ b.2).map Prod.fst).getD "Final"

section Writes
variable (teamCode : String → Option String)

/-- The code of the team with this name, if it is known. -/
def resolveTeam (name : Option String) : Option String := (name.filter (· ≠ "")).bind teamCode

/-- The row `writeFixture` upserts. A score is written only when it is proven. -/
def fixtureRow (f : FixtureLive) : FixtureRow :=
  let kickoffMs := f.kickoffTs.getD 0 * 1000
  let proofStatus := f.proofStatus.getD .upcoming
  { id := f.fixtureId
    competitionId := f.competitionId
    homeName := f.homeName.getD ""
    awayName := f.awayName.getD ""
    homeCode := resolveTeam teamCode f.homeName
    awayCode := resolveTeam teamCode f.awayName
    stage := f.stage.getD (if kickoffMs ≠ 0 then stageOf kickoffMs else "Group")
    kickoffTs := kickoffMs
    proofStatus := proofStatus
    gapReason := f.gapReason
    statusId := f.statusId
    provenP1 := if proofStatus = .proven then f.score.map (·.p1) else none
    provenP2 := if proofStatus = .proven then f.score.map (·.p2) else none
    lastSeq := f.lastSeq
    lastTs := f.lastTs.filter (· ≠ 0)
    finalisedSeq := f.finalisedSeq }

@[simp] theorem fixtureRow_id (f : FixtureLive) : (fixtureRow teamCode f).id = f.fixtureId := rfl

end Writes

/-- The status `writeMarket` writes for a phase. -/
def marketStatus : MarketPhase → MarketStatus
  | .settled => .settled
  | .cancelled => .cancelled
  | .locked => .locked
  | _ => .opened

/-- The keeper's own bookkeeping; a sync writes the other columns. -/
def carryOver (m : MarketRecord) (r : MarketRow) : MarketRow :=
  { r with
    data := { r.data with status := marketStatus m.phase, winningOutcome := m.winningOutcome }
    createdTx := m.createdTx
    lockTx := m.lockTx
    settleTx := m.settleTx
    cancelTx := m.cancelTx }

theorem carryOver_pda (m : MarketRecord) (r : MarketRow) : (carryOver m r).pda = r.pda := rfl

theorem carryOver_slot (m : MarketRecord) (r : MarketRow) : (carryOver m r).slot = r.slot := rfl

/-- `writeMarket` updates the row of the market, if there is one. -/
def writeMarket (m : MarketRecord) (t : Markets) : Markets :=
  t.updateMany (·.pda = m.marketPda) (carryOver m) (carryOver_pda m) (carryOver_slot m)

theorem find_writeMarket (m : MarketRecord) (t : Markets) (pda : Pubkey) :
    (writeMarket m t).find pda =
      (t.find pda).map fun r => if r.pda = m.marketPda then carryOver m r else r := by
  simpa [writeMarket] using t.find_updateMany (·.pda = m.marketPda) (carryOver m) (carryOver_pda m)
    (carryOver_slot m) pda

/-- The row `writeReceipt` upserts; `now` stands in for a missing time. -/
def receiptRow (now : ℤ) (r : ProofReceipt) : ReceiptRow where
  marketPda := r.marketPda
  fixtureId := r.matchId
  winningOutcome := r.winningOutcome
  outcomeLabel := r.outcomeLabel
  provenP1 := r.provenScore.map (·.p1)
  provenP2 := r.provenScore.map (·.p2)
  statPeriod := r.statPeriod
  oracleProgram := r.oracleProgram
  epochDay := r.epochDay
  dailyRootsPda := r.dailyRootsPda
  proofRef := r.proofRef
  resolver := r.resolver
  settleTx := r.settleTx
  settledAt := (if r.settledAt = 0 then now else r.settledAt) * 1000
  totalPool := r.totalPool
  totalWinningPool := r.totalWinningPool
  feeAmount := r.feeAmount

@[simp] theorem receiptRow_marketPda (now : ℤ) (r : ProofReceipt) :
    (receiptRow now r).marketPda = r.marketPda := rfl

/-- The pairs `writeKv` upserts. -/
def kvRows (d : StoreData) : List KvRow :=
  [KvKey.usdcMint, .txlineJwt, .txlineApiToken].filterMap fun key =>
    (d.kv key).bind fun value => if h : value ≠ "" then some ⟨key, value, h⟩ else none

theorem mem_kvRows {d : StoreData} {r : KvRow} : r ∈ kvRows d ↔ d.kv r.key = some r.value := by
  obtain ⟨key, value, truthy⟩ := r
  simp only [kvRows, List.mem_filterMap, Option.bind_eq_some_iff]
  constructor
  · rintro ⟨k, -, v, hv, hr⟩
    split at hr
    · cases hr
      exact hv
    · cases hr
  · intro hv
    exact ⟨key, by cases key <;> simp, value, hv, by simp [truthy]⟩

/-! ## What is loaded -/

/-- A score counts as loaded only when both its columns are set. -/
def loadScore : Option ℤ → Option ℤ → Option Score
  | some p1, some p2 => some ⟨p1, p2⟩
  | _, _ => none

def loadFixture (r : FixtureRow) : FixtureLive where
  fixtureId := r.id
  competitionId := r.competitionId
  name := some s!"{r.homeName} v {r.awayName}"
  homeName := some r.homeName
  awayName := some r.awayName
  stage := some r.stage
  proofStatus := some r.proofStatus
  gapReason := r.gapReason
  kickoffTs := some (r.kickoffTs / 1000)
  lastSeq := r.lastSeq
  lastTs := r.lastTs.filter (· ≠ 0)
  statusId := r.statusId
  score := loadScore r.provenP1 r.provenP2
  finalisedSeq := r.finalisedSeq

@[simp] theorem loadFixture_fixtureId (r : FixtureRow) : (loadFixture r).fixtureId = r.id := rfl

def loadPhase : MarketStatus → MarketPhase
  | .opened => .created
  | .locked => .locked
  | .settled => .settled
  | .cancelled => .cancelled

def loadMarket (r : MarketRow) : MarketRecord where
  marketPda := r.pda
  fixtureId := r.data.fixtureId
  marketType := r.data.marketType
  phase := loadPhase r.data.status
  lockTime := r.data.lockTime / 1000
  resolutionTimeout := r.data.resolutionTimeout
  usdcMint := r.data.usdcMint
  createdTx := r.createdTx
  lockTx := r.lockTx
  settleTx := r.settleTx
  cancelTx := r.cancelTx
  winningOutcome := r.data.winningOutcome
  settleAttempts := 0

def loadReceipt (r : ReceiptRow) : ProofReceipt where
  marketPda := r.marketPda
  matchId := r.fixtureId
  winningOutcome := r.winningOutcome
  provenScore := loadScore r.provenP1 r.provenP2
  statPeriod := r.statPeriod
  outcomeLabel := r.outcomeLabel
  oracleProgram := r.oracleProgram
  epochDay := r.epochDay
  dailyRootsPda := r.dailyRootsPda
  proofRef := r.proofRef
  resolver := r.resolver
  settleTx := r.settleTx
  settledAt := r.settledAt / 1000
  totalPool := r.totalPool
  totalWinningPool := r.totalWinningPool
  feeAmount := r.feeAmount

/-- What the boot reads from Postgres. -/
def load (t : Tables) : StoreData where
  fixtures := t.fixtures.map loadFixture loadFixture_fixtureId
  markets := ⟨t.markets.rows.map loadMarket, by
    simpa [Function.comp_def, loadMarket] using t.markets.primary⟩
  receipts := t.receipts.map loadReceipt fun _ => rfl
  kv key := (t.kv.get key).map (·.value)

/-- A phase that was loaded is written back as the status it was loaded from. -/
theorem marketStatus_loadPhase (s : MarketStatus) : marketStatus (loadPhase s) = s := by
  cases s <;> rfl

end ProofBook.Store
