import ProofBook.State
import ProofBook.Lib.BestPerKey
import ProofBook.Lib.KeyedTable

/-!
# The keeper's mirror of the chain

The leader keeper lists every market account of the program, whoever created
it, picks one for each fixture and product, and upserts the picks into Postgres.
A violating upsert throws: what was written before it stays, the purge after the
loop does not run. JavaScript numbers are exact here: past `2^53` an id is
never one of an indexed fixture, and no column takes the other values. The
accounts of the program sit at the address derived from their own fields.
-/
namespace ProofBook.DbSync
open Addresses State BestPerKey KeyedTable

/-- Prefer the market that actually carries the truth for a fixture. -/
def rank (status : MarketStatus) (totalPool : ℕ) : ℕ :=
  match status with
  | .settled => 400
  | .locked => 300
  | .opened => if 0 < totalPool then 200 else 100
  | .cancelled => 0

/-- The columns a sync writes; times are in milliseconds. -/
structure MarketData where
  fixtureId : ℤ
  marketType : ℕ
  status : MarketStatus
  lockTime : ℤ
  resolutionTimeout : ℤ
  feeBps : ℕ
  usdcMint : Pubkey
  vault : Pubkey
  authority : Pubkey
  oracleProgram : Pubkey
  totalPool : ℕ
  pools : List ℕ
  totalWinningPool : Option ℕ
  feeAmount : Option ℕ
  winningOutcome : Option ℕ
  settledAt : Option ℤ
deriving DecidableEq

/-- A row of `markets`. Every writer of rows projects an account of the program
or updates a row in place, so the primary key is the address of that market. -/
structure MarketRow where
  pda : Pubkey
  data : MarketData
  createdTx : Option String
  lockTx : Option String
  settleTx : Option String
  cancelTx : Option String
  isPda : ∃ fixtureId : Int64, fixtureId.toInt = data.fixtureId ∧
    pda = .market data.authority fixtureId data.marketType
deriving DecidableEq

/-- The value of the constraint `@@unique([fixtureId, marketType])`. -/
def MarketRow.slot (r : MarketRow) : ℤ × ℕ := (r.data.fixtureId, r.data.marketType)

structure MarketEvent where
  marketPda : Pubkey
  fixtureId : ℤ
  status : MarketStatus
deriving DecidableEq

structure OddsSnapshot where
  marketPda : Pubkey
  pools : List ℕ
  totalPool : ℕ
deriving DecidableEq

abbrev Markets := Table MarketRow.pda MarketRow.slot

/-- The tables a sync of the markets reads and writes. -/
structure Db where
  fixtures : List ℤ
  markets : Markets
  feed : List MarketEvent
  odds : List OddsSnapshot

inductive DbError
  | invalidValue
  | uniqueConstraint
deriving Repr, DecidableEq

abbrev Sync := EStateM DbError Db

/-- The part of `KeeperConfig` a sync reads. -/
structure KeeperConfig where
  marketTypes : List ℕ

structure SyncReport where
  markets : ℕ
  settled : ℕ
deriving Repr, DecidableEq

section Projection
variable {D : Type}

def marketPda (m : Market D) : Pubkey := .market m.authority m.fixtureId m.marketType

def marketSlot (m : Market D) : ℤ × ℕ := (m.fixtureId.toInt, m.marketType)

def marketRank (m : Market D) : ℕ := rank m.status m.totalPool

/-- Generations of the 1X2 product share the key of their fixture; a product has
a key of its own. -/
def bestKey (m : Market D) : ℤ × Option ℕ :=
  (m.fixtureId.toInt, if comboMarketTypeMin ≤ m.marketType then some m.marketType else none)

def marketData (m : Market D) : MarketData where
  fixtureId := m.fixtureId.toInt
  marketType := m.marketType
  status := m.status
  lockTime := m.lockTime.toInt * 1000
  resolutionTimeout := m.resolutionTimeout.toInt
  feeBps := m.feeBps
  usdcMint := m.usdcMint
  vault := m.vault
  authority := m.authority
  oracleProgram := m.oracleProgram
  totalPool := m.totalPool
  pools := m.outcomes.map (·.pool)
  totalWinningPool := some m.totalWinningPool
  feeAmount := some m.feeAmount
  winningOutcome := if m.winningOutcome = unsetOutcome then none else some m.winningOutcome
  settledAt := if 0 < m.settledAt.toInt then some (m.settledAt.toInt * 1000) else none

/-- The row after an upsert; the columns a sync does not write are kept, or null
in a new row. -/
def mirrorRow (before : Option MarketRow) (m : Market D) : MarketRow where
  pda := marketPda m
  data := marketData m
  createdTx := before.bind (·.createdTx)
  lockTx := before.bind (·.lockTx)
  settleTx := before.bind (·.settleTx)
  cancelTx := before.bind (·.cancelTx)
  isPda := ⟨m.fixtureId, rfl, rfl⟩

variable (fits : MarketData → Bool)

/-- `fits` says which values the columns take. -/
def upsertMarket (m : Market D) : Sync PUnit.{1} := fun db =>
  if fits (marketData m) then
    match db.markets.put (mirrorRow (db.markets.find (marketPda m)) m) with
    | some markets => .ok .unit { db with markets }
    | none => .error .uniqueConstraint db
  else .error .invalidValue db

/-- Events tell a change of status, snapshots a change of the pool; both look at
the rows as they were before the loop. -/
def announce (prior : Markets) (m : Market D) (db : Db) : Db :=
  let before := prior.find (marketPda m)
  { db with
    feed :=
      if before.map (·.data.status) = some m.status then db.feed
      else db.feed ++ [⟨marketPda m, m.fixtureId.toInt, m.status⟩]
    odds :=
      if before.any (·.data.totalPool ≠ m.totalPool) then
        db.odds ++ [⟨marketPda m, m.outcomes.map (·.pool), m.totalPool⟩]
      else db.odds }

/-- The loop over the picks, with the fixtures and the rows read before it. -/
def projectMarkets (known : List ℤ) (prior : Markets) : List (Market D) → Sync SyncReport
  | [] => pure ⟨0, 0⟩
  | m :: ms => do
      if m.fixtureId.toInt ∉ known then
        projectMarkets known prior ms
      else
        upsertMarket fits m
        modify (announce prior m)
        let report ← projectMarkets known prior ms
        pure ⟨report.markets + 1, report.settled + if m.status = .settled then 1 else 0⟩

/-- The pre-launch generations and the first, unsettleable catalogue. -/
def deadGenerations : List ℕ := [0, 1, 2, 16, 17, 18, 19, 20, 21, 22, 23, 24, 25, 26, 27]

def purgeDead : Sync PUnit.{1} :=
  modify fun db =>
    { db with markets := db.markets.deleteMany (·.data.marketType ∈ deadGenerations) }

/-- One market for each key among those of an allowed type. -/
def pickBest (cfg : KeeperConfig) (all : List (Market D)) : List (Market D) :=
  best bestKey marketRank (all.filter (·.marketType ∈ cfg.marketTypes))

/-- `all` is what `Chain.allMarkets` lists. -/
def syncMarkets (cfg : KeeperConfig) (all : List (Market D)) : Sync SyncReport := do
  let db ← get
  let report ← projectMarkets fits db.fixtures db.markets (pickBest cfg all)
  purgeDead
  pure report

end Projection

end ProofBook.DbSync
