import ProofBook.OracleAdapter
import ProofBook.PayoutMath

/-!
# The world the program runs in

Positions and compound specs live at addresses derived from their market, so
they are kept with it in one book. The rest of the state is the clock, the
token ledger, the oracle's roots accounts and the emitted events.
-/
namespace ProofBook.Chain
open Addresses OracleWire State Checked OracleAdapter TokenLedger Totals

inductive Event (D : Type)
  | marketInitialized (market authority : Pubkey) (fixtureId : Int64) (marketType numOutcomes
      feeBps : ℕ) (lockTime resolutionTimeout : Int64) (oracleProgram usdcMint feeTreasury : Pubkey)
  | betPlaced (market bettor : Pubkey) (outcomeIndex amount positionTotal outcomePool
      totalPool : ℕ)
  | marketLocked (market : Pubkey) (lockedAt : Int64) (totalPool : ℕ)
  | marketSettled (market : Pubkey) (fixtureId : Int64) (winningOutcome : ℕ)
      (oracleProgram : Pubkey) (oracleLabel : String) (proofRef : D) (proofTs : Int64)
      (epochDay : UInt16) (dailyRoots resolver : Pubkey) (oracleVerified refundable : Bool)
      (totalPool totalWinningPool feeAmount : ℕ) (settledAt : Int64)
  | marketCancelled (market : Pubkey) (fixtureId : Int64) (reason : String) (cancelledAt : Int64)
      (totalPool : ℕ) (canceller : Pubkey)
  | winningsClaimed (market winner : Pubkey) (outcomeIndex stake payout : ℕ)
      (isLastClaimer : Bool)
  | refundClaimed (market user : Pubkey) (outcomeIndex amount : ℕ)
  | feesWithdrawn (market feeTreasury : Pubkey) (amount : ℕ)
  | comboSpecCreated (market comboSpec : Pubkey) (fixtureId : Int64) (marketType numLegs
      numOutcomes : ℕ)
  | propVaultCreated (propVault depositor beneficiary : Pubkey) (fixtureId : Int64)
      (amount numLegs : ℕ) (lockTime : Int64)
  | propVaultResolved (propVault : Pubkey) (fixtureId : Int64) (predicateHeld : Bool)
      (paidTo : Pubkey) (amount : ℕ) (proofRef : D) (proofTs : Int64)
      (dailyRoots resolver : Pubkey) (settledAt : Int64)
deriving Repr, DecidableEq

/-- A market with its positions, by owner, and its compound spec if it has one. -/
structure Book (D : Type) where
  market : Market D
  positions : FMap Pubkey Position
  comboSpec : Option ComboSpec

structure World (D : Type) where
  clock : Int64
  ledger : Ledger Pubkey
  dailyRoots : FMap Pubkey (DailyScoresMerkleRoots D)
  books : FMap Pubkey (Book D)
  propVaults : FMap Pubkey (PropVault D)
  log : List (Event D)

variable {D : Type}

namespace World

def rootsView (w : World D) : RootsView D := fun k => w.dailyRoots.lookup k

def book? (w : World D) (k : Pubkey) : Option (Book D) := w.books.lookup k

def propVault? (w : World D) (k : Pubkey) : Option (PropVault D) := w.propVaults.lookup k

/-- What the escrow of a market or of a prop vault holds. -/
def escrow (w : World D) (k : Pubkey) : ℕ := w.ledger.balance (.vault k)

def setBook (w : World D) (k : Pubkey) (b : Book D) (events : List (Event D)) : World D :=
  { w with books := w.books.insert k b, log := w.log ++ events }

def setPropVault (w : World D) (k : Pubkey) (v : PropVault D) (events : List (Event D)) :
    World D :=
  { w with propVaults := w.propVaults.insert k v, log := w.log ++ events }

def setLedger (w : World D) (l : Ledger Pubkey) : World D := { w with ledger := l }

section
variable {w : World D} {k j : Pubkey} {b : Book D} {v : PropVault D} {es : List (Event D)}
  {l : Ledger Pubkey}

@[simp] theorem setBook_clock : (w.setBook k b es).clock = w.clock := rfl
@[simp] theorem setBook_ledger : (w.setBook k b es).ledger = w.ledger := rfl
@[simp] theorem setBook_dailyRoots : (w.setBook k b es).dailyRoots = w.dailyRoots := rfl
@[simp] theorem setBook_propVault? : (w.setBook k b es).propVault? j = w.propVault? j := rfl
@[simp] theorem setBook_escrow : (w.setBook k b es).escrow j = w.escrow j := rfl
@[simp] theorem setBook_book?_self : (w.setBook k b es).book? k = some b := by
  simp [setBook, book?]
theorem setBook_book?_ne (h : j ≠ k) : (w.setBook k b es).book? j = w.book? j := by
  simp [setBook, book?, AList.lookup_insert_ne h]

@[simp] theorem setPropVault_clock : (w.setPropVault k v es).clock = w.clock := rfl
@[simp] theorem setPropVault_ledger : (w.setPropVault k v es).ledger = w.ledger := rfl
@[simp] theorem setPropVault_dailyRoots :
    (w.setPropVault k v es).dailyRoots = w.dailyRoots := rfl
@[simp] theorem setPropVault_book? : (w.setPropVault k v es).book? j = w.book? j := rfl
@[simp] theorem setPropVault_escrow : (w.setPropVault k v es).escrow j = w.escrow j := rfl
@[simp] theorem setPropVault_propVault?_self :
    (w.setPropVault k v es).propVault? k = some v := by simp [setPropVault, propVault?]
theorem setPropVault_propVault?_ne (h : j ≠ k) :
    (w.setPropVault k v es).propVault? j = w.propVault? j := by
  simp [setPropVault, propVault?, AList.lookup_insert_ne h]

@[simp] theorem setLedger_clock : (w.setLedger l).clock = w.clock := rfl
@[simp] theorem setLedger_ledger : (w.setLedger l).ledger = l := rfl
@[simp] theorem setLedger_dailyRoots : (w.setLedger l).dailyRoots = w.dailyRoots := rfl
@[simp] theorem setLedger_book? : (w.setLedger l).book? j = w.book? j := rfl
@[simp] theorem setLedger_propVault? : (w.setLedger l).propVault? j = w.propVault? j := rfl
@[simp] theorem setLedger_escrow : (w.setLedger l).escrow j = l.balance (.vault j) := rfl

end

/-- The token account behind an address, as an account constraint loads it. -/
def tokenAccount (w : World D) (k : Pubkey) : Except Failure (TokenAccount Pubkey) :=
  demand (w.ledger.accounts.lookup k) (.anchor .accountNotInitialized)

def loadBook (w : World D) (k : Pubkey) : Except Failure (Book D) :=
  demand (w.book? k) (.anchor .accountNotInitialized)

def loadPropVault (w : World D) (k : Pubkey) : Except Failure (PropVault D) :=
  demand (w.propVault? k) (.anchor .accountNotInitialized)

def transferTokens (w : World D) (src dst authority : Pubkey) (amount : ℕ) :
    Except Failure (World D) := do
  let l ← mapError .token (w.ledger.transfer src dst authority amount)
  pure (w.setLedger l)

end World

def requireSigner (k : Pubkey) : Except Failure PUnit.{1} :=
  require (k.canSign = true) (.anchor .accountNotSigner)

end ProofBook.Chain
