import ProofBook.Instructions.PropVaults
import ProofBook.Lib.Runs

/-!
# The program as a machine

One step executes one operation: an instruction of the program, an operation of
the token program by anybody, a new daily root, or the passing of time. Signers
of token operations are wallets, since derived addresses sign only inside the
program's own handlers. A failed operation changes nothing.
-/
namespace ProofBook.Program
open Addresses State Checked OracleWire OracleAdapter TokenLedger Totals Chain Runs
open Instructions.Betting Instructions.Settlement Instructions.Payments Instructions.PropVaults

variable {D : Type}

inductive Instruction (D : Type)
  | initializeMarket (ctx : InitializeMarket) (p : MarketParams)
  | placeBet (ctx : PlaceBet) (outcomeIndex amount : ℕ)
  | lockMarket (ctx : Crank)
  | initializeComboSpec (ctx : InitializeComboSpec) (legs : List StatLeg)
      (outcomes : List ComboOutcome)
  | settleMarket (ctx : SettleMarket) (claimedOutcome : ℕ) (proof : SettlementProof D)
  | settleMarketV3 (ctx : SettleMarket) (claimedOutcome : ℕ) (proof : SettlementProofV3 D)
  | cancelMarket (ctx : Crank)
  | claimWinnings (ctx : Claim)
  | claimRefund (ctx : Claim)
  | withdrawFees (ctx : WithdrawFees)
  | initializePropVault (ctx : InitializePropVault) (p : PropVaultParams)
  | settlePropVault (ctx : SettlePropVault) (proof : SettlementProofV3 D)
  | cancelPropVault (ctx : CancelPropVault)
  | splTransfer (src dst authority : Pubkey) (amount : ℕ)
  | splInitializeMint (mint : Pubkey)
  | splInitializeAccount (account : ℕ) (mint owner : Pubkey)
  | splMintTo (mint dst : Pubkey) (amount : ℕ)
  | publishDailyRoot (epochDay : UInt16) (root : D)
  | setClock (now : Int64)

def splTransfer (w : World D) (src dst authority : Pubkey) (amount : ℕ) :
    Except Failure (World D) := do
  requireSigner authority
  w.transferTokens src dst authority amount

def splInitializeMint (w : World D) (mint : Pubkey) : Except Failure (World D) := do
  let l ← mapError .token (w.ledger.initializeMint mint)
  pure (w.setLedger l)

def splInitializeAccount (w : World D) (account : ℕ) (mint owner : Pubkey) :
    Except Failure (World D) := do
  let l ← mapError .token (w.ledger.initializeAccount (.key account) mint owner)
  pure (w.setLedger l)

def splMintTo (w : World D) (mint dst : Pubkey) (amount : ℕ) : Except Failure (World D) := do
  let l ← mapError .token (w.ledger.mintTo mint dst amount)
  pure (w.setLedger l)

/-- The oracle's own roots account for a day, written or overwritten. -/
def publishDailyRoot (O : OracleProgram D) (w : World D) (epochDay : UInt16) (root : D) :
    World D :=
  { w with dailyRoots := w.dailyRoots.insert (.dailyScores O.programId epochDay) ⟨epochDay, root⟩ }

variable [Inhabited D]

def step (O : OracleProgram D) (w : World D) : Instruction D → Except Failure (World D)
  | .initializeMarket ctx p => initializeMarket O w ctx p
  | .placeBet ctx outcomeIndex amount => placeBet w ctx outcomeIndex amount
  | .lockMarket ctx => lockMarket w ctx
  | .initializeComboSpec ctx legs outcomes => initializeComboSpec w ctx legs outcomes
  | .settleMarket ctx claimedOutcome proof => settleMarket O w ctx claimedOutcome proof
  | .settleMarketV3 ctx claimedOutcome proof => settleMarketV3 O w ctx claimedOutcome proof
  | .cancelMarket ctx => cancelMarket w ctx
  | .claimWinnings ctx => claimWinnings w ctx
  | .claimRefund ctx => claimRefund w ctx
  | .withdrawFees ctx => withdrawFees w ctx
  | .initializePropVault ctx p => initializePropVault O w ctx p
  | .settlePropVault ctx proof => settlePropVault O w ctx proof
  | .cancelPropVault ctx => cancelPropVault w ctx
  | .splTransfer src dst authority amount => splTransfer w src dst authority amount
  | .splInitializeMint mint => splInitializeMint w mint
  | .splInitializeAccount account mint owner => splInitializeAccount w account mint owner
  | .splMintTo mint dst amount => splMintTo w mint dst amount
  | .publishDailyRoot epochDay root => .ok (publishDailyRoot O w epochDay root)
  | .setClock now => .ok { w with clock := now }

def machine (O : OracleProgram D) : Machine (World D) (Instruction D) Failure := ⟨step O⟩

@[simp] theorem machine_step (O : OracleProgram D) : (machine O).step = step O := rfl

/-- Before the program was used: no account of it exists, and no token account
sits at an address only the program can create. -/
structure Genesis (w : World D) : Prop where
  books : w.books = ∅
  propVaults : w.propVaults = ∅
  log : w.log = []
  conserved : w.ledger.Conserved
  vaults : ∀ k, w.ledger.title (.vault k) = none

abbrev Reachable (O : OracleProgram D) (w : World D) : Prop := (machine O).Reachable Genesis w

end ProofBook.Program
