import ProofBook.Chain

/-!
# Creating, betting on, locking and cancelling a market

Each handler is followed by what its success tells: the facts it checked and
the state it leaves. Later modules use these and never open a handler again.
-/
namespace ProofBook.Instructions.Betting
open Addresses State Checked OracleWire OracleAdapter TokenLedger Totals Chain

variable {D : Type}

/-! ## initialize_market -/

structure InitializeMarket where
  authority : Pubkey
  usdcMint : Pubkey
deriving Repr, DecidableEq

structure MarketParams where
  fixtureId : Int64
  marketType : ℕ
  outcomeOptions : List OutcomeSpec
  feeBps : ℕ
  lockTime : Int64
  resolutionTimeout : Int64
  feeTreasury : Pubkey
deriving Repr, DecidableEq

def InitializeMarket.marketKey (ctx : InitializeMarket) (p : MarketParams) : Pubkey :=
  .market ctx.authority p.fixtureId p.marketType

def newMarket [Inhabited D] (O : OracleProgram D) (ctx : InitializeMarket) (p : MarketParams) :
    Market D where
  authority := ctx.authority
  fixtureId := p.fixtureId
  marketType := p.marketType
  status := .opened
  numOutcomes := p.outcomeOptions.length
  winningOutcome := unsetOutcome
  feeBps := p.feeBps
  lockTime := p.lockTime
  resolutionTimeout := p.resolutionTimeout
  oracleProgram := O.programId
  usdcMint := ctx.usdcMint
  vault := .vault (ctx.marketKey p)
  feeTreasury := p.feeTreasury
  totalPool := 0
  totalWinningPool := 0
  feeAmount := 0
  paidOut := 0
  winningStakeClaimed := 0
  feeWithdrawn := false
  settledAt := 0
  settleProofRef := default
  settleProofTs := 0
  settleEpochDay := 0
  settleDailyRoots := .default
  settleResolver := .default
  outcomes := p.outcomeOptions.map fun spec => ⟨spec, 0⟩

def initializeMarket [Inhabited D] (O : OracleProgram D) (w : World D) (ctx : InitializeMarket)
    (p : MarketParams) : Except Failure (World D) := do
  requireSigner ctx.authority
  require (w.book? (ctx.marketKey p) = none) (.anchor .accountAlreadyInUse)
  let l ← mapError .token
    (w.ledger.initializeAccount (.vault (ctx.marketKey p)) ctx.usdcMint (ctx.marketKey p))
  require (0 < p.fixtureId) (.program .invalidFixtureId)
  require (p.feeBps ≤ maxFeeBps) (.program .feeTooHigh)
  require (0 < p.resolutionTimeout) (.program .invalidResolutionTimeout)
  require (minOutcomes ≤ p.outcomeOptions.length ∧ p.outcomeOptions.length ≤ maxOutcomes)
    (.program .invalidOutcomeCount)
  require (w.clock < p.lockTime) (.program .lockTimeInPast)
  require (∀ spec ∈ p.outcomeOptions, spec.isValid = true) (.program .invalidOutcomeSpec)
  pure ((w.setLedger l).setBook (ctx.marketKey p) ⟨newMarket O ctx p, ∅, none⟩
    [.marketInitialized (ctx.marketKey p) ctx.authority p.fixtureId p.marketType
      p.outcomeOptions.length p.feeBps p.lockTime p.resolutionTimeout O.programId ctx.usdcMint
      p.feeTreasury])

/-- What a created market satisfies. -/
structure MarketParams.Accepted (now : Int64) (p : MarketParams) : Prop where
  fixture : 0 < p.fixtureId
  feeBps : p.feeBps ≤ maxFeeBps
  timeout : 0 < p.resolutionTimeout
  outcomes : minOutcomes ≤ p.outcomeOptions.length ∧ p.outcomeOptions.length ≤ maxOutcomes
  future : now < p.lockTime
  specs : ∀ spec ∈ p.outcomeOptions, spec.isValid = true

theorem initializeMarket_ok [Inhabited D] {O : OracleProgram D} {w w' : World D}
    {ctx : InitializeMarket} {p : MarketParams} (h : initializeMarket O w ctx p = .ok w') :
    ctx.authority.canSign = true ∧ w.book? (ctx.marketKey p) = none ∧ p.Accepted w.clock ∧
      ∃ l es, w.ledger.initializeAccount (.vault (ctx.marketKey p)) ctx.usdcMint
          (ctx.marketKey p) = .ok l ∧
        w' = (w.setLedger l).setBook (ctx.marketKey p) ⟨newMarket O ctx p, ∅, none⟩ es := by
  simp only [initializeMarket, requireSigner, bind_eq_ok, require_eq_ok, mapError_eq_ok,
    pure_eq_ok] at h
  obtain ⟨_, hs, _, hn, l, hl, _, h₁, _, h₂, _, h₃, _, h₄, _, h₅, _, h₆, rfl⟩ := h
  exact ⟨hs, hn, ⟨h₁, h₂, h₃, h₄, h₅, h₆⟩, l, _, hl, rfl⟩

/-! ## place_bet -/

structure PlaceBet where
  bettor : Pubkey
  market : Pubkey
  bettorToken : Pubkey
  vault : Pubkey
deriving Repr, DecidableEq

/-- The bettor's position: created on the first bet, afterwards bound to its
outcome. -/
def positionFor (b : Book D) (market bettor : Pubkey) (outcomeIndex : ℕ) :
    Except Failure Position :=
  let position := (b.positions.lookup bettor).getD .zeroed
  if position.market = .default then
    pure { position with
      market := market, owner := bettor, outcomeIndex := outcomeIndex, claimed := false }
  else do
    require (position.outcomeIndex = outcomeIndex) (.program .cannotSwitchOutcome)
    pure position

theorem positionFor_ok {b : Book D} {market bettor : Pubkey} {outcomeIndex : ℕ} {q : Position}
    (h : positionFor b market bettor outcomeIndex = .ok q)
    (hb : ∀ p, b.positions.lookup bettor = some p → p.market ≠ .default) :
    (b.positions.lookup bettor = none ∧ q = ⟨market, bettor, outcomeIndex, 0, false⟩) ∨
      (b.positions.lookup bettor = some q ∧ q.outcomeIndex = outcomeIndex) := by
  unfold positionFor at h
  cases hp : b.positions.lookup bettor with
  | none =>
      simp only [hp, Option.getD_none, Position.zeroed, if_true, pure_eq_ok] at h
      exact .inl ⟨rfl, h.symm⟩
  | some p =>
      simp only [hp, Option.getD_some, if_neg (hb p hp), bind_eq_ok, require_eq_ok,
        pure_eq_ok] at h
      obtain ⟨_, ho, rfl⟩ := h
      exact .inr ⟨rfl, ho⟩

def addStake (m : Market D) (outcomeIndex outcomePool totalPool : ℕ) : Market D :=
  { m with
    outcomes := m.outcomes.modify outcomeIndex fun o => { o with pool := outcomePool }
    totalPool := totalPool }

def placeBet (w : World D) (ctx : PlaceBet) (outcomeIndex amount : ℕ) :
    Except Failure (World D) := do
  requireSigner ctx.bettor
  let b ← w.loadBook ctx.market
  let bettorToken ← w.tokenAccount ctx.bettorToken
  let _ ← w.tokenAccount ctx.vault
  require (ctx.bettorToken ≠ ctx.vault) (.anchor .duplicateMutableAccount)
  require (b.market.vault = ctx.vault) (.program .wrongVault)
  require (bettorToken.mint = b.market.usdcMint) (.program .wrongMint)
  require (bettorToken.owner = ctx.bettor) (.anchor .constraintRaw)
  require (0 < amount) (.program .zeroAmount)
  require (b.market.status = .opened) (.program .marketNotOpen)
  require (w.clock < b.market.lockTime) (.program .bettingClosed)
  require (outcomeIndex < b.market.outcomes.length) (.program .invalidOutcomeIndex)
  let position ← positionFor b ctx.market ctx.bettor outcomeIndex
  let w₁ ← w.transferTokens ctx.bettorToken ctx.vault ctx.bettor amount
  let positionTotal ← demand (checkedAddU64 position.amount amount) (.program .mathOverflow)
  let outcomePool ← demand (checkedAddU64 (b.market.pool outcomeIndex) amount)
    (.program .mathOverflow)
  let totalPool ← demand (checkedAddU64 b.market.totalPool amount) (.program .mathOverflow)
  pure (w₁.setBook ctx.market
    { b with
      market := addStake b.market outcomeIndex outcomePool totalPool
      positions := b.positions.insert ctx.bettor { position with amount := positionTotal } }
    [.betPlaced ctx.market ctx.bettor outcomeIndex amount positionTotal outcomePool totalPool])

/-- The book after a bet of a position that was looked up before it. -/
def betBook (b : Book D) (bettor : Pubkey) (position : Position) (outcomeIndex amount : ℕ) :
    Book D :=
  { b with
    market := addStake b.market outcomeIndex (b.market.pool outcomeIndex + amount)
      (b.market.totalPool + amount)
    positions := b.positions.insert bettor { position with amount := position.amount + amount } }

theorem betBook_lookup (b : Book D) (bettor o : Pubkey) (position : Position)
    (outcomeIndex amount : ℕ) :
    (betBook b bettor position outcomeIndex amount).positions.lookup o =
      if o = bettor then some { position with amount := position.amount + amount }
      else b.positions.lookup o := by
  unfold betBook
  split_ifs with h
  · subst h
    exact AList.lookup_insert _
  · exact AList.lookup_insert_ne h

structure BetChecks (w : World D) (ctx : PlaceBet) (outcomeIndex amount : ℕ) (b : Book D)
    (position : Position) : Prop where
  signer : ctx.bettor.canSign = true
  book : w.book? ctx.market = some b
  distinct : ctx.bettorToken ≠ ctx.vault
  vault : b.market.vault = ctx.vault
  positive : 0 < amount
  status : b.market.status = .opened
  early : w.clock < b.market.lockTime
  outcome : outcomeIndex < b.market.outcomes.length
  position : positionFor b ctx.market ctx.bettor outcomeIndex = .ok position
  token : w.ledger.title ctx.bettorToken = some (b.market.usdcMint, ctx.bettor)
  fits : b.market.totalPool + amount < u64Size

theorem placeBet_ok {w w' : World D} {ctx : PlaceBet} {outcomeIndex amount : ℕ}
    (h : placeBet w ctx outcomeIndex amount = .ok w') :
    ∃ b position l es, BetChecks w ctx outcomeIndex amount b position ∧
      w.ledger.transfer ctx.bettorToken ctx.vault ctx.bettor amount = .ok l ∧
      w' = (w.setLedger l).setBook ctx.market (betBook b ctx.bettor position outcomeIndex amount)
        es := by
  simp only [placeBet, requireSigner, World.loadBook, World.tokenAccount, World.transferTokens,
    bind_eq_ok, require_eq_ok, demand_eq_ok, mapError_eq_ok, pure_eq_ok,
    checkedAddU64_eq_some] at h
  obtain ⟨_, hs, b, hb, t, ht, _, _, _, hne, _, hv, _, hm, _, ho, _, ha, _, hst, _, he, _, hi,
    position, hp, _, ⟨l, hl, rfl⟩, _, ⟨_, rfl⟩, _, ⟨_, rfl⟩, _, ⟨hf, rfl⟩, rfl⟩ := h
  exact ⟨b, position, l, _, ⟨hs, hb, hne, hv, ha, hst, he, hi, hp, by
    rw [Ledger.title_of_lookup ht, hm, ho], hf⟩, hl, rfl⟩

/-! ## lock_market and cancel_market -/

structure Crank where
  market : Pubkey
  cranker : Pubkey
deriving Repr, DecidableEq

def withStatus (m : Market D) (status : MarketStatus) : Market D :=
  { m with status := status }

def lockMarket (w : World D) (ctx : Crank) : Except Failure (World D) := do
  let b ← w.loadBook ctx.market
  requireSigner ctx.cranker
  require (b.market.status = .opened) (.program .marketNotOpen)
  require (b.market.lockTime ≤ w.clock) (.program .tooEarlyToLock)
  pure (w.setBook ctx.market { b with market := withStatus b.market .locked }
    [.marketLocked ctx.market w.clock b.market.totalPool])

theorem lockMarket_ok {w w' : World D} {ctx : Crank} (h : lockMarket w ctx = .ok w') :
    ∃ b es, w.book? ctx.market = some b ∧ b.market.status = .opened ∧
      b.market.lockTime ≤ w.clock ∧
      w' = w.setBook ctx.market { b with market := withStatus b.market .locked } es := by
  simp only [lockMarket, requireSigner, World.loadBook, bind_eq_ok, require_eq_ok, demand_eq_ok,
    pure_eq_ok] at h
  obtain ⟨b, hb, _, _, _, hst, _, ht, rfl⟩ := h
  exact ⟨b, _, hb, hst, ht, rfl⟩

/-- Only a locked market can be resolved. -/
def requireLocked (status : MarketStatus) : Except Failure PUnit.{1} :=
  match status with
  | .locked => pure .unit
  | .settled | .cancelled => .error (.program .alreadyResolved)
  | .opened => .error (.program .notLocked)

@[simp] theorem requireLocked_eq_ok {status : MarketStatus} {u : PUnit.{1}} :
    requireLocked status = .ok u ↔ status = .locked := by
  cases status <;> simp [requireLocked, pure, Except.pure]

def cancelMarket (w : World D) (ctx : Crank) : Except Failure (World D) := do
  let b ← w.loadBook ctx.market
  requireSigner ctx.cranker
  requireLocked b.market.status
  let deadline ← demand (checkedAddI64 b.market.lockTime b.market.resolutionTimeout)
    (.program .mathOverflow)
  require (deadline < w.clock) (.program .tooEarlyToCancel)
  pure (w.setBook ctx.market { b with market := withStatus b.market .cancelled }
    [.marketCancelled ctx.market b.market.fixtureId "timeout" w.clock b.market.totalPool
      ctx.cranker])

/-- A locked market cancels once the clock is past its deadline. -/
theorem cancelMarket_succeeds {w : World D} {ctx : Crank} {b : Book D} {deadline : Int64}
    (hb : w.book? ctx.market = some b) (hs : ctx.cranker.canSign = true)
    (hst : b.market.status = .locked)
    (hd : checkedAddI64 b.market.lockTime b.market.resolutionTimeout = some deadline)
    (ht : deadline < w.clock) : ∃ w', cancelMarket w ctx = .ok w' := by
  simp [cancelMarket, requireSigner, require, World.loadBook, demand, requireLocked, bind,
    Except.bind, pure, Except.pure, hb, hs, hst, hd, ht]

theorem lockMarket_succeeds {w : World D} {ctx : Crank} {b : Book D}
    (hb : w.book? ctx.market = some b) (hs : ctx.cranker.canSign = true)
    (hst : b.market.status = .opened) (ht : b.market.lockTime ≤ w.clock) :
    ∃ w', lockMarket w ctx = .ok w' := by
  simp [lockMarket, requireSigner, require, World.loadBook, demand, bind, Except.bind, pure,
    Except.pure, hb, hs, hst, ht]

theorem cancelMarket_ok {w w' : World D} {ctx : Crank} (h : cancelMarket w ctx = .ok w') :
    ∃ b deadline es, w.book? ctx.market = some b ∧ b.market.status = .locked ∧
      checkedAddI64 b.market.lockTime b.market.resolutionTimeout = some deadline ∧
      deadline < w.clock ∧
      w' = w.setBook ctx.market { b with market := withStatus b.market .cancelled } es := by
  simp only [cancelMarket, requireSigner, World.loadBook, bind_eq_ok, require_eq_ok,
    demand_eq_ok, requireLocked_eq_ok, pure_eq_ok] at h
  obtain ⟨b, hb, _, _, _, hst, deadline, hd, _, ht, rfl⟩ := h
  exact ⟨b, deadline, _, hb, hst, hd, ht, rfl⟩

end ProofBook.Instructions.Betting
