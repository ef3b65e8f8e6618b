import ProofBook.Instructions.Settlement

/-!
# Paying out of a market's vault

Winnings, refunds and the fee. The last winning claim takes what is left of the
distributable pool, every earlier one the floor of its share.
-/
namespace ProofBook.Instructions.Payments
open Addresses State Checked OracleWire OracleAdapter TokenLedger Totals Chain PayoutMath

variable {D : Type}

/-- The accounts of a claim: the claimant and a token account of theirs. -/
structure Claim where
  user : Pubkey
  market : Pubkey
  vault : Pubkey
  userToken : Pubkey
deriving Repr, DecidableEq

/-- The account constraints that winnings and refunds share. -/
def loadClaim (w : World D) (ctx : Claim) : Except Failure (Book D × Position) := do
  requireSigner ctx.user
  let b ← w.loadBook ctx.market
  let position ← demand (b.positions.lookup ctx.user) (.anchor .accountNotInitialized)
  let _ ← w.tokenAccount ctx.vault
  let userToken ← w.tokenAccount ctx.userToken
  require (ctx.vault ≠ ctx.userToken) (.anchor .duplicateMutableAccount)
  require (b.market.vault = ctx.vault) (.program .wrongVault)
  require (position.owner = ctx.user) (.anchor .constraintRaw)
  require (userToken.mint = b.market.usdcMint) (.program .wrongMint)
  require (userToken.owner = ctx.user) (.anchor .constraintRaw)
  pure (b, position)

structure ClaimChecks (w : World D) (ctx : Claim) (b : Book D) (position : Position) : Prop where
  signer : ctx.user.canSign = true
  book : w.book? ctx.market = some b
  found : b.positions.lookup ctx.user = some position
  distinct : ctx.vault ≠ ctx.userToken
  vault : b.market.vault = ctx.vault
  owner : position.owner = ctx.user
  vaultExists : ∃ m o, w.ledger.title ctx.vault = some (m, o)
  userToken : w.ledger.title ctx.userToken = some (b.market.usdcMint, ctx.user)

theorem loadClaim_ok {w : World D} {ctx : Claim} {b : Book D} {position : Position} :
    loadClaim w ctx = .ok (b, position) ↔ ClaimChecks w ctx b position := by
  simp only [loadClaim, requireSigner, World.loadBook, World.tokenAccount, bind_eq_ok,
    require_eq_ok, demand_eq_ok, pure_eq_ok, Prod.mk.injEq]
  constructor
  · rintro ⟨_, hs, b, hb, p, hp, v, hv, t, ht, _, hne, _, hmv, _, ho, _, hm, _, hto, rfl, rfl⟩
    exact ⟨hs, hb, hp, hne, hmv, ho, ⟨_, _, Ledger.title_of_lookup hv⟩,
      by rw [Ledger.title_of_lookup ht, hm, hto]⟩
  · rintro ⟨hs, hb, hp, hne, hmv, ho, ⟨m, o, hv⟩, ht⟩
    exact ⟨.unit, hs, b, hb, position, hp, _, Ledger.lookup_of_title hv, _,
      Ledger.lookup_of_title ht, .unit, hne, .unit, hmv, .unit, ho, .unit, rfl, .unit, rfl,
      rfl, rfl⟩

/-! ## claim_winnings -/

/-- What a winning stake is paid, with the running sum of claimed stakes. -/
def claimPayout (m : Market D) (stake : ℕ) : Except ProofbookError (ℕ × ℕ) := do
  let newClaimed ← demand (checkedAddU64 m.winningStakeClaimed stake) .mathOverflow
  let distributable ← distributablePool m.totalPool m.feeBps
  let payout ← if newClaimed = m.totalWinningPool then
      demand (checkedSubU64 distributable m.paidOut) .mathUnderflow
    else payout stake m.totalPool m.totalWinningPool m.feeBps
  pure (newClaimed, payout)

def markClaimed (b : Book D) (user : Pubkey) (position : Position) : Book D :=
  { b with positions := b.positions.insert user { position with claimed := true } }

theorem markClaimed_lookup (b : Book D) (user o : Pubkey) (position : Position) :
    (markClaimed b user position).positions.lookup o =
      if o = user then some { position with claimed := true } else b.positions.lookup o := by
  unfold markClaimed
  split_ifs with h
  · subst h
    exact AList.lookup_insert _
  · exact AList.lookup_insert_ne h

def countClaim (m : Market D) (newClaimed paidOut : ℕ) : Market D :=
  { m with paidOut := paidOut, winningStakeClaimed := newClaimed }

def claimWinnings (w : World D) (ctx : Claim) : Except Failure (World D) := do
  let (b, position) ← loadClaim w ctx
  require (b.market.status = .settled) (.program .notSettled)
  require (position.claimed = false) (.program .alreadyClaimed)
  require (position.outcomeIndex = b.market.winningOutcome) (.program .notAWinningPosition)
  require (0 < b.market.totalWinningPool) (.program .zeroWinningPool)
  let (newClaimed, payout) ← mapError .program (claimPayout b.market position.amount)
  let w₁ ← w.transferTokens ctx.vault ctx.userToken ctx.market payout
  let paidOut ← demand (checkedAddU64 b.market.paidOut payout) (.program .mathOverflow)
  pure (w₁.setBook ctx.market
    { markClaimed b ctx.user position with market := countClaim b.market newClaimed paidOut }
    [.winningsClaimed ctx.market ctx.user position.outcomeIndex position.amount payout
      (newClaimed = b.market.totalWinningPool)])

structure WinnerChecks (b : Book D) (position : Position) : Prop where
  status : b.market.status = .settled
  unclaimed : position.claimed = false
  winning : position.outcomeIndex = b.market.winningOutcome
  staked : 0 < b.market.totalWinningPool

theorem claimWinnings_ok {w w' : World D} {ctx : Claim} (h : claimWinnings w ctx = .ok w') :
    ∃ b position newClaimed payout l es, ClaimChecks w ctx b position ∧
      WinnerChecks b position ∧
      claimPayout b.market position.amount = .ok (newClaimed, payout) ∧
      w.ledger.transfer ctx.vault ctx.userToken ctx.market payout = .ok l ∧
      w' = (w.setLedger l).setBook ctx.market
        { markClaimed b ctx.user position with
          market := countClaim b.market newClaimed (b.market.paidOut + payout) } es := by
  simp only [claimWinnings, World.transferTokens, bind_eq_ok, require_eq_ok, demand_eq_ok,
    mapError_eq_ok, pure_eq_ok, checkedAddU64_eq_some] at h
  obtain ⟨⟨b, p⟩, hc, _, h₁, _, h₂, _, h₃, _, h₄, ⟨nc, py⟩, hp, _, ⟨l, hl, rfl⟩, _, ⟨_, rfl⟩,
    rfl⟩ := h
  exact ⟨b, p, nc, py, l, _, loadClaim_ok.mp hc, ⟨h₁, h₂, h₃, h₄⟩, hp, hl, rfl⟩

/-! ## claim_refund -/

def claimRefund (w : World D) (ctx : Claim) : Except Failure (World D) := do
  let (b, position) ← loadClaim w ctx
  require (b.market.status = .cancelled) (.program .notCancelled)
  require (position.claimed = false) (.program .alreadyClaimed)
  let w₁ ← w.transferTokens ctx.vault ctx.userToken ctx.market position.amount
  pure (w₁.setBook ctx.market (markClaimed b ctx.user position)
    [.refundClaimed ctx.market ctx.user position.outcomeIndex position.amount])

theorem claimRefund_ok {w w' : World D} {ctx : Claim} (h : claimRefund w ctx = .ok w') :
    ∃ b position l es, ClaimChecks w ctx b position ∧ b.market.status = .cancelled ∧
      position.claimed = false ∧
      w.ledger.transfer ctx.vault ctx.userToken ctx.market position.amount = .ok l ∧
      w' = (w.setLedger l).setBook ctx.market (markClaimed b ctx.user position) es := by
  simp only [claimRefund, World.transferTokens, bind_eq_ok, require_eq_ok, mapError_eq_ok,
    pure_eq_ok] at h
  obtain ⟨⟨b, p⟩, hc, _, h₁, _, h₂, _, ⟨l, hl, rfl⟩, rfl⟩ := h
  exact ⟨b, p, l, _, loadClaim_ok.mp hc, h₁, h₂, hl, rfl⟩

/-- With the checks met and a covered, conserved ledger the refund goes through. -/
theorem claimRefund_succeeds {w : World D} {ctx : Claim} {b : Book D} {position : Position}
    (hc : ClaimChecks w ctx b position) (hst : b.market.status = .cancelled)
    (hu : position.claimed = false) {l : Ledger Pubkey}
    (hl : w.ledger.transfer ctx.vault ctx.userToken ctx.market position.amount = .ok l) :
    ∃ w', claimRefund w ctx = .ok w' := by
  simp [claimRefund, loadClaim_ok.mpr hc, require, World.transferTokens, mapError, bind,
    Except.bind, pure, Except.pure, hst, hu, hl]

/-! ## withdraw_fees -/

structure WithdrawFees where
  caller : Pubkey
  market : Pubkey
  vault : Pubkey
  feeTreasury : Pubkey
  feeTreasuryToken : Pubkey
deriving Repr, DecidableEq

def withdrawFees (w : World D) (ctx : WithdrawFees) : Except Failure (World D) := do
  requireSigner ctx.caller
  let b ← w.loadBook ctx.market
  let _ ← w.tokenAccount ctx.vault
  let treasuryToken ← w.tokenAccount ctx.feeTreasuryToken
  require (ctx.vault ≠ ctx.feeTreasuryToken) (.anchor .duplicateMutableAccount)
  require (b.market.vault = ctx.vault) (.program .wrongVault)
  require (b.market.feeTreasury = ctx.feeTreasury) (.program .wrongFeeTreasury)
  require (treasuryToken.mint = b.market.usdcMint) (.program .wrongMint)
  require (treasuryToken.owner = ctx.feeTreasury) (.program .wrongFeeTreasury)
  require (b.market.status = .settled) (.program .notSettled)
  require (b.market.feeWithdrawn = false) (.program .feesAlreadyWithdrawn)
  require (0 < b.market.feeAmount) (.program .nothingToWithdraw)
  let w₁ ← w.transferTokens ctx.vault ctx.feeTreasuryToken ctx.market b.market.feeAmount
  pure (w₁.setBook ctx.market { b with market := { b.market with feeWithdrawn := true } }
    [.feesWithdrawn ctx.market ctx.feeTreasury b.market.feeAmount])

structure FeeChecks (w : World D) (ctx : WithdrawFees) (b : Book D) : Prop where
  book : w.book? ctx.market = some b
  distinct : ctx.vault ≠ ctx.feeTreasuryToken
  vault : b.market.vault = ctx.vault
  treasury : b.market.feeTreasury = ctx.feeTreasury
  treasuryToken : w.ledger.title ctx.feeTreasuryToken = some (b.market.usdcMint, ctx.feeTreasury)
  status : b.market.status = .settled
  fresh : b.market.feeWithdrawn = false
  positive : 0 < b.market.feeAmount

theorem withdrawFees_ok {w w' : World D} {ctx : WithdrawFees}
    (h : withdrawFees w ctx = .ok w') :
    ∃ b l es, FeeChecks w ctx b ∧
      w.ledger.transfer ctx.vault ctx.feeTreasuryToken ctx.market b.market.feeAmount = .ok l ∧
      w' = (w.setLedger l).setBook ctx.market
        { b with market := { b.market with feeWithdrawn := true } } es := by
  simp only [withdrawFees, requireSigner, World.loadBook, World.tokenAccount,
    World.transferTokens, bind_eq_ok, require_eq_ok, demand_eq_ok, mapError_eq_ok,
    pure_eq_ok] at h
  obtain ⟨_, _, b, hb, v, _, t, ht, _, hne, _, hv, _, htr, _, hm, _, ho, _, hst, _, hf, _, hp, _,
    ⟨l, hl, rfl⟩, rfl⟩ := h
  exact ⟨b, l, _, ⟨hb, hne, hv, htr, by rw [Ledger.title_of_lookup ht, hm, ho], hst, hf, hp⟩, hl,
    rfl⟩

end ProofBook.Instructions.Payments
