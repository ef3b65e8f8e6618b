import ProofBook.Instructions.Payments

/-!
# Parametric prop vaults

One escrowed sum with two destinations. A proof moves the whole balance to the
beneficiary or back to the depositor; after the timeout anyone may move it back.
-/
namespace ProofBook.Instructions.PropVaults
open Addresses State Checked OracleWire OracleAdapter TokenLedger Totals Chain Betting

variable {D : Type}

/-! ## initialize_prop_vault -/

structure InitializePropVault where
  depositor : Pubkey
  usdcMint : Pubkey
  depositorToken : Pubkey
deriving Repr, DecidableEq

structure PropVaultParams where
  vaultId : ℕ
  legs : List StatLeg
  predicates : List LegPredicate
  fixtureId : Int64
  amount : ℕ
  beneficiary : Pubkey
  lockTime : Int64
  resolutionTimeout : Int64
deriving Repr, DecidableEq

def InitializePropVault.vaultKey (ctx : InitializePropVault) (p : PropVaultParams) : Pubkey :=
  .propVault ctx.depositor p.vaultId

def newPropVault [Inhabited D] (O : OracleProgram D) (ctx : InitializePropVault)
    (p : PropVaultParams) : PropVault D where
  depositor := ctx.depositor
  beneficiary := p.beneficiary
  vaultId := p.vaultId
  fixtureId := p.fixtureId
  usdcMint := ctx.usdcMint
  vault := .vault (ctx.vaultKey p)
  amount := p.amount
  status := .funded
  legs := p.legs
  predicates := p.predicates
  lockTime := p.lockTime
  resolutionTimeout := p.resolutionTimeout
  oracleProgram := O.programId
  settledAt := 0
  settleProofRef := default
  settleProofTs := 0
  settleEpochDay := 0
  settleDailyRoots := .default
  settleResolver := .default

def initializePropVault [Inhabited D] (O : OracleProgram D) (w : World D)
    (ctx : InitializePropVault) (p : PropVaultParams) : Except Failure (World D) := do
  requireSigner ctx.depositor
  let depositorToken ← w.tokenAccount ctx.depositorToken
  require (w.propVault? (ctx.vaultKey p) = none) (.anchor .accountAlreadyInUse)
  let l ← mapError .token
    (w.ledger.initializeAccount (.vault (ctx.vaultKey p)) ctx.usdcMint (ctx.vaultKey p))
  require (depositorToken.mint = ctx.usdcMint) (.program .wrongMint)
  require (depositorToken.owner = ctx.depositor) (.program .wrongMint)
  require (0 < p.amount) (.program .zeroAmount)
  require (0 < p.fixtureId) (.program .invalidFixtureId)
  require (p.beneficiary ≠ ctx.depositor) (.program .selfHedgeVault)
  require (0 < p.resolutionTimeout) (.program .invalidResolutionTimeout)
  require (w.clock < p.lockTime) (.program .lockTimeInPast)
  mapError .program (newPropVault O ctx p).validate
  let w₁ ← (w.setLedger l).transferTokens ctx.depositorToken (.vault (ctx.vaultKey p))
    ctx.depositor p.amount
  pure (w₁.setPropVault (ctx.vaultKey p) (newPropVault O ctx p)
    [.propVaultCreated (ctx.vaultKey p) ctx.depositor p.beneficiary p.fixtureId p.amount
      p.legs.length p.lockTime])

/-- What a funded vault satisfied when it was created. -/
structure PropVaultParams.Accepted (now : Int64) (ctx : InitializePropVault)
    (p : PropVaultParams) : Prop where
  positive : 0 < p.amount
  fixture : 0 < p.fixtureId
  beneficiary : p.beneficiary ≠ ctx.depositor
  timeout : 0 < p.resolutionTimeout
  future : now < p.lockTime

theorem initializePropVault_ok [Inhabited D] {O : OracleProgram D} {w w' : World D}
    {ctx : InitializePropVault} {p : PropVaultParams}
    (h : initializePropVault O w ctx p = .ok w') :
    ctx.depositor.canSign = true ∧ w.propVault? (ctx.vaultKey p) = none ∧
      p.Accepted w.clock ctx ∧ (newPropVault O ctx p).validate = .ok .unit ∧
      w.ledger.title ctx.depositorToken = some (ctx.usdcMint, ctx.depositor) ∧
      ∃ l₁ l es,
        w.ledger.initializeAccount (.vault (ctx.vaultKey p)) ctx.usdcMint (ctx.vaultKey p) =
          .ok l₁ ∧
        l₁.transfer ctx.depositorToken (.vault (ctx.vaultKey p)) ctx.depositor p.amount = .ok l ∧
        w' = (w.setLedger l).setPropVault (ctx.vaultKey p) (newPropVault O ctx p) es := by
  simp only [initializePropVault, requireSigner, World.tokenAccount, World.transferTokens,
    bind_eq_ok, require_eq_ok, demand_eq_ok, mapError_eq_ok, pure_eq_ok] at h
  obtain ⟨_, hs, t, ht, _, hn, l₁, hl₁, _, hm, _, ho, _, h₁, _, h₂, _, h₃, _, h₄, _, h₅, _, hv, _,
    ⟨l, hl, rfl⟩, rfl⟩ := h
  exact ⟨hs, hn, ⟨h₁, h₂, h₃, h₄, h₅⟩, hv, by rw [Ledger.title_of_lookup ht, hm, ho], l₁, l, _,
    hl₁, hl, rfl⟩

/-! ## settle_prop_vault and cancel_prop_vault -/

/-- The whole balance leaves in one transfer; an empty vault needs none. -/
def sweep (w : World D) (vault destination authority : Pubkey) : Except Failure (World D) :=
  if 0 < w.ledger.balance vault then
    w.transferTokens vault destination authority (w.ledger.balance vault)
  else pure w

theorem sweep_ok {w w₁ : World D} {vault destination authority : Pubkey}
    (h : sweep w vault destination authority = .ok w₁) :
    (w.ledger.balance vault = 0 ∧ w₁ = w) ∨ (0 < w.ledger.balance vault ∧
      ∃ l, w.ledger.transfer vault destination authority (w.ledger.balance vault) = .ok l ∧
        w₁ = w.setLedger l) := by
  unfold sweep at h
  split_ifs at h with hp
  · simp only [World.transferTokens, bind_eq_ok, mapError_eq_ok, pure_eq_ok] at h
    obtain ⟨l, hl, rfl⟩ := h
    exact .inr ⟨hp, l, hl, rfl⟩
  · simp only [pure_eq_ok] at h
    exact .inl ⟨by omega, h.symm⟩

theorem sweep_succeeds {w : World D} {vault destination authority : Pubkey} {l : Ledger Pubkey}
    (hp : 0 < w.ledger.balance vault)
    (hl : w.ledger.transfer vault destination authority (w.ledger.balance vault) = .ok l) :
    sweep w vault destination authority = .ok (w.setLedger l) := by
  simp [sweep, hp, World.transferTokens, mapError, bind, Except.bind, pure, Except.pure, hl]

structure SettlePropVault where
  cranker : Pubkey
  propVault : Pubkey
  vault : Pubkey
  beneficiaryToken : Pubkey
  depositorToken : Pubkey
  oracleProgram : Pubkey
  oracleRoots : Pubkey
deriving Repr, DecidableEq

def SettlePropVault.destination (ctx : SettlePropVault) (holds : Bool) : Pubkey :=
  if holds then ctx.beneficiaryToken else ctx.depositorToken

def resolveVault (v : PropVault D) (now : Int64) (ctx : SettlePropVault)
    (proof : SettlementProofV3 D) (holds : Bool) : PropVault D :=
  { v with
    status := if holds then .paidOut else .refunded
    settledAt := now
    settleProofRef := proof.fixtureSummary.eventsSubTreeRoot
    settleProofTs := proof.ts
    settleEpochDay := epochDayOf proof.ts
    settleDailyRoots := ctx.oracleRoots
    settleResolver := ctx.cranker }

def settlePropVault (O : OracleProgram D) (w : World D) (ctx : SettlePropVault)
    (proof : SettlementProofV3 D) : Except Failure (World D) := do
  requireSigner ctx.cranker
  let v ← w.loadPropVault ctx.propVault
  let _ ← w.tokenAccount ctx.vault
  let beneficiaryToken ← w.tokenAccount ctx.beneficiaryToken
  let depositorToken ← w.tokenAccount ctx.depositorToken
  require (ctx.vault ≠ ctx.beneficiaryToken ∧ ctx.vault ≠ ctx.depositorToken ∧
    ctx.beneficiaryToken ≠ ctx.depositorToken) (.anchor .duplicateMutableAccount)
  require (v.oracleProgram = ctx.oracleProgram) (.program .wrongOracleProgram)
  require (v.vault = ctx.vault) (.program .wrongVault)
  require (beneficiaryToken.owner = v.beneficiary) (.program .wrongBeneficiary)
  require (beneficiaryToken.mint = v.usdcMint) (.program .wrongMint)
  require (depositorToken.owner = v.depositor) (.program .wrongDepositor)
  require (depositorToken.mint = v.usdcMint) (.program .wrongMint)
  require (v.status = .funded) (.program .alreadyResolved)
  require (v.lockTime ≤ w.clock) (.program .tooEarlyToLock)
  require (ctx.oracleProgram = O.programId) (.program .oracleAdapterMismatch)
  let holds ← buildAndVerifyV3Legs O w.rootsView ctx.oracleProgram ctx.oracleRoots v.fixtureId
    v.legs v.predicates proof
  let w₁ ← sweep w ctx.vault (ctx.destination holds) ctx.propVault
  pure (w₁.setPropVault ctx.propVault (resolveVault v w.clock ctx proof holds)
    [.propVaultResolved ctx.propVault v.fixtureId holds
      (if holds then v.beneficiary else v.depositor) (w.ledger.balance ctx.vault)
      proof.fixtureSummary.eventsSubTreeRoot proof.ts ctx.oracleRoots ctx.cranker w.clock])

structure SettleChecks (O : OracleProgram D) (w : World D) (ctx : SettlePropVault)
    (v : PropVault D) (proof : SettlementProofV3 D) (holds : Bool) : Prop where
  propVault : w.propVault? ctx.propVault = some v
  vault : v.vault = ctx.vault
  distinct : ∀ holds, ctx.vault ≠ ctx.destination holds
  beneficiaryToken : w.ledger.title ctx.beneficiaryToken = some (v.usdcMint, v.beneficiary)
  depositorToken : w.ledger.title ctx.depositorToken = some (v.usdcMint, v.depositor)
  status : v.status = .funded
  late : v.lockTime ≤ w.clock
  verdict : buildAndVerifyV3Legs O w.rootsView O.programId ctx.oracleRoots v.fixtureId v.legs
    v.predicates proof = .ok holds

theorem settlePropVault_ok {O : OracleProgram D} {w w' : World D} {ctx : SettlePropVault}
    {proof : SettlementProofV3 D} (h : settlePropVault O w ctx proof = .ok w') :
    ∃ v holds w₁ es, SettleChecks O w ctx v proof holds ∧
      sweep w ctx.vault (ctx.destination holds) ctx.propVault = .ok w₁ ∧
      w' = w₁.setPropVault ctx.propVault (resolveVault v w.clock ctx proof holds) es := by
  simp only [settlePropVault, requireSigner, World.loadPropVault, World.tokenAccount, bind_eq_ok,
    require_eq_ok, demand_eq_ok, pure_eq_ok] at h
  obtain ⟨_, _, v, hv, _, _, b, hb, d, hd, _, ⟨hne₁, hne₂, _⟩, _, _, _, hvv, _, hbo, _, hbm, _,
    hdo, _, hdm, _, hst, _, hlt, _, hp, holds, hh, w₁, hw, rfl⟩ := h
  rw [hp] at hh
  refine ⟨v, holds, w₁, _, ⟨hv, hvv, ?_, ?_, ?_, hst, hlt, hh⟩, hw, rfl⟩
  · intro holds
    cases holds
    · exact hne₂
    · exact hne₁
  · rw [Ledger.title_of_lookup hb, hbm, hbo]
  · rw [Ledger.title_of_lookup hd, hdm, hdo]

structure CancelPropVault where
  canceller : Pubkey
  propVault : Pubkey
  vault : Pubkey
  depositorToken : Pubkey
deriving Repr, DecidableEq

def expireVault (v : PropVault D) (now : Int64) : PropVault D :=
  { v with status := .refunded, settledAt := now }

def cancelPropVault [Inhabited D] (w : World D) (ctx : CancelPropVault) :
    Except Failure (World D) := do
  requireSigner ctx.canceller
  let v ← w.loadPropVault ctx.propVault
  let _ ← w.tokenAccount ctx.vault
  let depositorToken ← w.tokenAccount ctx.depositorToken
  require (ctx.vault ≠ ctx.depositorToken) (.anchor .duplicateMutableAccount)
  require (v.vault = ctx.vault) (.program .wrongVault)
  require (depositorToken.owner = v.depositor) (.program .wrongDepositor)
  require (depositorToken.mint = v.usdcMint) (.program .wrongMint)
  require (v.status = .funded) (.program .alreadyResolved)
  let deadline ← demand (checkedAddI64 v.lockTime v.resolutionTimeout) (.program .mathOverflow)
  require (deadline < w.clock) (.program .tooEarlyToCancel)
  let w₁ ← sweep w ctx.vault ctx.depositorToken ctx.propVault
  pure (w₁.setPropVault ctx.propVault (expireVault v w.clock)
    [.propVaultResolved ctx.propVault v.fixtureId false v.depositor
      (w.ledger.balance ctx.vault) default 0 .default ctx.canceller w.clock])

structure ExpireChecks (w : World D) (ctx : CancelPropVault) (v : PropVault D)
    (deadline : Int64) : Prop where
  propVault : w.propVault? ctx.propVault = some v
  vault : v.vault = ctx.vault
  distinct : ctx.vault ≠ ctx.depositorToken
  depositorToken : w.ledger.title ctx.depositorToken = some (v.usdcMint, v.depositor)
  status : v.status = .funded
  sum : checkedAddI64 v.lockTime v.resolutionTimeout = some deadline
  late : deadline < w.clock

theorem cancelPropVault_ok [Inhabited D] {w w' : World D} {ctx : CancelPropVault}
    (h : cancelPropVault w ctx = .ok w') :
    ∃ v deadline w₁ es, ExpireChecks w ctx v deadline ∧
      sweep w ctx.vault ctx.depositorToken ctx.propVault = .ok w₁ ∧
      w' = w₁.setPropVault ctx.propVault (expireVault v w.clock) es := by
  simp only [cancelPropVault, requireSigner, World.loadPropVault, World.tokenAccount, bind_eq_ok,
    require_eq_ok, demand_eq_ok, pure_eq_ok] at h
  obtain ⟨_, _, v, hv, _, _, d, hd, _, hne, _, hvv, _, hdo, _, hdm, _, hst, deadline, hdl, _, hlt,
    w₁, hw, rfl⟩ := h
  exact ⟨v, deadline, w₁, _, ⟨hv, hvv, hne, by rw [Ledger.title_of_lookup hd, hdm, hdo], hst, hdl,
    hlt⟩, hw, rfl⟩

/-- A funded vault expires once the clock is past its deadline, if the sweep of
its escrow goes through. -/
theorem cancelPropVault_succeeds [Inhabited D] {w w₁ : World D} {ctx : CancelPropVault}
    {v : PropVault D} {deadline : Int64} (hs : ctx.canceller.canSign = true)
    (hx : ∃ m o, w.ledger.title ctx.vault = some (m, o)) (hc : ExpireChecks w ctx v deadline)
    (hsweep : sweep w ctx.vault ctx.depositorToken ctx.propVault = .ok w₁) :
    ∃ w', cancelPropVault w ctx = .ok w' := by
  obtain ⟨m, o, hx⟩ := hx
  simp [cancelPropVault, requireSigner, require, World.loadPropVault, World.tokenAccount, demand,
    bind, Except.bind, pure, Except.pure, hs, hc.propVault, Ledger.lookup_of_title hx,
    Ledger.lookup_of_title hc.depositorToken, hc.distinct, hc.vault, hc.status, hc.sum, hc.late,
    hsweep]

end ProofBook.Instructions.PropVaults
