import ProofBook.Instructions.Betting

/-!
# Settling a market

Both settle paths check the state gate and the oracle's verdict and then write
the same receipt. A proven outcome nobody staked cancels the market instead.
-/
namespace ProofBook.Instructions.Settlement
open Addresses State Checked OracleWire OracleAdapter TokenLedger Totals Chain Betting PayoutMath

variable {D : Type}

/-! ## initialize_combo_spec -/

structure InitializeComboSpec where
  authority : Pubkey
  market : Pubkey
deriving Repr, DecidableEq

def initializeComboSpec (w : World D) (ctx : InitializeComboSpec) (legs : List StatLeg)
    (outcomes : List ComboOutcome) : Except Failure (World D) := do
  requireSigner ctx.authority
  let b ← w.loadBook ctx.market
  require (b.comboSpec = none) (.anchor .accountAlreadyInUse)
  require (b.market.authority = ctx.authority) (.program .wrongComboSpec)
  require (comboMarketTypeMin ≤ b.market.marketType) (.program .notAComboMarket)
  require (b.market.status = .opened) (.program .marketNotOpen)
  let spec : ComboSpec := ⟨ctx.market, legs, outcomes⟩
  mapError .program (spec.validate b.market.numOutcomes)
  pure (w.setBook ctx.market { b with comboSpec := some spec }
    [.comboSpecCreated ctx.market (.combo ctx.market) b.market.fixtureId b.market.marketType
      legs.length outcomes.length])

structure AttachChecks (w : World D) (ctx : InitializeComboSpec) (spec : ComboSpec)
    (b : Book D) : Prop where
  signer : ctx.authority.canSign = true
  book : w.book? ctx.market = some b
  fresh : b.comboSpec = none
  authority : b.market.authority = ctx.authority
  compound : comboMarketTypeMin ≤ b.market.marketType
  status : b.market.status = .opened
  valid : spec.validate b.market.numOutcomes = .ok .unit

theorem initializeComboSpec_ok {w w' : World D} {ctx : InitializeComboSpec}
    {legs : List StatLeg} {outcomes : List ComboOutcome}
    (h : initializeComboSpec w ctx legs outcomes = .ok w') :
    ∃ b es, AttachChecks w ctx ⟨ctx.market, legs, outcomes⟩ b ∧
      w' = w.setBook ctx.market { b with comboSpec := some ⟨ctx.market, legs, outcomes⟩ } es := by
  simp only [initializeComboSpec, requireSigner, World.loadBook, bind_eq_ok, require_eq_ok,
    demand_eq_ok, mapError_eq_ok, pure_eq_ok] at h
  obtain ⟨_, hs, b, hb, _, hn, _, ha, _, hc, _, hst, _, hv, rfl⟩ := h
  exact ⟨b, _, ⟨hs, hb, hn, ha, hc, hst, hv⟩, rfl⟩

/-- The authority can attach any valid spec while the market is open and has
none. -/
theorem initializeComboSpec_succeeds {w : World D} {ctx : InitializeComboSpec}
    {legs : List StatLeg} {outcomes : List ComboOutcome} {b : Book D}
    (h : AttachChecks w ctx ⟨ctx.market, legs, outcomes⟩ b) :
    ∃ w', initializeComboSpec w ctx legs outcomes = .ok w' := by
  simp [initializeComboSpec, requireSigner, require, World.loadBook, demand, mapError, bind,
    Except.bind, pure, Except.pure, h.signer, h.book, h.fresh, h.authority, h.compound, h.status,
    h.valid]

/-! ## settle_market and settle_market_v3 -/

structure SettleMarket where
  cranker : Pubkey
  market : Pubkey
  oracleProgram : Pubkey
  oracleRoots : Pubkey
deriving Repr, DecidableEq

/-- What both settle paths write besides the status and the money fields. -/
structure Receipt (D : Type) where
  outcome : ℕ
  settledAt : Int64
  proofRef : D
  proofTs : Int64
  dailyRoots : Pubkey
  resolver : Pubkey
deriving Repr, DecidableEq

/-- A proven outcome with an empty pool makes the market refundable. -/
def recordSettlement (m : Market D) (r : Receipt D) : Except ProofbookError (Market D) := do
  let recorded : Market D :=
    { m with
      winningOutcome := r.outcome
      settledAt := r.settledAt
      settleProofRef := r.proofRef
      settleProofTs := r.proofTs
      settleEpochDay := epochDayOf r.proofTs
      settleDailyRoots := r.dailyRoots
      settleResolver := r.resolver }
  if m.pool r.outcome = 0 then
    pure { recorded with status := .cancelled, totalWinningPool := 0, feeAmount := 0 }
  else do
    let feeAmount ← feeAmount m.totalPool m.feeBps
    pure { recorded with
      status := .settled, totalWinningPool := m.pool r.outcome, feeAmount := feeAmount }

def settlementEvents (O : OracleProgram D) (key : Pubkey) (m : Market D) (r : Receipt D)
    (verified : Bool) : List (Event D) :=
  let refundable := decide (m.status = .cancelled)
  .marketSettled key m.fixtureId r.outcome m.oracleProgram O.label m.settleProofRef r.proofTs
      m.settleEpochDay r.dailyRoots r.resolver verified refundable m.totalPool
      m.totalWinningPool m.feeAmount r.settledAt ::
    if refundable then
      [.marketCancelled key m.fixtureId "zero_winning_pool" r.settledAt m.totalPool r.resolver]
    else []

/-- The state gate both settle paths share. -/
def settleGate (O : OracleProgram D) (b : Book D) (ctx : SettleMarket) (claimedOutcome : ℕ)
    (compound : Bool) : Except Failure PUnit.{1} := do
  requireSigner ctx.cranker
  require (b.market.oracleProgram = ctx.oracleProgram) (.program .wrongOracleProgram)
  requireLocked b.market.status
  require (claimedOutcome < b.market.outcomes.length) (.program .invalidOutcomeIndex)
  if compound then
    require (comboMarketTypeMin ≤ b.market.marketType) (.program .notAComboMarket)
  else
    require (b.market.marketType < comboMarketTypeMin) (.program .comboRequiresV3)
  require (ctx.oracleProgram = O.programId) (.program .oracleAdapterMismatch)

def settleMarket (O : OracleProgram D) (w : World D) (ctx : SettleMarket) (claimedOutcome : ℕ)
    (proof : SettlementProof D) : Except Failure (World D) := do
  let b ← w.loadBook ctx.market
  settleGate O b ctx claimedOutcome false
  let verified ← buildAndVerify O w.rootsView ctx.oracleProgram ctx.oracleRoots b.market
    claimedOutcome proof
  require (verified = true) (.program .outcomeNotVerified)
  let receipt : Receipt D := ⟨claimedOutcome, w.clock, proof.fixtureSummary.eventsSubTreeRoot,
    proof.ts, ctx.oracleRoots, ctx.cranker⟩
  let market ← mapError .program (recordSettlement b.market receipt)
  pure (w.setBook ctx.market { b with market := market }
    (settlementEvents O ctx.market market receipt verified))

def settleMarketV3 (O : OracleProgram D) (w : World D) (ctx : SettleMarket)
    (claimedOutcome : ℕ) (proof : SettlementProofV3 D) : Except Failure (World D) := do
  let b ← w.loadBook ctx.market
  let spec ← demand b.comboSpec (.anchor .accountNotInitialized)
  require (spec.market = ctx.market) (.program .wrongComboSpec)
  settleGate O b ctx claimedOutcome true
  let verified ← buildAndVerifyV3 O w.rootsView ctx.oracleProgram ctx.oracleRoots b.market spec
    claimedOutcome proof
  require (verified = true) (.program .outcomeNotVerified)
  let receipt : Receipt D := ⟨claimedOutcome, w.clock, proof.fixtureSummary.eventsSubTreeRoot,
    proof.ts, ctx.oracleRoots, ctx.cranker⟩
  let market ← mapError .program (recordSettlement b.market receipt)
  pure (w.setBook ctx.market { b with market := market }
    (settlementEvents O ctx.market market receipt verified))

structure GateChecks (O : OracleProgram D) (b : Book D) (ctx : SettleMarket)
    (claimedOutcome : ℕ) : Prop where
  pinned : b.market.oracleProgram = O.programId
  oracle : ctx.oracleProgram = O.programId
  status : b.market.status = .locked
  outcome : claimedOutcome < b.market.outcomes.length

theorem settleGate_ok {O : OracleProgram D} {b : Book D} {ctx : SettleMarket}
    {claimedOutcome : ℕ} {compound : Bool} {u : PUnit.{1}}
    (h : settleGate O b ctx claimedOutcome compound = .ok u) :
    GateChecks O b ctx claimedOutcome ∧
      (compound = true ↔ comboMarketTypeMin ≤ b.market.marketType) := by
  cases compound <;>
    simp only [settleGate, requireSigner, bind_eq_ok, require_eq_ok, requireLocked_eq_ok,
      if_true, Bool.false_eq_true, if_false] at h <;>
    obtain ⟨_, _, _, hpin, _, hst, _, ho, _, hc, hp⟩ := h
  · exact ⟨⟨hpin.trans hp, hp, hst, ho⟩, by simpa using hc⟩
  · exact ⟨⟨hpin.trans hp, hp, hst, ho⟩, by simpa using hc⟩

theorem settleMarket_ok {O : OracleProgram D} {w w' : World D} {ctx : SettleMarket}
    {claimedOutcome : ℕ} {proof : SettlementProof D}
    (h : settleMarket O w ctx claimedOutcome proof = .ok w') :
    ∃ b market es, w.book? ctx.market = some b ∧ GateChecks O b ctx claimedOutcome ∧
      b.market.marketType < comboMarketTypeMin ∧
      buildAndVerify O w.rootsView O.programId ctx.oracleRoots b.market claimedOutcome proof =
        .ok true ∧
      recordSettlement b.market ⟨claimedOutcome, w.clock, proof.fixtureSummary.eventsSubTreeRoot,
        proof.ts, ctx.oracleRoots, ctx.cranker⟩ = .ok market ∧
      w' = w.setBook ctx.market { b with market := market } es := by
  simp only [settleMarket, World.loadBook, bind_eq_ok, require_eq_ok, demand_eq_ok,
    mapError_eq_ok, pure_eq_ok] at h
  obtain ⟨b, hb, _, hg, verified, hv, _, rfl, market, hm, rfl⟩ := h
  obtain ⟨hg, hc⟩ := settleGate_ok hg
  rw [hg.oracle] at hv
  exact ⟨b, market, _, hb, hg, by simpa using hc, hv, hm, rfl⟩

theorem settleMarketV3_ok {O : OracleProgram D} {w w' : World D} {ctx : SettleMarket}
    {claimedOutcome : ℕ} {proof : SettlementProofV3 D}
    (h : settleMarketV3 O w ctx claimedOutcome proof = .ok w') :
    ∃ b spec market es, w.book? ctx.market = some b ∧ b.comboSpec = some spec ∧
      GateChecks O b ctx claimedOutcome ∧ comboMarketTypeMin ≤ b.market.marketType ∧
      buildAndVerifyV3 O w.rootsView O.programId ctx.oracleRoots b.market spec claimedOutcome
        proof = .ok true ∧
      recordSettlement b.market ⟨claimedOutcome, w.clock, proof.fixtureSummary.eventsSubTreeRoot,
        proof.ts, ctx.oracleRoots, ctx.cranker⟩ = .ok market ∧
      w' = w.setBook ctx.market { b with market := market } es := by
  simp only [settleMarketV3, World.loadBook, bind_eq_ok, require_eq_ok, demand_eq_ok,
    mapError_eq_ok, pure_eq_ok] at h
  obtain ⟨b, hb, spec, hs, _, _, _, hg, verified, hv, _, rfl, market, hm, rfl⟩ := h
  obtain ⟨hg, hc⟩ := settleGate_ok hg
  rw [hg.oracle] at hv
  exact ⟨b, spec, market, _, hb, hs, hg, by simpa using hc, hv, hm, rfl⟩

/-- What a settle call needs besides the oracle's verdict. -/
structure SettleChecks (O : OracleProgram D) (w : World D) (ctx : SettleMarket) (b : Book D)
    (claimedOutcome : ℕ) : Prop extends GateChecks O b ctx claimedOutcome where
  book : w.book? ctx.market = some b
  signer : ctx.cranker.canSign = true

theorem settleGate_succeeds {O : OracleProgram D} {w : World D} {ctx : SettleMarket} {b : Book D}
    {claimedOutcome : ℕ} {compound : Bool} (h : SettleChecks O w ctx b claimedOutcome)
    (hc : compound = true ↔ comboMarketTypeMin ≤ b.market.marketType) :
    settleGate O b ctx claimedOutcome compound = .ok .unit := by
  cases compound <;>
    simp_all [settleGate, requireSigner, require, requireLocked, bind, Except.bind, pure,
      Except.pure, h.signer, h.pinned, h.oracle, h.status, h.outcome]

theorem settleMarket_succeeds {O : OracleProgram D} {w : World D} {ctx : SettleMarket}
    {b : Book D} {claimedOutcome : ℕ} {proof : SettlementProof D}
    (h : SettleChecks O w ctx b claimedOutcome)
    (simple : b.market.marketType < comboMarketTypeMin)
    (verdict : buildAndVerify O w.rootsView O.programId ctx.oracleRoots b.market claimedOutcome
      proof = .ok true)
    (recorded : ∀ r : Receipt D, ∃ m, recordSettlement b.market r = .ok m) :
    ∃ w', settleMarket O w ctx claimedOutcome proof = .ok w' := by
  have hgate : settleGate O b ctx claimedOutcome false = .ok .unit :=
    settleGate_succeeds h (by simpa using simple)
  obtain ⟨m, hm⟩ := recorded ⟨claimedOutcome, w.clock, proof.fixtureSummary.eventsSubTreeRoot,
    proof.ts, ctx.oracleRoots, ctx.cranker⟩
  simp [settleMarket, World.loadBook, demand, h.book, hgate, h.oracle, verdict, require, mapError,
    hm, bind, Except.bind, pure, Except.pure]

theorem settleMarketV3_succeeds {O : OracleProgram D} {w : World D} {ctx : SettleMarket}
    {b : Book D} {spec : ComboSpec} {claimedOutcome : ℕ} {proof : SettlementProofV3 D}
    (h : SettleChecks O w ctx b claimedOutcome) (hspec : b.comboSpec = some spec)
    (hmarket : spec.market = ctx.market) (compound : comboMarketTypeMin ≤ b.market.marketType)
    (verdict : buildAndVerifyV3 O w.rootsView O.programId ctx.oracleRoots b.market spec
      claimedOutcome proof = .ok true)
    (recorded : ∀ r : Receipt D, ∃ m, recordSettlement b.market r = .ok m) :
    ∃ w', settleMarketV3 O w ctx claimedOutcome proof = .ok w' := by
  have hgate : settleGate O b ctx claimedOutcome true = .ok .unit :=
    settleGate_succeeds h (by simpa using compound)
  obtain ⟨m, hm⟩ := recorded ⟨claimedOutcome, w.clock, proof.fixtureSummary.eventsSubTreeRoot,
    proof.ts, ctx.oracleRoots, ctx.cranker⟩
  simp [settleMarketV3, World.loadBook, demand, h.book, hspec, hmarket, hgate, h.oracle, verdict,
    require, mapError, hm, bind, Except.bind, pure, Except.pure]

/-- The money fields a settlement writes; all others but the receipt stay. -/
structure Recorded (m m' : Market D) (r : Receipt D) : Prop where
  keeps : m' = { m with
    status := m'.status
    winningOutcome := r.outcome
    totalWinningPool := m.pool r.outcome
    feeAmount := m'.feeAmount
    settledAt := r.settledAt
    settleProofRef := r.proofRef
    settleProofTs := r.proofTs
    settleEpochDay := epochDayOf r.proofTs
    settleDailyRoots := r.dailyRoots
    settleResolver := r.resolver }
  result : (m.pool r.outcome = 0 ∧ m'.status = .cancelled ∧ m'.feeAmount = 0) ∨
    (0 < m.pool r.outcome ∧ m'.status = .settled ∧
      feeAmount m.totalPool m.feeBps = .ok m'.feeAmount)

theorem recordSettlement_ok {m m' : Market D} {r : Receipt D}
    (h : recordSettlement m r = .ok m') : Recorded m m' r := by
  unfold recordSettlement at h
  split_ifs at h with hp
  · simp only [pure_eq_ok] at h
    subst h
    exact ⟨by simp [hp], .inl ⟨hp, rfl, rfl⟩⟩
  · simp only [bind_eq_ok, pure_eq_ok] at h
    obtain ⟨a, ha, rfl⟩ := h
    exact ⟨rfl, .inr ⟨Nat.pos_of_ne_zero hp, rfl, ha⟩⟩

end ProofBook.Instructions.Settlement
