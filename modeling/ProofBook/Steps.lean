import ProofBook.Program

/-!
# What one operation does to a market and to a prop vault

Every operation acts on one market's book, and on the amount in its escrow, in
one of nine ways; on a prop vault in one of three. The relations record what
was checked and what was moved. Everything proved about runs rests on them.
-/
namespace ProofBook.Steps
open Addresses State Checked OracleWire OracleAdapter TokenLedger Totals Chain Program Runs
open Instructions.Betting Instructions.Settlement Instructions.Payments Instructions.PropVaults

variable {D : Type}

/-! ## The ledger -/

/-- No operation retitles a token account, and an escrow account is always
created under the authority of the address it is derived from. -/
structure LedgerGrows (l l' : Ledger Pubkey) : Prop where
  conserved : l.Conserved → l'.Conserved
  keeps : ∀ k t, l.title k = some t → l'.title k = some t
  creates : ∀ k m o, l'.title (.vault k) = some (m, o) → l.title (.vault k) = some (m, o) ∨ o = k

theorem LedgerGrows.refl (l : Ledger Pubkey) : LedgerGrows l l :=
  ⟨id, fun _ _ h => h, fun _ _ _ h => .inl h⟩

theorem LedgerGrows.trans {l₁ l₂ l₃ : Ledger Pubkey} (h : LedgerGrows l₁ l₂)
    (h' : LedgerGrows l₂ l₃) : LedgerGrows l₁ l₃ where
  conserved hc := h'.conserved (h.conserved hc)
  keeps k t ht := h'.keeps k t (h.keeps k t ht)
  creates k m o ht := (h'.creates k m o ht).elim (h.creates k m o) .inr

theorem transfer_titles {l l' : Ledger Pubkey} {src dst authority : Pubkey} {amount : ℕ}
    (h : l.transfer src dst authority amount = .ok l') (k : Pubkey) : l'.title k = l.title k := by
  by_cases hne : src = dst
  · subst hne
    rw [Ledger.transfer_self h]
  · exact (Ledger.transfer_ok hne h).titles k

theorem initializeAccount_grows {l l' : Ledger Pubkey} {k mint owner : Pubkey}
    (h : l.initializeAccount k mint owner = .ok l') (hk : ∀ p, k = .vault p → owner = p) :
    LedgerGrows l l' where
  conserved hc := Ledger.initializeAccount_conserved hc h
  keeps j t ht := by
    have hj : j ≠ k := by
      rintro rfl
      rw [Ledger.title, (Ledger.initializeAccount_ok h).1] at ht
      cases ht
    rw [((Ledger.initializeAccount_title h).2.2 j hj).1, ht]
  creates j m o ht := by
    by_cases hj : .vault j = k
    · subst hj
      rw [(Ledger.initializeAccount_title h).1] at ht
      simp only [Option.some.injEq, Prod.mk.injEq] at ht
      exact .inr (ht.2 ▸ hk j rfl)
    · rw [((Ledger.initializeAccount_title h).2.2 _ hj).1] at ht
      exact .inl ht

theorem splTransfer_ok {w w' : World D} {src dst authority : Pubkey} {amount : ℕ}
    (h : splTransfer w src dst authority amount = .ok w') :
    authority.canSign = true ∧ ∃ l, w.ledger.transfer src dst authority amount = .ok l ∧
      w' = w.setLedger l := by
  simp only [splTransfer, requireSigner, World.transferTokens, bind_eq_ok, require_eq_ok,
    mapError_eq_ok, pure_eq_ok] at h
  obtain ⟨_, hs, l, hl, rfl⟩ := h
  exact ⟨hs, l, hl, rfl⟩

/-- The token operations that are not transfers. -/
theorem spl_ok {w w' : World D} {f : Except TokenError (Ledger Pubkey)}
    (h : (do let l ← mapError Failure.token f; pure (w.setLedger l)) = Except.ok w') :
    ∃ l, f = .ok l ∧ w' = w.setLedger l := by
  simp only [bind_eq_ok, mapError_eq_ok, pure_eq_ok] at h
  obtain ⟨l, hl, rfl⟩ := h
  exact ⟨l, hl, rfl⟩

/-! ## Well-formed worlds -/

structure BookOk (l : Ledger Pubkey) (k : Pubkey) (b : Book D) : Prop where
  key : k = .market b.market.authority b.market.fixtureId b.market.marketType
  vault : b.market.vault = .vault k
  title : l.title (.vault k) = some (b.market.usdcMint, k)
  authority : b.market.authority.canSign = true
  positions : ∀ o q, b.positions.lookup o = some q →
    q.market = k ∧ q.owner = o ∧ o.canSign = true
  tokens : ∀ o q, b.positions.lookup o = some q →
    ∃ t, l.title t = some (b.market.usdcMint, o)

structure PropVaultOk (l : Ledger Pubkey) (k : Pubkey) (v : PropVault D) : Prop where
  key : k = .propVault v.depositor v.vaultId
  vault : v.vault = .vault k
  title : l.title (.vault k) = some (v.usdcMint, k)
  depositor : v.depositor.canSign = true
  token : ∃ t, l.title t = some (v.usdcMint, v.depositor)

/-- Accounts sit at the addresses derived for them, and each escrow account is
under the authority of its market or prop vault only. -/
structure WellFormed (w : World D) : Prop where
  conserved : w.ledger.Conserved
  owners : ∀ k m o, w.ledger.title (.vault k) = some (m, o) → o = k
  books : ∀ k b, w.book? k = some b → BookOk w.ledger k b
  propVaults : ∀ k v, w.propVault? k = some v → PropVaultOk w.ledger k v

/-! ## Markets -/

/-- The market an instruction acts on. -/
def Instruction.market? : Instruction D → Option Pubkey
  | .initializeMarket ctx p => some (ctx.marketKey p)
  | .placeBet ctx _ _ => some ctx.market
  | .lockMarket ctx => some ctx.market
  | .initializeComboSpec ctx _ _ => some ctx.market
  | .settleMarket ctx _ _ => some ctx.market
  | .settleMarketV3 ctx _ _ => some ctx.market
  | .cancelMarket ctx => some ctx.market
  | .claimWinnings ctx => some ctx.market
  | .claimRefund ctx => some ctx.market
  | .withdrawFees ctx => some ctx.market
  | _ => none

/-- A settle call whose oracle verdict was true, and the receipt it writes. -/
inductive Verified (O : OracleProgram D) (w : World D) (k : Pubkey) (b : Book D) :
    Instruction D → Receipt D → Prop
  | v2 {ctx : SettleMarket} {oc : ℕ} {proof : SettlementProof D} (hk : ctx.market = k)
      (simple : b.market.marketType < comboMarketTypeMin)
      (verdict : buildAndVerify O w.rootsView O.programId ctx.oracleRoots b.market oc proof =
        .ok true) :
      Verified O w k b (.settleMarket ctx oc proof)
        ⟨oc, w.clock, proof.fixtureSummary.eventsSubTreeRoot, proof.ts, ctx.oracleRoots,
          ctx.cranker⟩
  | v3 {ctx : SettleMarket} {oc : ℕ} {proof : SettlementProofV3 D} {spec : ComboSpec}
      (hk : ctx.market = k) (compound : comboMarketTypeMin ≤ b.market.marketType)
      (hs : b.comboSpec = some spec)
      (verdict : buildAndVerifyV3 O w.rootsView O.programId ctx.oracleRoots b.market spec oc
        proof = .ok true) :
      Verified O w k b (.settleMarketV3 ctx oc proof)
        ⟨oc, w.clock, proof.fixtureSummary.eventsSubTreeRoot, proof.ts, ctx.oracleRoots,
          ctx.cranker⟩

/-- One operation on a market's book, with the amounts that entered and left
its escrow. -/
inductive BookStep (O : OracleProgram D) (w w' : World D) (k : Pubkey) (b : Book D) :
    Instruction D → Book D → ℕ → ℕ → Prop
  | idle {i : Instruction D} {donation : ℕ} (h : Instruction.market? i ≠ some k) :
      BookStep O w w' k b i b donation 0
  | bet {ctx : PlaceBet} {oi a : ℕ} {q : Position} (hk : ctx.market = k)
      (checks : BetChecks w ctx oi a b q) :
      BookStep O w w' k b (.placeBet ctx oi a) (betBook b ctx.bettor q oi a) a 0
  | lock {ctx : Crank} (hk : ctx.market = k) (status : b.market.status = .opened)
      (late : b.market.lockTime ≤ w.clock) :
      BookStep O w w' k b (.lockMarket ctx) { b with market := withStatus b.market .locked } 0 0
  | attach {ctx : InitializeComboSpec} {legs : List StatLeg} {outcomes : List ComboOutcome}
      (hk : ctx.market = k) (checks : AttachChecks w ctx ⟨ctx.market, legs, outcomes⟩ b) :
      BookStep O w w' k b (.initializeComboSpec ctx legs outcomes)
        { b with comboSpec := some ⟨ctx.market, legs, outcomes⟩ } 0 0
  | settle {i : Instruction D} {r : Receipt D} {m : Market D}
      (status : b.market.status = .locked) (outcome : r.outcome < b.market.outcomes.length)
      (verified : Verified O w k b i r) (recorded : Recorded b.market m r) :
      BookStep O w w' k b i { b with market := m } 0 0
  | cancel {ctx : Crank} {deadline : Int64} (hk : ctx.market = k)
      (status : b.market.status = .locked)
      (sum : checkedAddI64 b.market.lockTime b.market.resolutionTimeout = some deadline)
      (late : deadline < w.clock) :
      BookStep O w w' k b (.cancelMarket ctx)
        { b with market := withStatus b.market .cancelled } 0 0
  | claim {ctx : Claim} {q : Position} {claimed paid : ℕ} (hk : ctx.market = k)
      (checks : ClaimChecks w ctx b q) (winner : WinnerChecks b q)
      (payout : claimPayout b.market q.amount = .ok (claimed, paid))
      (moved : Ledger.Moved w.ledger w'.ledger (.vault k) ctx.userToken k paid) :
      BookStep O w w' k b (.claimWinnings ctx)
        { markClaimed b ctx.user q with
          market := countClaim b.market claimed (b.market.paidOut + paid) } 0 paid
  | refund {ctx : Claim} {q : Position} (hk : ctx.market = k) (checks : ClaimChecks w ctx b q)
      (status : b.market.status = .cancelled) (unclaimed : q.claimed = false)
      (moved : Ledger.Moved w.ledger w'.ledger (.vault k) ctx.userToken k q.amount) :
      BookStep O w w' k b (.claimRefund ctx) (markClaimed b ctx.user q) 0 q.amount
  | withdraw {ctx : WithdrawFees} (hk : ctx.market = k) (checks : FeeChecks w ctx b)
      (moved : Ledger.Moved w.ledger w'.ledger (.vault k) ctx.feeTreasuryToken k
        b.market.feeAmount) :
      BookStep O w w' k b (.withdrawFees ctx)
        { b with market := { b.market with feeWithdrawn := true } } 0 b.market.feeAmount

theorem Verified.market? {O : OracleProgram D} {w : World D} {k : Pubkey} {b : Book D}
    {i : Instruction D} {r : Receipt D} (h : Verified O w k b i r) :
    Instruction.market? i = some k := by
  cases h with
  | v2 hk _ _ => exact congrArg some hk
  | v3 hk _ _ _ => exact congrArg some hk

/-- An operation on another account leaves the book and takes nothing. -/
theorem BookStep.idle_or {O : OracleProgram D} {w w' : World D} {k : Pubkey} {b b' : Book D}
    {i : Instruction D} {x y : ℕ} (h : BookStep O w w' k b i b' x y) :
    Instruction.market? i = some k ∨ (Instruction.market? i ≠ some k ∧ b' = b ∧ y = 0) := by
  cases h with
  | idle hi => exact .inr ⟨hi, rfl, rfl⟩
  | settle _ _ hv _ => exact .inl hv.market?
  | bet hk | lock hk | attach hk | cancel hk | claim hk | refund hk | withdraw hk =>
      exact .inl (congrArg some hk)

/-- The book after an operation, how it got there, and the escrow's change. -/
def BookMoves (O : OracleProgram D) (w w' : World D) (k : Pubkey) (b : Book D)
    (i : Instruction D) : Prop :=
  ∃ b' paidIn paidOut, w'.book? k = some b' ∧ BookStep O w w' k b i b' paidIn paidOut ∧
    w'.escrow k + paidOut = w.escrow k + paidIn

theorem BookMoves.idle {O : OracleProgram D} {w w' : World D} {k : Pubkey} {b : Book D}
    {i : Instruction D} (hb : w.book? k = some b) (hi : Instruction.market? i ≠ some k)
    (hk : w'.book? k = w.book? k) (hd : ∃ d, w'.escrow k = w.escrow k + d) :
    BookMoves O w w' k b i := by
  obtain ⟨d, hd⟩ := hd
  exact ⟨b, d, 0, hk.trans hb, .idle hi, hd⟩

/-! ## Prop vaults -/

/-- The prop vault an instruction acts on. -/
def Instruction.propVault? : Instruction D → Option Pubkey
  | .initializePropVault ctx p => some (ctx.vaultKey p)
  | .settlePropVault ctx _ => some ctx.propVault
  | .cancelPropVault ctx => some ctx.propVault
  | _ => none

/-- One operation on a prop vault, with the amounts that entered and left its
escrow. -/
inductive VaultStep (O : OracleProgram D) (w w' : World D) (k : Pubkey) (v : PropVault D) :
    Instruction D → PropVault D → ℕ → ℕ → Prop
  | idle {i : Instruction D} {donation : ℕ} (h : Instruction.propVault? i ≠ some k) :
      VaultStep O w w' k v i v donation 0
  | settle {ctx : SettlePropVault} {proof : SettlementProofV3 D} {holds : Bool}
      (hk : ctx.propVault = k) (checks : SettleChecks O w ctx v proof holds)
      (moved : 0 < w.escrow k → Ledger.Moved w.ledger w'.ledger (.vault k)
        (ctx.destination holds) k (w.escrow k)) :
      VaultStep O w w' k v (.settlePropVault ctx proof) (resolveVault v w.clock ctx proof holds)
        0 (w.escrow k)
  | cancel {ctx : CancelPropVault} {deadline : Int64} (hk : ctx.propVault = k)
      (checks : ExpireChecks w ctx v deadline)
      (moved : 0 < w.escrow k → Ledger.Moved w.ledger w'.ledger (.vault k) ctx.depositorToken k
        (w.escrow k)) :
      VaultStep O w w' k v (.cancelPropVault ctx) (expireVault v w.clock) 0 (w.escrow k)

def VaultMoves (O : OracleProgram D) (w w' : World D) (k : Pubkey) (v : PropVault D)
    (i : Instruction D) : Prop :=
  ∃ v' paidIn paidOut, w'.propVault? k = some v' ∧ VaultStep O w w' k v i v' paidIn paidOut ∧
    w'.escrow k + paidOut = w.escrow k + paidIn

theorem VaultMoves.idle {O : OracleProgram D} {w w' : World D} {k : Pubkey} {v : PropVault D}
    {i : Instruction D} (hv : w.propVault? k = some v) (hi : Instruction.propVault? i ≠ some k)
    (hk : w'.propVault? k = w.propVault? k) (hd : ∃ d, w'.escrow k = w.escrow k + d) :
    VaultMoves O w w' k v i := by
  obtain ⟨d, hd⟩ := hd
  exact ⟨v, d, 0, hk.trans hv, .idle hi, hd⟩

/-- The whole escrow moved, if there was any. -/
theorem sweep_moved {w w₁ : World D} {destination k : Pubkey} (hne : .vault k ≠ destination)
    (h : sweep w (.vault k) destination k = .ok w₁) :
    w₁.escrow k = 0 ∧ (0 < w.escrow k →
      Ledger.Moved w.ledger w₁.ledger (.vault k) destination k (w.escrow k)) := by
  rcases sweep_ok h with ⟨h0, rfl⟩ | ⟨-, l, hl, rfl⟩
  · exact ⟨h0, fun hp => absurd h0 hp.ne'⟩
  · have hm := Ledger.transfer_ok hne hl
    exact ⟨by simp [hm.debit], fun _ => hm⟩

/-! ## What a step keeps -/

/-- The terms a market was created with. -/
structure SameTerms (m m' : Market D) : Prop where
  authority : m'.authority = m.authority
  fixtureId : m'.fixtureId = m.fixtureId
  marketType : m'.marketType = m.marketType
  numOutcomes : m'.numOutcomes = m.numOutcomes
  feeBps : m'.feeBps = m.feeBps
  lockTime : m'.lockTime = m.lockTime
  resolutionTimeout : m'.resolutionTimeout = m.resolutionTimeout
  oracleProgram : m'.oracleProgram = m.oracleProgram
  usdcMint : m'.usdcMint = m.usdcMint
  vault : m'.vault = m.vault
  feeTreasury : m'.feeTreasury = m.feeTreasury
  specs : m'.outcomes.map (·.spec) = m.outcomes.map (·.spec)

theorem map_spec_modify (os : List OutcomeState) (j pool : ℕ) :
    (os.modify j fun o => { o with pool := pool }).map (·.spec) = os.map (·.spec) := by
  induction os generalizing j with
  | nil => simp
  | cons o os ih => cases j <;> simp [ih]

theorem BookStep.sameTerms {O : OracleProgram D} {w w' : World D} {k : Pubkey}
    {i : Instruction D} {b b' : Book D} {x y : ℕ}
    (h : BookStep O w w' k b i b' x y) : SameTerms b.market b'.market := by
  cases h with
  | settle _ _ _ hr =>
      rw [hr.keeps]
      exact ⟨rfl, rfl, rfl, rfl, rfl, rfl, rfl, rfl, rfl, rfl, rfl, rfl⟩
  | bet hk hc =>
      exact ⟨rfl, rfl, rfl, rfl, rfl, rfl, rfl, rfl, rfl, rfl, rfl, map_spec_modify _ _ _⟩
  | _ => exact ⟨rfl, rfl, rfl, rfl, rfl, rfl, rfl, rfl, rfl, rfl, rfl, rfl⟩

theorem BookStep.bookOk {O : OracleProgram D} {w w' : World D} {k : Pubkey}
    {i : Instruction D} {b b' : Book D} {x y : ℕ} (h : BookStep O w w' k b i b' x y)
    (ok : BookOk w.ledger k b) (hg : LedgerGrows w.ledger w'.ledger) :
    BookOk w'.ledger k b' where
  key := by
    have ht := h.sameTerms
    rw [ht.authority, ht.fixtureId, ht.marketType, ← ok.key]
  vault := by rw [h.sameTerms.vault, ok.vault]
  title := by
    rw [h.sameTerms.usdcMint]
    exact hg.keeps _ _ ok.title
  authority := by
    rw [h.sameTerms.authority]
    exact ok.authority
  positions o q hq := by
    have insert : ∀ {u : Pubkey} {p : Position}, p.market = k ∧ p.owner = u ∧ u.canSign = true →
        (b.positions.insert u p).lookup o = some q →
        q.market = k ∧ q.owner = o ∧ o.canSign = true := by
      intro u p hp hl
      by_cases ho : o = u
      · subst ho
        rw [AList.lookup_insert] at hl
        obtain rfl := Option.some.inj hl
        exact hp
      · rw [AList.lookup_insert_ne ho] at hl
        exact ok.positions o q hl
    cases h with
    | bet hk hc =>
        refine insert ?_ hq
        rcases positionFor_ok hc.position (fun p hp => by
          rw [(ok.positions _ p hp).1, ok.key]
          exact Pubkey.noConfusion) with ⟨-, rfl⟩ | ⟨hl, -⟩
        · exact ⟨hk, rfl, hc.signer⟩
        · have hp := ok.positions _ _ hl
          exact hp
    | claim hk hc =>
        have hp := ok.positions _ _ hc.found
        exact insert (by exact hp) hq
    | refund hk hc =>
        have hp := ok.positions _ _ hc.found
        exact insert (by exact hp) hq
    | _ => exact ok.positions o q hq
  tokens o q hq := by
    have old : ∀ {p : Position}, b.positions.lookup o = some p →
        ∃ t, w'.ledger.title t = some (b'.market.usdcMint, o) := by
      intro p hp
      obtain ⟨t, ht⟩ := ok.tokens o p hp
      exact ⟨t, by rw [h.sameTerms.usdcMint]; exact hg.keeps _ _ ht⟩
    have marked : ∀ {u : Pubkey} {p p' : Position}, b.positions.lookup u = some p →
        (b.positions.insert u p').lookup o = some q →
        ∃ t, w'.ledger.title t = some (b'.market.usdcMint, o) := by
      intro u p p' hu hl
      by_cases ho : o = u
      · subst ho
        exact old hu
      · rw [AList.lookup_insert_ne ho] at hl
        exact old hl
    cases h with
    | bet hk hc =>
        rw [betBook_lookup] at hq
        split_ifs at hq with ho
        · subst ho
          exact ⟨_, hg.keeps _ _ hc.token⟩
        · exact old hq
    | claim hk hc => exact marked hc.found hq
    | refund hk hc => exact marked hc.found hq
    | _ => exact old hq

theorem VaultStep.propVaultOk {O : OracleProgram D} {w w' : World D} {k : Pubkey}
    {i : Instruction D} {v v' : PropVault D} {x y : ℕ} (h : VaultStep O w w' k v i v' x y)
    (ok : PropVaultOk w.ledger k v) (hg : LedgerGrows w.ledger w'.ledger) :
    PropVaultOk w'.ledger k v' := by
  obtain ⟨t, ht⟩ := ok.token
  cases h <;> exact ⟨ok.key, ok.vault, hg.keeps _ _ ok.title, ok.depositor, t, hg.keeps _ _ ht⟩

end ProofBook.Steps
