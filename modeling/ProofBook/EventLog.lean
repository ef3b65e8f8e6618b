import ProofBook.MarketRuns

/-!
# The event log tells the state

An indexer sees the emitted events and no account. What it can know of a market
and of a prop vault is a record, built by folding the events one by one. In
every state a run reaches, the records of the log are those of the accounts. No
event carries the rule of a market; of a prop vault none carries the rule, the
mint, the oracle, the timeout, the day of the proof or, once it was cancelled,
that nobody is its resolver.
-/
namespace ProofBook.EventLog
open Addresses State Checked OracleWire OracleAdapter TokenLedger Totals Chain Program Runs Steps
open StepCases Instructions.Betting Instructions.Settlement Instructions.Payments
open Instructions.PropVaults

variable {D : Type}

/-! ## What an indexer keeps -/

/-- The position of one bettor. -/
structure Stake where
  outcomeIndex : ℕ
  amount : ℕ
  claimed : Bool
deriving Repr, DecidableEq

/-- A market without its escrow address and the rules of its outcomes; of a compound
rule the numbers of legs and outcomes. -/
structure MarketRecord (D : Type) where
  authority : Pubkey
  fixtureId : Int64
  marketType : ℕ
  feeBps : ℕ
  lockTime : Int64
  resolutionTimeout : Int64
  oracleProgram : Pubkey
  usdcMint : Pubkey
  feeTreasury : Pubkey
  status : MarketStatus
  pools : List ℕ
  totalPool : ℕ
  stakes : Pubkey → Option Stake
  comboShape : Option (ℕ × ℕ)
  winningOutcome : ℕ
  totalWinningPool : ℕ
  feeAmount : ℕ
  settledAt : Int64
  proofRef : D
  proofTs : Int64
  epochDay : UInt16
  dailyRoots : Pubkey
  resolver : Pubkey
  paidOut : ℕ
  winningStakeClaimed : ℕ
  feeWithdrawn : Bool

/-- A prop vault without its id, mint, escrow address, predicates, timeout, oracle
program, settlement day and resolver; of its legs the number. -/
structure VaultRecord (D : Type) where
  depositor : Pubkey
  beneficiary : Pubkey
  fixtureId : Int64
  amount : ℕ
  numLegs : ℕ
  lockTime : Int64
  status : VaultStatus
  settledAt : Int64
  proofRef : D
  proofTs : Int64
  dailyRoots : Pubkey

/-- The market an event is about. -/
def Event.market? : Event D → Option Pubkey
  | .marketInitialized market .. => some market
  | .betPlaced market .. => some market
  | .marketLocked market .. => some market
  | .marketSettled market .. => some market
  | .marketCancelled market .. => some market
  | .winningsClaimed market .. => some market
  | .refundClaimed market .. => some market
  | .feesWithdrawn market .. => some market
  | .comboSpecCreated market .. => some market
  | .propVaultCreated .. => none
  | .propVaultResolved .. => none

/-- The prop vault an event is about. -/
def Event.propVault? : Event D → Option Pubkey
  | .propVaultCreated propVault .. => some propVault
  | .propVaultResolved propVault .. => some propVault
  | _ => none

/-- The flag of a stake that was paid out in either way. -/
def payStake (stakes : Pubkey → Option Stake) (user : Pubkey) : Pubkey → Option Stake :=
  Function.update stakes user ((stakes user).map fun s => { s with claimed := true })

/-- The new total of a stake; a first stake is unpaid. -/
def growStake (stakes : Pubkey → Option Stake) (bettor : Pubkey) (outcomeIndex amount : ℕ) :
    Pubkey → Option Stake :=
  Function.update stakes bettor
    (some ⟨outcomeIndex, amount, ((stakes bettor).map (·.claimed)).getD false⟩)

/-- One event about a market the indexer knows. -/
def MarketRecord.apply (r : MarketRecord D) : Event D → MarketRecord D
  | .betPlaced _ bettor outcomeIndex _ positionTotal outcomePool totalPool =>
      { r with
        pools := r.pools.set outcomeIndex outcomePool
        totalPool := totalPool
        stakes := growStake r.stakes bettor outcomeIndex positionTotal }
  | .marketLocked .. => { r with status := .locked }
  | .marketSettled _ _ winningOutcome _ _ proofRef proofTs epochDay dailyRoots resolver _
      refundable _ totalWinningPool feeAmount settledAt =>
      { r with
        status := if refundable then .cancelled else .settled
        winningOutcome := winningOutcome
        totalWinningPool := totalWinningPool
        feeAmount := feeAmount
        settledAt := settledAt
        proofRef := proofRef
        proofTs := proofTs
        epochDay := epochDay
        dailyRoots := dailyRoots
        resolver := resolver }
  | .marketCancelled .. => { r with status := .cancelled }
  | .winningsClaimed _ winner _ stake payout _ =>
      { r with
        stakes := payStake r.stakes winner
        paidOut := r.paidOut + payout
        winningStakeClaimed := r.winningStakeClaimed + stake }
  | .refundClaimed _ user _ _ => { r with stakes := payStake r.stakes user }
  | .feesWithdrawn .. => { r with feeWithdrawn := true }
  | .comboSpecCreated _ _ _ _ numLegs numOutcomes =>
      { r with comboShape := some (numLegs, numOutcomes) }
  | _ => r

variable [Inhabited D]

/-- What a creation event tells of its market. -/
def MarketRecord.created : Event D → Option (MarketRecord D)
  | .marketInitialized _ authority fixtureId marketType numOutcomes feeBps lockTime
      resolutionTimeout oracleProgram usdcMint feeTreasury =>
      some
        { authority, fixtureId, marketType, feeBps, lockTime, resolutionTimeout, oracleProgram,
          usdcMint, feeTreasury
          status := .opened
          pools := List.replicate numOutcomes 0
          totalPool := 0
          stakes := fun _ => none
          comboShape := none
          winningOutcome := unsetOutcome
          totalWinningPool := 0
          feeAmount := 0
          settledAt := 0
          proofRef := default
          proofTs := 0
          epochDay := 0
          dailyRoots := .default
          resolver := .default
          paidOut := 0
          winningStakeClaimed := 0
          feeWithdrawn := false }
  | _ => none

/-- The record of one market after one more event of the log. -/
def replayMarket (k : Pubkey) (r : Option (MarketRecord D)) (e : Event D) :
    Option (MarketRecord D) :=
  if Event.market? e = some k then
    match r with
    | none => MarketRecord.created e
    | some r => some (r.apply e)
  else r

/-- What an event tells of a vault the indexer knows. -/
def VaultRecord.apply (r : VaultRecord D) : Event D → VaultRecord D
  | .propVaultResolved _ _ predicateHeld _ _ proofRef proofTs dailyRoots _ settledAt =>
      { r with
        status := if predicateHeld then .paidOut else .refunded
        settledAt := settledAt
        proofRef := proofRef
        proofTs := proofTs
        dailyRoots := dailyRoots }
  | _ => r

def VaultRecord.created : Event D → Option (VaultRecord D)
  | .propVaultCreated _ depositor beneficiary fixtureId amount numLegs lockTime =>
      some ⟨depositor, beneficiary, fixtureId, amount, numLegs, lockTime, .funded, 0, default, 0,
        .default⟩
  | _ => none

/-- The record of one prop vault after one more event of the log. -/
def replayVault (k : Pubkey) (r : Option (VaultRecord D)) (e : Event D) :
    Option (VaultRecord D) :=
  if Event.propVault? e = some k then
    match r with
    | none => VaultRecord.created e
    | some r => some (r.apply e)
  else r

/-! ## What the log says of an escrow -/

/-- What an event says was paid into the escrow of a market or vault. -/
def receivedBy (k : Pubkey) : Event D → ℕ
  | .betPlaced market _ _ amount .. => if market = k then amount else 0
  | .propVaultCreated propVault _ _ _ amount .. => if propVault = k then amount else 0
  | _ => 0

/-- What an event says was paid out of it. -/
def sentBy (k : Pubkey) : Event D → ℕ
  | .winningsClaimed market _ _ _ payout _ => if market = k then payout else 0
  | .refundClaimed market _ _ amount => if market = k then amount else 0
  | .feesWithdrawn market _ amount => if market = k then amount else 0
  | .propVaultResolved propVault _ _ _ amount .. => if propVault = k then amount else 0
  | _ => 0

def received (k : Pubkey) (es : List (Event D)) : ℕ := (es.map (receivedBy k)).sum

def sent (k : Pubkey) (es : List (Event D)) : ℕ := (es.map (sentBy k)).sum

/-- What an event says was paid out, of whatever escrow. -/
def payout : Event D → ℕ
  | .winningsClaimed _ _ _ _ payout _ => payout
  | .refundClaimed _ _ _ amount => amount
  | .feesWithdrawn _ _ amount => amount
  | .propVaultResolved _ _ _ _ amount .. => amount
  | _ => 0

/-- The token account that the operation of an event pays out to. -/
def payee : Instruction D → Event D → Option Pubkey
  | .claimWinnings ctx, .winningsClaimed .. => some ctx.userToken
  | .claimRefund ctx, .refundClaimed .. => some ctx.userToken
  | .withdrawFees ctx, .feesWithdrawn .. => some ctx.feeTreasuryToken
  | .settlePropVault ctx _, .propVaultResolved _ _ predicateHeld .. =>
      some (ctx.destination predicateHeld)
  | .cancelPropVault ctx, .propVaultResolved .. => some ctx.depositorToken
  | _, _ => none

/-- What the events of an operation say was paid into the escrow of an account. -/
def paidInto (k : Pubkey) (i : Instruction D) (es : List (Event D)) : ℕ :=
  (es.map fun e => if payee i e = some (.vault k) then payout e else 0).sum

/-- What an operation of the token program puts into the escrow of an account. -/
def donatedBy (k : Pubkey) : Instruction D → ℕ
  | .splTransfer _ dst _ amount | .splMintTo _ dst amount => if dst = .vault k then amount else 0
  | _ => 0

/-! ## What the accounts say -/

def stakeOf (q : Position) : Stake := ⟨q.outcomeIndex, q.amount, q.claimed⟩

/-- The part of a book that the events can tell. -/
def marketRecord (b : Book D) : MarketRecord D where
  authority := b.market.authority
  fixtureId := b.market.fixtureId
  marketType := b.market.marketType
  feeBps := b.market.feeBps
  lockTime := b.market.lockTime
  resolutionTimeout := b.market.resolutionTimeout
  oracleProgram := b.market.oracleProgram
  usdcMint := b.market.usdcMint
  feeTreasury := b.market.feeTreasury
  status := b.market.status
  pools := b.market.outcomes.map (·.pool)
  totalPool := b.market.totalPool
  stakes := fun o => (b.positions.lookup o).map stakeOf
  comboShape := b.comboSpec.map fun s => (s.legs.length, s.outcomes.length)
  winningOutcome := b.market.winningOutcome
  totalWinningPool := b.market.totalWinningPool
  feeAmount := b.market.feeAmount
  settledAt := b.market.settledAt
  proofRef := b.market.settleProofRef
  proofTs := b.market.settleProofTs
  epochDay := b.market.settleEpochDay
  dailyRoots := b.market.settleDailyRoots
  resolver := b.market.settleResolver
  paidOut := b.market.paidOut
  winningStakeClaimed := b.market.winningStakeClaimed
  feeWithdrawn := b.market.feeWithdrawn

/-- The part of a prop vault that the events can tell. -/
def vaultRecord (v : PropVault D) : VaultRecord D where
  depositor := v.depositor
  beneficiary := v.beneficiary
  fixtureId := v.fixtureId
  amount := v.amount
  numLegs := v.legs.length
  lockTime := v.lockTime
  status := v.status
  settledAt := v.settledAt
  proofRef := v.settleProofRef
  proofTs := v.settleProofTs
  dailyRoots := v.settleDailyRoots

/-! ## One operation -/

/-- An event concerns a market or a prop vault. -/
def About (e : Event D) (k : Pubkey) : Prop :=
  Event.market? e = some k ∨ Event.propVault? e = some k

/-- The events of an operation concern what it acts on, move every record as it
moves the accounts, and state the amounts it moved; an escrow it does not act on
gains by a donation or by what is paid out to it. -/
structure Emits (w : World D) (i : Instruction D) (w' : World D) (es : List (Event D)) :
    Prop where
  log : w'.log = w.log ++ es
  about : ∀ e ∈ es, ∀ k, About e k → ActsOn i k
  market : ∀ k, (w'.book? k).map marketRecord =
    es.foldl (replayMarket k) ((w.book? k).map marketRecord)
  propVault : ∀ k, (w'.propVault? k).map vaultRecord =
    es.foldl (replayVault k) ((w.propVault? k).map vaultRecord)
  money : ∀ k, ActsOn i k → w'.escrow k + sent k es = w.escrow k + received k es
  gains : ∀ k, k.canSign = false → ¬ ActsOn i k →
    w'.escrow k = w.escrow k + donatedBy k i + paidInto k i es

variable {O : OracleProgram D} {w w' : World D} {k : Pubkey} {es : List (Event D)}
  {i : Instruction D}

omit [Inhabited D] in
theorem foldl_ignored {R : Type*} {f : R → Event D → R} {r : R} (h : ∀ e ∈ es, f r e = r) :
    es.foldl f r = r := by
  induction es with
  | nil => rfl
  | cons e es ih =>
      rw [List.foldl_cons, h e List.mem_cons_self]
      exact ih fun e he => h e (List.mem_cons_of_mem _ he)

theorem replayMarket_foreign {r : Option (MarketRecord D)} {e : Event D}
    (h : Event.market? e ≠ some k) : replayMarket k r e = r := if_neg h

theorem replayMarket_known {r : MarketRecord D} {e : Event D} (h : Event.market? e = some k) :
    replayMarket k (some r) e = some (r.apply e) := if_pos h

theorem replayMarket_new {e : Event D} (h : Event.market? e = some k) :
    replayMarket k none e = MarketRecord.created e := if_pos h

theorem replayVault_foreign {r : Option (VaultRecord D)} {e : Event D}
    (h : Event.propVault? e ≠ some k) : replayVault k r e = r := if_neg h

theorem replayVault_known {r : VaultRecord D} {e : Event D} (h : Event.propVault? e = some k) :
    replayVault k (some r) e = some (r.apply e) := if_pos h

theorem replayVault_new {e : Event D} (h : Event.propVault? e = some k) :
    replayVault k none e = VaultRecord.created e := if_pos h

omit [Inhabited D] in
theorem donatedBy_of_market (h : Instruction.market? i = some k) (j : Pubkey) :
    donatedBy j i = 0 := by
  cases i <;> first | rfl | cases h

omit [Inhabited D] in
theorem donatedBy_of_propVault (h : Instruction.propVault? i = some k) (j : Pubkey) :
    donatedBy j i = 0 := by
  cases i <;> first | rfl | cases h

/-- A transfer that the owner of an escrow does not sign adds to it what it sends there. -/
theorem transfer_gains {l l' : Ledger Pubkey} {src dst authority : Pubkey} {amount : ℕ}
    (ho : ∀ k m o, l.title (.vault k) = some (m, o) → o = k) (ha : authority ≠ k)
    (h : l.transfer src dst authority amount = .ok l') :
    l'.balance (.vault k) = l.balance (.vault k) + if dst = .vault k then amount else 0 := by
  obtain ⟨m, hm⟩ := Ledger.transfer_owner h
  have hsrc : .vault k ≠ src := by
    rintro rfl
    exact ha (ho k m authority hm)
  by_cases hne : src = dst
  · subst hne
    rw [Ledger.transfer_self h, if_neg hsrc.symm, Nat.add_zero]
  · have hm := Ledger.transfer_ok hne h
    by_cases hd : dst = .vault k
    · rw [if_pos hd, ← hd]
      exact hm.credit
    · rw [if_neg hd, hm.others _ hsrc (Ne.symm hd), Nat.add_zero]

/-- An operation on one market emits events of that market only. -/
theorem Emits.setBook {l : Ledger Pubkey} {b : Book D} (him : Instruction.market? i = some k)
    (hiv : Instruction.propVault? i = none) (hm : ∀ e ∈ es, Event.market? e = some k)
    (hv : ∀ e ∈ es, Event.propVault? e = none)
    (hr : es.foldl (replayMarket k) ((w.book? k).map marketRecord) = some (marketRecord b))
    (hmoney : l.balance (.vault k) + sent k es = w.escrow k + received k es)
    (hgains : ∀ j, j.canSign = false → j ≠ k →
      l.balance (.vault j) = w.escrow j + paidInto j i es) :
    Emits w i ((w.setLedger l).setBook k b es) es where
  log := rfl
  about e he j hj := .inl (by
    rcases hj with hj | hj
    · rw [him, ← hm e he, hj]
    · rw [hv e he] at hj
      cases hj)
  market j := by
    by_cases hj : j = k
    · subst hj
      rw [hr, World.setBook_book?_self, Option.map_some]
    · rw [World.setBook_book?_ne hj, World.setLedger_book?, foldl_ignored]
      intro e he
      refine replayMarket_foreign ?_
      rw [hm e he]
      exact fun hej => hj (Option.some.inj hej).symm
  propVault j := by
    rw [World.setBook_propVault?, World.setLedger_propVault?, foldl_ignored]
    intro e he
    exact replayVault_foreign (by simp [hv e he])
  money j hj := by
    rcases hj with hj | hj
    · obtain rfl := Option.some.inj (him.symm.trans hj)
      exact hmoney
    · rw [hiv] at hj
      cases hj
  gains j hs hj := by
    rw [donatedBy_of_market him, Nat.add_zero]
    exact hgains j hs fun he => hj (.inl (he ▸ him))

/-- An operation on one prop vault emits events of that vault only. -/
theorem Emits.setPropVault {l : Ledger Pubkey} {v : PropVault D}
    (him : Instruction.market? i = none) (hiv : Instruction.propVault? i = some k)
    (hm : ∀ e ∈ es, Event.market? e = none) (hv : ∀ e ∈ es, Event.propVault? e = some k)
    (hr : es.foldl (replayVault k) ((w.propVault? k).map vaultRecord) = some (vaultRecord v))
    (hmoney : l.balance (.vault k) + sent k es = w.escrow k + received k es)
    (hgains : ∀ j, j.canSign = false → j ≠ k →
      l.balance (.vault j) = w.escrow j + paidInto j i es) :
    Emits w i ((w.setLedger l).setPropVault k v es) es where
  log := rfl
  about e he j hj := .inr (by
    rcases hj with hj | hj
    · rw [hm e he] at hj
      cases hj
    · rw [hiv, ← hv e he, hj])
  market j := by
    rw [World.setPropVault_book?, World.setLedger_book?, foldl_ignored]
    intro e he
    exact replayMarket_foreign (by simp [hm e he])
  propVault j := by
    by_cases hj : j = k
    · subst hj
      rw [hr, World.setPropVault_propVault?_self, Option.map_some]
    · rw [World.setPropVault_propVault?_ne hj, World.setLedger_propVault?, foldl_ignored]
      intro e he
      refine replayVault_foreign ?_
      rw [hv e he]
      exact fun hej => hj (Option.some.inj hej).symm
  money j hj := by
    rcases hj with hj | hj
    · rw [him] at hj
      cases hj
    · obtain rfl := Option.some.inj (hiv.symm.trans hj)
      exact hmoney
  gains j hs hj := by
    rw [donatedBy_of_propVault hiv, Nat.add_zero]
    exact hgains j hs fun he => hj (.inr (he ▸ hiv))

/-- An operation outside the program emits nothing. -/
theorem Emits.silent (him : Instruction.market? i = none) (hiv : Instruction.propVault? i = none)
    (hlog : w'.log = w.log) (hb : ∀ k, w'.book? k = w.book? k)
    (hv : ∀ k, w'.propVault? k = w.propVault? k)
    (hgains : ∀ k, k.canSign = false → w'.escrow k = w.escrow k + donatedBy k i) :
    Emits w i w' [] where
  log := by rw [hlog, List.append_nil]
  about e he := by cases he
  market k := by rw [hb]; rfl
  propVault k := by rw [hv]; rfl
  money k hk := by rcases hk with hk | hk <;> simp_all
  gains k hk _ := hgains k hk

/-! ## Markets -/

theorem map_pool_modify (os : List OutcomeState) (j pool : ℕ) :
    (os.modify j fun o => { o with pool := pool }).map (·.pool) = (os.map (·.pool)).set j pool := by
  induction os generalizing j with
  | nil => simp
  | cons o os ih => cases j <;> simp [ih]

omit [Inhabited D] in
theorem stakes_marked {b : Book D} {user : Pubkey} {q : Position}
    (hq : b.positions.lookup user = some q) :
    (marketRecord (markClaimed b user q)).stakes = payStake (marketRecord b).stakes user := by
  funext o
  by_cases ho : o = user
  · subst ho
    simp [marketRecord, payStake, markClaimed_lookup, hq, stakeOf]
  · simp [marketRecord, payStake, markClaimed_lookup, ho]

omit [Inhabited D] in
/-- A new escrow account was not there before, so it held nothing. -/
theorem escrow_fresh {mint owner : Pubkey} {l : Ledger Pubkey}
    (h : w.ledger.initializeAccount (.vault k) mint owner = .ok l) : w.escrow k = 0 := by
  simp [World.escrow, Ledger.balance, (Ledger.initializeAccount_ok h).1]

theorem initializeMarket_emits {ctx : InitializeMarket} {p : MarketParams}
    (h : initializeMarket O w ctx p = .ok w') :
    ∃ es, Emits w (.initializeMarket ctx p) w' es := by
  simp only [initializeMarket, requireSigner, bind_eq_ok, require_eq_ok, mapError_eq_ok,
    pure_eq_ok] at h
  obtain ⟨_, -, _, hn, l, hl, _, -, _, -, _, -, _, -, _, -, _, -, rfl⟩ := h
  have hfresh := escrow_fresh hl
  have hzero := (Ledger.initializeAccount_title hl).2.1
  refine ⟨_, .setBook rfl rfl (by simp [Event.market?]) (by simp [Event.propVault?]) ?_
    (by simp [sent, sentBy, received, receivedBy, hfresh, hzero]) fun j _ hj => ?_⟩
  · rw [hn, Option.map_none, List.foldl_cons, List.foldl_nil, replayMarket_new rfl]
    simp [MarketRecord.created, marketRecord, newMarket, Function.comp_def]
  · have hother := ((Ledger.initializeAccount_title hl).2.2 (.vault j) (by simpa using hj)).2
    simpa [paidInto, payee, World.escrow] using hother

omit [Inhabited D] in
theorem stakes_grown {b : Book D} {bettor : Pubkey} {q : Position} {a : ℕ}
    (hq : b.positions.lookup bettor = none ∧ q.claimed = false ∨
      b.positions.lookup bettor = some q) :
    (fun o => ((b.positions.insert bettor { q with amount := q.amount + a }).lookup o).map
      stakeOf) = growStake (marketRecord b).stakes bettor q.outcomeIndex (q.amount + a) := by
  funext o
  by_cases ho : o = bettor
  · subst ho
    rcases hq with ⟨hnone, hc⟩ | hsome
    · simp [growStake, marketRecord, stakeOf, hnone, hc]
    · simp [growStake, marketRecord, stakeOf, hsome]
  · simp [growStake, marketRecord, ho]

theorem placeBet_emits (hw : WellFormed w) {ctx : PlaceBet} {oi a : ℕ}
    (h : placeBet w ctx oi a = .ok w') : ∃ es, Emits w (.placeBet ctx oi a) w' es := by
  simp only [placeBet, requireSigner, World.loadBook, World.tokenAccount, World.transferTokens,
    bind_eq_ok, require_eq_ok, demand_eq_ok, mapError_eq_ok, pure_eq_ok,
    checkedAddU64_eq_some] at h
  obtain ⟨_, hsigner, b, hb, _, -, _, -, _, hne, _, hv, _, -, _, -, _, -, _, -, _, -, _, -, q, hq,
    _, ⟨l, hl, rfl⟩, _, ⟨-, rfl⟩, _, ⟨-, rfl⟩, _, ⟨-, rfl⟩, rfl⟩ := h
  have ok := hw.books _ _ hb
  have hkey := hv.symm.trans ok.vault
  rw [hkey] at hl hne
  refine ⟨_, .setBook rfl rfl (by simp [Event.market?]) (by simp [Event.propVault?]) ?_
    (by simp [sent, sentBy, received, receivedBy, (Ledger.transfer_ok hne hl).credit,
      World.escrow]) fun j hs hj => ?_⟩
  swap
  · have ha : ctx.bettor ≠ j := by
      rintro rfl
      cases hsigner.symm.trans hs
    simpa [paidInto, payee, World.escrow, Ne.symm hj] using transfer_gains hw.owners ha hl
  rw [hb, Option.map_some, List.foldl_cons, List.foldl_nil, replayMarket_known rfl]
  have hstake : q.outcomeIndex = oi ∧ (b.positions.lookup ctx.bettor = none ∧ q.claimed = false ∨
      b.positions.lookup ctx.bettor = some q) := by
    rcases positionFor_ok hq (fun p hp => by
      rw [(ok.positions _ p hp).1, ok.key]
      exact Pubkey.noConfusion) with ⟨hnone, rfl⟩ | ⟨hsome, ho⟩
    · exact ⟨rfl, .inl ⟨hnone, rfl⟩⟩
    · exact ⟨ho, .inr hsome⟩
  obtain ⟨rfl, hstake⟩ := hstake
  have hstakes := stakes_grown (a := a) hstake
  simp only [MarketRecord.apply, marketRecord, addStake, map_pool_modify] at hstakes ⊢
  rw [hstakes]

theorem lockMarket_emits {ctx : Crank} (h : lockMarket w ctx = .ok w') :
    ∃ es, Emits w (.lockMarket ctx) w' es := by
  simp only [lockMarket, requireSigner, World.loadBook, bind_eq_ok, require_eq_ok, demand_eq_ok,
    pure_eq_ok] at h
  obtain ⟨b, hb, _, -, _, -, _, -, rfl⟩ := h
  refine ⟨_, .setBook (l := w.ledger) rfl rfl (by simp [Event.market?])
    (by simp [Event.propVault?]) ?_ rfl fun j _ _ => by
      simp [paidInto, payee, World.escrow]⟩
  rw [hb]
  exact replayMarket_known rfl

theorem cancelMarket_emits {ctx : Crank} (h : cancelMarket w ctx = .ok w') :
    ∃ es, Emits w (.cancelMarket ctx) w' es := by
  simp only [cancelMarket, requireSigner, World.loadBook, bind_eq_ok, require_eq_ok,
    demand_eq_ok, requireLocked_eq_ok, pure_eq_ok] at h
  obtain ⟨b, hb, _, -, _, -, deadline, -, _, -, rfl⟩ := h
  refine ⟨_, .setBook (l := w.ledger) rfl rfl (by simp [Event.market?])
    (by simp [Event.propVault?]) ?_ rfl fun j _ _ => by
      simp [paidInto, payee, World.escrow]⟩
  rw [hb]
  exact replayMarket_known rfl

theorem initializeComboSpec_emits {ctx : InitializeComboSpec} {legs : List StatLeg}
    {outcomes : List ComboOutcome} (h : initializeComboSpec w ctx legs outcomes = .ok w') :
    ∃ es, Emits w (.initializeComboSpec ctx legs outcomes) w' es := by
  simp only [initializeComboSpec, requireSigner, World.loadBook, bind_eq_ok, require_eq_ok,
    demand_eq_ok, mapError_eq_ok, pure_eq_ok] at h
  obtain ⟨_, -, b, hb, _, -, _, -, _, -, _, -, _, -, rfl⟩ := h
  refine ⟨_, .setBook (l := w.ledger) rfl rfl (by simp [Event.market?])
    (by simp [Event.propVault?]) ?_ rfl fun j _ _ => by
      simp [paidInto, payee, World.escrow]⟩
  rw [hb]
  exact replayMarket_known rfl

/-- A settlement moves no money, and one of an outcome nobody staked is told by
two events. -/
theorem settlement_emits {b : Book D} {m : Market D} {r : Receipt D} {verified : Bool}
    (him : Instruction.market? i = some k) (hiv : Instruction.propVault? i = none)
    (hb : w.book? k = some b) (hm : recordSettlement b.market r = .ok m) :
    ∃ es, Emits w i
      (w.setBook k { b with market := m } (settlementEvents O k m r verified)) es := by
  have hr := recordSettlement_ok hm
  have hown : ∀ e ∈ settlementEvents O k m r verified, Event.market? e = some k ∧
      Event.propVault? e = none ∧ sentBy k e = 0 ∧ receivedBy k e = 0 ∧ payout e = 0 := by
    intro e he
    rw [settlementEvents, List.mem_cons] at he
    rcases he with rfl | he
    · exact ⟨rfl, rfl, rfl, rfl, rfl⟩
    · split_ifs at he
      · obtain rfl := List.mem_singleton.mp he
        exact ⟨rfl, rfl, rfl, rfl, rfl⟩
      · cases he
  have hsent : sent k (settlementEvents O k m r verified) = 0 := by
    exact List.sum_eq_zero (List.forall_mem_map.mpr fun e he => (hown e he).2.2.1)
  have hreceived : received k (settlementEvents O k m r verified) = 0 := by
    exact List.sum_eq_zero (List.forall_mem_map.mpr fun e he => (hown e he).2.2.2.1)
  have hpaid (j : Pubkey) : paidInto j i (settlementEvents O k m r verified) = 0 := by
    exact List.sum_eq_zero (List.forall_mem_map.mpr fun e he => by simp [(hown e he).2.2.2.2])
  refine ⟨_, .setBook (l := w.ledger) him hiv (fun e he => (hown e he).1)
    (fun e he => (hown e he).2.1) ?_ (by rw [hsent, hreceived]; rfl)
    fun j _ _ => by rw [hpaid]; rfl⟩
  have hfields := hr.keeps
  rw [hb, Option.map_some]
  rcases hr.result with ⟨-, hst, -⟩ | ⟨-, hst, -⟩
  · rw [settlementEvents, if_pos (by simp [hst]), List.foldl_cons, List.foldl_cons,
      replayMarket_known rfl, replayMarket_known rfl, List.foldl_nil]
    rw [hst] at hfields
    rw [hfields]
    simp [MarketRecord.apply, marketRecord]
  · rw [settlementEvents, if_neg (by simp [hst]), List.foldl_cons, replayMarket_known rfl,
      List.foldl_nil]
    rw [hst] at hfields
    rw [hfields]
    simp [MarketRecord.apply, marketRecord]

theorem settleMarket_emits {ctx : SettleMarket} {oc : ℕ} {proof : SettlementProof D}
    (h : settleMarket O w ctx oc proof = .ok w') :
    ∃ es, Emits w (.settleMarket ctx oc proof) w' es := by
  simp only [settleMarket, World.loadBook, bind_eq_ok, demand_eq_ok, mapError_eq_ok,
    pure_eq_ok] at h
  obtain ⟨b, hb, _, -, verified, -, _, -, m, hm, rfl⟩ := h
  exact settlement_emits rfl rfl hb hm

theorem settleMarketV3_emits {ctx : SettleMarket} {oc : ℕ} {proof : SettlementProofV3 D}
    (h : settleMarketV3 O w ctx oc proof = .ok w') :
    ∃ es, Emits w (.settleMarketV3 ctx oc proof) w' es := by
  simp only [settleMarketV3, World.loadBook, bind_eq_ok, demand_eq_ok, mapError_eq_ok,
    pure_eq_ok] at h
  obtain ⟨b, hb, spec, -, _, -, _, -, verified, -, _, -, m, hm, rfl⟩ := h
  exact settlement_emits rfl rfl hb hm

omit [Inhabited D] in
theorem claimPayout_claimed {m : Market D} {stake claimed paid : ℕ}
    (h : claimPayout m stake = .ok (claimed, paid)) :
    claimed = m.winningStakeClaimed + stake := by
  simp only [claimPayout, bind_eq_ok, demand_eq_ok, checkedAddU64_eq_some] at h
  obtain ⟨_, ⟨-, rfl⟩, _, -, h⟩ := h
  split_ifs at h <;>
    · simp only [bind_eq_ok, pure_eq_ok, Prod.mk.injEq] at h
      obtain ⟨_, -, rfl, -⟩ := h
      rfl

theorem claimWinnings_emits (hw : WellFormed w) {ctx : Claim} (h : claimWinnings w ctx = .ok w') :
    ∃ es, Emits w (.claimWinnings ctx) w' es := by
  simp only [claimWinnings, World.transferTokens, bind_eq_ok, require_eq_ok, demand_eq_ok,
    mapError_eq_ok, pure_eq_ok, checkedAddU64_eq_some] at h
  obtain ⟨⟨b, q⟩, hc, _, -, _, -, _, -, _, -, ⟨claimed, paid⟩, hp, _, ⟨l, hl, rfl⟩, _, ⟨-, rfl⟩,
    rfl⟩ := h
  have hc := loadClaim_ok.mp hc
  have hkey := hc.vault.symm.trans (hw.books _ _ hc.book).vault
  rw [hkey] at hl
  have hdebit := (transfer_moved (hkey ▸ hc.distinct) hl).2
  refine ⟨_, .setBook rfl rfl (by simp [Event.market?]) (by simp [Event.propVault?]) ?_
    (by simpa [sent, sentBy, received, receivedBy, World.escrow] using hdebit)
    fun j _ hj => ?_⟩
  swap
  · simpa [paidInto, payee, payout, World.escrow] using transfer_gains hw.owners (Ne.symm hj) hl
  rw [hc.book, Option.map_some, List.foldl_cons, List.foldl_nil, replayMarket_known rfl]
  have hstakes := stakes_marked hc.found
  simp only [marketRecord] at hstakes
  simp [MarketRecord.apply, marketRecord, ← hstakes, markClaimed, countClaim,
    claimPayout_claimed hp]

theorem claimRefund_emits (hw : WellFormed w) {ctx : Claim} (h : claimRefund w ctx = .ok w') :
    ∃ es, Emits w (.claimRefund ctx) w' es := by
  simp only [claimRefund, World.transferTokens, bind_eq_ok, require_eq_ok, mapError_eq_ok,
    pure_eq_ok] at h
  obtain ⟨⟨b, q⟩, hc, _, -, _, -, _, ⟨l, hl, rfl⟩, rfl⟩ := h
  have hc := loadClaim_ok.mp hc
  have hkey := hc.vault.symm.trans (hw.books _ _ hc.book).vault
  rw [hkey] at hl
  have hdebit := (transfer_moved (hkey ▸ hc.distinct) hl).2
  refine ⟨_, .setBook rfl rfl (by simp [Event.market?]) (by simp [Event.propVault?]) ?_
    (by simpa [sent, sentBy, received, receivedBy, World.escrow] using hdebit)
    fun j _ hj => ?_⟩
  swap
  · simpa [paidInto, payee, payout, World.escrow] using transfer_gains hw.owners (Ne.symm hj) hl
  rw [hc.book, Option.map_some, List.foldl_cons, List.foldl_nil, replayMarket_known rfl]
  have hstakes := stakes_marked hc.found
  simp only [marketRecord] at hstakes
  simp [MarketRecord.apply, marketRecord, ← hstakes, markClaimed]

theorem withdrawFees_emits (hw : WellFormed w) {ctx : WithdrawFees}
    (h : withdrawFees w ctx = .ok w') : ∃ es, Emits w (.withdrawFees ctx) w' es := by
  simp only [withdrawFees, requireSigner, World.loadBook, World.tokenAccount,
    World.transferTokens, bind_eq_ok, require_eq_ok, demand_eq_ok, mapError_eq_ok,
    pure_eq_ok] at h
  obtain ⟨_, -, b, hb, _, -, _, -, _, hne, _, hv, _, -, _, -, _, -, _, -, _, -, _, -, _,
    ⟨l, hl, rfl⟩, rfl⟩ := h
  have hkey := hv.symm.trans (hw.books _ _ hb).vault
  rw [hkey] at hl hne
  have hdebit := (transfer_moved hne hl).2
  refine ⟨_, .setBook rfl rfl (by simp [Event.market?]) (by simp [Event.propVault?]) ?_
    (by simpa [sent, sentBy, received, receivedBy, World.escrow] using hdebit)
    fun j _ hj => ?_⟩
  · rw [hb]
    exact replayMarket_known rfl
  · simpa [paidInto, payee, payout, World.escrow] using transfer_gains hw.owners (Ne.symm hj) hl

/-! ## Prop vaults -/

/-- A vault that was not resolved carries no receipt. -/
def Blank (v : PropVault D) : Prop :=
  v.status = .funded →
    v.settleProofRef = default ∧ v.settleProofTs = 0 ∧ v.settleDailyRoots = .default

theorem initializePropVault_emits (hw : WellFormed w) {ctx : InitializePropVault}
    {p : PropVaultParams} (h : initializePropVault O w ctx p = .ok w') :
    ∃ es, Emits w (.initializePropVault ctx p) w' es := by
  simp only [initializePropVault, requireSigner, World.tokenAccount, World.transferTokens,
    bind_eq_ok, require_eq_ok, demand_eq_ok, mapError_eq_ok, pure_eq_ok] at h
  obtain ⟨_, hsigner, _, htd, _, hn, l₁, hl₁, _, -, _, -, _, -, _, -, _, -, _, -, _, -, _, -, _,
    ⟨l, hl, rfl⟩, rfl⟩ := h
  have hfresh := escrow_fresh hl₁
  obtain ⟨htitle, -, hothers⟩ := Ledger.initializeAccount_title hl₁
  have hne : ctx.depositorToken ≠ .vault (ctx.vaultKey p) := by
    intro he
    rw [he, (Ledger.initializeAccount_ok hl₁).1] at htd
    cases htd
  have hcredit := (Ledger.transfer_ok hne hl).credit
  rw [World.setLedger_ledger, (Ledger.initializeAccount_title hl₁).2.1, Nat.zero_add] at hcredit
  refine ⟨_, Emits.setPropVault (w := w) (l := l) rfl rfl (by simp [Event.market?])
    (by simp [Event.propVault?]) ?_
    (by simp [sent, sentBy, received, receivedBy, hfresh, hcredit]) fun j hs hj => ?_⟩
  · rw [hn, Option.map_none, List.foldl_cons, List.foldl_nil, replayVault_new rfl]
    rfl
  · have ha : ctx.depositor ≠ j := by
      rintro rfl
      cases hsigner.symm.trans hs
    have howners : ∀ k m o, l₁.title (.vault k) = some (m, o) → o = k := by
      intro k m o ht
      by_cases hk : k = ctx.vaultKey p
      · rw [hk, htitle] at ht
        cases ht
        exact hk.symm
      · rw [(hothers _ (by simpa using hk)).1] at ht
        exact hw.owners k m o ht
    have hgains := transfer_gains howners ha hl
    rw [(hothers _ (by simpa using hj)).2] at hgains
    simpa [paidInto, payee, World.escrow, Ne.symm hj] using hgains

omit [Inhabited D] in
theorem sweep_world {w₁ : World D} {vault destination authority : Pubkey}
    (h : sweep w vault destination authority = .ok w₁) : w₁ = w.setLedger w₁.ledger := by
  rcases sweep_ok h with ⟨-, rfl⟩ | ⟨-, l, -, rfl⟩ <;> rfl

omit [Inhabited D] in
/-- The sweep of another escrow adds the whole of it to the one it is paid into. -/
theorem sweep_gains (hw : WellFormed w) {w₁ : World D} {vault destination authority : Pubkey}
    (ha : authority ≠ k) (h : sweep w vault destination authority = .ok w₁) :
    w₁.ledger.balance (.vault k) =
      w.escrow k + if destination = .vault k then w.ledger.balance vault else 0 := by
  rcases sweep_ok h with ⟨hzero, rfl⟩ | ⟨-, l, hl, rfl⟩
  · rw [hzero, ite_self]
    rfl
  · exact transfer_gains hw.owners ha hl

theorem settlePropVault_emits (hw : WellFormed w) {ctx : SettlePropVault}
    {proof : SettlementProofV3 D} (h : settlePropVault O w ctx proof = .ok w') :
    ∃ es, Emits w (.settlePropVault ctx proof) w' es := by
  simp only [settlePropVault, requireSigner, World.loadPropVault, World.tokenAccount, bind_eq_ok,
    require_eq_ok, demand_eq_ok, pure_eq_ok] at h
  obtain ⟨_, -, v, hv, _, -, _, -, _, -, _, ⟨hne₁, hne₂, -⟩, _, -, _, hvv, _, -, _, -, _, -, _, -,
    _, -, _, -, _, -, holds, -, w₁, hs, rfl⟩ := h
  have hkey := hvv.symm.trans (hw.propVaults _ _ hv).vault
  rw [hkey] at hs
  have hne : .vault ctx.propVault ≠ ctx.destination holds := by
    rw [← hkey]
    cases holds
    · exact hne₂
    · exact hne₁
  have hempty := (sweep_moved hne hs).1
  rw [sweep_world hs]
  refine ⟨_, .setPropVault rfl rfl (by simp [Event.market?]) (by simp [Event.propVault?]) ?_
    (by simpa [sent, sentBy, received, receivedBy, hkey, World.escrow] using hempty)
    fun j _ hj => ?_⟩
  swap
  · simpa [paidInto, payee, payout, hkey] using sweep_gains hw (Ne.symm hj) hs
  rw [hv]
  exact replayVault_known rfl

theorem cancelPropVault_emits (hw : WellFormed w)
    (hblank : ∀ k v, w.propVault? k = some v → Blank v) {ctx : CancelPropVault}
    (h : cancelPropVault w ctx = .ok w') : ∃ es, Emits w (.cancelPropVault ctx) w' es := by
  simp only [cancelPropVault, requireSigner, World.loadPropVault, World.tokenAccount, bind_eq_ok,
    require_eq_ok, demand_eq_ok, pure_eq_ok] at h
  obtain ⟨_, -, v, hv, _, -, _, -, _, hne, _, hvv, _, -, _, -, _, hst, deadline, -, _, -, w₁, hs,
    rfl⟩ := h
  have hkey := hvv.symm.trans (hw.propVaults _ _ hv).vault
  rw [hkey] at hs hne
  have hempty := (sweep_moved hne hs).1
  rw [sweep_world hs]
  refine ⟨_, .setPropVault rfl rfl (by simp [Event.market?]) (by simp [Event.propVault?]) ?_
    (by simpa [sent, sentBy, received, receivedBy, hkey, World.escrow] using hempty)
    fun j _ hj => ?_⟩
  swap
  · simpa [paidInto, payee, payout, hkey] using sweep_gains hw (Ne.symm hj) hs
  obtain ⟨href, hts, hroots⟩ := hblank _ _ hv hst
  rw [hv, Option.map_some, List.foldl_cons, List.foldl_nil, replayVault_known rfl]
  simp [VaultRecord.apply, vaultRecord, expireVault, href, hts, hroots]

/-! ## Every operation -/

theorem step_emits (hw : WellFormed w) (hblank : ∀ k v, w.propVault? k = some v → Blank v)
    (h : step O w i = .ok w') : ∃ es, Emits w i w' es := by
  cases i with
  | initializeMarket ctx p => exact initializeMarket_emits h
  | placeBet ctx oi a => exact placeBet_emits hw h
  | lockMarket ctx => exact lockMarket_emits h
  | initializeComboSpec ctx legs outcomes => exact initializeComboSpec_emits h
  | settleMarket ctx oc proof => exact settleMarket_emits h
  | settleMarketV3 ctx oc proof => exact settleMarketV3_emits h
  | cancelMarket ctx => exact cancelMarket_emits h
  | claimWinnings ctx => exact claimWinnings_emits hw h
  | claimRefund ctx => exact claimRefund_emits hw h
  | withdrawFees ctx => exact withdrawFees_emits hw h
  | initializePropVault ctx p => exact initializePropVault_emits hw h
  | settlePropVault ctx proof => exact settlePropVault_emits hw h
  | cancelPropVault ctx => exact cancelPropVault_emits hw hblank h
  | splTransfer src dst authority a =>
      obtain ⟨hs, l, hl, rfl⟩ := splTransfer_ok h
      refine ⟨[], .silent rfl rfl rfl (fun _ => rfl) (fun _ => rfl) fun k hk => ?_⟩
      have ha : authority ≠ k := by
        rintro rfl
        cases hs.symm.trans hk
      exact transfer_gains hw.owners ha hl
  | splInitializeMint mint =>
      obtain ⟨l, hl, rfl⟩ := spl_ok h
      obtain ⟨-, rfl⟩ := Ledger.initializeMint_ok hl
      exact ⟨[], .silent rfl rfl rfl (fun _ => rfl) (fun _ => rfl) fun _ _ => rfl⟩
  | splInitializeAccount a mint owner =>
      obtain ⟨l, hl, rfl⟩ := spl_ok h
      refine ⟨[], .silent rfl rfl rfl (fun _ => rfl) (fun _ => rfl) fun k _ => ?_⟩
      exact ((Ledger.initializeAccount_title hl).2.2 (.vault k) (by simp)).2
  | splMintTo mint dst a =>
      obtain ⟨l, hl, rfl⟩ := spl_ok h
      refine ⟨[], .silent rfl rfl rfl (fun _ => rfl) (fun _ => rfl) fun k _ => ?_⟩
      exact Ledger.mintTo_balance hl (.vault k)
  | publishDailyRoot d r =>
      cases h
      exact ⟨[], .silent rfl rfl rfl (fun _ => rfl) (fun _ => rfl) fun _ _ => rfl⟩
  | setClock now =>
      cases h
      exact ⟨[], .silent rfl rfl rfl (fun _ => rfl) (fun _ => rfl) fun _ _ => rfl⟩

end ProofBook.EventLog
