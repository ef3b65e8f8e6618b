import ProofBook.Escrow
import ProofBook.Lifecycle

/-!
# The way out after the timeout

Without any proof a market locks, cancels and refunds, and a prop vault returns
its escrow, if the clock can pass the deadline. Creation checks only that the
timeout is positive, so the deadline need not exist.
-/
namespace ProofBook.Liveness
open Addresses State Checked OracleWire OracleAdapter TokenLedger Totals Chain Program Runs Steps
open StepCases Solvency MarketRuns Lifecycle Escrow
open Instructions.Betting Instructions.Settlement Instructions.Payments Instructions.PropVaults

variable {D : Type} [Inhabited D]

/-- The clock can pass the end of the timeout. -/
def DeadlinePasses (lockTime resolutionTimeout : Int64) : Prop :=
  lockTime.toInt + resolutionTimeout.toInt < i64Max

/-- The owner of a position can be refunded: a token account of theirs exists,
and a refund to any such account succeeds and credits the whole amount. -/
def Refunds (w : World D) (k o mint : Pubkey) (amount : ℕ) : Prop :=
  (∃ t, w.ledger.title t = some (mint, o)) ∧
    ∀ t, w.ledger.title t = some (mint, o) → ∃ w', claimRefund w ⟨o, k, .vault k, t⟩ = .ok w' ∧
      w'.ledger.balance t = w.ledger.balance t + amount

/-- Every position of the book is unpaid, and in every later state it is either
paid or can be refunded in full. -/
structure Refundable (O : OracleProgram D) (w : World D) (k : Pubkey) (b : Book D) : Prop where
  unpaid : ∀ o q, b.positions.lookup o = some q → q.claimed = false ∧
    ∃ b', w.book? k = some b' ∧ b'.positions.lookup o = some q
  later : ∀ is o q, b.positions.lookup o = some q →
    ∃ b' q', ((machine O).run w is).book? k = some b' ∧ b'.positions.lookup o = some q' ∧
      q'.amount = q.amount ∧
      (q'.claimed = true ∨ Refunds ((machine O).run w is) k o b'.market.usdcMint q.amount)

/-- Whoever cranks, at some time from now on lock and cancel go through, and
then every position is refundable. -/
def MarketExit (O : OracleProgram D) (w : World D) (k : Pubkey) (b : Book D) : Prop :=
  ∃ now, w.clock ≤ now ∧ ∀ cranker, cranker.canSign = true →
    ∃ w', step O ((machine O).run w [.setClock now, .lockMarket ⟨k, cranker⟩])
        (.cancelMarket ⟨k, cranker⟩) = .ok w' ∧ Refundable O w' k b

/-- At some time from now on anyone can return the whole escrow to any token
account of the depositor, and one exists. -/
def VaultExit (O : OracleProgram D) (w : World D) (k : Pubkey) (v : PropVault D) : Prop :=
  ∃ now, w.clock ≤ now ∧ v.amount ≤ w.escrow k ∧
    (∃ t, w.ledger.title t = some (v.usdcMint, v.depositor)) ∧
    ∀ canceller t, canceller.canSign = true →
      w.ledger.title t = some (v.usdcMint, v.depositor) →
      ∃ w', step O ((machine O).run w [.setClock now])
          (.cancelPropVault ⟨canceller, k, .vault k, t⟩) = .ok w' ∧
            w'.ledger.balance t = w.ledger.balance t + w.escrow k

/-! ## Deadlines -/

theorem deadlinePasses_iff {lockTime resolutionTimeout : Int64} (h : 0 < resolutionTimeout) :
    DeadlinePasses lockTime resolutionTimeout ↔
      ∃ deadline, checkedAddI64 lockTime resolutionTimeout = some deadline ∧
        deadline < Int64.maxValue := by
  have hpos : 0 < resolutionTimeout.toInt := Int64.lt_iff_toInt_lt.mp h
  have hmax : Int64.maxValue.toInt = i64Max := by decide
  unfold DeadlinePasses
  constructor
  · intro hd
    obtain ⟨deadline, hc⟩ := checkedAddI64_of_le hpos.le hd.le
    refine ⟨deadline, hc, Int64.lt_iff_toInt_lt.mpr ?_⟩
    rw [(checkedAddI64_eq_some hc).1, hmax]
    exact hd
  · rintro ⟨deadline, hc, hlt⟩
    have hlt := Int64.lt_iff_toInt_lt.mp hlt
    rw [(checkedAddI64_eq_some hc).1, hmax] at hlt
    exact hlt

theorem le_maxValue (a : Int64) : a ≤ Int64.maxValue := by
  have hmax : Int64.maxValue.toInt = i64Max := by decide
  rw [Int64.le_iff_toInt_le, hmax]
  exact (toInt_bounds a).2

theorem lockTime_le_deadline {lockTime resolutionTimeout deadline : Int64}
    (h : 0 < resolutionTimeout)
    (hc : checkedAddI64 lockTime resolutionTimeout = some deadline) : lockTime ≤ deadline := by
  have hpos : 0 < resolutionTimeout.toInt := Int64.lt_iff_toInt_lt.mp h
  rw [Int64.le_iff_toInt_le, (checkedAddI64_eq_some hc).1]
  omega

variable {O : OracleProgram D} {w w' : World D} {k : Pubkey} {b : Book D} {v : PropVault D}

/-- Creation accepts positive timeouts only, and no operation changes one. -/
structure TimeoutsPositive (w : World D) : Prop where
  wellFormed : WellFormed w
  books : ∀ k b, w.book? k = some b → 0 < b.market.resolutionTimeout
  propVaults : ∀ k v, w.propVault? k = some v → 0 < v.resolutionTimeout

omit [Inhabited D] in
theorem vaultStep_terms {i : Instruction D} {v' : PropVault D} {x y : ℕ}
    (h : VaultStep O w w' k v i v' x y) :
    v'.lockTime = v.lockTime ∧ v'.resolutionTimeout = v.resolutionTimeout := by
  cases h <;> exact ⟨rfl, rfl⟩

theorem TimeoutsPositive.step {i : Instruction D} (h : TimeoutsPositive w)
    (hs : step O w i = .ok w') : TimeoutsPositive w' where
  wellFormed := WellFormed.step h.wellFormed hs
  books k b' hb' := by
    cases hb : w.book? k with
    | none =>
        obtain ⟨ctx, p, -, -, -, ha, rfl, -⟩ := step_book_new hs hb hb'
        exact ha.timeout
    | some b =>
        obtain ⟨b₁, x, y, hb₁, hstep, -⟩ := step_book h.wellFormed hs hb
        obtain rfl := Option.some.inj (hb₁.symm.trans hb')
        rw [hstep.sameTerms.resolutionTimeout]
        exact h.books k b hb
  propVaults k v' hv' := by
    cases hv : w.propVault? k with
    | none =>
        obtain ⟨ctx, p, -, -, -, ha, rfl, -⟩ := step_propVault_new hs hv hv'
        exact ha.timeout
    | some v =>
        obtain ⟨v₁, x, y, hv₁, hstep, -⟩ := step_propVault h.wellFormed hs hv
        obtain rfl := Option.some.inj (hv₁.symm.trans hv')
        rw [(vaultStep_terms hstep).2]
        exact h.propVaults k v hv

theorem reachable_timeouts (hw : Reachable O w) : TimeoutsPositive w :=
  hw.invariant
    (fun w h => ⟨Genesis.wellFormed h, fun k b hb => by simp [World.book?, h.books] at hb,
      fun k v hv => by simp [World.propVault?, h.propVaults] at hv⟩)
    fun _ _ _ h hs => h.step hs

/-! ## Markets -/

/-- After lock_market was tried on an unresolved market. -/
theorem lock_tried (hb : w.book? k = some b) (cranker : Pubkey) :
    ∃ b', ((machine O).apply w (.lockMarket ⟨k, cranker⟩)).book? k = some b' ∧
      b'.positions = b.positions ∧ SameTerms b.market b'.market ∧
      ((machine O).apply w (.lockMarket ⟨k, cranker⟩)).clock = w.clock := by
  rcases (machine O).apply_cases w (.lockMarket ⟨k, cranker⟩) with h | ⟨-, h⟩
  · obtain ⟨b₁, es, hb₁, -, -, he⟩ := lockMarket_ok h
    obtain rfl := Option.some.inj (hb₁.symm.trans hb)
    rw [he]
    exact ⟨_, World.setBook_book?_self, rfl,
      ⟨rfl, rfl, rfl, rfl, rfl, rfl, rfl, rfl, rfl, rfl, rfl, rfl⟩, rfl⟩
  · rw [h]
    exact ⟨b, hb, rfl, ⟨rfl, rfl, rfl, rfl, rfl, rfl, rfl, rfl, rfl, rfl, rfl, rfl⟩, rfl⟩

/-- Past the lock time the market is locked afterwards. -/
theorem lock_tried_locked (hb : w.book? k = some b) (hn : b.market.status.terminal = false)
    (ht : b.market.lockTime ≤ w.clock) {cranker : Pubkey} (hs : cranker.canSign = true)
    {b' : Book D} (hb' : ((machine O).apply w (.lockMarket ⟨k, cranker⟩)).book? k = some b') :
    b'.market.status = .locked := by
  rcases (machine O).apply_cases w (.lockMarket ⟨k, cranker⟩) with h | ⟨⟨e, h⟩, happly⟩
  · obtain ⟨b₁, es, hb₁, -, -, he⟩ := lockMarket_ok h
    rw [he, World.setBook_book?_self] at hb'
    obtain rfl := Option.some.inj hb'
    rfl
  · rw [happly] at hb'
    obtain rfl := Option.some.inj (hb.symm.trans hb')
    cases hst : b.market.status with
    | opened =>
        obtain ⟨w₁, hw₁⟩ : ∃ w₁, lockMarket w ⟨k, cranker⟩ = .ok w₁ :=
          lockMarket_succeeds hb hs hst ht
        exact absurd (hw₁.symm.trans h) (by simp)
    | locked => rfl
    | settled => rw [hst] at hn; cases hn
    | cancelled => rw [hst] at hn; cases hn

/-- A covered position of a cancelled market is refunded. -/
theorem refunds (hw : Reachable O w) (hb : w.book? k = some b)
    (hst : b.market.status = .cancelled) {o : Pubkey} {q : Position}
    (hq : b.positions.lookup o = some q) (hu : q.claimed = false) :
    Refunds w k o b.market.usdcMint q.amount := by
  have hwf := reachable_wellFormed hw
  have ok := hwf.books k b hb
  obtain ⟨donated, hs⟩ := reachable_sound hw hb
  refine ⟨ok.tokens o q hq, fun t ht => ?_⟩
  have hne : .vault k ≠ t := by
    rintro rfl
    obtain rfl := hwf.owners k _ _ ht
    exact absurd (ok.positions _ q hq).2.2 (by rw [ok.key]; simp [Pubkey.canSign])
  have hc : ClaimChecks w ⟨o, k, .vault k, t⟩ b q :=
    ⟨(ok.positions o q hq).2.2, hb, hq, hne, ok.vault, (ok.positions o q hq).2.1,
      ⟨_, _, ok.title⟩, ht⟩
  obtain ⟨l, hl⟩ := Ledger.transfer_succeeds hwf.conserved ok.title ht (hs.covers_refund hst hq hu)
  obtain ⟨w', hw'⟩ := claimRefund_succeeds hc hst hu hl
  refine ⟨w', hw', ?_⟩
  obtain ⟨b₁, q₁, l₁, es, hc₁, -, -, hl₁, rfl⟩ := claimRefund_ok hw'
  obtain rfl := Option.some.inj (hc₁.book.symm.trans hb)
  obtain rfl := Option.some.inj (hc₁.found.symm.trans hq)
  simpa using (Ledger.transfer_ok hne hl₁).credit

/-- Cancellation and the stakes last. -/
theorem cancelled_lasts (hw : Reachable O w) (hb : w.book? k = some b)
    (hst : b.market.status = .cancelled) (is : List (Instruction D)) :
    ∃ b', ((machine O).run w is).book? k = some b' ∧ b'.market.status = .cancelled ∧
      SameStakes b b' := by
  have h := Machine.run_preserves (M := machine O)
    (P := fun s => WellFormed s ∧ ∃ b', s.book? k = some b' ∧ b'.market.status = .cancelled ∧
      SameStakes b b') ?_ ⟨reachable_wellFormed hw, b, hb, hst, .refl b⟩ is
  · exact h.2
  rintro s i t ⟨hwf, b₁, hb₁, hst₁, hsame⟩ hs
  obtain ⟨b₂, hb₂, law⟩ := step_law hwf hs hb₁
  have hfrozen := law.frozen (by rw [hst₁]; simp)
  refine ⟨WellFormed.step hwf hs, b₂, hb₂, ?_, ?_⟩
  · rw [(law.final (by rw [hst₁]; rfl)).status, hst₁]
  · exact ⟨hfrozen.outcomes.trans hsame.outcomes, hfrozen.totalPool.trans hsame.totalPool,
      fun o => (hfrozen.positions o).trans (hsame.positions o)⟩

theorem cancelled_refundable (hw : Reachable O w) (hb : w.book? k = some b)
    (hst : b.market.status = .cancelled)
    (hu : ∀ o q, b.positions.lookup o = some q → q.claimed = false) : Refundable O w k b where
  unpaid o q hq := ⟨hu o q hq, b, hb, hq⟩
  later is o q hq := by
    obtain ⟨b', hb', hst', hsame⟩ := cancelled_lasts hw hb hst is
    have hp := hsame.positions o
    rw [hq, Option.map_some] at hp
    obtain ⟨q', hq', he⟩ := Option.map_eq_some_iff.mp hp
    simp only [Prod.mk.injEq] at he
    refine ⟨b', q', hb', hq', he.2, ?_⟩
    cases hc : q'.claimed with
    | true => exact .inl rfl
    | false =>
        have := refunds (hw.run is) hb' hst' hq' hc
        rw [he.2] at this
        exact .inr this

/-- A non-terminal market has the way out exactly when its deadline can pass. -/
theorem marketExit_iff (hw : Reachable O w) (hb : w.book? k = some b)
    (hn : b.market.status.terminal = false) :
    MarketExit O w k b ↔ DeadlinePasses b.market.lockTime b.market.resolutionTimeout := by
  have hpos := (reachable_timeouts hw).books k b hb
  rw [deadlinePasses_iff hpos]
  constructor
  · rintro ⟨now, -, hexit⟩
    obtain ⟨w', hc, -⟩ := hexit (.key 1) rfl
    obtain ⟨b₁, deadline, es, hb₁, -, hd, hlt, -⟩ := cancelMarket_ok hc
    obtain ⟨b₂, hb₂, -, terms, -⟩ := lock_tried (O := O) (w := { w with clock := now }) hb (.key 1)
    obtain rfl := Option.some.inj (hb₂.symm.trans hb₁)
    rw [terms.lockTime, terms.resolutionTimeout] at hd
    exact ⟨deadline, hd, Int64.lt_of_lt_of_le hlt (le_maxValue _)⟩
  · rintro ⟨deadline, hd, hlt⟩
    refine ⟨Int64.maxValue, le_maxValue _, fun cranker hs => ?_⟩
    have hclk : Reachable O { w with clock := Int64.maxValue } :=
      hw.step (i := .setClock Int64.maxValue) rfl
    obtain ⟨b₁, hb₁, hpos₁, terms, hnow⟩ :=
      lock_tried (O := O) (w := { w with clock := Int64.maxValue }) hb cranker
    have hlocked := lock_tried_locked (w := { w with clock := Int64.maxValue }) hb hn
      (Int64.le_trans (lockTime_le_deadline hpos hd) (Int64.le_of_lt hlt)) hs hb₁
    have hlock := hclk.run [.lockMarket ⟨k, cranker⟩]
    have hsum : checkedAddI64 b₁.market.lockTime b₁.market.resolutionTimeout = some deadline := by
      rw [terms.lockTime, terms.resolutionTimeout, hd]
    obtain ⟨w', hc⟩ : ∃ w', cancelMarket _ ⟨k, cranker⟩ = .ok w' :=
      cancelMarket_succeeds hb₁ hs hlocked hsum (by rw [hnow]; exact hlt)
    refine ⟨w', hc, ?_⟩
    obtain ⟨b₂, d, es, hb₂, hst₂, -, -, rfl⟩ := cancelMarket_ok hc
    obtain rfl := Option.some.inj (hb₂.symm.trans hb₁)
    obtain ⟨donated, hsound⟩ := reachable_sound hlock hb₂
    have hrefund := cancelled_refundable (hlock.step (i := .cancelMarket ⟨k, cranker⟩) hc)
      World.setBook_book?_self rfl fun o q hq =>
        (hsound.unresolved (.inr hst₂)).1.positions o q hq
    exact ⟨fun o q hq => hrefund.unpaid o q (by rw [hpos₁]; exact hq),
      fun is o q hq => hrefund.later is o q (by rw [hpos₁]; exact hq)⟩

/-! ## Prop vaults -/

theorem vaultExit_iff (hw : Reachable O w) (hv : w.propVault? k = some v)
    (hst : v.status = .funded) :
    VaultExit O w k v ↔ DeadlinePasses v.lockTime v.resolutionTimeout := by
  have hpos := (reachable_timeouts hw).propVaults k v hv
  have hwf := reachable_wellFormed hw
  have ok := hwf.propVaults k v hv
  rw [deadlinePasses_iff hpos]
  constructor
  · rintro ⟨now, -, -, ⟨t, ht⟩, hexit⟩
    obtain ⟨w', hc, -⟩ := hexit (.key 1) t rfl ht
    obtain ⟨v₁, deadline, w₁, es, hchecks, -, -⟩ := cancelPropVault_ok hc
    obtain rfl := Option.some.inj (hchecks.propVault.symm.trans hv)
    exact ⟨deadline, hchecks.sum, Int64.lt_of_lt_of_le hchecks.late (le_maxValue _)⟩
  · rintro ⟨deadline, hd, hlt⟩
    obtain ⟨n, hsound⟩ := reachable_vaultSound hw hv
    have hpay : 0 < w.escrow k := hsound.positive.trans_le (hsound.covered hst)
    refine ⟨Int64.maxValue, le_maxValue _, hsound.covered hst, ok.token,
      fun canceller t hs ht => ?_⟩
    have hne : .vault k ≠ t := escrow_ne_token hwf ok ht ok.depositor
    have hchecks : ExpireChecks { w with clock := Int64.maxValue } ⟨canceller, k, .vault k, t⟩ v
        deadline := ⟨hv, ok.vault, hne, ht, hst, hd, hlt⟩
    obtain ⟨l, hl⟩ := Ledger.transfer_succeeds hwf.conserved ok.title ht le_rfl
    obtain ⟨w', hc⟩ := cancelPropVault_succeeds hs ⟨_, _, ok.title⟩ hchecks
      (sweep_succeeds hpay hl)
    refine ⟨w', hc, ?_⟩
    obtain ⟨v₁, d, w₁, es, -, hsweep, rfl⟩ := cancelPropVault_ok hc
    exact ((sweep_moved hne hsweep).2 hpay).credit

/-- In every reachable state the timeout leads out of an unresolved market and
out of a funded vault exactly when the sum of lock time and timeout stays below
the last clock value. -/
theorem timeout_exit_iff (hw : Reachable O w) :
    (∀ b, w.book? k = some b → b.market.status.terminal = false →
      (MarketExit O w k b ↔ DeadlinePasses b.market.lockTime b.market.resolutionTimeout)) ∧
      ∀ v, w.propVault? k = some v → v.status = .funded →
        (VaultExit O w k v ↔ DeadlinePasses v.lockTime v.resolutionTimeout) :=
  ⟨fun _ hb hn => marketExit_iff hw hb hn, fun _ hv hst => vaultExit_iff hw hv hst⟩

theorem timeout_exit_iff_betting :
    ∃ b, bettingWorld.book? sampleMarket = some b ∧
      MarketExit acceptingOracle bettingWorld sampleMarket b := by
  have hbook : (bettingWorld.book? sampleMarket).map (fun b =>
      (b.market.status, b.market.lockTime, b.market.resolutionTimeout)) =
        some (.opened, 100, 50) := by
    decide +kernel
  obtain ⟨b, hb, hterms⟩ := Option.map_eq_some_iff.mp hbook
  simp only [Prod.mk.injEq] at hterms
  obtain ⟨hst, hlock, htimeout⟩ := hterms
  have hlive : b.market.status.terminal = false := by rw [hst]; rfl
  have hpasses : DeadlinePasses b.market.lockTime b.market.resolutionTimeout := by
    rw [hlock, htimeout, DeadlinePasses]
    decide
  exact ⟨b, hb, ((timeout_exit_iff bettingWorld_reachable).1 b hb hlive).mpr hpasses⟩

/-! ## A market that can never be cancelled -/

def endlessParams : MarketParams :=
  ⟨7, 0, [homeWin, awayWin], 500, 100, Int64.maxValue, .key 21⟩

/-- A bet on a market whose timeout is the largest clock value. -/
def endlessRun : List (Instruction Unit) :=
  fundWallets ++ [.initializeMarket sampleContext endlessParams, bet 2 0 500]

def endlessWorld : World Unit := (machine acceptingOracle).run (emptyWorld Unit) endlessRun

theorem endlessWorld_book :
    (endlessWorld.book? sampleMarket).map (fun b =>
      (b.market.status, b.market.totalPool, b.market.lockTime, b.market.resolutionTimeout)) =
        some (.opened, 500, 100, Int64.maxValue) := by
  decide +kernel

/-- The stake in it is trapped. -/
theorem stake_trapped :
    ¬ ∀ (w : World Unit) (b : Book Unit), Reachable acceptingOracle w →
      w.book? sampleMarket = some b → b.market.status.terminal = false →
      0 < b.market.totalPool → MarketExit acceptingOracle w sampleMarket b := by
  intro h
  have hw : Reachable acceptingOracle endlessWorld := ⟨_, endlessRun, emptyWorld_genesis, rfl⟩
  obtain ⟨b, hb, he⟩ := Option.map_eq_some_iff.mp endlessWorld_book
  simp only [Prod.mk.injEq] at he
  obtain ⟨hst, hpool, hlock, htimeout⟩ := he
  have hn : b.market.status.terminal = false := by rw [hst]; rfl
  have hexit := (marketExit_iff hw hb hn).mp (h _ b hw hb hn (by omega))
  rw [hlock, htimeout] at hexit
  revert hexit
  unfold DeadlinePasses
  decide

end ProofBook.Liveness
