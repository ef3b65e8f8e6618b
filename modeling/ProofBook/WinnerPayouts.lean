import ProofBook.MarketRuns

/-!
# Exact distribution

Every winning claim but the last pays the floor of its share; the last takes
what is left, which is its floor and at most one unit for each other winner.
Together the claims pay exactly the pool less the fee, in whatever order.
-/
namespace ProofBook.WinnerPayouts
open Addresses State Checked OracleWire OracleAdapter TokenLedger Totals Chain Program Runs Steps
open StepCases PayoutMath ProRata Solvency MarketRuns
open Instructions.Betting Instructions.Settlement Instructions.Payments Instructions.PropVaults

variable {D : Type} {b : Book D}

/-! ## Floor shares of a settled book -/

def winners (b : Book D) : ℕ :=
  sumOf b fun q => if q.outcomeIndex = b.market.winningOutcome then 1 else 0

/-- A winning position that was not paid yet. -/
def Owed (b : Book D) (q : Position) : Prop :=
  q.outcomeIndex = b.market.winningOutcome ∧ q.claimed = false

def allShares (b : Book D) : ℕ :=
  sumOf b fun q => floorShare b.market (stakeOn b.market.winningOutcome q)

@[simp] theorem floorShare_zero (m : Market D) : floorShare m 0 = 0 := share_zero _ _

theorem allShares_eq (b : Book D) : allShares b = claimedShares b + owedShares b := by
  unfold allShares claimedShares owedShares
  rw [← sumOf_add]
  refine sumOf_congr fun o q _ => ?_
  unfold claimedOn owedOn
  split <;> simp

theorem stake_le_pool (hp : Pools b) (hs : SettledBook b) :
    staked b b.market.winningOutcome = b.market.totalWinningPool := by
  rw [hs.winningPool, hp.pool]

theorem allShares_le (hp : Pools b) (hs : SettledBook b) :
    allShares b ≤ distributable b.market :=
  (sumOf_floorShare_le b _).trans (share_le _ (stake_le_pool hp hs).le)

theorem distributable_lt (hp : Pools b) (hs : SettledBook b) :
    distributable b.market < allShares b + winners b := by
  have h := lt_total_share_add_card (distributable b.market)
    (fun _ q => stakeOn b.market.winningOutcome q) b.positions (stake_le_pool hp hs) hs.staked
  refine h.trans_le (Nat.add_le_add_left (sumOf_le fun o q hq => ?_) _)
  have := hp.positive o q hq
  simp only [stakeOn]
  split_ifs <;> simp_all

/-- Nothing is owed to positions exactly when every winner has claimed. -/
theorem owed_eq_zero_iff (hp : Pools b) :
    sumOf b (owedOn b.market.winningOutcome) = 0 ↔
      ∀ o q, b.positions.lookup o = some q → ¬ Owed b q := by
  constructor
  · rintro h o q hq ⟨hw, hc⟩
    have hle := le_sumOf (owedOn b.market.winningOutcome) hq
    have hpos := hp.positive o q hq
    simp only [owedOn, hc, stakeOn, hw, if_true, Bool.false_eq_true, if_false] at hle
    omega
  · intro h
    refine sumOf_eq_zero fun o q hq => ?_
    have hn := h o q hq
    unfold owedOn stakeOn
    split_ifs with hc hw
    · rfl
    · exact absurd ⟨hw, by simpa using hc⟩ hn
    · rfl

/-- All winning stake is claimed exactly when every winner has claimed. -/
theorem all_claimed_iff (hp : Pools b) (hs : SettledBook b) :
    b.market.winningStakeClaimed = b.market.totalWinningPool ↔
      ∀ o q, b.positions.lookup o = some q → ¬ Owed b q := by
  rw [← owed_eq_zero_iff hp, hs.claimed, ← stake_le_pool hp hs, staked_eq]
  omega

theorem owedShares_le (hp : Pools b) (hs : SettledBook b) :
    owedShares b ≤ distributable b.market - b.market.paidOut := by
  have hle := allShares_le hp hs
  rw [allShares_eq] at hle
  rw [hs.paid]
  split_ifs with hall
  · have hz : owedShares b = 0 := by
      refine sumOf_eq_zero fun o q hq => ?_
      have h0 := (owed_eq_zero_iff hp).mpr ((all_claimed_iff hp hs).mp hall)
      have := le_sumOf (owedOn b.market.winningOutcome) hq
      rw [show owedOn b.market.winningOutcome q = 0 by omega, floorShare_zero]
    omega
  · omega

/-! ## One claim -/

section
variable {user : Pubkey} {q : Position} {claimed paid : ℕ}

/-- The claim that completes the winning stake is the last one still owed. -/
theorem last_claim_iff (hp : Pools b) (hs : SettledBook b)
    (hq : b.positions.lookup user = some q) (hw : WinnerChecks b q) :
    b.market.winningStakeClaimed + q.amount = b.market.totalWinningPool ↔
      ∀ o p, o ≠ user → b.positions.lookup o = some p → ¬ Owed b p := by
  have hm := claimedStake_marked hq hw
  have hst : staked (markClaimed b user q) b.market.winningOutcome =
      staked b b.market.winningOutcome := by
    rw [← (hp.marked hq).pool, ← hp.pool]
    rfl
  have hsum := staked_eq (markClaimed b user q) b.market.winningOutcome
  have hz := owed_eq_zero_iff (hp.marked hq)
  rw [hst, stake_le_pool hp hs, hm, ← hs.claimed] at hsum
  have hiff : b.market.winningStakeClaimed + q.amount = b.market.totalWinningPool ↔
      sumOf (markClaimed b user q) (owedOn b.market.winningOutcome) = 0 := by omega
  refine hiff.trans (hz.trans ⟨fun h o p ho hp' => ?_, fun h o p hp' => ?_⟩)
  · have := h o p (by rw [markClaimed_lookup, if_neg ho, hp'])
    exact this
  · rw [markClaimed_lookup] at hp'
    split_ifs at hp' with ho
    · obtain rfl := Option.some.inj hp'
      rintro ⟨-, hc⟩
      cases hc
    · exact h o p ho hp'

/-- The last claimer gets the floor of the share, and less than one unit more
for each other winner. -/
theorem last_claim_bounds (hp : Pools b) (hs : SettledBook b)
    (hq : b.positions.lookup user = some q) (hw : WinnerChecks b q)
    (hlast : b.market.winningStakeClaimed + q.amount = b.market.totalWinningPool) :
    floorShare b.market q.amount ≤ distributable b.market - b.market.paidOut ∧
      distributable b.market - b.market.paidOut ≤
        floorShare b.market q.amount + (winners b - 1) := by
  have hall := claimedShares_marked hq hw
  have hz : owedShares (markClaimed b user q) = 0 := by
    refine sumOf_eq_zero fun o p hp' => ?_
    have hn : owedOn b.market.winningOutcome p = 0 := by
      rw [markClaimed_lookup] at hp'
      split_ifs at hp' with ho
      · obtain rfl := Option.some.inj hp'
        simp [owedOn]
      · have := (last_claim_iff hp hs hq hw).mp hlast o p ho hp'
        simp only [Owed, not_and, Bool.not_eq_false] at this
        unfold owedOn stakeOn
        split_ifs with h₁ h₂
        · rfl
        · exact absurd (this h₂) h₁
        · rfl
    have hm : (markClaimed b user q).market = b.market := rfl
    rw [hm, hn, floorShare_zero]
  have heq : allShares (markClaimed b user q) = allShares b := by
    have h : allShares (markClaimed b user q) +
        floorShare b.market (stakeOn b.market.winningOutcome q) = allShares b +
          floorShare b.market (stakeOn b.market.winningOutcome { q with claimed := true }) :=
      sumOf_markClaimed (fun q => floorShare b.market (stakeOn b.market.winningOutcome q)) hq
    exact Nat.add_right_cancel h
  have hsplit := allShares_eq (markClaimed b user q)
  rw [heq, hall, hz] at hsplit
  have hle := allShares_le hp hs
  have hlt := distributable_lt hp hs
  rw [hs.paid_before hp hq hw]
  omega

/-- What a winning claim pays, and when it is the last. -/
structure PaysShare (b : Book D) (user : Pubkey) (q : Position) (paid : ℕ) : Prop where
  last_iff : b.market.winningStakeClaimed + q.amount = b.market.totalWinningPool ↔
    ∀ o p, o ≠ user → b.positions.lookup o = some p → ¬ Owed b p
  early : b.market.winningStakeClaimed + q.amount ≠ b.market.totalWinningPool →
    paid = floorShare b.market q.amount
  last : b.market.winningStakeClaimed + q.amount = b.market.totalWinningPool →
    floorShare b.market q.amount ≤ paid ∧ paid ≤ floorShare b.market q.amount + (winners b - 1)

theorem claim_paysShare (hp : Pools b) (hs : SettledBook b)
    (hq : b.positions.lookup user = some q) (hw : WinnerChecks b q)
    (hpay : claimPayout b.market q.amount = .ok (claimed, paid)) : PaysShare b user q paid := by
  obtain ⟨-, hpaid⟩ := claimPayout_ok hp hs hq hw hpay
  refine ⟨last_claim_iff hp hs hq hw, fun hne => ?_, fun hlast => ?_⟩
  · rw [hpaid, if_neg hne]
  · rw [hpaid, if_pos hlast]
    exact last_claim_bounds hp hs hq hw hlast

end

/-! ## Whole runs -/

variable [Inhabited D] {O : OracleProgram D} {w w' w₀ : World D} {k : Pubkey}

/-- What a winning claim took out of the escrow. -/
def winningsPaid (O : OracleProgram D) (k : Pubkey) (w : World D) : Instruction D → ℕ
  | .claimWinnings ctx =>
      if ctx.market = k then w.escrow k - ((machine O).apply w (.claimWinnings ctx)).escrow k
      else 0
  | _ => 0

/-- All winnings a run paid out of a market's escrow. -/
def payouts (O : OracleProgram D) (k : Pubkey) (w₀ : World D) (is : List (Instruction D)) : ℕ :=
  (machine O).accumulate (winningsPaid O k) w₀ is

theorem winningsPaid_pays {i : Instruction D} (h : winningsPaid O k w i ≠ 0) :
    Instruction.paysFrom k i := by
  cases i with
  | claimWinnings ctx =>
      by_contra hn
      exact h (if_neg hn)
  | _ => exact absurd rfl h

/-- The market's own counter is the sum of what it paid. -/
theorem payouts_eq (h₀ : Genesis w₀) (is : List (Instruction D))
    (hb : ((machine O).run w₀ is).book? k = some b) : payouts O k w₀ is = b.market.paidOut := by
  refine charges_eq (f := fun b => b.market.paidOut) ?_ ?_ (fun _ _ => rfl) ?_ h₀ is hb
  · intro w i e he
    have ha : (machine O).apply w i = w := Machine.apply_of_error he
    cases i <;> simp only [winningsPaid]
    rw [ha]
    simp
  · intro w i w' hs hn
    by_contra hc
    exact paysFrom_book hs (winningsPaid_pays hc) hn
  · intro w w' b b' i n x y hs hsound hbs he
    have happly : (machine O).apply w i = w' := Machine.apply_of_ok hs
    cases hbs with
    | idle hi =>
        have hz : winningsPaid O k w i = 0 := by
          by_contra hc
          exact hi (Instruction.market?_of_paysFrom (winningsPaid_pays hc))
        rw [hz]
        rfl
    | settle hst ho hv hr =>
        have hz : winningsPaid O k w i = 0 := by cases hv <;> rfl
        rw [hz, hr.keeps]
        rfl
    | claim hk hc hw hp hm =>
        simp only [winningsPaid, hk, if_true, happly, countClaim]
        omega
    | _ => rfl

/-- In every state of every run in which the market is settled: what each
further claim pays, that the remaining pool covers the remaining floors, and
that all claims together pay the pool less the fee and leave an escrow without
donations empty. -/
theorem exact_distribution (h₀ : Genesis w₀) (is : List (Instruction D))
    (hb : ((machine O).run w₀ is).book? k = some b) (hst : b.market.status = .settled) :
    (∀ ctx w', ctx.market = k → step O ((machine O).run w₀ is) (.claimWinnings ctx) = .ok w' →
      ∃ q paid, b.positions.lookup ctx.user = some q ∧ Owed b q ∧ PaysShare b ctx.user q paid ∧
        w'.escrow k + paid = ((machine O).run w₀ is).escrow k ∧
        w'.ledger.balance ctx.userToken =
          ((machine O).run w₀ is).ledger.balance ctx.userToken + paid) ∧
      b.market.totalWinningPool = staked b b.market.winningOutcome ∧
      b.market.feeAmount = fee b.market.totalPool b.market.feeBps ∧
      b.market.paidOut ≤ b.market.totalPool - b.market.feeAmount ∧
      owedShares b ≤ b.market.totalPool - b.market.feeAmount - b.market.paidOut ∧
      ((∀ o q, b.positions.lookup o = some q → ¬ Owed b q) →
        payouts O k w₀ is = b.market.totalPool - b.market.feeAmount ∧
        (b.market.feeWithdrawn = true ∨ b.market.feeAmount = 0 →
          donations O k w₀ is = 0 → ((machine O).run w₀ is).escrow k = 0)) := by
  have hinv := run_sound (O := O) (k := k) h₀ is
  have hsound := hinv.sound b hb
  have hp := hsound.pools
  have hs := hsound.settled hst
  refine ⟨?_, (stake_le_pool hp hs).symm, hs.fee, hs.paidOut_le hp, owedShares_le hp hs,
    fun hall => ?_⟩
  · rintro ctx w' rfl hstep
    obtain ⟨b', paidIn, paidOut, -, hbs, he⟩ := step_book hinv.wellFormed hstep hb
    cases hbs with
    | idle hi => exact absurd rfl hi
    | settle _ _ hv _ => cases hv
    | claim hk hc hw hpay hm =>
        exact ⟨_, paidOut, hc.found, ⟨hw.winning, hw.unclaimed⟩,
          claim_paysShare hp hs hc.found hw hpay, he, hm.credit⟩
  · have hd : b.market.paidOut = distributable b.market := by
      rw [hs.paid, if_pos ((all_claimed_iff hp hs).mpr hall)]
    rw [payouts_eq h₀ is hb]
    refine ⟨hd, fun hfee hdon => ?_⟩
    have hfl := fee_le b.market.totalPool hp.feeBps
    rw [← hs.fee] at hfl
    rw [hsound.escrow, hdon]
    simp only [distributable] at hd
    simp only [liability, hst]
    split_ifs with hw
    · omega
    · rcases hfee with hf | hf
      · exact absurd hf hw
      · omega

/-- The betting run, settled for the home side, with both winners paid and the
fee withdrawn. -/
def paidRun : List (Instruction Unit) :=
  bettingRun ++ [.setClock 100, .lockMarket ⟨sampleMarket, .key 30⟩,
    .settleMarket ⟨.key 30, sampleMarket, .key 9, .dailyScores (.key 9) 0⟩ 0
      ⟨0, ⟨7, ⟨1, 0, 0⟩, ()⟩, [], [], (), 2, [], true, 1, []⟩,
    .claimWinnings ⟨.key 12, sampleMarket, .vault sampleMarket, .key 2⟩,
    .splInitializeAccount 5 (.key 1) (.key 21),
    .withdrawFees ⟨.key 30, sampleMarket, .vault sampleMarket, .key 21, .key 5⟩,
    .claimWinnings ⟨.key 13, sampleMarket, .vault sampleMarket, .key 3⟩]

def paidWorld : World Unit := (machine acceptingOracle).run (emptyWorld Unit) paidRun

theorem paidWorld_book :
    (paidWorld.book? sampleMarket).map (fun b =>
      (b.market.status, sumOf b (owedOn b.market.winningOutcome), b.market.feeWithdrawn)) =
        some (.settled, 0, true) := by
  decide +kernel

theorem exact_distribution_paid :
    payouts acceptingOracle sampleMarket (emptyWorld Unit) paidRun = 950 ∧
      paidWorld.escrow sampleMarket = 0 := by
  obtain ⟨b, hb, he⟩ := Option.map_eq_some_iff.mp paidWorld_book
  simp only [Prod.mk.injEq] at he
  have hp := ((run_sound (O := acceptingOracle) emptyWorld_genesis paidRun).sound b hb).pools
  have h := exact_distribution emptyWorld_genesis paidRun hb he.1
  have hall := h.2.2.2.2.2 ((owed_eq_zero_iff hp).mp he.2.1)
  exact ⟨by decide +kernel, hall.2 (.inl he.2.2) (by decide +kernel)⟩

end ProofBook.WinnerPayouts
