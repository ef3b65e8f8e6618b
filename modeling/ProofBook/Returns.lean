import ProofBook.Lifecycle

/-!
# What a winning bet returns

The fee is taken off the whole pool, so winners may get back less than they
staked. They all get their stakes back exactly when the fee is no more than the
losing side put in.
-/
namespace ProofBook.Returns
open Addresses State Checked OracleWire OracleAdapter TokenLedger Totals Chain Program Runs Steps
open StepCases PayoutMath ProRata Solvency MarketRuns WinnerPayouts Lifecycle
open Instructions.Betting Instructions.Settlement Instructions.Payments Instructions.PropVaults

variable {D : Type} [Inhabited D] {O : OracleProgram D} {w w' w₀ : World D} {k : Pubkey}
  {b b' : Book D}

/-- The losing side covers the fee. -/
def FeeCovered (m : Market D) : Prop := m.feeAmount ≤ m.totalPool - m.totalWinningPool

omit [Inhabited D] in
theorem stake_le_floorShare {m : Market D} {stake : ℕ} (hpos : 0 < m.totalWinningPool)
    (hle : m.totalWinningPool ≤ distributable m) : stake ≤ floorShare m stake := by
  rw [floorShare, share, Nat.le_div_iff_mul_le hpos]
  exact Nat.mul_le_mul_left stake hle

omit [Inhabited D] in
theorem feeCovered_iff (hp : Pools b) (hs : SettledBook b) :
    FeeCovered b.market ↔ b.market.totalWinningPool ≤ distributable b.market := by
  have hfee := fee_le b.market.totalPool hp.feeBps
  rw [← hs.fee] at hfee
  have hpool := hs.winningPool_le hp
  unfold FeeCovered distributable
  omega

omit [Inhabited D] in
theorem PaysShare.floor_le {user : Pubkey} {q : Position} {paid : ℕ}
    (h : PaysShare b user q paid) : floorShare b.market q.amount ≤ paid := by
  by_cases hlast : b.market.winningStakeClaimed + q.amount = b.market.totalWinningPool
  · exact (h.last hlast).1
  · exact (h.early hlast).ge

/-- A settled market keeps its result and its stakes. -/
theorem settled_lasts (hw : Reachable O w) (hb : w.book? k = some b)
    (hst : b.market.status = .settled) (is : List (Instruction D)) :
    ∃ b', ((machine O).run w is).book? k = some b' ∧ SameResult b.market b'.market ∧
      SameStakes b b' := by
  have h := Machine.run_preserves (M := machine O)
    (P := fun s => WellFormed s ∧ ∃ b', s.book? k = some b' ∧ SameResult b.market b'.market ∧
      SameStakes b b') ?_ ⟨reachable_wellFormed hw, b, hb, ?_, .refl b⟩ is
  · exact h.2
  · rintro s i t ⟨hwf, b₁, hb₁, hr, hsame⟩ hs
    obtain ⟨b₂, hb₂, law⟩ := step_law hwf hs hb₁
    have hst₁ : b₁.market.status = .settled := hr.status.trans hst
    have hfrozen := law.frozen (by rw [hst₁]; simp)
    have hfinal := law.final (by rw [hst₁]; rfl)
    exact ⟨WellFormed.step hwf hs, b₂, hb₂,
      ⟨hfinal.status.trans hr.status, hfinal.winningOutcome.trans hr.winningOutcome,
        hfinal.totalWinningPool.trans hr.totalWinningPool, hfinal.feeAmount.trans hr.feeAmount,
        hfinal.settledAt.trans hr.settledAt, hfinal.settleProofRef.trans hr.settleProofRef,
        hfinal.settleProofTs.trans hr.settleProofTs, hfinal.settleEpochDay.trans hr.settleEpochDay,
        hfinal.settleDailyRoots.trans hr.settleDailyRoots,
        hfinal.settleResolver.trans hr.settleResolver⟩,
      ⟨hfrozen.outcomes.trans hsame.outcomes, hfrozen.totalPool.trans hsame.totalPool,
        fun o => (hfrozen.positions o).trans (hsame.positions o)⟩⟩
  · exact ⟨rfl, rfl, rfl, rfl, rfl, rfl, rfl, rfl, rfl, rfl⟩

/-! ## Claimed stakes over a run -/

/-- The stake that a winning claim on the market is for. -/
def winningStake (O : OracleProgram D) (k : Pubkey) (w : World D) : Instruction D → ℕ
  | .claimWinnings ctx =>
      if ctx.market = k then
        match step O w (.claimWinnings ctx), w.book? k with
        | .ok _, some b => ((b.positions.lookup ctx.user).map (·.amount)).getD 0
        | _, _ => 0
      else 0
  | _ => 0

theorem winningStake_pays {i : Instruction D} (h : winningStake O k w i ≠ 0) :
    Instruction.paysFrom k i := by
  cases i with
  | claimWinnings ctx =>
      by_contra hn
      exact h (if_neg hn)
  | _ => exact absurd rfl h

theorem winningStake_error {i : Instruction D} {e : Failure} (h : step O w i = .error e) :
    winningStake O k w i = 0 := by
  cases i with
  | claimWinnings ctx => simp [winningStake, h]
  | _ => rfl

theorem winningStake_absent {i : Instruction D} (hn : w.book? k = none)
    (hs : step O w i = .ok w') : winningStake O k w i = 0 := by
  by_contra hc
  exact paysFrom_book hs (winningStake_pays hc) hn

theorem winningStake_claim {ctx : Claim} {i : Instruction D} (hi : i = .claimWinnings ctx)
    (hk : ctx.market = k) (hs : step O w i = .ok w') (hb : w.book? k = some b) {q : Position}
    (hq : b.positions.lookup ctx.user = some q) : winningStake O k w i = q.amount := by
  subst hi
  simp [winningStake, hk, hs, hb, hq]

theorem winningStakes_eq (h₀ : Genesis w₀) (is : List (Instruction D))
    (hb : ((machine O).run w₀ is).book? k = some b) :
    (machine O).accumulate (winningStake O k) w₀ is = b.market.winningStakeClaimed := by
  refine charges_eq (f := fun b => b.market.winningStakeClaimed) (fun w i e => winningStake_error)
    (fun w i w' hs hn => winningStake_absent hn hs) (fun _ _ => rfl) ?_ h₀ is hb
  intro w w' b b' i n x y hs hsound hbs he
  cases hbs with
  | idle hi =>
      have hz : winningStake O k w i = 0 := by
        by_contra hc
        exact hi (Instruction.market?_of_paysFrom (winningStake_pays hc))
      rw [hz]
      rfl
  | settle hst ho hv hr =>
      have hz : winningStake O k w i = 0 := by cases hv <;> rfl
      rw [hz, hr.keeps]
      rfl
  | claim hk hc hw hp hm =>
      have hclaimed := (claimPayout_ok hsound.pools (hsound.settled hw.status) hc.found hw hp).1
      rw [winningStake_claim rfl hk hs (hk ▸ hc.book) hc.found]
      exact hclaimed
  | _ => rfl

/-! ## When winners lose nothing -/

/-- A claim pays at least the stake if the losing side covers the fee. -/
theorem claim_covered (hw : Reachable O w) (hb : w.book? k = some b)
    (hf : b.market.status = .settled → FeeCovered b.market) {i : Instruction D}
    (hs : step O w i = .ok w') : winningStake O k w i ≤ winningsPaid O k w i := by
  by_cases hz : winningStake O k w i = 0
  · omega
  obtain ⟨donated, hsound⟩ := reachable_sound hw hb
  have happly : (machine O).apply w i = w' := Machine.apply_of_ok hs
  obtain ⟨b', x, y, hb', hbs, he⟩ := step_book (reachable_wellFormed hw) hs hb
  cases hbs with
  | idle hi => exact absurd (Instruction.market?_of_paysFrom (winningStake_pays hz)) hi
  | settle _ _ hv _ => cases hv <;> exact absurd rfl hz
  | claim hk hc hwin hp hm =>
      have hset := hsound.settled hwin.status
      have hpays := claim_paysShare hsound.pools hset hc.found hwin hp
      have hcovered := (feeCovered_iff hsound.pools hset).mp (hf hwin.status)
      rw [winningStake_claim rfl hk hs hb hc.found]
      simp only [winningsPaid, hk, if_true, happly]
      have hstake := (stake_le_floorShare hwin.staked hcovered).trans (PaysShare.floor_le hpays)
      omega
  | _ => exact absurd rfl hz

/-- Once a market is settled and all winners were paid: no claim of the run was
paid less than its stake exactly when the losing side covered the fee. -/
theorem winners_lose_nothing_iff (h₀ : Genesis w₀) (is : List (Instruction D))
    (hb : ((machine O).run w₀ is).book? k = some b) (hst : b.market.status = .settled)
    (hall : ∀ o q, b.positions.lookup o = some q → ¬ Owed b q) :
    (machine O).Along (fun w i => winningStake O k w i ≤ winningsPaid O k w i) w₀ is ↔
      FeeCovered b.market := by
  have hsound := (run_sound (O := O) h₀ is).sound b hb
  have hset := hsound.settled hst
  have hclaimed := (all_claimed_iff hsound.pools hset).mpr hall
  constructor
  · intro h
    have hle := h.accumulate_le
    rw [winningStakes_eq h₀ is hb, hclaimed] at hle
    rw [feeCovered_iff hsound.pools hset]
    have hpaid := payouts_eq h₀ is hb
    rw [hset.paid, if_pos hclaimed] at hpaid
    exact hle.trans hpaid.le
  · intro hf
    refine Machine.along_iff.mpr fun js i ks he => ?_
    have hreach : Reachable O ((machine O).run w₀ js) := ⟨w₀, js, h₀, rfl⟩
    rcases (machine O).apply_cases ((machine O).run w₀ js) i with hs | ⟨⟨e, hs⟩, -⟩
    · cases hb₁ : ((machine O).run w₀ js).book? k with
      | none => rw [winningStake_absent hb₁ hs]; exact Nat.zero_le _
      | some b₁ =>
          refine claim_covered hreach hb₁ (fun hst₁ => ?_) hs
          obtain ⟨b₂, hb₂, hr, hsame⟩ := settled_lasts hreach hb₁ hst₁ (i :: ks)
          rw [← Machine.run_append, ← he, hb] at hb₂
          obtain rfl := Option.some.inj hb₂
          rwa [FeeCovered, hr.feeAmount, hsame.totalPool, hr.totalWinningPool] at hf
    · rw [winningStake_error hs]
      exact Nat.zero_le _

theorem winners_lose_nothing_paid :
    (machine acceptingOracle).Along (fun w i => winningStake acceptingOracle sampleMarket w i ≤
      winningsPaid acceptingOracle sampleMarket w i) (emptyWorld Unit) paidRun := by
  obtain ⟨b, hb, he⟩ := Option.map_eq_some_iff.mp paidWorld_book
  simp only [Prod.mk.injEq] at he
  have hp := ((run_sound (O := acceptingOracle) emptyWorld_genesis paidRun).sound b hb).pools
  have hfee : paidWorld.book? sampleMarket = some b := hb
  have hcovered : ((paidWorld.book? sampleMarket).map fun b =>
      decide (b.market.feeAmount ≤ b.market.totalPool - b.market.totalWinningPool)) =
        some true := by decide +kernel
  rw [hfee] at hcovered
  exact (winners_lose_nothing_iff emptyWorld_genesis paidRun hb he.1
    ((owed_eq_zero_iff hp).mp he.2.1)).mpr (by simpa [FeeCovered] using hcovered)

end ProofBook.Returns
