import ProofBook.StepCases

/-!
# Solvency of a market

The invariant of a market's book: pools are sums of positions, and the escrow
holds what the market still owes plus what was donated to it. One lemma for
each way a book can move shows that the invariant is kept.
-/
namespace ProofBook.Solvency
open Addresses State Checked OracleWire OracleAdapter TokenLedger Totals Chain Program Runs Steps
open StepCases PayoutMath ProRata
open Instructions.Betting Instructions.Settlement Instructions.Payments Instructions.PropVaults

variable {D : Type}

/-! ## What a book adds up to -/

def stakeOn (j : ℕ) (q : Position) : ℕ := if q.outcomeIndex = j then q.amount else 0

def claimedOn (j : ℕ) (q : Position) : ℕ := if q.claimed then stakeOn j q else 0

def owedOn (j : ℕ) (q : Position) : ℕ := if q.claimed then 0 else stakeOn j q

/-- A quantity of each position, summed over the book. -/
def sumOf (b : Book D) (f : Position → ℕ) : ℕ := total (fun _ q => f q) b.positions

/-- The stakes of all positions on an outcome. -/
def staked (b : Book D) (j : ℕ) : ℕ := sumOf b (stakeOn j)

def claimedStake (b : Book D) (j : ℕ) : ℕ := sumOf b (claimedOn j)

/-- The stakes of the positions that were not paid yet. -/
def unclaimedStake (b : Book D) : ℕ := sumOf b fun q => if q.claimed then 0 else q.amount

/-- What all winners together are paid. -/
def distributable (m : Market D) : ℕ := m.totalPool - m.feeAmount

/-- The floor of a stake's share in the distributable pool. -/
def floorShare (m : Market D) (stake : ℕ) : ℕ :=
  share (distributable m) m.totalWinningPool stake

def claimedShares (b : Book D) : ℕ :=
  sumOf b fun q => floorShare b.market (claimedOn b.market.winningOutcome q)

/-- The floor shares of the winners who have not claimed. -/
def owedShares (b : Book D) : ℕ :=
  sumOf b fun q => floorShare b.market (owedOn b.market.winningOutcome q)

/-- What the market still owes, by status. -/
def liability (b : Book D) : ℕ :=
  match b.market.status with
  | .opened | .locked => b.market.totalPool
  | .settled =>
      b.market.totalPool - b.market.paidOut -
        (if b.market.feeWithdrawn then b.market.feeAmount else 0)
  | .cancelled => unclaimedStake b

theorem claimedOn_add_owedOn (j : ℕ) (q : Position) :
    claimedOn j q + owedOn j q = stakeOn j q := by
  unfold claimedOn owedOn
  split <;> simp

theorem sumOf_congr {b : Book D} {f g : Position → ℕ}
    (h : ∀ o q, b.positions.lookup o = some q → f q = g q) : sumOf b f = sumOf b g := total_congr h

theorem sumOf_add (b : Book D) (f g : Position → ℕ) :
    sumOf b (fun q => f q + g q) = sumOf b f + sumOf b g := total_add _ _ _

theorem sumOf_eq_zero {b : Book D} {f : Position → ℕ}
    (h : ∀ o q, b.positions.lookup o = some q → f q = 0) : sumOf b f = 0 := total_eq_zero h

theorem le_sumOf {b : Book D} {o : Pubkey} {q : Position} (f : Position → ℕ)
    (h : b.positions.lookup o = some q) : f q ≤ sumOf b f :=
  le_total_of_lookup (fun _ => f) h

theorem sumOf_le {b : Book D} {f g : Position → ℕ}
    (h : ∀ o q, b.positions.lookup o = some q → f q ≤ g q) : sumOf b f ≤ sumOf b g :=
  total_le_total h

theorem sumOf_floorShare_le (b : Book D) (f : Position → ℕ) :
    sumOf b (fun q => floorShare b.market (f q)) ≤ floorShare b.market (sumOf b f) :=
  total_share_le _ _ _ _

theorem staked_eq (b : Book D) (j : ℕ) :
    staked b j = claimedStake b j + sumOf b (owedOn j) := by
  unfold staked claimedStake
  rw [← sumOf_add]
  exact sumOf_congr fun o q _ => (claimedOn_add_owedOn j q).symm

theorem claimedStake_le (b : Book D) (j : ℕ) : claimedStake b j ≤ staked b j := by
  rw [staked_eq]
  omega

/-! ## The invariant -/

structure Pools (b : Book D) : Prop where
  positive : ∀ o q, b.positions.lookup o = some q → 0 < q.amount
  outcome : ∀ o q, b.positions.lookup o = some q → q.outcomeIndex < b.market.outcomes.length
  pool : ∀ j, b.market.pool j = staked b j
  totalPool : b.market.totalPool = (b.market.outcomes.map (·.pool)).sum
  fits : b.market.totalPool < u64Size
  feeBps : b.market.feeBps ≤ maxFeeBps

/-- Before resolution nothing is recorded and nothing is paid. -/
structure Unresolved (b : Book D) : Prop where
  winner : b.market.winningOutcome = unsetOutcome
  paidOut : b.market.paidOut = 0
  claimed : b.market.winningStakeClaimed = 0
  feeAmount : b.market.feeAmount = 0
  feeWithdrawn : b.market.feeWithdrawn = false
  positions : ∀ o q, b.positions.lookup o = some q → q.claimed = false

structure SettledBook (b : Book D) : Prop where
  outcome : b.market.winningOutcome < b.market.outcomes.length
  winningPool : b.market.totalWinningPool = b.market.pool b.market.winningOutcome
  staked : 0 < b.market.totalWinningPool
  fee : b.market.feeAmount = fee b.market.totalPool b.market.feeBps
  claimed : b.market.winningStakeClaimed = claimedStake b b.market.winningOutcome
  winners : ∀ o q, b.positions.lookup o = some q → q.claimed = true →
    q.outcomeIndex = b.market.winningOutcome
  paid : b.market.paidOut =
    if b.market.winningStakeClaimed = b.market.totalWinningPool then distributable b.market
    else claimedShares b

structure CancelledBook (b : Book D) : Prop where
  feeAmount : b.market.feeAmount = 0
  feeWithdrawn : b.market.feeWithdrawn = false
  paidOut : b.market.paidOut = 0
  claimed : b.market.winningStakeClaimed = 0

def Phase (b : Book D) : Prop :=
  match b.market.status with
  | .opened | .locked => Unresolved b
  | .settled => SettledBook b
  | .cancelled => CancelledBook b

/-- The book is consistent and its escrow holds exactly what is owed and what
was donated. -/
structure Sound (b : Book D) (escrow donated : ℕ) : Prop where
  pools : Pools b
  phase : Phase b
  escrow : escrow = liability b + donated

/-! ## Sums over positions and over outcomes -/

theorem pool_modify (os : List OutcomeState) (i j pool : ℕ) :
    ((os.modify i fun o => { o with pool := pool })[j]?.map (·.pool)).getD 0 =
      if i = j ∧ i < os.length then pool else (os[j]?.map (·.pool)).getD 0 := by
  rw [List.getElem?_modify]
  by_cases hij : i = j
  · subst hij
    by_cases hi : i < os.length
    · simp [hi]
    · simp [hi]
  · simp [hij]

theorem sum_pool_modify (os : List OutcomeState) (i pool : ℕ) (hi : i < os.length) :
    ((os.modify i fun o => { o with pool := pool }).map (·.pool)).sum +
      (os[i]?.map (·.pool)).getD 0 = (os.map (·.pool)).sum + pool := by
  induction os generalizing i with
  | nil => simp at hi
  | cons o os ih =>
      cases i with
      | zero =>
          simp
          omega
      | succ i =>
          have := ih i (by simpa using hi)
          simp at this ⊢
          omega

theorem sum_pools (os : List OutcomeState) :
    (os.map (·.pool)).sum = ∑ j ∈ Finset.range os.length, (os[j]?.map (·.pool)).getD 0 := by
  induction os with
  | nil => simp
  | cons o os ih =>
      rw [List.length_cons, Finset.sum_range_succ', List.map_cons, List.sum_cons, ih]
      simp [Nat.add_comm]

theorem sum_stakeOn (q : Position) {n : ℕ} (h : q.outcomeIndex < n) :
    ∑ j ∈ Finset.range n, stakeOn j q = q.amount := by
  simp [stakeOn, Finset.sum_ite_eq, h]

/-- All stakes together are the total pool. -/
theorem Pools.total_amount {b : Book D} (h : Pools b) :
    sumOf b (fun q => q.amount) = b.market.totalPool := by
  rw [h.totalPool, sum_pools,
    sumOf_congr fun o q hq => (sum_stakeOn q (h.outcome o q hq)).symm, sumOf, total_sum]
  exact Finset.sum_congr rfl fun j _ => (h.pool j).symm

theorem sumOf_bet {b : Book D} {bettor : Pubkey} {q : Position} {oi a : ℕ} (f : Position → ℕ)
    (hf : ∀ m o i, f ⟨m, o, i, 0, false⟩ = 0)
    (hq : (b.positions.lookup bettor = none ∧ ∃ m o, q = ⟨m, o, oi, 0, false⟩) ∨
      (b.positions.lookup bettor = some q ∧ q.outcomeIndex = oi)) :
    sumOf (betBook b bettor q oi a) f + f q =
      sumOf b f + f { q with amount := q.amount + a } := by
  rcases hq with ⟨hn, m, o, rfl⟩ | ⟨hl, -⟩
  · rw [hf, Nat.add_zero]
    exact total_insert_of_none (fun _ => f) _ hn
  · exact total_insert_of_lookup (fun _ => f) _ hl

theorem sumOf_markClaimed {b : Book D} {user : Pubkey} {q : Position} (f : Position → ℕ)
    (hq : b.positions.lookup user = some q) :
    sumOf (markClaimed b user q) f + f q = sumOf b f + f { q with claimed := true } :=
  total_insert_of_lookup (fun _ => f) _ hq

/-- Marking positions keeps every fact about outcomes and amounts. -/
theorem Pools.marked {b : Book D} (h : Pools b) {user : Pubkey} {q : Position}
    (hq : b.positions.lookup user = some q) : Pools (markClaimed b user q) where
  positive o p hp := by
    rw [markClaimed_lookup] at hp
    split_ifs at hp with ho
    · obtain rfl := Option.some.inj hp
      have := h.positive _ _ hq
      exact this
    · exact h.positive o p hp
  outcome o p hp := by
    rw [markClaimed_lookup] at hp
    split_ifs at hp with ho
    · obtain rfl := Option.some.inj hp
      have := h.outcome _ _ hq
      exact this
    · exact h.outcome o p hp
  pool j := by
    have ht := sumOf_markClaimed (stakeOn j) hq
    have hs : stakeOn j { q with claimed := true } = stakeOn j q := rfl
    rw [hs] at ht
    exact (h.pool j).trans (Nat.add_right_cancel ht).symm
  totalPool := h.totalPool
  fits := h.fits
  feeBps := h.feeBps

/-- Pools speak of positions, outcomes and the pool total only. -/
theorem Pools.congr {b b' : Book D} (h : Pools b) (hp : b'.positions = b.positions)
    (ho : b'.market.outcomes = b.market.outcomes)
    (ht : b'.market.totalPool = b.market.totalPool) (hf : b'.market.feeBps = b.market.feeBps) :
    Pools b' where
  positive := hp ▸ h.positive
  outcome := by rw [hp, ho]; exact h.outcome
  pool j := by
    have := h.pool j
    simpa only [Market.pool, staked, sumOf, ho, hp] using this
  totalPool := by rw [ht, ho, h.totalPool]
  fits := ht ▸ h.fits
  feeBps := hf ▸ h.feeBps

/-! ## Each step keeps the invariant -/

theorem phase_of_settled {b : Book D} (hs : b.market.status = .settled) (h : SettledBook b) :
    Phase b := by
  unfold Phase
  rw [hs]
  exact h

theorem phase_of_cancelled {b : Book D} (hs : b.market.status = .cancelled)
    (h : CancelledBook b) : Phase b := by
  unfold Phase
  rw [hs]
  exact h

theorem newBook_sound [Inhabited D] (O : OracleProgram D) {ctx : InitializeMarket}
    {p : MarketParams} {now : Int64} (h : p.Accepted now) :
    Sound (⟨newMarket O ctx p, ∅, none⟩ : Book D) 0 0 where
  pools :=
    { positive := fun o q hq => by simp at hq
      outcome := fun o q hq => by simp at hq
      pool := fun j => by
        simp only [Market.pool, newMarket, List.getElem?_map, Option.map_map, staked,
          sumOf, total_empty]
        cases p.outcomeOptions[j]? <;> rfl
      totalPool := by simp [newMarket, Function.comp_def]
      fits := by simp [newMarket, u64Size]
      feeBps := h.feeBps }
  phase := ⟨rfl, rfl, rfl, rfl, rfl, fun o q hq => by simp at hq⟩
  escrow := rfl

variable {O : OracleProgram D} {w w' : World D} {k : Pubkey} {b : Book D} {escrow donated : ℕ}

theorem Sound.unresolved (h : Sound b escrow donated)
    (hs : b.market.status = .opened ∨ b.market.status = .locked) :
    Unresolved b ∧ escrow = b.market.totalPool + donated := by
  have hp := h.phase
  have he := h.escrow
  rcases hs with hs | hs <;> simp only [Phase, liability, hs] at hp he <;> exact ⟨hp, he⟩

theorem Sound.settled (h : Sound b escrow donated) (hs : b.market.status = .settled) :
    SettledBook b := by
  have hp := h.phase
  simpa only [Phase, hs] using hp

theorem Sound.cancelled (h : Sound b escrow donated) (hs : b.market.status = .cancelled) :
    CancelledBook b := by
  have hp := h.phase
  simpa only [Phase, hs] using hp

/-- A bet on no position opens one; otherwise it is on the position's outcome. -/
theorem betPosition_cases {ctx : PlaceBet} {oi a : ℕ} {q : Position}
    (hc : BetChecks w ctx oi a b q) (hok : BookOk w.ledger ctx.market b) :
    (b.positions.lookup ctx.bettor = none ∧ ∃ m o, q = ⟨m, o, oi, 0, false⟩) ∨
      (b.positions.lookup ctx.bettor = some q ∧ q.outcomeIndex = oi) := by
  refine (positionFor_ok hc.position fun p hp => ?_).imp (fun hn => ⟨hn.1, _, _, hn.2⟩) id
  rw [(hok.positions _ p hp).1, hok.key]
  exact Pubkey.noConfusion

theorem betPosition_outcome {ctx : PlaceBet} {oi a : ℕ} {q : Position}
    (hc : BetChecks w ctx oi a b q) (hok : BookOk w.ledger ctx.market b) :
    q.outcomeIndex = oi := by
  rcases betPosition_cases hc hok with ⟨-, m, o, rfl⟩ | ⟨-, ho⟩
  · rfl
  · exact ho

theorem Pools.bet {ctx : PlaceBet} {oi a : ℕ} {q : Position} (h : Pools b)
    (hc : BetChecks w ctx oi a b q) (hok : BookOk w.ledger ctx.market b) :
    Pools (betBook b ctx.bettor q oi a) where
  positive o p hp := by
    rw [betBook_lookup] at hp
    split_ifs at hp with ho
    · obtain rfl := Option.some.inj hp
      exact Nat.add_pos_right _ hc.positive
    · exact h.positive o p hp
  outcome o p hp := by
    have hlen : (betBook b ctx.bettor q oi a).market.outcomes.length =
        b.market.outcomes.length := by simp [betBook, addStake]
    rw [hlen]
    rw [betBook_lookup] at hp
    split_ifs at hp with ho
    · obtain rfl := Option.some.inj hp
      exact betPosition_outcome hc hok ▸ hc.outcome
    · exact h.outcome o p hp
  pool j := by
    have hoi := betPosition_outcome hc hok
    have ht : staked (betBook b ctx.bettor q oi a) j + stakeOn j q = staked b j +
        stakeOn j { q with amount := q.amount + a } :=
      sumOf_bet (stakeOn j) (by simp [stakeOn]) (betPosition_cases hc hok)
    have hb := h.pool j
    rw [show (betBook b ctx.bettor q oi a).market.pool j = _ from
      pool_modify b.market.outcomes oi j (b.market.pool oi + a)]
    by_cases hj : oi = j
    · subst hj
      simp only [stakeOn, hoi, if_true] at ht
      simp only [hc.outcome, and_self, if_true]
      omega
    · simp only [stakeOn, hoi, hj, if_false] at ht
      simp only [hj, false_and, if_false]
      exact hb.trans (by omega)
  totalPool := by
    have := sum_pool_modify b.market.outcomes oi (b.market.pool oi + a) hc.outcome
    have ht := h.totalPool
    simp only [Market.pool, betBook, addStake] at this ht ⊢
    omega
  fits := hc.fits
  feeBps := h.feeBps

theorem Unresolved.bet {ctx : PlaceBet} {oi a : ℕ} {q : Position} (h : Unresolved b)
    (hc : BetChecks w ctx oi a b q) (hok : BookOk w.ledger ctx.market b) :
    Unresolved (betBook b ctx.bettor q oi a) := by
  refine ⟨h.winner, h.paidOut, h.claimed, h.feeAmount, h.feeWithdrawn, fun o p hp => ?_⟩
  rw [betBook_lookup] at hp
  split_ifs at hp with ho
  · obtain rfl := Option.some.inj hp
    rcases betPosition_cases hc hok with ⟨-, m, o', rfl⟩ | ⟨hl, -⟩
    · rfl
    · exact h.positions _ q hl
  · exact h.positions o p hp

theorem Sound.bet {ctx : PlaceBet} {oi a : ℕ} {q : Position} (h : Sound b escrow donated)
    (hc : BetChecks w ctx oi a b q) (hok : BookOk w.ledger ctx.market b) :
    Sound (betBook b ctx.bettor q oi a) (escrow + a) donated := by
  obtain ⟨hu, he⟩ := h.unresolved (.inl hc.status)
  have hst : (betBook b ctx.bettor q oi a).market.status = .opened := hc.status
  refine ⟨h.pools.bet hc hok, ?_, ?_⟩
  · simpa only [Phase, hst] using hu.bet hc hok
  · simp only [liability, hst]
    simp only [betBook, addStake]
    omega

theorem Sound.lock (h : Sound b escrow donated) (hs : b.market.status = .opened) :
    Sound { b with market := withStatus b.market .locked } escrow donated := by
  obtain ⟨hu, he⟩ := h.unresolved (.inl hs)
  exact ⟨h.pools.congr rfl rfl rfl rfl,
    ⟨hu.winner, hu.paidOut, hu.claimed, hu.feeAmount, hu.feeWithdrawn, hu.positions⟩, he⟩

theorem Sound.attach (h : Sound b escrow donated) (spec : ComboSpec) :
    Sound { b with comboSpec := some spec } escrow donated := by
  have hp := h.phase
  have he := h.escrow
  refine ⟨h.pools.congr rfl rfl rfl rfl, ?_, he⟩
  unfold Phase at hp ⊢
  split at hp <;> rename_i hs <;> simp only [hs]
  · exact ⟨hp.winner, hp.paidOut, hp.claimed, hp.feeAmount, hp.feeWithdrawn, hp.positions⟩
  · exact ⟨hp.winner, hp.paidOut, hp.claimed, hp.feeAmount, hp.feeWithdrawn, hp.positions⟩
  · exact ⟨hp.outcome, hp.winningPool, hp.staked, hp.fee, hp.claimed, hp.winners, hp.paid⟩
  · exact ⟨hp.feeAmount, hp.feeWithdrawn, hp.paidOut, hp.claimed⟩

/-- With nothing claimed the unclaimed stakes are the total pool. -/
theorem unclaimedStake_of_unresolved (hp : Pools b) (hu : Unresolved b) :
    unclaimedStake b = b.market.totalPool := by
  rw [← hp.total_amount]
  exact sumOf_congr fun o q hq => by simp [hu.positions o q hq]

theorem claimedStake_of_unresolved (hu : Unresolved b) (j : ℕ) : claimedStake b j = 0 :=
  sumOf_eq_zero fun o q hq => by simp [claimedOn, hu.positions o q hq]

theorem Sound.cancel (h : Sound b escrow donated) (hs : b.market.status = .locked) :
    Sound { b with market := withStatus b.market .cancelled } escrow donated := by
  obtain ⟨hu, he⟩ := h.unresolved (.inr hs)
  refine ⟨h.pools.congr rfl rfl rfl rfl,
    ⟨hu.feeAmount, hu.feeWithdrawn, hu.paidOut, hu.claimed⟩, ?_⟩
  rw [he, ← unclaimedStake_of_unresolved h.pools hu]
  rfl

theorem Sound.settle {m : Market D} {r : Receipt D} (h : Sound b escrow donated)
    (hs : b.market.status = .locked) (ho : r.outcome < b.market.outcomes.length)
    (hr : Recorded b.market m r) : Sound { b with market := m } escrow donated := by
  obtain ⟨hu, he⟩ := h.unresolved (.inr hs)
  have hk := hr.keeps
  have houtcomes : m.outcomes = b.market.outcomes := by rw [hk]
  have htotal : m.totalPool = b.market.totalPool := by rw [hk]
  have hbps : m.feeBps = b.market.feeBps := by rw [hk]
  have hpaid : m.paidOut = 0 := by rw [hk]; exact hu.paidOut
  have hclaimed : m.winningStakeClaimed = 0 := by rw [hk]; exact hu.claimed
  have hwd : m.feeWithdrawn = false := by rw [hk]; exact hu.feeWithdrawn
  have hwin : m.winningOutcome = r.outcome := by rw [hk]
  have hwp : m.totalWinningPool = b.market.pool r.outcome := by rw [hk]
  have hpool : m.pool r.outcome = b.market.pool r.outcome := by simp [Market.pool, houtcomes]
  refine ⟨h.pools.congr rfl houtcomes htotal hbps, ?_, ?_⟩
  · rcases hr.result with ⟨-, hst, hf⟩ | ⟨hpos, hst, hf⟩
    · simp only [Phase, hst]
      exact ⟨hf, hwd, hpaid, hclaimed⟩
    · simp only [Phase, hst]
      rw [feeAmount_eq h.pools.fits h.pools.feeBps] at hf
      have hcs : claimedStake ({ b with market := m } : Book D) m.winningOutcome = 0 :=
        claimedStake_of_unresolved hu _
      refine ⟨?_, ?_, ?_, ?_, ?_, ?_, ?_⟩
      · simpa only [hwin, houtcomes] using ho
      · simp only [hwp, hwin, hpool]
      · simpa only [hwp] using hpos
      · simpa only [htotal, hbps] using (Except.ok.inj hf).symm
      · rw [hcs, hclaimed]
      · intro o q hq hcl
        rw [hu.positions o q hq] at hcl
        cases hcl
      · simp only [hpaid, hclaimed, hwp]
        rw [if_neg hpos.ne]
        exact (sumOf_eq_zero fun o q hq => by
          simp [claimedOn, hu.positions o q hq, floorShare]).symm
  · rcases hr.result with ⟨-, hst, -⟩ | ⟨-, hst, -⟩
    · simp only [liability, hst]
      rw [he, ← unclaimedStake_of_unresolved h.pools hu]
      rfl
    · simp only [liability, hst, hwd, hpaid, htotal, he]
      simp

/-! ## Claims -/

@[simp] theorem claimedOn_of_claimed {q : Position} (h : q.claimed = true) (j : ℕ) :
    claimedOn j q = stakeOn j q := by simp [claimedOn, h]

@[simp] theorem claimedOn_of_unclaimed {q : Position} (h : q.claimed = false) (j : ℕ) :
    claimedOn j q = 0 := by simp [claimedOn, h]

theorem stakeOn_self (q : Position) : stakeOn q.outcomeIndex q = q.amount := by simp [stakeOn]

/-- Positions paid so far were paid no more than the pool distributes. -/
theorem SettledBook.paidOut_le (hp : Pools b) (hs : SettledBook b) :
    b.market.paidOut ≤ distributable b.market := by
  rw [hs.paid]
  split_ifs with hlast
  · exact le_rfl
  · refine (sumOf_floorShare_le b _).trans (share_le _ ?_)
    rw [hs.winningPool, hp.pool]
    exact claimedStake_le b _

theorem SettledBook.winningPool_le (hp : Pools b) (hs : SettledBook b) :
    b.market.totalWinningPool ≤ b.market.totalPool := by
  rw [hs.winningPool, hp.pool, ← hp.total_amount]
  exact sumOf_le fun o q _ => by
    unfold stakeOn
    split <;> omega

/-- An unclaimed winning stake is still missing from the claimed ones. -/
theorem SettledBook.room (hp : Pools b) (hs : SettledBook b) {o : Pubkey} {q : Position}
    (hq : b.positions.lookup o = some q) (hw : WinnerChecks b q) :
    b.market.winningStakeClaimed + q.amount ≤ b.market.totalWinningPool := by
  have h := le_sumOf (owedOn b.market.winningOutcome) hq
  have hqa : owedOn b.market.winningOutcome q = q.amount := by
    simp [owedOn, hw.unclaimed, stakeOn, hw.winning]
  have he := staked_eq b b.market.winningOutcome
  have hpool := hp.pool b.market.winningOutcome
  have hwp := hs.winningPool
  have hcl := hs.claimed
  omega

/-- No check of a winning claim's arithmetic fails, and this is what it pays. -/
theorem claimPayout_eq (hp : Pools b) (hs : SettledBook b) {o : Pubkey} {q : Position}
    (hq : b.positions.lookup o = some q) (hw : WinnerChecks b q) :
    claimPayout b.market q.amount = .ok (b.market.winningStakeClaimed + q.amount,
      if b.market.winningStakeClaimed + q.amount = b.market.totalWinningPool then
        distributable b.market - b.market.paidOut
      else floorShare b.market q.amount) := by
  have hroom := hs.room hp hq hw
  have hle := hs.paidOut_le hp
  have hwt := hs.winningPool_le hp
  have hfits := hp.fits
  have hadd : checkedAddU64 b.market.winningStakeClaimed q.amount =
      some (b.market.winningStakeClaimed + q.amount) := by
    rw [checkedAddU64_eq_some]
    exact ⟨by omega, rfl⟩
  have hdist : distributablePool b.market.totalPool b.market.feeBps =
      .ok (distributable b.market) := by
    rw [distributablePool_eq hp.fits hp.feeBps, distributable, hs.fee]
  have hpay : payout q.amount _ _ _ = _ :=
    payout_eq hp.fits hp.feeBps hs.staked (by omega) hwt
  rw [← hs.fee] at hpay
  simp only [claimPayout, hadd, hdist, demand, bind, Except.bind, pure, Except.pure]
  split_ifs with hlast
  · simp [checkedSubU64, hle]
  · simp [hpay, floorShare, distributable]

/-- What a successful claim added to the counters and moved out. -/
theorem claimPayout_ok (hp : Pools b) (hs : SettledBook b) {o : Pubkey} {q : Position}
    (hq : b.positions.lookup o = some q) (hw : WinnerChecks b q) {claimed paid : ℕ}
    (h : claimPayout b.market q.amount = .ok (claimed, paid)) :
    claimed = b.market.winningStakeClaimed + q.amount ∧
      paid = if b.market.winningStakeClaimed + q.amount = b.market.totalWinningPool then
        distributable b.market - b.market.paidOut else floorShare b.market q.amount := by
  rw [claimPayout_eq hp hs hq hw] at h
  simp only [Except.ok.injEq, Prod.mk.injEq] at h
  exact ⟨h.1.symm, h.2.symm⟩

/-- Before its claim a winner is missing, so the paid sum is that of the floors. -/
theorem SettledBook.paid_before (hp : Pools b) (hs : SettledBook b) {o : Pubkey} {q : Position}
    (hq : b.positions.lookup o = some q) (hw : WinnerChecks b q) :
    b.market.paidOut = claimedShares b := by
  have hroom := hs.room hp hq hw
  have hpos := hp.positive o q hq
  rw [hs.paid, if_neg]
  omega

theorem claimedStake_marked {user : Pubkey} {q : Position}
    (hq : b.positions.lookup user = some q) (hw : WinnerChecks b q) :
    claimedStake (markClaimed b user q) b.market.winningOutcome =
      claimedStake b b.market.winningOutcome + q.amount := by
  have h := sumOf_markClaimed (claimedOn b.market.winningOutcome) hq
  rw [claimedOn_of_unclaimed hw.unclaimed, claimedOn_of_claimed rfl, ← hw.winning] at h
  rw [← hw.winning]
  exact h.trans (by rw [show stakeOn q.outcomeIndex { q with claimed := true } = q.amount from
    stakeOn_self q]; rfl)

theorem claimedShares_marked {user : Pubkey} {q : Position}
    (hq : b.positions.lookup user = some q) (hw : WinnerChecks b q) :
    claimedShares (markClaimed b user q) = claimedShares b + floorShare b.market q.amount := by
  have h : claimedShares (markClaimed b user q) +
      floorShare b.market (claimedOn b.market.winningOutcome q) = claimedShares b +
        floorShare b.market (claimedOn b.market.winningOutcome { q with claimed := true }) :=
    sumOf_markClaimed (fun q => floorShare b.market (claimedOn b.market.winningOutcome q)) hq
  rw [claimedOn_of_unclaimed hw.unclaimed, claimedOn_of_claimed rfl, ← hw.winning,
    show stakeOn q.outcomeIndex { q with claimed := true } = q.amount from stakeOn_self q,
    show floorShare b.market 0 = 0 from share_zero _ _] at h
  exact h

/-- A claim pays no more than what is left of the distributable pool. -/
theorem claimPayout_le (hp : Pools b) (hs : SettledBook b) {o : Pubkey} {q : Position}
    (hq : b.positions.lookup o = some q) (hw : WinnerChecks b q) {claimed paid : ℕ}
    (h : claimPayout b.market q.amount = .ok (claimed, paid)) :
    b.market.paidOut + paid ≤ distributable b.market := by
  have hle := hs.paidOut_le hp
  obtain ⟨-, rfl⟩ := claimPayout_ok hp hs hq hw h
  split_ifs with hlast
  · omega
  · have hroom := hs.room hp hq hw
    rw [hs.paid_before hp hq hw]
    calc claimedShares b + floorShare b.market q.amount
        ≤ floorShare b.market (claimedStake b b.market.winningOutcome) +
            floorShare b.market q.amount := Nat.add_le_add_right (sumOf_floorShare_le b _) _
      _ ≤ floorShare b.market (claimedStake b b.market.winningOutcome + q.amount) :=
          share_add_le _ _ _ _
      _ ≤ distributable b.market := share_le _ (by rw [← hs.claimed]; exact hroom)

/-- The escrow covers what is left of the distributable pool. -/
theorem Sound.covers (h : Sound b escrow donated) (hs : SettledBook b)
    (hst : b.market.status = .settled) {paid : ℕ}
    (hp : b.market.paidOut + paid ≤ distributable b.market) : paid ≤ escrow := by
  have hl := h.escrow
  have hfee := fee_le b.market.totalPool h.pools.feeBps
  rw [← hs.fee] at hfee
  simp only [liability, hst, distributable] at hl hp
  split_ifs at hl <;> omega

theorem Sound.covers_refund (h : Sound b escrow donated) (hst : b.market.status = .cancelled)
    {o : Pubkey} {q : Position} (hq : b.positions.lookup o = some q) (hu : q.claimed = false) :
    q.amount ≤ escrow := by
  have hl := h.escrow
  have hle := le_sumOf (fun q => if q.claimed then 0 else q.amount) hq
  simp only [hu, Bool.false_eq_true, if_false] at hle
  simp only [liability, unclaimedStake, hst] at hl
  omega

theorem Sound.covers_fee (h : Sound b escrow donated) (hst : b.market.status = .settled)
    (hf : b.market.feeWithdrawn = false) : b.market.feeAmount ≤ escrow := by
  have hs := h.settled hst
  have hl := h.escrow
  have hle := hs.paidOut_le h.pools
  have hfee := fee_le b.market.totalPool h.pools.feeBps
  rw [← hs.fee] at hfee
  simp only [liability, hst, hf, distributable, Bool.false_eq_true, if_false] at hl hle
  omega

theorem Sound.claim {user : Pubkey} {q : Position} {claimed paid escrow' : ℕ}
    (h : Sound b escrow donated) (hq : b.positions.lookup user = some q) (hw : WinnerChecks b q)
    (hpay : claimPayout b.market q.amount = .ok (claimed, paid))
    (he : escrow' + paid = escrow) :
    Sound { markClaimed b user q with
      market := countClaim b.market claimed (b.market.paidOut + paid) } escrow' donated := by
  have hs := h.settled hw.status
  have hle := hs.paidOut_le h.pools
  have hbefore := hs.paid_before h.pools hq hw
  have hroom := hs.room h.pools hq hw
  obtain ⟨rfl, hpaid⟩ := claimPayout_ok h.pools hs hq hw hpay
  have hnew : b.market.paidOut + paid =
      if b.market.winningStakeClaimed + q.amount = b.market.totalWinningPool then
        distributable b.market else claimedShares b + floorShare b.market q.amount := by
    split_ifs at hpaid ⊢ with hlast
    · omega
    · omega
  have hs' : SettledBook ({ markClaimed b user q with
      market := countClaim b.market (b.market.winningStakeClaimed + q.amount)
        (b.market.paidOut + paid) } : Book D) := by
    refine ⟨hs.outcome, hs.winningPool, hs.staked, hs.fee, ?_, ?_, ?_⟩
    · rw [hs.claimed]
      exact (claimedStake_marked hq hw).symm
    · intro o p hp hcl
      rw [markClaimed_lookup] at hp
      split_ifs at hp with ho
      · obtain rfl := Option.some.inj hp
        exact hw.winning
      · exact hs.winners o p hp hcl
    · have hcs := claimedShares_marked hq hw
      rw [← hcs] at hnew
      exact hnew
  have hpools : Pools ({ markClaimed b user q with
      market := countClaim b.market (b.market.winningStakeClaimed + q.amount)
        (b.market.paidOut + paid) } : Book D) := (h.pools.marked hq).congr rfl rfl rfl rfl
  have hle' := hs'.paidOut_le hpools
  refine ⟨hpools, ?_, ?_⟩
  · exact phase_of_settled hw.status hs'
  · have hl := h.escrow
    have hfee := fee_le b.market.totalPool h.pools.feeBps
    rw [← hs.fee] at hfee
    simp only [liability, countClaim, hw.status, distributable] at hl hle' hle ⊢
    split_ifs at hl ⊢ <;> omega

theorem Sound.refund {user : Pubkey} {q : Position} {escrow' : ℕ} (h : Sound b escrow donated)
    (hst : b.market.status = .cancelled) (hq : b.positions.lookup user = some q)
    (hu : q.claimed = false) (he : escrow' + q.amount = escrow) :
    Sound (markClaimed b user q) escrow' donated := by
  have hc := h.cancelled hst
  have ht := sumOf_markClaimed (fun q => if q.claimed then 0 else q.amount) hq
  simp only [hu, if_true, Bool.false_eq_true, if_false] at ht
  have hl := h.escrow
  refine ⟨h.pools.marked hq, ?_, ?_⟩
  · exact phase_of_cancelled hst ⟨hc.feeAmount, hc.feeWithdrawn, hc.paidOut, hc.claimed⟩
  · simp only [liability, unclaimedStake, hst] at hl ⊢
    rw [show (markClaimed b user q).market.status = .cancelled from hst]
    simp only
    omega

theorem Sound.withdraw {escrow' : ℕ} (h : Sound b escrow donated)
    (hst : b.market.status = .settled) (hf : b.market.feeWithdrawn = false)
    (he : escrow' + b.market.feeAmount = escrow) :
    Sound { b with market := { b.market with feeWithdrawn := true } } escrow' donated := by
  have hs := h.settled hst
  have hle := hs.paidOut_le h.pools
  have hl := h.escrow
  have hfee := fee_le b.market.totalPool h.pools.feeBps
  rw [← hs.fee] at hfee
  refine ⟨h.pools.congr rfl rfl rfl rfl, ?_, ?_⟩
  · exact phase_of_settled hst
      ⟨hs.outcome, hs.winningPool, hs.staked, hs.fee, hs.claimed, hs.winners, hs.paid⟩
  · simp only [liability, hst, hf, distributable] at hl hle ⊢
    simp only [Bool.false_eq_true, if_false, if_true] at hl ⊢
    omega

/-- One operation keeps the invariant, counting what it donates. -/
theorem Sound.step {i : Instruction D} {b' : Book D} {paidIn paidOut escrow' : ℕ}
    (h : Sound b escrow donated) (hok : BookOk w.ledger k b)
    (hstep : BookStep O w w' k b i b' paidIn paidOut)
    (he : escrow' + paidOut = escrow + paidIn) :
    Sound b' escrow' (donated + if Instruction.market? i = some k then 0 else paidIn) := by
  cases hstep with
  | idle hi =>
      rw [if_neg hi]
      exact ⟨h.pools, h.phase, by rw [h.escrow] at he; omega⟩
  | bet hk hc =>
      subst hk
      rw [if_pos (by rfl), Nat.add_zero]
      rw [show escrow' = escrow + _ from he]
      exact h.bet hc hok
  | lock hk hs hl =>
      subst hk
      obtain rfl := he
      simpa using h.lock hs
  | attach hk hc =>
      subst hk
      obtain rfl := he
      simpa using h.attach _
  | settle hs ho hv hr =>
      obtain rfl := he
      simpa [hv.market?] using h.settle hs ho hr
  | cancel hk hs hd hl =>
      subst hk
      obtain rfl := he
      simpa using h.cancel hs
  | claim hk hc hw hp hm =>
      subst hk
      rw [if_pos (by rfl), Nat.add_zero]
      exact h.claim hc.found hw hp he
  | refund hk hc hs hu hm =>
      subst hk
      rw [if_pos (by rfl), Nat.add_zero]
      exact h.refund hs hc.found hu he
  | withdraw hk hc hm =>
      subst hk
      rw [if_pos (by rfl), Nat.add_zero]
      exact h.withdraw hc.status hc.fresh he

end ProofBook.Solvency
