import ProofBook.WinnerPayouts

/-!
# The lifecycle of a market

What one operation may do to a market, whoever signs it, and what follows for a
whole run: no position is paid twice or in two ways, and the fee leaves at most
once and never on a cancelled market.
-/
namespace ProofBook.Lifecycle
open Addresses State Checked OracleWire OracleAdapter TokenLedger Totals Chain Program Runs Steps
open StepCases Solvency MarketRuns WinnerPayouts
open Instructions.Betting Instructions.Settlement Instructions.Payments Instructions.PropVaults

variable {D : Type}

/-- Open to Locked, Locked to Settled or Cancelled, and nothing else. -/
inductive Transition : MarketStatus → MarketStatus → Prop
  | stay (s : MarketStatus) : Transition s s
  | lock : Transition .opened .locked
  | settle : Transition .locked .settled
  | cancel : Transition .locked .cancelled

/-- The money staked on a market: pools, total and the amount of each position. -/
structure SameStakes (b b' : Book D) : Prop where
  outcomes : b'.market.outcomes = b.market.outcomes
  totalPool : b'.market.totalPool = b.market.totalPool
  positions : ∀ o, (b'.positions.lookup o).map (fun q => (q.outcomeIndex, q.amount)) =
    (b.positions.lookup o).map (fun q => (q.outcomeIndex, q.amount))

/-- The recorded result: the winner, the money fields and the proof receipt. -/
structure SameResult (m m' : Market D) : Prop where
  status : m'.status = m.status
  winningOutcome : m'.winningOutcome = m.winningOutcome
  totalWinningPool : m'.totalWinningPool = m.totalWinningPool
  feeAmount : m'.feeAmount = m.feeAmount
  settledAt : m'.settledAt = m.settledAt
  settleProofRef : m'.settleProofRef = m.settleProofRef
  settleProofTs : m'.settleProofTs = m.settleProofTs
  settleEpochDay : m'.settleEpochDay = m.settleEpochDay
  settleDailyRoots : m'.settleDailyRoots = m.settleDailyRoots
  settleResolver : m'.settleResolver = m.settleResolver

/-- A payment of a position: it was unpaid, is marked paid, and the amount went
from the escrow to the token account of its owner. -/
structure Pays (w w' : World D) (k : Pubkey) (b b' : Book D) (ctx : Claim) (q : Position)
    (paid : ℕ) : Prop where
  found : b.positions.lookup ctx.user = some q
  unpaid : q.claimed = false
  marked : b'.positions.lookup ctx.user = some { q with claimed := true }
  debit : w'.escrow k + paid = w.escrow k
  token : w.ledger.title ctx.userToken = some (b.market.usdcMint, ctx.user)
  credit : w'.ledger.balance ctx.userToken = w.ledger.balance ctx.userToken + paid

/-- What one operation may do to a market. -/
structure StepLaw (O : OracleProgram D) (w w' : World D) (k : Pubkey) (b : Book D)
    (i : Instruction D) (b' : Book D) : Prop where
  transition : Transition b.market.status b'.market.status
  frozen : b.market.status ≠ .opened → SameStakes b b'
  final : b.market.status.terminal = true → SameResult b.market b'.market
  settles : b.market.status ≠ .settled → b'.market.status = .settled →
    ∃ r, Verified O w k b i r ∧ b'.market.winningOutcome = r.outcome ∧
      b'.market.totalWinningPool = b'.market.pool r.outcome ∧ 0 < b'.market.totalWinningPool
  cancels : ∀ ctx, i = .cancelMarket ctx → b'.market.winningOutcome = b.market.winningOutcome
  winnings : ∀ ctx, i = .claimWinnings ctx → ctx.market = k → b.market.status = .settled ∧
    ∃ q paid, Pays w w' k b b' ctx q paid ∧ q.outcomeIndex = b.market.winningOutcome
  refunds : ∀ ctx, i = .claimRefund ctx → ctx.market = k → b.market.status = .cancelled ∧
    ∃ q, Pays w w' k b b' ctx q q.amount
  fees : ∀ ctx, i = .withdrawFees ctx → ctx.market = k → b.market.status = .settled ∧
    b.market.feeWithdrawn = false ∧ b'.market.feeWithdrawn = true ∧
    w'.escrow k + b.market.feeAmount = w.escrow k
  debits : w'.escrow k < w.escrow k → Instruction.paysFrom k i

variable {O : OracleProgram D} {w w' w₀ : World D} {k : Pubkey} {b b' : Book D}
  {i : Instruction D}

theorem SameStakes.refl (b : Book D) : SameStakes b b := ⟨rfl, rfl, fun _ => rfl⟩

theorem SameStakes.marked (b : Book D) {user : Pubkey} {q : Position}
    (hq : b.positions.lookup user = some q) : SameStakes b (markClaimed b user q) where
  outcomes := rfl
  totalPool := rfl
  positions o := by
    rw [markClaimed_lookup]
    split_ifs with ho
    · subst ho
      simp [hq]
    · rfl

theorem bookStep_transition {x y : ℕ} (h : BookStep O w w' k b i b' x y) :
    Transition b.market.status b'.market.status := by
  cases h with
  | lock _ hs _ =>
      simp only [withStatus, hs]
      exact .lock
  | settle hs _ _ hr =>
      rcases hr.result with ⟨-, hst, -⟩ | ⟨-, hst, -⟩ <;> simp only [hs, hst]
      · exact .cancel
      · exact .settle
  | cancel _ hs _ _ =>
      simp only [withStatus, hs]
      exact .cancel
  | _ => exact .stay _

theorem bookStep_frozen {x y : ℕ} (h : BookStep O w w' k b i b' x y)
    (hs : b.market.status ≠ .opened) : SameStakes b b' := by
  cases h with
  | bet _ hc => exact absurd hc.status hs
  | settle _ _ _ hr =>
      have hk := hr.keeps
      exact ⟨by rw [hk], by rw [hk], fun _ => rfl⟩
  | claim _ hc _ _ _ =>
      have hm := SameStakes.marked b hc.found
      exact ⟨hm.outcomes, hm.totalPool, hm.positions⟩
  | refund _ hc _ _ _ => exact .marked b hc.found
  | _ => exact ⟨rfl, rfl, fun _ => rfl⟩

theorem bookStep_final {x y : ℕ} (h : BookStep O w w' k b i b' x y)
    (hs : b.market.status.terminal = true) : SameResult b.market b'.market := by
  cases h with
  | lock _ h₁ _ => rw [h₁] at hs; cases hs
  | settle h₁ _ _ _ => rw [h₁] at hs; cases hs
  | cancel _ h₁ _ _ => rw [h₁] at hs; cases hs
  | bet _ hc => rw [hc.status] at hs; cases hs
  | _ => exact ⟨rfl, rfl, rfl, rfl, rfl, rfl, rfl, rfl, rfl, rfl⟩

theorem bookStep_settles {x y : ℕ} (h : BookStep O w w' k b i b' x y)
    (hn : b.market.status ≠ .settled) (hs : b'.market.status = .settled) :
    ∃ r, Verified O w k b i r ∧ b'.market.winningOutcome = r.outcome ∧
      b'.market.totalWinningPool = b'.market.pool r.outcome ∧ 0 < b'.market.totalWinningPool := by
  cases h with
  | settle _ _ hv hr =>
      have hk := hr.keeps
      rcases hr.result with ⟨-, hst, -⟩ | ⟨hp, -, -⟩
      · rw [hst] at hs
        cases hs
      · refine ⟨_, hv, by rw [hk], by rw [hk]; rfl, ?_⟩
        rw [hk]
        exact hp
  | lock => cases hs
  | cancel => cases hs
  | _ => exact absurd hs hn

theorem bookStep_debits {x y : ℕ} (h : BookStep O w w' k b i b' x y)
    (he : w'.escrow k + y = w.escrow k + x) (hlt : w'.escrow k < w.escrow k) :
    Instruction.paysFrom k i := by
  cases h with
  | claim hk => exact hk
  | refund hk => exact hk
  | withdraw hk => exact hk
  | _ => omega

variable [Inhabited D]

/-- Every operation obeys the law, in every reachable state. -/
theorem step_law (hw : WellFormed w) (h : step O w i = .ok w') (hb : w.book? k = some b) :
    ∃ b', w'.book? k = some b' ∧ StepLaw O w w' k b i b' := by
  obtain ⟨b', x, y, hb', hstep, he⟩ := step_book hw h hb
  refine ⟨b', hb', ⟨bookStep_transition hstep, bookStep_frozen hstep, bookStep_final hstep,
    bookStep_settles hstep, ?_, ?_, ?_, ?_, bookStep_debits hstep he⟩⟩
  · rintro ctx rfl
    cases hstep with
    | settle _ _ hv _ => cases hv
    | _ => rfl
  · rintro ctx rfl rfl
    cases hstep with
    | idle hi => exact absurd rfl hi
    | settle _ _ hv _ => cases hv
    | claim hk hc hwin hp hm =>
        refine ⟨hwin.status, _, _, ⟨hc.found, hwin.unclaimed, ?_, he, hc.userToken, hm.credit⟩,
          hwin.winning⟩
        exact (markClaimed_lookup b ctx.user ctx.user _).trans (if_pos rfl)
  · rintro ctx rfl rfl
    cases hstep with
    | idle hi => exact absurd rfl hi
    | settle _ _ hv _ => cases hv
    | refund hk hc hst hu hm =>
        refine ⟨hst, _, ⟨hc.found, hu, ?_, he, hc.userToken, hm.credit⟩⟩
        exact (markClaimed_lookup b ctx.user ctx.user _).trans (if_pos rfl)
  · rintro ctx rfl rfl
    cases hstep with
    | idle hi => exact absurd rfl hi
    | settle _ _ hv _ => cases hv
    | withdraw hk hc hm => exact ⟨hc.status, hc.fresh, rfl, he⟩

/-! ## Payments over a run -/

/-- One for each operation of a kind that succeeds. -/
def succeeds (O : OracleProgram D) (P : Instruction D → Bool) (w : World D)
    (i : Instruction D) : ℕ :=
  match step O w i with
  | .ok _ => if P i then 1 else 0
  | .error _ => 0

/-- How many operations of a kind succeed in a run. -/
def successes (O : OracleProgram D) (P : Instruction D → Bool) (w₀ : World D)
    (is : List (Instruction D)) : ℕ :=
  (machine O).accumulate (succeeds O P) w₀ is

/-- The claims that pay a position: winnings when the market is Settled,
refunds when it is Cancelled. -/
def Instruction.paysPosition (status : MarketStatus) (k o : Pubkey) : Instruction D → Bool
  | .claimWinnings ctx => status == .settled && ctx.market == k && ctx.user == o
  | .claimRefund ctx => status == .cancelled && ctx.market == k && ctx.user == o
  | _ => false

def Instruction.withdrawsFees (k : Pubkey) : Instruction D → Bool
  | .withdrawFees ctx => ctx.market == k
  | _ => false

/-- A count of payments is a quantity of the book, when every step moves both
alike. -/
theorem successes_eq {P : Instruction D → Bool} {f : Book D → ℕ}
    (hP : ∀ i, P i = true → Instruction.paysFrom k i)
    (hnew : ∀ ctx p, f ⟨newMarket O ctx p, ∅, none⟩ = 0)
    (hstep : ∀ {w w' : World D} {b b' : Book D} {i : Instruction D} {n x y : ℕ},
      Sound b (w.escrow k) n → BookStep O w w' k b i b' x y → f b' = f b + if P i then 1 else 0)
    (h₀ : Genesis w₀) (is : List (Instruction D))
    (hb : ((machine O).run w₀ is).book? k = some b) : successes O P w₀ is = f b := by
  refine charges_eq ?_ ?_ hnew ?_ h₀ is hb
  · intro w i e he
    simp [succeeds, he]
  · intro w i w' hs hn
    have hp : P i = false := by
      by_contra hp
      exact paysFrom_book hs (hP i (by simpa using hp)) hn
    simp [succeeds, hs, hp]
  · intro w w' b b' i n x y hs hsound hbs _
    rw [hstep hsound hbs]
    simp [succeeds, hs]

/-- Whether a position is marked paid on a market of a given status. -/
def paidIn (status : MarketStatus) (o : Pubkey) (b : Book D) : ℕ :=
  if b.market.status = status ∧ (b.positions.lookup o).map (·.claimed) = some true then 1 else 0

def feeOut (b : Book D) : ℕ := if b.market.feeWithdrawn then 1 else 0

omit [Inhabited D] in
theorem paysPosition_pays {s : MarketStatus} {o : Pubkey} (i : Instruction D)
    (h : Instruction.paysPosition s k o i = true) : Instruction.paysFrom k i := by
  cases i with
  | claimWinnings ctx =>
      simp only [Instruction.paysPosition, Bool.and_eq_true, beq_iff_eq] at h
      exact h.1.2
  | claimRefund ctx =>
      simp only [Instruction.paysPosition, Bool.and_eq_true, beq_iff_eq] at h
      exact h.1.2
  | _ => cases h

omit [Inhabited D] in
theorem withdrawsFees_pays (i : Instruction D) (h : Instruction.withdrawsFees k i = true) :
    Instruction.paysFrom k i := by
  cases i with
  | withdrawFees ctx => exact eq_of_beq h
  | _ => cases h

omit [Inhabited D] in
theorem paidIn_unclaimed {o : Pubkey} {s : MarketStatus}
    (h : ∀ o q, b.positions.lookup o = some q → q.claimed = false) : paidIn s o b = 0 := by
  unfold paidIn
  rw [if_neg]
  rintro ⟨-, hc⟩
  obtain ⟨q, hq, hqc⟩ := Option.map_eq_some_iff.mp hc
  rw [h o q hq] at hqc
  cases hqc

omit [Inhabited D] in
theorem paidIn_of_status {o : Pubkey} {s : MarketStatus} (h : b.market.status ≠ s) :
    paidIn s o b = 0 := if_neg fun hc => h hc.1

omit [Inhabited D] in
/-- Marking a position counts one payment for its owner and none for others. -/
theorem paidIn_marked {o user : Pubkey} {q : Position} {s : MarketStatus} {b₁ b₂ : Book D}
    (hp : b₂.positions = (markClaimed b₁ user q).positions) (h₁ : b₁.market.status = s)
    (h₂ : b₂.market.status = s) (hq : b₁.positions.lookup user = some q)
    (hu : q.claimed = false) :
    paidIn s o b₂ = paidIn s o b₁ + if user = o then 1 else 0 := by
  simp only [paidIn, h₁, h₂, true_and, hp, markClaimed_lookup]
  by_cases ho : o = user
  · subst ho
    simp [hq, hu]
  · simp [ho, Ne.symm ho]

omit [Inhabited D] in
theorem paidIn_quiet {o : Pubkey} {s : MarketStatus} (h : paidIn s o b = 0)
    (h' : paidIn s o b' = 0) (hp : Instruction.paysPosition s k o i = false) :
    paidIn s o b' = paidIn s o b + if Instruction.paysPosition s k o i then 1 else 0 := by
  simp [h, h', hp]

/-- A terminal market pays each of its positions once, in the way of its
status. -/
theorem payments_count {s : MarketStatus} (hs : s.terminal = true) (h₀ : Genesis w₀)
    (is : List (Instruction D)) (o : Pubkey)
    (hb : ((machine O).run w₀ is).book? k = some b) :
    successes O (Instruction.paysPosition s k o) w₀ is = paidIn s o b := by
  refine successes_eq paysPosition_pays (fun _ _ => paidIn_unclaimed fun o q hq => by
    simp at hq) ?_ h₀ is hb
  intro w w' b b' i n x y hsound hbs
  have hopened : (MarketStatus.opened : MarketStatus) ≠ s := by
    rintro rfl
    cases hs
  have hlocked : (MarketStatus.locked : MarketStatus) ≠ s := by
    rintro rfl
    cases hs
  cases hbs with
  | idle hi =>
      have hp : Instruction.paysPosition s k o i = false := by
        by_contra hp
        exact hi (Instruction.market?_of_paysFrom (paysPosition_pays i (by simpa using hp)))
      simp [hp]
  | bet hk hc =>
      have h : b.market.status ≠ s := hc.status ▸ hopened
      exact paidIn_quiet (paidIn_of_status h) (paidIn_of_status h) rfl
  | lock hk hst hl =>
      have h : b.market.status ≠ s := hst ▸ hopened
      exact paidIn_quiet (paidIn_of_status h) (if_neg fun hc => hlocked hc.1) rfl
  | attach hk hc => rfl
  | settle hst ho hv hr =>
      have hu := (hsound.unresolved (.inr hst)).1
      exact paidIn_quiet (paidIn_unclaimed hu.positions) (paidIn_unclaimed hu.positions)
        (by cases hv <;> rfl)
  | cancel hk hst hd hl =>
      have hu := (hsound.unresolved (.inr hst)).1
      exact paidIn_quiet (paidIn_unclaimed hu.positions) (paidIn_unclaimed hu.positions) rfl
  | claim hk hc hw hp hm =>
      by_cases h : s = .settled
      · subst h
        refine (paidIn_marked rfl hw.status hw.status hc.found hw.unclaimed).trans ?_
        simp [Instruction.paysPosition, hk]
      · have hn : b.market.status ≠ s := hw.status ▸ Ne.symm h
        refine paidIn_quiet (paidIn_of_status hn) (paidIn_of_status hn) ?_
        simp [Instruction.paysPosition, h]
  | refund hk hc hst hu hm =>
      by_cases h : s = .cancelled
      · subst h
        refine (paidIn_marked rfl hst hst hc.found hu).trans ?_
        simp [Instruction.paysPosition, hk]
      · have hn : b.market.status ≠ s := hst ▸ Ne.symm h
        refine paidIn_quiet (paidIn_of_status hn) (paidIn_of_status hn) ?_
        simp [Instruction.paysPosition, h]
  | withdraw hk hc hm => rfl

theorem fees_count (h₀ : Genesis w₀) (is : List (Instruction D))
    (hb : ((machine O).run w₀ is).book? k = some b) :
    successes O (Instruction.withdrawsFees k) w₀ is = feeOut b := by
  refine successes_eq withdrawsFees_pays (fun _ _ => rfl) ?_ h₀ is hb
  intro w w' b b' i n x y hsound hbs
  cases hbs with
  | idle hi =>
      have hp : Instruction.withdrawsFees k i = false := by
        by_contra hp
        exact hi (Instruction.market?_of_paysFrom (withdrawsFees_pays i (by simpa using hp)))
      simp [hp]
  | settle hs ho hv hr =>
      have hp : Instruction.withdrawsFees k i = false := by cases hv <;> rfl
      rw [hp, feeOut, hr.keeps]
      rfl
  | withdraw hk hc hm => simp [feeOut, hc.fresh, Instruction.withdrawsFees, hk]
  | _ => rfl

/-- In every state of every run: any operation obeys the step law; each position
was paid at most once, with winnings only if the market is settled and with a
refund only if it is cancelled; and the fee left at most once, and only if the
market is settled. -/
theorem market_lifecycle (h₀ : Genesis w₀) (is : List (Instruction D))
    (hb : ((machine O).run w₀ is).book? k = some b) :
    (∀ i w', step O ((machine O).run w₀ is) i = .ok w' →
      ∃ b', w'.book? k = some b' ∧ StepLaw O ((machine O).run w₀ is) w' k b i b') ∧
      (∀ o, successes O (Instruction.paysPosition .settled k o) w₀ is +
          successes O (Instruction.paysPosition .cancelled k o) w₀ is ≤ 1 ∧
        (0 < successes O (Instruction.paysPosition .settled k o) w₀ is →
          b.market.status = .settled) ∧
        (0 < successes O (Instruction.paysPosition .cancelled k o) w₀ is →
          b.market.status = .cancelled)) ∧
      successes O (Instruction.withdrawsFees k) w₀ is ≤ 1 ∧
      (0 < successes O (Instruction.withdrawsFees k) w₀ is → b.market.status = .settled) := by
  have hinv := run_sound (O := O) (k := k) h₀ is
  refine ⟨fun i w' hs => step_law hinv.wellFormed hs hb, fun o => ?_, ?_, ?_⟩
  · rw [payments_count rfl h₀ is o hb, payments_count rfl h₀ is o hb]
    simp only [paidIn]
    cases b.market.status <;> simp <;> split <;> simp
  · rw [fees_count h₀ is hb, feeOut]
    split <;> simp
  · rw [fees_count h₀ is hb, feeOut]
    have hp := (hinv.sound b hb).phase
    unfold Phase at hp
    split at hp <;> rename_i hs
    · simp [hp.feeWithdrawn]
    · simp [hp.feeWithdrawn]
    · simp [hs]
    · simp [hp.feeWithdrawn]

/-- How often a run of the sample market does this. -/
def paidRunCount (P : Instruction Unit → Bool) : ℕ :=
  successes acceptingOracle P (emptyWorld Unit) paidRun

theorem market_lifecycle_paid :
    ∃ b, paidWorld.book? sampleMarket = some b ∧ b.market.status = .settled ∧
      paidRunCount (Instruction.paysPosition .settled sampleMarket (.key 12)) = 1 ∧
      paidRunCount (Instruction.paysPosition .cancelled sampleMarket (.key 12)) = 0 ∧
      paidRunCount (Instruction.withdrawsFees sampleMarket) = 1 ∧
      ∀ i w', step acceptingOracle paidWorld i = .ok w' →
        ∃ b', w'.book? sampleMarket = some b' ∧
          StepLaw acceptingOracle paidWorld w' sampleMarket b i b' := by
  obtain ⟨b, hb, -⟩ := Option.map_eq_some_iff.mp paidWorld_book
  have hclaimed :
      0 < paidRunCount (Instruction.paysPosition .settled sampleMarket (.key 12)) := by
    decide +kernel
  have hwithdrawn : 0 < paidRunCount (Instruction.withdrawsFees sampleMarket) := by decide +kernel
  obtain ⟨hlaw, hpositions, hfees, -⟩ := market_lifecycle emptyWorld_genesis paidRun hb
  obtain ⟨honce, hsettled, -⟩ := hpositions (.key 12)
  have hcount : paidRunCount (Instruction.paysPosition .settled sampleMarket (.key 12)) +
      paidRunCount (Instruction.paysPosition .cancelled sampleMarket (.key 12)) ≤ 1 := honce
  have hfee : paidRunCount (Instruction.withdrawsFees sampleMarket) ≤ 1 := hfees
  exact ⟨b, hb, hsettled hclaimed, by omega, by omega, by omega, hlaw⟩

end ProofBook.Lifecycle
