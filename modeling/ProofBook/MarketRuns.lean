import ProofBook.Solvency

/-!
# Markets over whole runs

The book invariant holds of every market in every state a run reaches, with
the donations of the run as a ghost quantity. No payment whose other checks
pass can fail for lack of funds or in its own arithmetic.
-/
namespace ProofBook.MarketRuns
open Addresses State Checked OracleWire OracleAdapter TokenLedger Totals Chain Program Runs Steps
open StepCases PayoutMath ProRata Solvency
open Instructions.Betting Instructions.Settlement Instructions.Payments Instructions.PropVaults

variable {D : Type} [Inhabited D] {O : OracleProgram D} {w w₀ : World D} {k : Pubkey}
  {b : Book D}

/-- What an operation that does not act on the market put into its escrow. -/
def donation (O : OracleProgram D) (k : Pubkey) (w : World D) (i : Instruction D) : ℕ :=
  if w.book? k = none ∨ Instruction.market? i = some k then 0
  else ((machine O).apply w i).escrow k - w.escrow k

def donations (O : OracleProgram D) (k : Pubkey) (w₀ : World D) (is : List (Instruction D)) : ℕ :=
  (machine O).accumulate (donation O k) w₀ is

/-- The invariant of a run, for one market. -/
structure MarketInvariant (k : Pubkey) (w : World D) (donated : ℕ) : Prop where
  wellFormed : WellFormed w
  absent : w.book? k = none → donated = 0
  sound : ∀ b, w.book? k = some b → Sound b (w.escrow k) donated

theorem MarketInvariant.step {w' : World D} {i : Instruction D} {donated : ℕ}
    (h : MarketInvariant k w donated) (hs : step O w i = .ok w') :
    MarketInvariant k w' (donated + donation O k w i) := by
  have happly : (machine O).apply w i = w' := Machine.apply_of_ok hs
  cases hb : w.book? k with
  | none =>
      have hd : donated + donation O k w i = 0 := by simp [donation, hb, h.absent hb]
      refine ⟨WellFormed.step h.wellFormed hs, fun _ => hd, fun b' hb' => ?_⟩
      obtain ⟨ctx, p, -, -, -, ha, rfl, he, -⟩ := step_book_new hs hb hb'
      rw [hd, he]
      exact newBook_sound O ha
  | some b =>
      obtain ⟨b', paidIn, paidOut, hb', hstep, he⟩ := step_book h.wellFormed hs hb
      refine ⟨WellFormed.step h.wellFormed hs, fun hn => ?_, fun b₁ hb₁ => ?_⟩
      · rw [hn] at hb'
        cases hb'
      obtain rfl := Option.some.inj (hb'.symm.trans hb₁)
      have hsound := (h.sound b hb).step (h.wellFormed.books k b hb) hstep he
      have hd : donation O k w i = if Instruction.market? i = some k then 0 else paidIn := by
        simp only [donation, hb, reduceCtorEq, false_or, happly]
        rcases hstep.idle_or with hm | ⟨hm, -, rfl⟩
        · simp [hm]
        · simp only [hm, if_false]
          omega
      rwa [hd]

theorem run_sound (h₀ : Genesis w₀) (is : List (Instruction D)) :
    MarketInvariant k ((machine O).run w₀ is) (donations O k w₀ is) := by
  have h := Machine.run_accumulates (M := machine O) (f := donation O k)
    (P := MarketInvariant k) (n := 0) (fun s i t n hP hs => hP.step hs) ?_
    ⟨Genesis.wellFormed h₀, fun _ => rfl, fun b hb => by simp [World.book?, h₀.books] at hb⟩ is
  · rwa [Nat.zero_add] at h
  · intro s i e he
    simp [donation, Machine.apply_of_error he]

theorem reachable_sound (hw : Reachable O w) (hb : w.book? k = some b) :
    ∃ donated, Sound b (w.escrow k) donated := by
  obtain ⟨w₀, is, h₀, rfl⟩ := hw
  exact ⟨_, (run_sound h₀ is).sound b hb⟩

theorem reachable_outcomes (hw : Reachable O w) (hb : w.book? k = some b) :
    b.market.outcomes.length ≤ maxOutcomes := by
  refine (hw.invariant (P := fun w => WellFormed w ∧
    ∀ k b, w.book? k = some b → b.market.outcomes.length ≤ maxOutcomes) ?_ ?_).2 k b hb
  · intro s h₀
    exact ⟨Genesis.wellFormed h₀, fun k b hb => by simp [World.book?, h₀.books] at hb⟩
  · intro s i t h (hs : step O s i = .ok t)
    refine ⟨WellFormed.step h.1 hs, fun k b hb => ?_⟩
    cases hsb : s.book? k with
    | some b₀ =>
        obtain ⟨b', x, y, hb', hbs, -⟩ := step_book h.1 hs hsb
        obtain rfl := Option.some.inj (hb'.symm.trans hb)
        have hlen := congrArg List.length hbs.sameTerms.specs
        rw [List.length_map, List.length_map] at hlen
        rw [hlen]
        exact h.2 k b₀ hsb
    | none =>
        obtain ⟨ctx, p, -, -, -, ha, rfl, -⟩ := step_book_new hs hsb hb
        simpa [newMarket] using ha.outcomes.2

/-- A quantity of the book that starts at zero and that every step moves by a
charge: the run's charges sum to it. -/
structure Charged (k : Pubkey) (f : Book D → ℕ) (w : World D) (n : ℕ) : Prop where
  invariant : ∃ donated, MarketInvariant k w donated
  absent : w.book? k = none → n = 0
  present : ∀ b, w.book? k = some b → f b = n

theorem charges_eq {c : World D → Instruction D → ℕ} {f : Book D → ℕ}
    (herr : ∀ w i e, step O w i = .error e → c w i = 0)
    (hnone : ∀ w i w', step O w i = .ok w' → w.book? k = none → c w i = 0)
    (hnew : ∀ ctx p, f ⟨newMarket O ctx p, ∅, none⟩ = 0)
    (hstep : ∀ {w w' : World D} {b b' : Book D} {i : Instruction D} {n x y : ℕ},
      step O w i = .ok w' → Sound b (w.escrow k) n → BookStep O w w' k b i b' x y →
      w'.escrow k + y = w.escrow k + x → f b' = f b + c w i)
    (h₀ : Genesis w₀) (is : List (Instruction D))
    (hb : ((machine O).run w₀ is).book? k = some b) : (machine O).accumulate c w₀ is = f b := by
  have hinit : Charged k f w₀ 0 :=
    ⟨⟨_, run_sound (O := O) h₀ []⟩, fun _ => rfl, fun b hb => by
      simp [World.book?, h₀.books] at hb⟩
  have h := Machine.run_accumulates (M := machine O) (f := c) (P := Charged k f) ?_ herr hinit is
  · rw [Nat.zero_add] at h
    exact (h.present b hb).symm
  · rintro w i w' n ⟨⟨d, hinv⟩, habsent, hpresent⟩ (hs : step O w i = .ok w')
    refine ⟨⟨_, hinv.step hs⟩, fun hn => ?_, fun b' hb' => ?_⟩
    · cases hw : w.book? k with
      | some b =>
          obtain ⟨b', x, y, hb', -⟩ := step_book hinv.wellFormed hs hw
          rw [hn] at hb'
          cases hb'
      | none => rw [habsent hw, hnone w i w' hs hw]
    · cases hw : w.book? k with
      | some b =>
          obtain ⟨b₁, x, y, hb₁, hbs, he⟩ := step_book hinv.wellFormed hs hw
          obtain rfl := Option.some.inj (hb₁.symm.trans hb')
          rw [hstep hs (hinv.sound b hw) hbs he, hpresent b hw]
      | none =>
          obtain ⟨ctx, p, -, -, -, -, rfl, -⟩ := step_book_new hs hw hb'
          rw [hnew, habsent hw, hnone w i w' hs hw]

/-! ## Payments cannot run out of funds -/

/-- A refusal for lack of funds or by checked arithmetic. -/
def MoneyFailure (e : Failure) : Prop :=
  e = .token .insufficientFunds ∨ e = .token .overflow ∨ e = .program .mathOverflow ∨
    e = .program .mathUnderflow ∨ e = .program .zeroWinningPool

omit [Inhabited D] in
theorem loadClaim_error {w : World D} {ctx : Claim} {e : Failure}
    (h : loadClaim w ctx = .error e) : ¬ MoneyFailure e := by
  simp only [loadClaim, requireSigner, World.loadBook, World.tokenAccount, bind_eq_error,
    require_eq_error, demand_eq_error, pure_ne_error, and_false, exists_false, or_false] at h
  rcases h with ⟨_, rfl⟩ | ⟨_, _, ⟨_, rfl⟩ | ⟨_, _, ⟨_, rfl⟩ | ⟨_, _, ⟨_, rfl⟩ | ⟨_, _, ⟨_, rfl⟩ |
    ⟨_, _, ⟨_, rfl⟩ | ⟨_, _, ⟨_, rfl⟩ | ⟨_, _, ⟨_, rfl⟩ | ⟨_, _, ⟨_, rfl⟩ |
      ⟨_, _, _, rfl⟩⟩⟩⟩⟩⟩⟩⟩⟩ <;>
    simp [MoneyFailure]

omit [Inhabited D] in
/-- A covered transfer fails for no money reason. -/
theorem transferTokens_error {src dst authority : Pubkey} {amount : ℕ} {e : Failure}
    (hc : w.ledger.Conserved) (hf : amount ≤ w.ledger.balance src)
    (h : w.transferTokens src dst authority amount = .error e) : ¬ MoneyFailure e := by
  simp only [World.transferTokens, bind_eq_error, mapError_eq_error, pure_ne_error, and_false,
    exists_false, or_false] at h
  obtain ⟨te, ht, rfl⟩ := h
  have := Ledger.transfer_error hc ht
  simp only [MoneyFailure, Failure.token.injEq, reduceCtorEq, or_false]
  rintro (rfl | rfl)
  · have := this.2 rfl
    omega
  · exact this.1 rfl

omit [Inhabited D] in
theorem claimWinnings_error (hw : WellFormed w) {ctx : Claim} {e : Failure}
    (hs : ∀ b, w.book? ctx.market = some b → ∃ n, Sound b (w.escrow ctx.market) n)
    (h : claimWinnings w ctx = .error e) : ¬ MoneyFailure e := by
  unfold claimWinnings at h
  rw [bind_eq_error] at h
  rcases h with h | ⟨⟨b, q⟩, hc, h⟩
  · exact loadClaim_error h
  have hc := loadClaim_ok.mp hc
  simp only [bind_eq_error, require_eq_error, require_eq_ok, mapError_eq_error, mapError_eq_ok,
    demand_eq_error, checkedAddU64_eq_none, pure_ne_error, and_false, exists_false,
    or_false] at h
  rcases h with ⟨_, rfl⟩ | ⟨_, h₁, ⟨_, rfl⟩ | ⟨_, h₂, ⟨_, rfl⟩ | ⟨_, h₃, ⟨h₄, rfl⟩ |
    ⟨_, h₄, h⟩⟩⟩⟩
  · simp [MoneyFailure]
  · simp [MoneyFailure]
  · simp [MoneyFailure]
  · obtain ⟨n, hb⟩ := hs b hc.book
    exact absurd (hb.settled h₁).staked h₄
  obtain ⟨n, hb⟩ := hs b hc.book
  have hset := hb.settled h₁
  have hwin : WinnerChecks b q := ⟨h₁, h₂, h₃, h₄⟩
  rcases h with ⟨pe, hp, rfl⟩ | ⟨⟨claimed, paid⟩, hp, h⟩
  · rw [claimPayout_eq hb.pools hset hc.found hwin] at hp
    cases hp
  have hle := claimPayout_le hb.pools hset hc.found hwin hp
  rcases h with h | ⟨w₁, -, h, -⟩
  · refine transferTokens_error hw.conserved ?_ h
    have hvk := hc.vault.symm.trans (hw.books _ b hc.book).vault
    rw [hvk]
    exact hb.covers hset h₁ hle
  · have := hb.pools.fits
    simp only [distributable] at hle
    omega

omit [Inhabited D] in
theorem claimRefund_error (hw : WellFormed w) {ctx : Claim} {e : Failure}
    (hs : ∀ b, w.book? ctx.market = some b → ∃ n, Sound b (w.escrow ctx.market) n)
    (h : claimRefund w ctx = .error e) : ¬ MoneyFailure e := by
  unfold claimRefund at h
  rw [bind_eq_error] at h
  rcases h with h | ⟨⟨b, q⟩, hc, h⟩
  · exact loadClaim_error h
  have hc := loadClaim_ok.mp hc
  simp only [bind_eq_error, require_eq_error, require_eq_ok, pure_ne_error, and_false,
    exists_false, or_false] at h
  rcases h with ⟨_, rfl⟩ | ⟨_, h₁, ⟨_, rfl⟩ | ⟨_, h₂, h⟩⟩
  · simp [MoneyFailure]
  · simp [MoneyFailure]
  obtain ⟨n, hb⟩ := hs b hc.book
  refine transferTokens_error hw.conserved ?_ h
  rw [hc.vault.symm.trans (hw.books _ b hc.book).vault]
  exact hb.covers_refund h₁ hc.found h₂

omit [Inhabited D] in
theorem withdrawFees_error (hw : WellFormed w) {ctx : WithdrawFees} {e : Failure}
    (hs : ∀ b, w.book? ctx.market = some b → ∃ n, Sound b (w.escrow ctx.market) n)
    (h : withdrawFees w ctx = .error e) : ¬ MoneyFailure e := by
  simp only [withdrawFees, requireSigner, World.loadBook, World.tokenAccount, bind_eq_error,
    require_eq_error, require_eq_ok, demand_eq_error, demand_eq_ok, pure_ne_error, and_false,
    exists_false, or_false] at h
  rcases h with ⟨_, rfl⟩ | ⟨_, _, ⟨_, rfl⟩ | ⟨b, hb, ⟨_, rfl⟩ | ⟨_, _, ⟨_, rfl⟩ | ⟨_, _, ⟨_, rfl⟩ |
    ⟨_, _, ⟨_, rfl⟩ | ⟨_, hv, ⟨_, rfl⟩ | ⟨_, _, ⟨_, rfl⟩ | ⟨_, _, ⟨_, rfl⟩ | ⟨_, _, ⟨_, rfl⟩ |
    ⟨_, hst, ⟨_, rfl⟩ | ⟨_, hf, ⟨_, rfl⟩ | ⟨_, _, h⟩⟩⟩⟩⟩⟩⟩⟩⟩⟩⟩⟩
  iterate 12 simp [MoneyFailure]
  obtain ⟨n, hsound⟩ := hs b hb
  refine transferTokens_error hw.conserved ?_ h
  rw [hv.symm.trans (hw.books _ b hb).vault]
  exact hsound.covers_fee hst hf

/-- The instructions that move money out of a market's escrow. -/
def Instruction.paysFrom (k : Pubkey) : Instruction D → Prop
  | .claimWinnings ctx => ctx.market = k
  | .claimRefund ctx => ctx.market = k
  | .withdrawFees ctx => ctx.market = k
  | _ => False

omit [Inhabited D] in
theorem Instruction.market?_of_paysFrom {i : Instruction D} (h : Instruction.paysFrom k i) :
    Instruction.market? i = some k := by
  cases i <;> first | exact h.elim | exact congrArg some h

theorem paysFrom_book {w' : World D} {i : Instruction D} (h : step O w i = .ok w')
    (hi : Instruction.paysFrom k i) : w.book? k ≠ none := by
  rcases step_finds_book h (Instruction.market?_of_paysFrom hi) with ⟨b, hb⟩ | ⟨ctx, p, rfl⟩
  · simp [hb]
  · exact hi.elim

/-- In every reachable state the pools are sums of positions, the escrow covers
what the market owes, and no payment is refused for want of money. -/
theorem market_solvent (hw : Reachable O w) (hb : w.book? k = some b) :
    (∀ j, b.market.pool j = staked b j) ∧
      b.market.totalPool = (b.market.outcomes.map (·.pool)).sum ∧
      liability b ≤ w.escrow k ∧
      ∀ i e, Instruction.paysFrom k i → step O w i = .error e → ¬ MoneyFailure e := by
  obtain ⟨donated, hs⟩ := reachable_sound hw hb
  refine ⟨hs.pools.pool, hs.pools.totalPool, by rw [hs.escrow]; omega, fun i e hi he => ?_⟩
  have hwf := reachable_wellFormed hw
  cases i with
  | claimWinnings ctx => exact claimWinnings_error hwf (fun b hb => reachable_sound hw hb) he
  | claimRefund ctx => exact claimRefund_error hwf (fun b hb => reachable_sound hw hb) he
  | withdrawFees ctx => exact withdrawFees_error hwf (fun b hb => reachable_sound hw hb) he
  | _ => exact hi.elim

/-! ## A market with three bettors -/

/-- An oracle that accepts every payload. -/
def acceptingOracle : OracleProgram Unit where
  label := "mock"
  programId := .key 9
  validateStatV2 _ _ _ _ := .ok (some ⟨.key 9, [1]⟩)
  validateStatV3 _ _ _ _ := .ok (some ⟨.key 9, [1]⟩)

def emptyWorld (D : Type) : World D := ⟨0, Ledger.empty, ∅, ∅, ∅, []⟩

omit [Inhabited D] in
theorem emptyWorld_genesis : Genesis (emptyWorld D) where
  books := rfl
  propVaults := rfl
  log := rfl
  conserved mint := by
    constructor
    · rfl
    · simp [emptyWorld, Ledger.empty, Ledger.supply, wordSize]
  vaults k := rfl

def homeWin : OutcomeSpec := ⟨1, 100, true, 2, 100, some .subtract, .greaterThan, 0⟩
def awayWin : OutcomeSpec := ⟨1, 100, true, 2, 100, some .subtract, .lessThan, 0⟩

def sampleContext : InitializeMarket := ⟨.key 20, .key 1⟩

def sampleParams : MarketParams := ⟨7, 0, [homeWin, awayWin], 500, 100, 50, .key 21⟩

def sampleMarket : Pubkey := sampleContext.marketKey sampleParams

/-- Three wallets with a token account each. -/
def fundWallets {D : Type} : List (Instruction D) :=
  [.splInitializeMint (.key 1), .splInitializeAccount 2 (.key 1) (.key 12),
    .splInitializeAccount 3 (.key 1) (.key 13), .splInitializeAccount 4 (.key 1) (.key 14),
    .splMintTo (.key 1) (.key 2) 1000, .splMintTo (.key 1) (.key 3) 1000,
    .splMintTo (.key 1) (.key 4) 1000]

def bet (wallet outcomeIndex amount : ℕ) : Instruction Unit :=
  .placeBet ⟨.key (wallet + 10), sampleMarket, .key wallet, .vault sampleMarket⟩ outcomeIndex amount

/-- Two wallets back the home side, one the away side. -/
def bettingRun : List (Instruction Unit) :=
  fundWallets ++ [.initializeMarket sampleContext sampleParams, bet 2 0 500, bet 3 0 300,
    bet 4 1 200]

def bettingWorld : World Unit := (machine acceptingOracle).run (emptyWorld Unit) bettingRun

theorem bettingWorld_reachable : Reachable acceptingOracle bettingWorld :=
  ⟨_, bettingRun, emptyWorld_genesis, rfl⟩

theorem bettingWorld_book : (bettingWorld.book? sampleMarket).isSome = true := by
  decide +kernel

theorem market_solvent_betting :
    ∃ b, bettingWorld.book? sampleMarket = some b ∧
      liability b ≤ bettingWorld.escrow sampleMarket := by
  obtain ⟨b, hb⟩ := Option.isSome_iff_exists.mp bettingWorld_book
  exact ⟨b, hb, (market_solvent bettingWorld_reachable hb).2.2.1⟩

end ProofBook.MarketRuns
