import ProofBook.ComboRule
import ProofBook.Lib.Script

/-!
# Creating and staking the catalogue

A market of the catalogue is created in one transaction, its rule attached in a second
and its outcomes staked in batches of three bets, with anybody's transactions in
between and replies that may be lost. A pass that runs to its end leaves a market whose
own settlement cannot cancel it. A market that a pass left without its rule is staked
by later passes but never given one, and then it never settles.
-/
namespace ProofBook.Seeding
open Addresses State Checked OracleWire OracleAdapter TokenLedger Totals Chain Program Runs Steps
open StepCases Scripts MarketRuns
open Instructions.Betting Instructions.Settlement

variable {D : Type} [Inhabited D]

abbrev Keeper (D : Type) (α : Type) := Script (World D) (Instruction D) Failure α

/-- A market type with its first leg apart, as the program takes it. -/
structure Definition where
  type : ℕ
  leg : StatLeg
  moreLegs : List StatLeg
  outcomes : List ComboOutcome

def Definition.legs (d : Definition) : List StatLeg := d.leg :: d.moreLegs

structure Config where
  wallet : Pubkey
  usdcMint : Pubkey
  feeTreasury : Option Pubkey
  feeBps : ℕ
  resolutionTimeoutSec : Int64
  lockDelaySec : Int64
  bettors : List Pubkey
  /-- The associated token account of a mint and an owner. -/
  tokenAccount : Pubkey → Pubkey → Pubkey

variable (O : OracleProgram D) (cfg : Config)

/-! ## The market and its rule -/

def Config.marketPdaFor (fixtureId : Int64) (marketType : ℕ) : Pubkey :=
  .market cfg.wallet fixtureId marketType

/-- The specs of a compound market are never read; they only have to be well formed. -/
def filler (d : Definition) : OutcomeSpec :=
  ⟨d.leg.key, d.leg.period, false, 0, 0, none, .equalTo, 0⟩

def marketParams (fixtureId : Int64) (d : Definition) (lockTime : Int64) : MarketParams :=
  ⟨fixtureId, d.type, d.outcomes.map fun _ => filler d, cfg.feeBps, lockTime,
    cfg.resolutionTimeoutSec, cfg.feeTreasury.getD cfg.wallet⟩

/-- A spec that could not be read counts as missing. -/
def fetchComboSpec (market : Pubkey) : Keeper D (Option ComboSpec) :=
  .rescue (read (machine O) fun w => (w.book? market).bind (·.comboSpec)) fun _ => pure none

def ensureComboSpec (market : Pubkey) (d : Definition) : Keeper D Unit := do
  let found ← fetchComboSpec O market
  if found.isSome then pure ()
  else send (machine O) [.initializeComboSpec ⟨cfg.wallet, market⟩ d.legs d.outcomes]

def initializeComboMarket (fixtureId : Int64) (d : Definition) (lockTime : Int64) :
    Keeper D Unit := do
  send (machine O)
    [.initializeMarket ⟨cfg.wallet, cfg.usdcMint⟩ (marketParams cfg fixtureId d lockTime)]
  ensureComboSpec O cfg (cfg.marketPdaFor fixtureId d.type) d

/-! ## Stakes -/

structure Stake where
  bettor : Pubkey
  outcome : ℕ
  amount : ℕ
deriving DecidableEq

def stakesOf (bettors : List Pubkey) (amounts : List ℕ) : List Stake :=
  (bettors.zip amounts).zipIdx.map fun s => ⟨s.1.1, s.2, s.1.2⟩

/-- In threes; more bets do not fit in a transaction. -/
def batches {α : Type} : List α → List (List α)
  | a :: b :: c :: as => [a, b, c] :: batches as
  | [] => []
  | as => [as]

def placeBet (market : Pubkey) (m : Market D) (s : Stake) : Instruction D :=
  .placeBet ⟨s.bettor, market, cfg.tokenAccount m.usdcMint s.bettor, m.vault⟩ s.outcome s.amount

def placeBetsAtomic (bettors : List Pubkey) (market : Pubkey) (amounts : List ℕ) :
    Keeper D Unit := do
  let found ← read (machine O) fun w => w.book? market
  match found with
  | none => .throw (.refused (.anchor .accountNotInitialized))
  | some b =>
      .forEach (fun batch => send (machine O) (batch.map (placeBet cfg market b.market)))
        (batches (stakesOf bettors amounts))

/-- In millionths of a token. -/
def stakeAmounts (n : ℕ) : List ℕ :=
  (List.range n).map fun i => (25 + i * 37 % 60) * 1000000

def stakeAll (market : Pubkey) (d : Definition) : Keeper D Unit :=
  placeBetsAtomic O cfg (cfg.bettors.take d.outcomes.length) market
    (stakeAmounts d.outcomes.length)

/-! ## A pass -/

/-- Only a failure that may pass is tried again. The text of the error decides, and a
refusal whose text looks transient is `unanswered` here. -/
def withRetry (x : Keeper D Unit) : ℕ → Keeper D Unit
  | 0 => .throw (.unanswered true)
  | n + 1 => .rescue x fun
      | .unanswered true => withRetry x n
      | e => .throw e

/-- One market of a pass; `solvent` says that the wallet has the fees. -/
structure Visit where
  fixtureId : Int64
  definition : Definition
  now : Int64
  solvent : Bool

def Visit.market (v : Visit) : Pubkey := cfg.marketPdaFor v.fixtureId v.definition.type

def create (v : Visit) : Keeper D Unit := do
  withRetry (initializeComboMarket O cfg v.fixtureId v.definition (v.now + cfg.lockDelaySec)) 6
  stakeAll O cfg (v.market cfg) v.definition

/-- A market that exists is left as it is, but for outcomes without stake. -/
def restake (v : Visit) (b : Book D) : Keeper D Unit :=
  if b.market.status = .opened ∧ (∃ o ∈ b.market.outcomes, o.pool = 0) ∧
      v.now < b.market.lockTime then
    stakeAll O cfg (v.market cfg) v.definition
  else pure ()

/-- Failures are logged, and the pass goes on with the next market. -/
def visit (v : Visit) : Keeper D Unit :=
  .rescue (do
    let existing ← read (machine O) fun w => w.book? (v.market cfg)
    match existing with
    | some b => restake O cfg v b
    | none => if v.solvent then create O cfg v else pure ()) fun _ => pure ()

def createPass (visits : List Visit) : Keeper D Unit := .forEach (visit O cfg) visits

/-! ## A market without a rule -/

variable {O cfg} {w w' : World D} {k : Pubkey} {i : Instruction D} {b b' : Book D}

/-- The operation is not the one that attaches a rule to the market. -/
def NoRule (k : Pubkey) (i : Instruction D) : Prop :=
  ∀ ctx legs outcomes, i = .initializeComboSpec ctx legs outcomes → ctx.market ≠ k

/-- A compound market that nobody gave a rule, and that is not settled. -/
structure Unruled (k : Pubkey) (w : World D) : Prop where
  wellFormed : WellFormed w
  book : ∃ b, w.book? k = some b ∧ comboMarketTypeMin ≤ b.market.marketType ∧
    b.comboSpec = none ∧ b.market.status ≠ .settled

theorem Unruled.step (h : Unruled k w) (hi : NoRule k i) (hs : step O w i = .ok w') :
    Unruled k w' := by
  obtain ⟨b, hb, hcompound, hspec, hst⟩ := h.book
  obtain ⟨b', x, y, hb', hstep, -⟩ := step_book h.wellFormed hs hb
  refine ⟨WellFormed.step h.wellFormed hs, b', hb', ?_, ?_, ?_⟩
  · rw [hstep.sameTerms.marketType]
    exact hcompound
  · cases hstep with
    | attach hk _ => exact absurd hk (hi _ _ _ rfl)
    | _ => exact hspec
  · cases hstep with
    | settle _ _ hv _ =>
        cases hv with
        | v2 _ hsimple _ => omega
        | v3 _ _ hsome _ =>
            rw [hspec] at hsome
            cases hsome
    | lock => exact MarketStatus.noConfusion
    | cancel => exact MarketStatus.noConfusion
    | _ => exact hst

theorem Unruled.did {net net' : Net (World D) (Instruction D)} (h : Unruled k net.state)
    (hdid : Did (machine O) (NoRule k) net net') : Unruled k net'.state :=
  hdid.preserves h fun _ _ _ hi hs => hs.step hi

/-- What a visit may send. -/
inductive Sends (cfg : Config) (v : Visit) : Instruction D → Prop
  | market (p : MarketParams) : Sends cfg v (.initializeMarket ⟨cfg.wallet, cfg.usdcMint⟩ p)
  | rule (legs : List StatLeg) (outcomes : List ComboOutcome) :
      Sends cfg v (.initializeComboSpec ⟨cfg.wallet, v.market cfg⟩ legs outcomes)
  | bet (ctx : PlaceBet) (outcomeIndex amount : ℕ) : Sends cfg v (.placeBet ctx outcomeIndex amount)

omit [Inhabited D] in
theorem Sends.noRule {v : Visit} (h : Sends cfg v i) (hv : v.market cfg ≠ k) : NoRule k i := by
  rintro _ _ _ rfl
  cases h
  exact hv

variable {C : Instruction D → Prop}

theorem placeBetsAtomic_performs {bettors : List Pubkey} {market : Pubkey} {amounts : List ℕ}
    (h : ∀ ctx oi a, C (.placeBet ctx oi a)) :
    Performs (machine O) C (placeBetsAtomic O cfg bettors market amounts) := by
  refine .bind .read fun found => ?_
  cases found with
  | none => exact .throw _
  | some b =>
      refine .forEach fun batch _ => .send fun i hi => ?_
      obtain ⟨s, -, rfl⟩ := List.mem_map.mp hi
      exact h _ _ _

theorem withRetry_performs {x : Keeper D Unit} (h : Performs (machine O) C x) (n : ℕ) :
    Performs (machine O) C (withRetry x n) := by
  induction n with
  | zero => exact .throw _
  | succ n ih =>
      refine .rescue h fun e => ?_
      split
      · exact ih
      · exact .throw _

theorem initializeComboMarket_performs {v : Visit} {lockTime : Int64}
    (h : ∀ i, Sends cfg v i → C i) :
    Performs (machine O) C (initializeComboMarket O cfg v.fixtureId v.definition lockTime) := by
  refine .bind (.send ?_) fun _ => .bind (.rescue .read fun _ => .pure _) fun found => ?_
  · simp only [List.mem_singleton, forall_eq]
    exact h _ (.market _)
  · split_ifs
    · exact .pure _
    · refine .send ?_
      simp only [List.mem_singleton, forall_eq]
      exact h _ (.rule _ _)

theorem create_performs {v : Visit} (h : ∀ i, Sends cfg v i → C i) :
    Performs (machine O) C (create O cfg v) :=
  .bind (withRetry_performs (initializeComboMarket_performs h) 6) fun _ =>
    placeBetsAtomic_performs fun _ _ _ => h _ (.bet _ _ _)

theorem restake_performs {v : Visit} {b : Book D} (h : ∀ ctx oi a, C (.placeBet ctx oi a)) :
    Performs (machine O) C (restake O cfg v b) := by
  unfold restake
  split_ifs
  · exact placeBetsAtomic_performs h
  · exact .pure _

theorem createPass_performs {visits : List Visit}
    (h : ∀ v ∈ visits, ∀ i, Sends cfg v i → C i) :
    Performs (machine O) C (createPass O cfg visits) := by
  refine .forEach fun v hv => .rescue (.bind .read fun found => ?_) fun _ => .pure _
  cases found with
  | some b => exact restake_performs fun _ _ _ => h v hv _ (.bet _ _ _)
  | none =>
      simp only
      split_ifs
      · exact create_performs (h v hv)
      · exact .pure _

/-- A visit never attaches a rule to a market that exists. -/
theorem visit_did {net : Net (World D) (Instruction D)} (h : Unruled k net.state)
    (hnet : net.Only (NoRule k)) (v : Visit) :
    Did (machine O) (NoRule k) net (visit O cfg v net).2 := by
  refine Did.rescue (.bind (Performs.read net hnet) fun found net' hread => ?_)
    (fun _ => .pure _) hnet
  have hdid : Did (machine O) (NoRule k) net net' := by
    have := Performs.read (M := machine O) (f := fun w => w.book? (v.market cfg)) net hnet
    rwa [hread] at this
  have hnet' := hdid.only hnet
  cases found with
  | some b =>
      refine restake_performs (fun ctx oi a => ?_) net' hnet'
      rintro _ _ _ h
      cases h
  | none =>
      have hne : v.market cfg ≠ k := by
        rintro rfl
        obtain ⟨b, hb, -⟩ := (h.did hdid).book
        rw [← read_ok hread] at hb
        cases hb
      simp only
      split_ifs
      · exact create_performs (fun i hi => hi.noRule hne) net' hnet'
      · exact .refl net'

theorem createPass_did (visits : List Visit) : ∀ {net : Net (World D) (Instruction D)},
    Unruled k net.state → net.Only (NoRule k) →
      Did (machine O) (NoRule k) net (createPass O cfg visits net).2 := by
  induction visits with
  | nil => exact fun _ _ => .refl _
  | cons v visits ih =>
      intro net h hnet
      have hdid : Did (machine O) (NoRule k) net (visit O cfg v net).2 := visit_did h hnet v
      refine Did.bind hdid fun _ net' hres => ?_
      rw [hres] at hdid
      exact ih (h.did hdid) (hdid.only hnet)

/-- A compound market is only settled by its rule. -/
theorem settled_ruled (hw : Reachable O w) (hb : w.book? k = some b)
    (hcompound : comboMarketTypeMin ≤ b.market.marketType) (hspec : b.comboSpec = none) :
    b.market.status ≠ .settled := by
  refine (hw.invariant (P := fun w => WellFormed w ∧ ∀ k b, w.book? k = some b →
    comboMarketTypeMin ≤ b.market.marketType → b.comboSpec = none → b.market.status ≠ .settled)
    ?_ ?_).2 k b hb hcompound hspec
  · intro s h₀
    exact ⟨Genesis.wellFormed h₀, fun k b hb => by simp [World.book?, h₀.books] at hb⟩
  · rintro s i t ⟨hwf, h⟩ (hs : step O s i = .ok t)
    refine ⟨WellFormed.step hwf hs, fun k b hb hcompound hspec => ?_⟩
    cases hsb : s.book? k with
    | none =>
        obtain ⟨ctx, p, -, -, -, -, rfl, -⟩ := step_book_new hs hsb hb
        exact MarketStatus.noConfusion
    | some b₀ =>
        obtain ⟨b₁, x, y, hb₁, hstep, -⟩ := step_book hwf hs hsb
        obtain rfl := Option.some.inj (hb₁.symm.trans hb)
        have hno : NoRule k i := by
          rintro ctx legs outcomes rfl rfl
          cases hstep with
          | idle hm => exact hm rfl
          | attach _ _ => cases hspec
          | settle _ _ hv _ => cases hv
        have hspec₀ : b₀.comboSpec = none := by
          cases hstep with
          | attach _ _ => cases hspec
          | _ => exact hspec
        rw [hstep.sameTerms.marketType] at hcompound
        have hunruled : Unruled k s :=
          ⟨hwf, b₀, hsb, hcompound, hspec₀, h k b₀ hsb hcompound hspec₀⟩
        obtain ⟨b₂, hb₂, -, -, hst⟩ := (hunruled.step hno hs).book
        obtain rfl := Option.some.inj (hb₂.symm.trans hb)
        exact hst

/-- One unhindered call of `ensureComboSpec` gives the rule to an open market. -/
theorem ensureComboSpec_repairs {d : Definition} (h : Unruled k w) (hb : w.book? k = some b)
    (hopen : b.market.status = .opened) (hauthority : b.market.authority = cfg.wallet)
    (hvalid : (ComboSpec.mk k d.legs d.outcomes).validate b.market.numOutcomes = .ok .unit) :
    ∃ b', (ensureComboSpec O cfg k d ⟨w, [⟨[], .answered⟩, ⟨[], .answered⟩]⟩).2.state.book? k =
      some b' ∧ b'.comboSpec = some ⟨k, d.legs, d.outcomes⟩ := by
  obtain ⟨b₀, hb₀, hcompound, hspec, -⟩ := h.book
  obtain rfl := Option.some.inj (hb₀.symm.trans hb)
  have hsigner := (h.wellFormed.books k b₀ hb).authority
  rw [hauthority] at hsigner
  have checks : AttachChecks w ⟨cfg.wallet, k⟩ ⟨k, d.legs, d.outcomes⟩ b₀ :=
    ⟨hsigner, hb, hspec, hauthority, hcompound, hopen, hvalid⟩
  obtain ⟨w', hs⟩ := initializeComboSpec_succeeds checks
  have hfetch : fetchComboSpec O k ⟨w, [⟨[], .answered⟩, ⟨[], .answered⟩]⟩ =
      (.ok none, ⟨w, [⟨[], .answered⟩]⟩) := by
    simp [fetchComboSpec, Script.rescue, Scripts.read, look, hb, hspec]
  have hcommit : commit (machine O) w [.initializeComboSpec ⟨cfg.wallet, k⟩ d.legs d.outcomes] =
      .ok w' := by
    have hstep : (machine O).step w (.initializeComboSpec ⟨cfg.wallet, k⟩ d.legs d.outcomes) =
      .ok w' := hs
    simp only [commit, hstep]
  obtain ⟨b₁, es, checks₁, rfl⟩ := initializeComboSpec_ok hs
  rw [ensureComboSpec, bind_ok hfetch]
  simp only [Option.isSome_none, Bool.false_eq_true, if_false, Scripts.send, land,
    Machine.run_nil, hcommit]
  exact ⟨_, World.setBook_book?_self, rfl⟩

/-- Once betting is closed the rule can no longer be attached. -/
theorem Unruled.stranded (h : Unruled k w)
    (hclosed : ∀ b, w.book? k = some b → b.market.status ≠ .opened) (is : List (Instruction D)) :
    Unruled k ((machine O).run w is) := by
  refine ((machine O).run_preserves (P := fun w => Unruled k w ∧ ∀ b, w.book? k = some b →
    b.market.status ≠ .opened) ?_ ⟨h, hclosed⟩ is).1
  rintro s i t ⟨hs, hclosed⟩ (hstep : Program.step O s i = .ok t)
  obtain ⟨b, hb, -⟩ := hs.book
  obtain ⟨b', x, y, hb', hbook, -⟩ := step_book hs.wellFormed hstep hb
  have hne := hclosed b hb
  have hno : NoRule k i := by
    rintro ctx legs outcomes rfl hk
    obtain ⟨b₀, -, checks, -⟩ := initializeComboSpec_ok hstep
    have hb₀ := checks.book
    rw [hk, hb] at hb₀
    obtain rfl := Option.some.inj hb₀
    exact hne checks.status
  refine ⟨hs.step hno hstep, fun b₁ hb₁ => ?_⟩
  obtain rfl := Option.some.inj (hb'.symm.trans hb₁)
  cases hbook with
  | bet _ checks => exact absurd checks.status hne
  | attach _ checks => exact absurd checks.status hne
  | lock | cancel => exact MarketStatus.noConfusion
  | settle _ _ _ recorded =>
      rcases recorded.result with ⟨-, h, -⟩ | ⟨-, h, -⟩
      · exact h ▸ MarketStatus.noConfusion
      · exact h ▸ MarketStatus.noConfusion
  | _ => exact hne

/-- A compound market left without its rule is never given one by a pass, although one
answered `ensureComboSpec` would, and once it is locked nothing settles it. -/
theorem passes_never_repair {net final : Net (World D) (Instruction D)} {visits : List Visit}
    {r : Except (Fault Failure) Unit} (hw : Reachable O net.state)
    (hb : net.state.book? k = some b) (hcompound : comboMarketTypeMin ≤ b.market.marketType)
    (hspec : b.comboSpec = none) (hnet : net.Only (NoRule k))
    (hpass : createPass O cfg visits net = (r, final)) :
    ∃ b', final.state.book? k = some b' ∧ b'.comboSpec = none ∧ b'.market.status ≠ .settled ∧
      (b'.market.status = .opened → ∀ v : Visit, v.market cfg = k →
        (ComboSpec.mk k v.definition.legs v.definition.outcomes).validate b'.market.numOutcomes =
          .ok .unit →
        ∃ b'', (ensureComboSpec O cfg k v.definition
            ⟨final.state, [⟨[], .answered⟩, ⟨[], .answered⟩]⟩).2.state.book? k = some b'' ∧
          b''.comboSpec = some ⟨k, v.definition.legs, v.definition.outcomes⟩) ∧
      (b'.market.status ≠ .opened → ∀ is : List (Instruction D), ∃ b'',
        ((machine O).run final.state is).book? k = some b'' ∧
          b''.comboSpec = none ∧ b''.market.status ≠ .settled) := by
  have hunruled : Unruled k net.state :=
    ⟨reachable_wellFormed hw, b, hb, hcompound, hspec, settled_ruled hw hb hcompound hspec⟩
  have hafter : Unruled k final.state := by
    have hdid : Did (machine O) (NoRule k) net (createPass O cfg visits net).2 :=
      createPass_did visits hunruled hnet
    rw [hpass] at hdid
    exact hunruled.did hdid
  obtain ⟨b', hb', -, hspec', hst⟩ := hafter.book
  refine ⟨b', hb', hspec', hst, fun hopen v hv hvalid => ?_, fun hclosed is => ?_⟩
  · have hkey := (hafter.wellFormed.books k b' hb').key
    rw [← hv] at hkey
    have hauthority : b'.market.authority = cfg.wallet := by
      injection hkey with h _ _
      exact h.symm
    exact ensureComboSpec_repairs hafter hb' hopen hauthority hvalid
  · have hclosed' : ∀ b, final.state.book? k = some b → b.market.status ≠ .opened := by
      intro b₁ hb₁
      obtain rfl := Option.some.inj (hb'.symm.trans hb₁)
      exact hclosed
    obtain ⟨b'', hb'', -, hspec'', hst''⟩ := (hafter.stranded hclosed' is).book
    exact ⟨b'', hb'', hspec'', hst''⟩

/-! ## A reply is lost -/

theorem createPass_reachable {net : Net (World D) (Instruction D)} (hw : Reachable O net.state)
    (visits : List Visit) : Reachable O (createPass O cfg visits net).2.state :=
  ((createPass_performs fun _ _ _ _ => trivial).did net).reachable hw

/-- Whether the match goes beyond two goals. -/
def goalsDefinition : Definition :=
  ⟨16, ⟨1, 100⟩, [⟨2, 100⟩],
    [⟨[.binary 0 1 .add .greaterThan 2]⟩, ⟨[.binary 0 1 .add .lessThan 3]⟩]⟩

/-- Token accounts are numbered as the wallets less ten. -/
def sampleConfig : Config where
  wallet := .key 20
  usdcMint := .key 1
  feeTreasury := some (.key 21)
  feeBps := 500
  resolutionTimeoutSec := 50
  lockDelaySec := 100
  bettors := [.key 12, .key 13]
  tokenAccount _ owner :=
    match owner with
    | .key n => .key (n - 10)
    | _ => .default

def sampleVisit : Visit := ⟨7, goalsDefinition, 0, true⟩

def fundBettors {D : Type} : List (Instruction D) :=
  fundWallets ++ [.splMintTo (.key 1) (.key 2) 100000000, .splMintTo (.key 1) (.key 3) 100000000]

/-- The market is created, but its creator is not told; it tries again and is refused. -/
def lostReply : List (Beat (Instruction Unit)) :=
  [⟨fundBettors, .answered⟩, ⟨[], .lost true⟩, ⟨[], .answered⟩]

def strandedNet : Net (World Unit) (Instruction Unit) :=
  ⟨(createPass acceptingOracle sampleConfig [sampleVisit] ⟨emptyWorld Unit, lostReply⟩).2.state,
    [⟨[], .answered⟩, ⟨[], .answered⟩, ⟨[], .answered⟩]⟩

theorem strandedNet_reachable : Reachable acceptingOracle strandedNet.state :=
  createPass_reachable (.init emptyWorld_genesis) _

theorem strandedNet_book : (strandedNet.state.book? (sampleVisit.market sampleConfig)).map
    (fun b => (b.market.marketType, b.comboSpec)) = some (16, none) := by
  decide +kernel

/-- The next pass stakes the market and goes on without a word. -/
theorem passes_never_repair_sample :
    ∃ b, (createPass acceptingOracle sampleConfig [sampleVisit] strandedNet).2.state.book?
        (sampleVisit.market sampleConfig) = some b ∧ b.comboSpec = none ∧
      b.market.outcomes.map (·.pool) = [25000000, 62000000] := by
  obtain ⟨b₀, hb₀, h₀⟩ := Option.map_eq_some_iff.mp strandedNet_book
  obtain ⟨htype, hspec⟩ := Prod.mk.inj h₀
  have hnet : strandedNet.Only (NoRule (sampleVisit.market sampleConfig)) := by
    simp [strandedNet, Net.Only]
  have hpools : ((createPass acceptingOracle sampleConfig [sampleVisit] strandedNet).2.state.book?
      (sampleVisit.market sampleConfig)).map (fun b => b.market.outcomes.map (·.pool)) =
      some [25000000, 62000000] := by
    decide +kernel
  cases hpass : createPass acceptingOracle sampleConfig [sampleVisit] strandedNet with
  | mk r final =>
      obtain ⟨b, hb, hb', -⟩ := passes_never_repair strandedNet_reachable hb₀
        (by rw [htype]; decide) hspec hnet hpass
      rw [hpass, hb] at hpools
      exact ⟨b, hb, hb', Option.some.inj hpools⟩

end ProofBook.Seeding
