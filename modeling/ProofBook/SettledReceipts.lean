import ProofBook.SettlerSteps
import ProofBook.ComboRule

/-!
# A receipt means settled

The settler records what it reads back, so its receipts are of settled markets in any
run. The catalogue settler announces what it claimed. A settlement that lands on an
outcome without stake cancels the market, and the walk looks at the stakes only of a
market it reads while open; in a run where no settlement of a walk lands so, a receipt
means settled.
-/
namespace ProofBook.SettledReceipts
open Addresses DbSync Store Catalogue Transactions Settlers
open OracleWire (OracleProgram)
open Program (Instruction)
open MarketRuns ComboRule

variable {D : Type} {cfg : Config D} {s t : State D} {n n' : Node D} {pda : Pubkey}
  {a : Attempt D} {r : Reply D} {i : ℕ} {v : Walk D}

/-! ## The property -/

/-- The market is settled, for this outcome. -/
def Backed (n : Node D) (k : Pubkey) (outcome : ℕ) : Prop :=
  ∃ b, n.world.book? k = some b ∧ b.market.status = .settled ∧ b.market.winningOutcome = outcome

/-- Receipts are of settled markets and name their winners, and what counts as settled is. -/
structure ReceiptsMeanSettled (s : State D) : Prop where
  announced : ∀ r ∈ s.announced, Backed s.node r.marketPda r.winningOutcome
  counted : ∀ k ∈ s.counted, ∃ outcome, Backed s.node k outcome

/-- The stake on the outcome that a walk is about to settle its market for. -/
def claimedStake (cfg : Config D) (s : State D) (i : ℕ) : Option ℕ := do
  let v ← s.walks i
  let b ← s.node.world.book? (v.pda cfg)
  match v.stop with
  | .settle _ claimed _ => some (b.market.pool claimed)
  | _ => none

/-- No settlement of a walk lands for an outcome without stake. -/
def Staked (cfg : Config D) (s : State D) : Op D → Prop
  | .answer (.walk i) (.served _) => claimedStake cfg s i ≠ some 0
  | _ => True

instance (s : State D) (op : Op D) : Decidable (Staked cfg s op) := by
  unfold Staked
  split <;> infer_instance

/-! ## What is kept -/

theorem Backed.later {k : Pubkey} {outcome : ℕ} (h : Backed n k outcome) (hl : n.Later n') :
    Backed n' k outcome := by
  obtain ⟨b, hb, hs, hw⟩ := h
  obtain ⟨b', hb', hs', hw', -⟩ := hl.onward.settled hb hs
  exact ⟨b', hb', hs', hw'.trans hw⟩

/-- An account that was read as settled. -/
theorem Past.backed {k : Pubkey} {m : State.Market D} (h : Past n k m) (hs : m.status = .settled) :
    Backed n k m.winningOutcome := by
  obtain ⟨b, hb, -, hresult⟩ := h
  have hm := hresult (by rw [hs]; rfl)
  exact ⟨b, hb, hm.status.trans hs, hm.winningOutcome⟩

/-- A walk whose settlement was confirmed has settled its market. -/
structure WalkSettled (cfg : Config D) (n : Node D) (v : Walk D) : Prop where
  sent : ∀ k claimed b settleTx, v.stop = .settle k claimed b → v.reply = some (.sent settleTx) →
    Backed n (v.pda cfg) claimed
  refetch : ∀ k claimed b settleTx, v.stop = .refetch k claimed b settleTx →
    Backed n (v.pda cfg) claimed

structure Inv (cfg : Config D) (s : State D) : Prop extends ReceiptsMeanSettled s where
  walks : ∀ i, ∀ v ∈ s.walks i, WalkSettled cfg s.node v

theorem WalkSettled.later (h : WalkSettled cfg n v) (hl : n.Later n') : WalkSettled cfg n' v where
  sent k claimed b settleTx hstop hreply := (h.sent k claimed b settleTx hstop hreply).later hl
  refetch k claimed b settleTx hstop := (h.refetch k claimed b settleTx hstop).later hl

theorem WalkSettled.follows (h : WalkSettled cfg n v) (hr : v.reply = some r) {x : Walk D}
    (hx : v.Follows cfg r x) : WalkSettled cfg n x where
  sent k claimed b settleTx _ hreply := by rw [hx.reply] at hreply; cases hreply
  refetch k claimed b settleTx hstop := by
    obtain ⟨hpda, hsettle, rfl⟩ := hx.refetch k claimed b settleTx hstop
    exact hpda ▸ h.sent k claimed b settleTx hsettle hr

theorem walkOn_settled {inFlight : Pubkey → Bool} {fixtureId : Int64} {seq : ℤ}
    {rest : List MarketTypeDef} :
    ∀ x ∈ walkOn cfg inFlight fixtureId seq rest, WalkSettled cfg n x := by
  intro x hx
  obtain ⟨hstop, -⟩ := walkOn_read hx
  exact ⟨fun _ _ _ _ hs => (by rw [hstop] at hs; cases hs),
    fun _ _ _ _ hs => (by rw [hstop] at hs; cases hs)⟩

theorem Inv.later (h : Inv cfg s) (hl : s.node.Later n') : Inv cfg { s with node := n' } where
  announced r hr := (h.announced r hr).later hl
  counted k hk := by
    obtain ⟨outcome, hb⟩ := h.counted k hk
    exact ⟨outcome, hb.later hl⟩
  walks i v hv := (h.walks i v hv).later hl

theorem Inv.congr (h : Inv cfg s) (hnode : t.node = s.node) (hwalks : t.walks = s.walks)
    (hannounced : t.announced = s.announced) (hcounted : t.counted = s.counted) : Inv cfg t where
  announced := by rw [hnode, hannounced]; exact h.announced
  counted := by rw [hnode, hcounted]; exact h.counted
  walks := by rw [hnode, hwalks]; exact h.walks

theorem Inv.setWalk (h : Inv cfg s) {x : Option (Walk D)}
    (hx : ∀ v ∈ x, WalkSettled cfg s.node v) : Inv cfg (s.setWalk i x) where
  toReceiptsMeanSettled := ⟨h.announced, h.counted⟩
  walks j v hv := by
    by_cases hj : j = i
    · subst hj
      exact hx v (by simpa [State.setWalk] using hv)
    · exact h.walks j v (by simpa [State.setWalk, hj] using hv)

theorem Inv.count (h : Inv cfg s) {outcome : ℕ} (hb : Backed s.node pda outcome) :
    Inv cfg (s.count pda) where
  announced := h.announced
  counted k hk := by
    rcases List.mem_cons.mp hk with rfl | hk
    · exact ⟨outcome, hb⟩
    · exact h.counted k hk
  walks := h.walks

theorem Inv.emit (h : Inv cfg s) {r : ProofReceipt}
    (hb : Backed s.node r.marketPda r.winningOutcome) : Inv cfg (s.emit r) where
  announced x hx := by
    rcases List.mem_cons.mp hx with rfl | hx
    · exact hb
    · exact h.announced x hx
  counted := h.counted
  walks := h.walks

/-! ## The settler -/

/-- What an attempt records was read. -/
theorem evidence_past (h : AttemptSound n pda a) (hr : a.reply = some r) {m : State.Market D}
    {settleTx : String} {proven : Option ProvenStat}
    (he : evidence a r = some (m, settleTx, proven)) : Past n pda m := by
  unfold evidence at he
  split at he <;> cases he
  next => exact h.read _ hr
  next hstop => exact h.recordProof _ hstop
  next hstop => exact h.recordProof _ hstop
  next => exact h.read _ hr

theorem Inv.attemptStep (h : Inv cfg s) (hsound : Sound cfg s) (ha : s.attempts pda = some a)
    (hr : a.reply = some r) (hstep : AttemptStep cfg s pda a r t) : Inv cfg t := by
  cases hstep with
  | on | waits => exact h.congr rfl rfl rfl rfl
  | @records m settleTx proven found =>
      have hpast := evidence_past (hsound.attempts pda a ha) hr found
      have hrecord : RecordStep cfg s pda m settleTx proven (record cfg s pda m settleTx proven) :=
        record_step m settleTx proven
      generalize record cfg s pda m settleTx proven = u at hrecord ⊢
      refine Inv.congr (s := u) ?_ rfl rfl rfl rfl
      cases hrecord with
      | untracked => exact h
      | settled _ status =>
          have hb := Past.backed hpast status
          obtain ⟨-, -, hpda, -⟩ := hpast
          have hreceipt : Backed s.node (marketPda m) m.winningOutcome := by rwa [hpda]
          exact
            ((h.emit (r := resolutionReceipt cfg.hex m settleTx proven) hreceipt).count hb).congr
            rfl rfl rfl rfl
      | cancelled => exact h.congr rfl rfl rfl rfl

/-! ## The catalogue settler -/

/-- The address that the receipt names is the one that was read. -/
theorem marketPdaFor_read {m : State.Market D} (h : Past n (v.pda cfg) m) :
    cfg.marketPdaFor m.fixtureId v.market.type = v.pda cfg := by
  obtain ⟨-, -, hpda, -⟩ := h
  have hfixture : m.fixtureId = v.fixtureId := (Pubkey.market.inj hpda).2.1
  rw [hfixture]
  rfl

theorem Inv.walkStep (h : Inv cfg s) (hsound : Sound cfg s) (hv : s.walks i = some v)
    (hr : v.reply = some r) (hstep : WalkStep cfg s i v r t) : Inv cfg t := by
  have hsettled := h.walks i v hv
  have hwalk := hsound.walks i v hv
  cases hstep with
  | on follows =>
      exact (h.setWalk fun x hx => hsettled.follows hr (follows x hx)).congr rfl rfl rfl rfl
  | @finds m inFlight v' follows found settled =>
      have hb := Past.backed (hwalk.read m (hr.trans (congrArg some found))) settled
      exact ((h.setWalk fun x hx => hsettled.follows hr (follows x hx)).count hb).congr
        rfl rfl rfl rfl
  | @announces k claimed b settleTx m inFlight v' follows stop found =>
      have hb := hsettled.refetch k claimed b settleTx stop
      have hpda := marketPdaFor_read (hwalk.read m (hr.trans (congrArg some found)))
      have hreceipt : Backed s.node (cfg.marketPdaFor m.fixtureId v.market.type) claimed := by
        rwa [hpda]
      exact (((h.setWalk fun x hx => hsettled.follows hr (follows x hx)).emit
        (r := catalogueReceipt cfg m v.market claimed b settleTx) hreceipt).count hb).congr
        rfl rfl rfl rfl
  | waits => exact h

theorem Inv.launch (h : Inv cfg s) (fixtureId : Int64) (seq : ℤ) :
    Inv cfg (launch cfg s fixtureId seq) := by
  unfold Settlers.launch
  split_ifs
  · exact (h.setWalk walkOn_settled).congr rfl rfl rfl rfl
  · exact h

theorem Inv.wakeWalk (h : Inv cfg s) (k : ℕ) : Inv cfg (tryAttempt cfg s i v k) := by
  unfold tryAttempt
  split_ifs
  · refine h.setWalk fun x hx => ?_
    cases hx
    exact ⟨fun _ _ _ _ hm => (by cases hm), fun _ _ _ _ hm => (by cases hm)⟩
  · have hfree : Inv cfg (s.setInFlight (v.pda cfg) false) := h.congr rfl rfl rfl rfl
    exact hfree.setWalk walkOn_settled

/-! ## Runs -/

variable [Inhabited D] {O : OracleProgram D}

/-- A settlement that lands for an outcome with stake settles its market. -/
theorem WalkSettled.replied {c : Call D} (h : WalkSettled cfg n' v)
    (hc : walkCall cfg (v.pda cfg) v.stop = some c) (hserve : Served O n c n' r)
    (hstake : ∀ k claimed b, v.stop = .settle k claimed b → (∃ settleTx, r = .sent settleTx) →
      ∀ book ∈ n.world.book? (v.pda cfg), book.market.pool claimed ≠ 0) :
    WalkSettled cfg n' { v with reply := some r } where
  sent k claimed b settleTx hstop hreply := by
    have hsettle : v.stop = .settle k claimed b := hstop
    have hr : r = .sent settleTx := Option.some.inj hreply
    rw [hsettle] at hc
    cases hc
    cases hserve with
    | lands hland =>
        obtain ⟨⟨b', hb', -, hw, -⟩, b₀, b₁, hb₀, hb₁, hpool⟩ := Node.land_settle rfl hland
        obtain rfl := Option.some.inj (hb₁.symm.trans hb')
        exact ⟨b₁, hb', hpool (hstake k claimed b hsettle ⟨settleTx, hr⟩ b₀ hb₀), hw⟩
    | other _ hs => exact absurd hr (hs settleTx)
  refetch := h.refetch

theorem Inv.step {op : Op D} (h : Inv cfg s) (hsound : Sound cfg s) (hstaked : Staked cfg s op)
    (hstep : Step O cfg s op t) : Inv cfg t := by
  have hl := (hstep.later hsound.node).2
  cases hstep with
  | transact => exact h.later hl
  | finalised begins =>
      refine Inv.launch ?_ _ _
      cases begins with
      | none | begins => exact h.congr rfl rfl rfl rfl
  | attemptDue begins =>
      cases begins with
      | none | begins => exact h.congr rfl rfl rfl rfl
  | wakeWalk => exact h.wakeWalk _
  | @answer who answer c node r awaits serve =>
      rw [reply_node] at hl
      have hlater := h.later hl
      cases who with
      | attempt pda => exact hlater.congr rfl rfl rfl rfl
      | walk i =>
          simp only [awaited, Option.bind_eq_bind, Option.bind_eq_some_iff,
            Option.ite_none_right_eq_some] at awaits
          obtain ⟨v, hv, -, hc⟩ := awaits
          refine hlater.setWalk fun x hx => ?_
          rw [hv] at hx
          cases hx
          refine (hlater.walks i v hv).replied hc (serve_served serve) ?_
          rintro k claimed b hstop ⟨settleTx, rfl⟩ book hbook hzero
          obtain rfl := serve_sent serve
          have hwalk : s.walks i = some v := hv
          have hbook : s.node.world.book? (v.pda cfg) = some book := hbook
          exact hstaked (by simp [claimedStake, hwalk, hbook, hstop, hzero])
  | resumeAttempt running returned step => exact h.attemptStep hsound running returned step
  | resumeWalk running returned step => exact h.walkStep hsound running returned step
  | advanceSync =>
      obtain ⟨hnode, -, hwalks, hannounced, hcounted⟩ := advanceSync_frame (s := s) cfg.hex _
      exact h.congr hnode hwalks hannounced hcounted
  | restart => exact ⟨⟨h.announced, h.counted⟩, fun _ _ hv => by cases hv⟩
  | _ => exact h.congr rfl rfl rfl rfl

omit [Inhabited D] in
theorem start_sound (h : Start s) : Sound cfg s where
  node := ⟨StepCases.Genesis.wellFormed h.genesis, fun x hx => by
    rw [h.settlements] at hx
    cases hx⟩
  attempts pda a ha := by rw [h.attempts] at ha; cases ha
  walks i v hv := by rw [h.walks] at hv; cases hv

omit [Inhabited D] in
theorem start_inv (h : Start s) : Inv cfg s where
  announced r hr := by rw [h.announced] at hr; cases hr
  counted k hk := by rw [h.counted] at hk; cases hk
  walks i v hv := by rw [h.walks] at hv; cases hv

/-- In a run where no settlement of a walk lands for an outcome without stake, every
receipt is of a market settled for the winner it names. -/
theorem receipts_mean_settled {s₀ : State D} (h₀ : Start s₀) (ops : List (Op D))
    (hstaked : (machine O cfg).Along (Staked cfg) s₀ ops) :
    ReceiptsMeanSettled ((machine O cfg).run s₀ ops) := by
  have hstep (s : State D) (op : Op D) (t : State D) (h : Sound cfg s ∧ Inv cfg s)
      (hc : Staked cfg s op) (hs : (machine O cfg).step s op = .ok t) :
      Sound cfg t ∧ Inv cfg t := by
    have hstep := next_step (machine_step.mp hs)
    exact ⟨h.1.step hstep, h.2.step h.1 hc hstep⟩
  have h := hstaked.preserves hstep ⟨start_sound h₀, start_inv h₀⟩
  exact h.2.toReceiptsMeanSettled

/-! ## A market that cancels -/

/-- A compound market on more or fewer than two goals of the home side. -/
def goalsMarket : MarketTypeDef where
  type := 16
  slug := "home-goals"
  name := "Home goals"
  blurb := ""
  legs := [⟨1, .int 100⟩]
  outcomes := [⟨"Over 2", [.single 0 .greaterThan (.int 2)]⟩,
    ⟨"Under 2", [.single 0 .lessThan (.int 2)]⟩]
  parlay := false

def goalsConfig : Config Unit where
  marketType := 3
  settleMaxAttempts := 6
  wallet := .key 20
  oracleProgramId := .key 9
  catalogue := [goalsMarket]
  client := true
  teamCode _ := none
  hex _ := ""

def emptyState : State Unit where
  node := ⟨emptyWorld Unit, [], []⟩
  store := .booted .empty
  attempts _ := none
  walks _ := none
  launched := 0
  inFlight _ := false
  sync := none
  announced := []
  counted := []

theorem emptyState_start : Start emptyState where
  genesis := emptyWorld_genesis
  history := rfl
  settlements := rfl
  store := rfl
  attempts _ := rfl
  walks _ := rfl
  sync := rfl
  announced := rfl
  counted := rfl

/-- The answer of the proof service for this many goals of the home side. -/
def goalsProof (goals : Int32) : StatValidationV3 Unit :=
  ⟨[⟨1, goals, 100⟩], ⟨7, ⟨0, 0, 0⟩, ()⟩, [], [], (), [], [0]⟩

/-- Only the first outcome is staked. Somebody locks the market, the fixture finalises,
and the walk settles. -/
def goalsRun (goals : Int32) : List (Op Unit) :=
  let served (signature : String) : List (Op Unit) :=
    [.answer (.walk 0) (.served signature), .resume (.walk 0) 0]
  [.transact "bets" [] (fundWallets ++
      [.initializeMarket sampleContext comboParams, comboSpecOf 2, comboBet]),
    .transact "lock" [] [.setClock 100, .lockMarket ⟨comboMarket, .key 12⟩],
    .finalised 7 1] ++ served "" ++ served "" ++
    [.answer (.walk 0) (.validation (goalsProof goals)), .resume (.walk 0) 0] ++
    served "settle" ++ served ""

def goalsWorld (goals : Int32) : State Unit :=
  (machine acceptingOracle goalsConfig).run emptyState (goalsRun goals)

theorem receipts_mean_settled_over :
    (goalsWorld 3).announced.map (fun r => (r.marketPda, r.winningOutcome)) =
        [(comboMarket, 0)] ∧ ReceiptsMeanSettled (goalsWorld 3) :=
  ⟨by decide +kernel, receipts_mean_settled emptyState_start (goalsRun 3) (by decide +kernel)⟩

theorem goalsWorld_cancels :
    (goalsWorld 1).announced.map (fun r => (r.marketPda, r.winningOutcome)) =
        [(comboMarket, 1)] ∧
      ((goalsWorld 1).node.world.book? comboMarket).map (·.market.status) = some .cancelled := by
  decide +kernel

/-- One goal proves the outcome nobody backed: the market cancels, and its receipt says
that this outcome won. -/
theorem receipt_of_cancelled : ¬ ReceiptsMeanSettled (goalsWorld 1) := by
  intro h
  obtain ⟨hannounced, hstatus⟩ := goalsWorld_cancels
  have hmem : (comboMarket, 1) ∈
      (goalsWorld 1).announced.map fun r => (r.marketPda, r.winningOutcome) := by
    rw [hannounced]
    exact List.mem_singleton.mpr rfl
  obtain ⟨r, hr, hpair⟩ := List.mem_map.mp hmem
  obtain ⟨b, hb, hsettled, -⟩ := h.announced r hr
  rw [(Prod.mk.inj hpair).1] at hb
  rw [hb, Option.map_some, hsettled] at hstatus
  cases hstatus

end ProofBook.SettledReceipts
