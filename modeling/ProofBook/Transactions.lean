import ProofBook.Lifecycle

/-!
# Transactions

A transaction executes its instructions one after the other, all of them or none. One
that fails may land as well, and then only shows in the history of the addresses it
names. An account does not say which transaction wrote it, so for each market that was
moved to Settled the settlement is kept for the record.
-/
namespace ProofBook.Transactions
open Addresses State Checked OracleWire OracleAdapter Chain Program Steps
open StepCases Lifecycle
open Instructions.Settlement

variable {D : Type}

/-- A landed transaction, as the history of an address lists it. -/
structure Transaction where
  signature : String
  accounts : List Pubkey
  failed : Bool
deriving DecidableEq

/-- The transaction that moved a market to Settled, and the periods of the leaves proven. -/
structure Settlement where
  market : Pubkey
  signature : String
  periods : List Int32
deriving DecidableEq

/-- The chain as a node serves it; both lists have the newest first. -/
structure Node (D : Type) where
  world : World D
  history : List Transaction
  settlements : List Settlement

/-- The leaves in the payload of a settle call. -/
def provenLeaves (b : Book D) : Instruction D → List (StatLeaf D)
  | .settleMarket _ claimedOutcome proof =>
      b.market.outcomes[claimedOutcome]?.elim [] fun outcome => specStats outcome.spec proof
  | .settleMarketV3 _ _ proof =>
      b.comboSpec.elim [] fun spec => legLeaves spec.legs proof.leafValues
  | _ => []

def settlementOf (signature : String) (w w' : World D) (i : Instruction D) :
    Option Settlement := do
  let k ← Instruction.market? i
  let b ← w.book? k
  let b' ← w'.book? k
  if b.market.status ≠ .settled ∧ b'.market.status = .settled then
    some ⟨k, signature, (provenLeaves b i).map (·.stat.period)⟩
  else none

section
variable [Inhabited D] (O : OracleProgram D)

def execute (signature : String) :
    World D → List (Instruction D) → Except Failure (World D × List Settlement)
  | w, [] => .ok (w, [])
  | w, i :: is => do
      let w₁ ← step O w i
      let (w₂, settlements) ← execute signature w₁ is
      pure (w₂, settlements ++ (settlementOf signature w w₁ i).toList)

/-- A transaction is signed anew. -/
def Node.Fresh (n : Node D) (signature : String) : Prop :=
  signature ≠ "" ∧ signature ∉ n.history.map (·.signature)

instance (n : Node D) (signature : String) : Decidable (n.Fresh signature) :=
  inferInstanceAs (Decidable (_ ∧ _))

/-- The history with one more transaction, which names the markets it acts on. -/
def Node.log (n : Node D) (signature : String) (accounts : List Pubkey)
    (is : List (Instruction D)) (failed : Bool) : List Transaction :=
  ⟨signature, is.filterMap Instruction.market? ++ accounts, failed⟩ :: n.history

/-- A transaction lands and succeeds. -/
def Node.land (n : Node D) (signature : String) (accounts : List Pubkey)
    (is : List (Instruction D)) : Option (Node D) :=
  match execute O signature n.world is with
  | .ok (world, settlements) =>
      if n.Fresh signature then
        some ⟨world, n.log signature accounts is false, settlements ++ n.settlements⟩
      else none
  | .error _ => none

/-- A transaction lands, whether it succeeds or fails. -/
def Node.transact (n : Node D) (signature : String) (accounts : List Pubkey)
    (is : List (Instruction D)) : Option (Node D) :=
  match execute O signature n.world is with
  | .ok _ => n.land O signature accounts is
  | .error _ =>
      if n.Fresh signature then some { n with history := n.log signature accounts is true }
      else none

end

/-- The newest transactions that name an address. -/
def Node.signaturesFor (n : Node D) (address : Pubkey) (limit : ℕ) : List Transaction :=
  (n.history.filter (address ∈ ·.accounts)).take limit

/-! ## What stays once a market is resolved -/

def specPeriods (spec : OutcomeSpec) : List Int32 :=
  if spec.hasStatB then [spec.statAPeriod, spec.statBPeriod] else [spec.statAPeriod]

/-- The periods that the rule of a market pins for the outcome that won. -/
def pinnedPeriods (b : Book D) : List Int32 :=
  if comboMarketTypeMin ≤ b.market.marketType then
    b.comboSpec.elim [] fun spec => spec.legs.map (·.period)
  else
    b.market.outcomes[b.market.winningOutcome]?.elim [] fun outcome => specPeriods outcome.spec

/-- A resolved market keeps its result and its rule. -/
structure SameRule (b b' : Book D) : Prop extends SameResult b.market b'.market where
  periods : pinnedPeriods b' = pinnedPeriods b

/-- Markets stay, and those that are resolved stay so. -/
def Onward (w w' : World D) : Prop :=
  ∀ k b, w.book? k = some b →
    ∃ b', w'.book? k = some b' ∧ (b.market.status.terminal = true → SameRule b b')

structure NodeOk (n : Node D) : Prop where
  wellFormed : WellFormed n.world
  settlements : ∀ s ∈ n.settlements, s.signature ≠ "" ∧ ∃ b, n.world.book? s.market = some b ∧
    b.market.status = .settled ∧ s.periods = pinnedPeriods b

theorem SameRule.refl (b : Book D) : SameRule b b where
  toSameResult := ⟨rfl, rfl, rfl, rfl, rfl, rfl, rfl, rfl, rfl, rfl⟩
  periods := rfl

theorem SameRule.trans {b₁ b₂ b₃ : Book D} (h : SameRule b₁ b₂) (h' : SameRule b₂ b₃) :
    SameRule b₁ b₃ where
  status := h'.status.trans h.status
  winningOutcome := h'.winningOutcome.trans h.winningOutcome
  totalWinningPool := h'.totalWinningPool.trans h.totalWinningPool
  feeAmount := h'.feeAmount.trans h.feeAmount
  settledAt := h'.settledAt.trans h.settledAt
  settleProofRef := h'.settleProofRef.trans h.settleProofRef
  settleProofTs := h'.settleProofTs.trans h.settleProofTs
  settleEpochDay := h'.settleEpochDay.trans h.settleEpochDay
  settleDailyRoots := h'.settleDailyRoots.trans h.settleDailyRoots
  settleResolver := h'.settleResolver.trans h.settleResolver
  periods := h'.periods.trans h.periods

theorem Onward.refl (w : World D) : Onward w w := fun _ b hb => ⟨b, hb, fun _ => .refl b⟩

theorem Onward.trans {w₁ w₂ w₃ : World D} (h : Onward w₁ w₂) (h' : Onward w₂ w₃) :
    Onward w₁ w₃ := by
  intro k b hb
  obtain ⟨b₂, hb₂, h₂⟩ := h k b hb
  obtain ⟨b₃, hb₃, h₃⟩ := h' k b₂ hb₂
  refine ⟨b₃, hb₃, fun ht => ?_⟩
  have hsame := h₂ ht
  exact hsame.trans (h₃ (by rw [hsame.status]; exact ht))

/-- A settled market is still settled, with the same winner. -/
theorem Onward.settled {w w' : World D} {k : Pubkey} {b : Book D} (h : Onward w w')
    (hb : w.book? k = some b) (hs : b.market.status = .settled) :
    ∃ b', w'.book? k = some b' ∧ b'.market.status = .settled ∧
      b'.market.winningOutcome = b.market.winningOutcome ∧ pinnedPeriods b' = pinnedPeriods b := by
  obtain ⟨b', hb', hsame⟩ := h k b hb
  have hsame := hsame (by rw [hs]; rfl)
  exact ⟨b', hb', hsame.status.trans hs, hsame.winningOutcome, hsame.periods⟩

/-! ## Steps -/

section
variable {O : OracleProgram D} {w w' : World D} {k : Pubkey} {b b' : Book D} {i : Instruction D}

/-- The periods of the leaves are those of the rule. -/
theorem legLeaves_periods {legs : List StatLeg} {values : List Int32}
    (h : values.length = legs.length) :
    (legLeaves (D := D) legs values).map (·.stat.period) = legs.map (·.period) := by
  induction legs generalizing values with
  | nil => rfl
  | cons leg legs ih =>
      cases values with
      | nil => cases h
      | cons value values =>
          have htail := ih (Nat.succ.inj h)
          simp only [legLeaves, List.zipWith_cons_cons, List.map_cons] at htail ⊢
          rw [htail]

theorem specStats_periods (spec : OutcomeSpec) (proof : SettlementProof D) :
    (specStats spec proof).map (·.stat.period) = specPeriods spec := by
  unfold specStats specPeriods
  split <;> rfl

theorem outcomes_spec (h : b'.market.outcomes.map (·.spec) = b.market.outcomes.map (·.spec))
    (j : ℕ) :
    (b'.market.outcomes[j]?.elim [] fun outcome => specPeriods outcome.spec) =
      b.market.outcomes[j]?.elim [] fun outcome => specPeriods outcome.spec := by
  have hj := congrArg (·[j]?) h
  simp only [List.getElem?_map] at hj
  cases h₁ : b'.market.outcomes[j]? <;> cases h₂ : b.market.outcomes[j]? <;>
    rw [h₁, h₂] at hj <;> simp_all

theorem bookStep_sameRule {x y : ℕ} (h : BookStep O w w' k b i b' x y)
    (ht : b.market.status.terminal = true) : SameRule b b' := by
  have hresult := bookStep_final h ht
  refine ⟨hresult, ?_⟩
  have hterms := h.sameTerms
  have hspec : b'.comboSpec = b.comboSpec := by
    cases h with
    | attach _ checks => rw [checks.status] at ht; cases ht
    | _ => rfl
  unfold pinnedPeriods
  rw [hterms.marketType, hspec, hresult.winningOutcome, outcomes_spec hterms.specs]

/-- The oracle is asked for exactly as many leaves as the rule has legs. -/
theorem verified_legs {view : RootsView D} {oracleProgram oracleRoots : Pubkey} {m : Market D}
    {spec : ComboSpec} {claimedOutcome : ℕ} {proof : SettlementProofV3 D} {verdict : Bool}
    (h : buildAndVerifyV3 O view oracleProgram oracleRoots m spec claimedOutcome proof =
      .ok verdict) : proof.leafValues.length = spec.legs.length := by
  simp only [buildAndVerifyV3, buildAndVerifyV3Legs, bind_eq_ok, require_eq_ok] at h
  obtain ⟨_, _, _, _, _, hlen, _⟩ := h
  exact hlen

/-- A settlement proves leaves of the periods that the rule pins for the winner. -/
theorem bookStep_periods {x y : ℕ} (h : BookStep O w w' k b i b' x y)
    (hn : b.market.status ≠ .settled) (hs : b'.market.status = .settled) :
    (provenLeaves b i).map (·.stat.period) = pinnedPeriods b' := by
  cases h with
  | @settle i r m _ _ verified recorded =>
      have htype : m.marketType = b.market.marketType := by rw [recorded.keeps]
      have hwinner : m.winningOutcome = r.outcome := by rw [recorded.keeps]
      have houtcomes : m.outcomes = b.market.outcomes := by rw [recorded.keeps]
      simp only [pinnedPeriods, htype, hwinner, houtcomes]
      cases verified with
      | @v2 ctx oc proof _ simple _ =>
          rw [if_neg (Nat.not_le.mpr simple), provenLeaves]
          cases b.market.outcomes[oc]? with
          | none => rfl
          | some outcome => exact specStats_periods _ _
      | v3 _ compound hspec verdict =>
          rw [if_pos compound, provenLeaves, hspec]
          exact legLeaves_periods (verified_legs verdict)
  | lock | cancel => cases hs
  | _ => exact absurd hs hn

variable [Inhabited D]

theorem step_onward (hw : WellFormed w) (h : step O w i = .ok w') : Onward w w' := by
  intro k b hb
  obtain ⟨b', x, y, hb', hstep, -⟩ := step_book hw h hb
  exact ⟨b', hb', bookStep_sameRule hstep⟩

/-- What is noted as a settlement is one. -/
theorem settlementOf_ok (hw : WellFormed w) (h : step O w i = .ok w') {signature : String}
    {s : Settlement} (hs : settlementOf signature w w' i = some s) :
    s.signature = signature ∧ ∃ b', w'.book? s.market = some b' ∧ b'.market.status = .settled ∧
      s.periods = pinnedPeriods b' := by
  simp only [settlementOf, Option.bind_eq_bind, Option.bind_eq_some_iff,
    Option.ite_none_right_eq_some, Option.some.injEq] at hs
  obtain ⟨k, -, b, hb, b', hb', ⟨hn, hsettled⟩, rfl⟩ := hs
  obtain ⟨b₁, x, y, hb₁, hstep, -⟩ := step_book hw h hb
  obtain rfl := Option.some.inj (hb₁.symm.trans hb')
  exact ⟨rfl, b₁, hb', hsettled, bookStep_periods hstep hn hsettled⟩

theorem execute_ok (hw : WellFormed w) {signature : String} {is : List (Instruction D)}
    {settlements : List Settlement} (h : execute O signature w is = .ok (w', settlements)) :
    WellFormed w' ∧ Onward w w' ∧ ∀ s ∈ settlements, s.signature = signature ∧
      ∃ b, w'.book? s.market = some b ∧ b.market.status = .settled ∧
        s.periods = pinnedPeriods b := by
  induction is generalizing w settlements with
  | nil =>
      cases h
      exact ⟨hw, .refl _, fun s hs => (List.not_mem_nil hs).elim⟩
  | cons i is ih =>
      simp only [execute, bind_eq_ok, pure_eq_ok, Prod.mk.injEq] at h
      obtain ⟨w₁, hstep, ⟨w₂, tail⟩, htail, rfl, rfl⟩ := h
      obtain ⟨hw₂, honward, hall⟩ := ih (WellFormed.step hw hstep) htail
      refine ⟨hw₂, (step_onward hw hstep).trans honward, fun s hs => ?_⟩
      rcases List.mem_append.mp hs with hs | hs
      · exact hall s hs
      · obtain ⟨hsig, b, hb, hsettled, hperiods⟩ :=
          settlementOf_ok hw hstep (Option.mem_toList.mp hs)
        obtain ⟨b', hb', hs', -, hp'⟩ := honward.settled hb hsettled
        exact ⟨hsig, b', hb', hs', hperiods.trans hp'.symm⟩

end

/-! ## Transactions -/

section
variable [Inhabited D] {O : OracleProgram D} {n n' : Node D} {signature : String}
  {accounts : List Pubkey} {is : List (Instruction D)}

theorem Node.land_ok (h : n.land O signature accounts is = some n') :
    signature ≠ "" ∧ ∃ settlements, execute O signature n.world is = .ok (n'.world, settlements) ∧
      n'.settlements = settlements ++ n.settlements := by
  unfold Node.land at h
  split at h
  next world settlements hex =>
    split_ifs at h with hfresh
    cases h
    exact ⟨hfresh.1, settlements, hex, rfl⟩
  · cases h

/-- One node is a later state of another. -/
structure Node.Later (n n' : Node D) : Prop where
  onward : Onward n.world n'.world
  settlements : ∀ s ∈ n.settlements, s ∈ n'.settlements

omit [Inhabited D] in
theorem Node.Later.refl (n : Node D) : n.Later n := ⟨.refl _, fun _ hs => hs⟩

theorem NodeOk.land (hn : NodeOk n) (h : n.land O signature accounts is = some n') :
    NodeOk n' ∧ n.Later n' := by
  obtain ⟨hsig, settlements, hex, hlist⟩ := Node.land_ok h
  obtain ⟨hw, honward, hall⟩ := execute_ok hn.wellFormed hex
  refine ⟨⟨hw, fun s hs => ?_⟩, honward, fun s hs => hlist ▸ List.mem_append_right _ hs⟩
  rw [hlist] at hs
  rcases List.mem_append.mp hs with hs | hs
  · obtain ⟨hs, hb⟩ := hall s hs
    exact ⟨hs ▸ hsig, hb⟩
  · obtain ⟨hne, b, hb, hsettled, hperiods⟩ := hn.settlements s hs
    obtain ⟨b', hb', hs', -, hp'⟩ := honward.settled hb hsettled
    exact ⟨hne, b', hb', hs', hperiods.trans hp'.symm⟩

theorem NodeOk.transact (hn : NodeOk n) (h : n.transact O signature accounts is = some n') :
    NodeOk n' ∧ n.Later n' := by
  unfold Node.transact at h
  split at h
  · exact hn.land h
  · split_ifs at h
    cases h
    exact ⟨⟨hn.wellFormed, hn.settlements⟩, .refl _, fun s hs => hs⟩

/-- The market and the outcome of a settle call. -/
def settleCall : Instruction D → Option (Pubkey × ℕ)
  | .settleMarket ctx claimedOutcome _ => some (ctx.market, claimedOutcome)
  | .settleMarketV3 ctx claimedOutcome _ => some (ctx.market, claimedOutcome)
  | _ => none

/-- A settle call that lands resolves the market: for the outcome it claims if that has
stake, else by cancelling. -/
theorem step_settle {w w' : World D} {i : Instruction D} {k : Pubkey} {claimedOutcome : ℕ}
    (hi : settleCall i = some (k, claimedOutcome)) (h : step O w i = .ok w') :
    Instruction.market? i = some k ∧ ∃ b b', w.book? k = some b ∧ w'.book? k = some b' ∧
      b.market.status = .locked ∧
      ∃ r : Receipt D, r.outcome = claimedOutcome ∧ Recorded b.market b'.market r := by
  cases i <;> cases hi
  case settleMarket ctx proof =>
    obtain ⟨b, m, es, hb, hg, -, -, hr, rfl⟩ := settleMarket_ok h
    exact ⟨rfl, b, { b with market := m }, hb, World.setBook_book?_self, hg.status, _, rfl,
      recordSettlement_ok hr⟩
  case settleMarketV3 ctx proof =>
    obtain ⟨b, spec, m, es, hb, -, hg, -, -, hr, rfl⟩ := settleMarketV3_ok h
    exact ⟨rfl, b, { b with market := m }, hb, World.setBook_book?_self, hg.status, _, rfl,
      recordSettlement_ok hr⟩

/-- The market is resolved, and if it is settled then by this transaction. -/
def Node.ResolvedBy (n : Node D) (k : Pubkey) (signature : String) (claimedOutcome : ℕ) : Prop :=
  ∃ b, n.world.book? k = some b ∧ b.market.status.terminal = true ∧
    b.market.winningOutcome = claimedOutcome ∧
    (b.market.status = .settled → ∃ s ∈ n.settlements, s.market = k ∧ s.signature = signature)

omit [Inhabited D] in
theorem Node.Later.resolvedBy {k : Pubkey} {claimedOutcome : ℕ} (h : n.Later n')
    (hr : n.ResolvedBy k signature claimedOutcome) : n'.ResolvedBy k signature claimedOutcome := by
  obtain ⟨b, hb, hterm, hwinner, hsettled⟩ := hr
  obtain ⟨b', hb', hsame⟩ := h.onward k b hb
  have hsame := hsame hterm
  refine ⟨b', hb', by rw [hsame.status, hterm], hsame.winningOutcome.trans hwinner, fun hs => ?_⟩
  obtain ⟨s, hmem, hs⟩ := hsettled (hsame.status ▸ hs)
  exact ⟨s, h.settlements s hmem, hs⟩

/-- What a settle call alone in a transaction does when it lands. -/
theorem Node.land_settle {i : Instruction D} {k : Pubkey} {claimedOutcome : ℕ}
    (hi : settleCall i = some (k, claimedOutcome))
    (h : n.land O signature accounts [i] = some n') :
    n'.ResolvedBy k signature claimedOutcome ∧ ∃ b b', n.world.book? k = some b ∧
      n'.world.book? k = some b' ∧
      (b.market.pool claimedOutcome ≠ 0 → b'.market.status = .settled) := by
  obtain ⟨-, settlements, hex, hlist⟩ := Node.land_ok h
  simp only [execute, bind_eq_ok, pure_eq_ok, Prod.mk.injEq] at hex
  obtain ⟨w₁, hstep, ⟨w₂, tail⟩, htail, rfl, rfl⟩ := hex
  cases htail
  obtain ⟨hm, b, b', hb, hb', hlocked, r, rfl, hr⟩ := step_settle hi hstep
  have hwinner : b'.market.winningOutcome = r.outcome := by rw [hr.keeps]
  refine ⟨⟨b', hb', ?_, hwinner, fun hs => ?_⟩, b, b', hb, hb', fun hpool => ?_⟩
  · rcases hr.result with ⟨-, hs, -⟩ | ⟨-, hs, -⟩ <;> rw [hs] <;> rfl
  · refine ⟨⟨k, signature, (provenLeaves b i).map (·.stat.period)⟩, ?_, rfl, rfl⟩
    rw [hlist]
    simp [settlementOf, hm, hb, hb', hlocked, hs]
  · rcases hr.result with ⟨hzero, -⟩ | ⟨-, hs, -⟩
    · exact absurd hzero hpool
    · exact hs

end

end ProofBook.Transactions
