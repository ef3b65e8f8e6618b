import ProofBook.Lifecycle
import ProofBook.Seeding

/-!
# What a staking script leaves behind

The bets of a market go out in batches. However a script ends, the batches up to some
point were placed as a whole and the others not at all, and once every outcome was in a
placed batch the market's own settlement can no longer cancel it.
-/
namespace ProofBook.Staking
open Addresses State Checked OracleWire OracleAdapter TokenLedger Totals Chain Program Runs Steps
open StepCases Scripts Solvency MarketRuns Lifecycle Seeding
open Instructions.Betting Instructions.Settlement

variable {D : Type} [Inhabited D] {O : OracleProgram D} {cfg : Config} {w w' : World D}
  {k : Pubkey} {i : Instruction D} {b b' : Book D} {bettors : List Pubkey}
  {f : Pubkey → Option (ℕ × ℕ)}

/-- The outcome a wallet backs, and with how much. -/
def backing (b : Book D) (o : Pubkey) : Option (ℕ × ℕ) :=
  (b.positions.lookup o).map fun q => (q.outcomeIndex, q.amount)

def amountIn (p : Option (ℕ × ℕ)) : ℕ := (p.map Prod.snd).getD 0

/-- A stake adds to what its bettor has on the outcome. -/
def place (f : Pubkey → Option (ℕ × ℕ)) (s : Stake) : Pubkey → Option (ℕ × ℕ) :=
  Function.update f s.bettor (some (s.outcome, amountIn (f s.bettor) + s.amount))

/-- The operation is no bet of one of the wallets on the market. -/
def NoBetBy (k : Pubkey) (bettors : List Pubkey) (i : Instruction D) : Prop :=
  ∀ ctx oi a, i = .placeBet ctx oi a → ctx.market = k → ctx.bettor ∉ bettors

omit [Inhabited D] in
/-- A step on a market's book is a bet or leaves all stakes. -/
theorem bookStep_sameStakes {x y : ℕ} (h : BookStep O w w' k b i b' x y) :
    SameStakes b b' ∨ ∃ ctx oi a q, i = .placeBet ctx oi a ∧ ctx.market = k ∧
      BetChecks w ctx oi a b q ∧ b' = betBook b ctx.bettor q oi a := by
  cases h with
  | bet hk hc => exact .inr ⟨_, _, _, _, rfl, hk, hc, rfl⟩
  | settle hs _ _ hr =>
      have hk := hr.keeps
      exact .inl ⟨by rw [hk], by rw [hk], fun _ => rfl⟩
  | claim _ hc _ _ _ =>
      have hm := SameStakes.marked b hc.found
      exact .inl ⟨hm.outcomes, hm.totalPool, hm.positions⟩
  | refund _ hc _ _ _ => exact .inl (.marked b hc.found)
  | _ => exact .inl ⟨rfl, rfl, fun _ => rfl⟩

omit [Inhabited D] in
theorem backing_betBook {l : TokenLedger.Ledger Pubkey} {ctx : PlaceBet} {oi a : ℕ} {q : Position}
    (ok : BookOk l k b) (hc : BetChecks w ctx oi a b q) :
    backing (betBook b ctx.bettor q oi a) = place (backing b) ⟨ctx.bettor, oi, a⟩ := by
  have hne : ∀ p, b.positions.lookup ctx.bettor = some p → p.market ≠ .default := by
    intro p hp
    rw [(ok.positions _ p hp).1, ok.key]
    exact Pubkey.noConfusion
  funext o
  rw [backing, betBook_lookup, place, Function.update_apply]
  split_ifs with ho
  · rcases positionFor_ok hc.position hne with ⟨hnone, rfl⟩ | ⟨hsome, hoi⟩
    · simp [backing, hnone, amountIn]
    · simp [backing, hsome, hoi, amountIn]
  · rfl

/-- The market exists, and the wallets back what is given for them. -/
structure Backed (k : Pubkey) (bettors : List Pubkey) (f : Pubkey → Option (ℕ × ℕ))
    (w : World D) : Prop where
  wellFormed : WellFormed w
  book : ∃ b, w.book? k = some b ∧ ∀ o ∈ bettors, backing b o = f o

theorem Backed.others (h : Backed k bettors f w) (hi : NoBetBy k bettors i)
    (hs : step O w i = .ok w') : Backed k bettors f w' := by
  obtain ⟨b, hb, hf⟩ := h.book
  obtain ⟨b', x, y, hb', hstep, -⟩ := step_book h.wellFormed hs hb
  refine ⟨WellFormed.step h.wellFormed hs, b', hb', fun o ho => ?_⟩
  rcases bookStep_sameStakes hstep with hsame | ⟨ctx, oi, a, q, rfl, hk, hc, rfl⟩
  · exact (hsame.positions o).trans (hf o ho)
  · have hne : o ≠ ctx.bettor := fun he => hi ctx oi a rfl hk (he ▸ ho)
    rw [backing_betBook (h.wellFormed.books k b hb) hc, place, Function.update_of_ne hne]
    exact hf o ho

theorem Backed.bet {m : Market D} {s : Stake} (h : Backed k bettors f w)
    (hs : step O w (placeBet cfg k m s) = .ok w') :
    0 < s.amount ∧ Backed k bettors (place f s) w' := by
  obtain ⟨b, hb, hf⟩ := h.book
  obtain ⟨b', x, y, hb', hstep, -⟩ := step_book h.wellFormed hs hb
  cases hstep with
  | idle hm => exact absurd rfl hm
  | settle _ _ hv _ => cases hv
  | bet hk hc =>
      refine ⟨hc.positive, WellFormed.step h.wellFormed hs, _, hb', fun o ho => ?_⟩
      rw [backing_betBook (h.wellFormed.books k b hb) hc, place, place]
      by_cases he : o = s.bettor
      · subst he
        rw [Function.update_self, Function.update_self, hf _ ho]
      · rw [Function.update_of_ne he, Function.update_of_ne he, hf o ho]

/-- A batch is placed as a whole. -/
theorem Backed.commit {m : Market D} {batch : List Stake} (h : Backed k bettors f w)
    (hs : Scripts.commit (machine O) w (batch.map (placeBet cfg k m)) = .ok w') :
    (∀ s ∈ batch, 0 < s.amount) ∧ Backed k bettors (batch.foldl place f) w' := by
  induction batch generalizing f w with
  | nil =>
      obtain rfl := Except.ok.inj hs
      exact ⟨by simp, h⟩
  | cons s batch ih =>
      rw [List.map_cons, Scripts.commit] at hs
      cases hstep : (machine O).step w (placeBet cfg k m s) with
      | error e =>
          rw [hstep] at hs
          cases hs
      | ok w₁ =>
          rw [hstep] at hs
          obtain ⟨hpos, h₁⟩ := h.bet (O := O) hstep
          obtain ⟨hall, h₂⟩ := ih h₁ hs
          exact ⟨List.forall_mem_cons.mpr ⟨hpos, hall⟩, h₂⟩

variable {net final : Net (World D) (Instruction D)} {r : Except (Fault Failure) Unit}

theorem Backed.did (h : Backed k bettors f net.state)
    (hdid : Did (machine O) (NoBetBy k bettors) net final) : Backed k bettors f final.state :=
  hdid.preserves h fun _ _ _ hi hs hstep => hs.others hi hstep

/-- The batches up to some point are placed, whether or not the last one was confirmed. -/
theorem batches_placed {m : Market D} {todo : List (List Stake)} (h : Backed k bettors f net.state)
    (hnet : net.Only (NoBetBy k bettors))
    (hrun : Script.forEach (fun batch => send (machine O) (batch.map (placeBet cfg k m))) todo net =
      (r, final)) :
    ∃ sent left, todo = sent ++ left ∧ (r = .ok () → left = []) ∧
      (∀ s ∈ sent.flatten, 0 < s.amount) ∧
      Backed k bettors (sent.flatten.foldl place f) final.state := by
  induction todo generalizing f net with
  | nil =>
      obtain ⟨rfl, rfl⟩ := Prod.mk.inj hrun
      exact ⟨[], [], rfl, fun _ => rfl, by simp, h⟩
  | cons batch todo ih =>
      obtain ⟨mid, hmid, hbeats, hcases⟩ :=
        send_cases (M := machine O) (batch.map (placeBet cfg k m)) hnet
      have hback := h.did hmid
      cases hsend : send (machine O) (batch.map (placeBet cfg k m)) net with
      | mk r₁ net₁ =>
          rw [hsend] at hbeats hcases
          cases r₁ with
          | error e =>
              obtain ⟨rfl, rfl⟩ := Prod.mk.inj ((bind_error hsend).symm.trans hrun)
              rcases hcases with ⟨hstate, -⟩ | hcommit
              · refine ⟨[], batch :: todo, rfl, (nomatch ·), by simp, ?_⟩
                rwa [hstate]
              · obtain ⟨hpos, hnext⟩ := hback.commit hcommit
                exact ⟨[batch], todo, rfl, (nomatch ·), by simpa using hpos, by simpa using hnext⟩
          | ok u =>
              rcases hcases with ⟨-, e, he⟩ | hcommit
              · cases he
              obtain ⟨hpos, hnext⟩ := hback.commit hcommit
              have hnet₁ : net₁.Only (NoBetBy k bettors) := fun beat hb =>
                hmid.only hnet beat (hbeats ▸ hb)
              obtain ⟨sent, left, rfl, hleft, hpos', hdone⟩ :=
                ih hnext hnet₁ ((bind_ok hsend).symm.trans hrun)
              refine ⟨batch :: sent, left, rfl, hleft, ?_, ?_⟩
              · rw [List.flatten_cons]
                exact fun s hs => (List.mem_append.mp hs).elim (hpos s) (hpos' s)
              · rwa [List.flatten_cons, List.foldl_append]

/-! ## Every wallet places one stake -/

theorem foldl_place_of_notMem {o : Pubkey} {l : List Stake} (h : o ∉ l.map (·.bettor)) :
    l.foldl place f o = f o := by
  induction l generalizing f with
  | nil => rfl
  | cons s l ih =>
      rw [List.map_cons, List.mem_cons, not_or] at h
      rw [List.foldl_cons, ih h.2, place, Function.update_of_ne h.1]

theorem foldl_place_of_mem {s : Stake} {l : List Stake} (h : (l.map (·.bettor)).Nodup)
    (hs : s ∈ l) :
    l.foldl place f s.bettor = some (s.outcome, amountIn (f s.bettor) + s.amount) := by
  induction l generalizing f with
  | nil => cases hs
  | cons t l ih =>
      rw [List.map_cons, List.nodup_cons] at h
      rw [List.foldl_cons]
      rcases List.mem_cons.mp hs with rfl | hs
      · rw [foldl_place_of_notMem h.1, place, Function.update_self]
      · have hne : s.bettor ≠ t.bettor := by
          intro he
          exact h.1 (he ▸ List.mem_map_of_mem hs)
        rw [ih h.2 hs, place, Function.update_of_ne hne]

theorem batches_flatten {α : Type} (l : List α) : (batches l).flatten = l := by
  induction l using batches.induct with
  | case1 a b c as ih => simp [batches, ih]
  | case2 => rfl
  | case3 as _ _ => simp [batches]

theorem stakesOf_bettors (bettors : List Pubkey) (amounts : List ℕ) :
    ((stakesOf bettors amounts).map (·.bettor)) <+: bettors := by
  have h : (stakesOf bettors amounts).map (·.bettor) = (bettors.zip amounts).map Prod.fst :=
    calc
      _ = ((bettors.zip amounts).zipIdx.map Prod.fst).map Prod.fst := by
        simp only [stakesOf, List.map_map]
        rfl
      _ = _ := by rw [List.zipIdx_map_fst]
  rw [h]
  clear h
  induction bettors generalizing amounts with
  | nil => simp
  | cons o bettors ih =>
      cases amounts with
      | nil => simp
      | cons a amounts => simpa using ih amounts

/-- The outcomes are staked in order, as far as there are wallets and amounts. -/
theorem stakesOf_outcome {bettors : List Pubkey} {amounts : List ℕ} {j : ℕ}
    (hj : j < bettors.length) (hj' : j < amounts.length) :
    ∃ s ∈ stakesOf bettors amounts, s.outcome = j := by
  have hlt : j < (bettors.zip amounts).zipIdx.length := by simp; omega
  refine ⟨_, List.mem_map_of_mem (List.getElem_mem hlt), ?_⟩
  simp

/-! ## A market staked everywhere -/

/-- The calls that settle the market by a proof. -/
def Settles (k : Pubkey) : Instruction D → Prop
  | .settleMarket ctx _ _ => ctx.market = k
  | .settleMarketV3 ctx _ _ => ctx.market = k
  | _ => False

omit [Inhabited D] in
theorem bookStep_pool {x y j : ℕ} (h : BookStep O w w' k b i b' x y)
    (hpos : 0 < b.market.pool j) : 0 < b'.market.pool j := by
  rcases bookStep_sameStakes h with hsame | ⟨ctx, oi, a, q, -, -, -, rfl⟩
  · rwa [Market.pool, hsame.outcomes]
  · have hpool := pool_modify b.market.outcomes oi j (b.market.pool oi + a)
    change 0 < ((b.market.outcomes.modify oi fun o =>
      { o with pool := b.market.pool oi + a })[j]?.map (·.pool)).getD 0
    rw [hpool]
    split_ifs with hj
    · rw [hj.1]
      omega
    · exact hpos

/-- Every outcome of the market has stake. -/
structure AllStaked (k : Pubkey) (w : World D) : Prop where
  wellFormed : WellFormed w
  book : ∃ b, w.book? k = some b ∧ ∀ j < b.market.outcomes.length, 0 < b.market.pool j

theorem AllStaked.step (h : AllStaked k w) (hs : Program.step O w i = .ok w') :
    AllStaked k w' := by
  obtain ⟨b, hb, hpools⟩ := h.book
  obtain ⟨b', x, y, hb', hstep, -⟩ := step_book h.wellFormed hs hb
  refine ⟨WellFormed.step h.wellFormed hs, b', hb', fun j hj => bookStep_pool hstep (hpools j ?_)⟩
  have hlen := congrArg List.length hstep.sameTerms.specs
  rw [List.length_map, List.length_map] at hlen
  rwa [hlen] at hj

theorem AllStaked.run (h : AllStaked k w) (is : List (Instruction D)) :
    AllStaked k ((machine O).run w is) :=
  Machine.run_preserves (fun _ _ _ h hs => h.step hs) h is

/-- The proven outcome has stake, so the market is settled and not cancelled. -/
theorem AllStaked.settled (h : AllStaked k w) (hi : Settles k i)
    (hs : Program.step O w i = .ok w') (hb' : w'.book? k = some b') :
    b'.market.status = .settled := by
  obtain ⟨b, hb, hpools⟩ := h.book
  obtain ⟨b₁, x, y, hb₁, hstep, -⟩ := step_book h.wellFormed hs hb
  obtain rfl := Option.some.inj (hb₁.symm.trans hb')
  have hk : Instruction.market? i = some k := by
    cases i with
    | settleMarket ctx co p => exact congrArg some hi
    | settleMarketV3 ctx co p => exact congrArg some hi
    | _ => exact hi.elim
  cases hstep with
  | idle hm => exact absurd hk hm
  | settle _ hj _ hr =>
      rcases hr.result with ⟨hzero, -⟩ | ⟨-, hst, -⟩
      · have := hpools _ hj
        omega
      · exact hst
  | _ => exact hi.elim

/-- Who backs an outcome with something makes its pool. -/
theorem pool_of_backing {o : Pubkey} {j a : ℕ} (hw : Reachable O w) (hb : w.book? k = some b)
    (hback : backing b o = some (j, a)) (ha : 0 < a) : 0 < b.market.pool j := by
  obtain ⟨donated, hsound⟩ := reachable_sound hw hb
  obtain ⟨q, hq, he⟩ := Option.map_eq_some_iff.mp hback
  obtain ⟨rfl, rfl⟩ := Prod.mk.inj he
  have hle := le_sumOf (stakeOn q.outcomeIndex) hq
  rw [stakeOn, if_pos rfl] at hle
  rw [hsound.pools.pool]
  exact ha.trans_le hle

/-! ## What is left behind -/

theorem placeBetsAtomic_placed {bettors' : List Pubkey} {amounts : List ℕ}
    (h : Backed k bettors f net.state) (hnet : net.Only (NoBetBy k bettors))
    (hrun : placeBetsAtomic O cfg bettors' k amounts net = (r, final)) :
    ∃ sent left, batches (stakesOf bettors' amounts) = sent ++ left ∧ (r = .ok () → left = []) ∧
      (∀ s ∈ sent.flatten, 0 < s.amount) ∧
      Backed k bettors (sent.flatten.foldl place f) final.state := by
  have hdid : Did (machine O) (NoBetBy k bettors) net
      (read (machine O) (fun w => w.book? k) net).2 := Performs.read net hnet
  cases hread : read (machine O) (fun w => w.book? k) net with
  | mk found net₁ =>
      rw [hread] at hdid
      have h₁ := h.did hdid
      cases found with
      | error e =>
          obtain ⟨rfl, rfl⟩ := Prod.mk.inj ((bind_error hread).symm.trans hrun)
          exact ⟨[], _, rfl, (nomatch ·), by simp, h₁⟩
      | ok found =>
          rw [placeBetsAtomic, bind_ok hread] at hrun
          cases found with
          | none =>
              obtain ⟨rfl, rfl⟩ := Prod.mk.inj hrun
              exact ⟨[], _, rfl, (nomatch ·), by simp, h₁⟩
          | some b₁ => exact batches_placed h₁ (hdid.only hnet) hrun

omit [Inhabited D] in
/-- Wallets with one stake each back it with all they had on the market. -/
theorem Backed.placed {l : List Stake} (h : Backed k bettors (l.foldl place f) w)
    (hl : (l.map (·.bettor)).Nodup) (hmem : ∀ s ∈ l, s.bettor ∈ bettors)
    (hb : w.book? k = some b) :
    ∀ s ∈ l, backing b s.bettor = some (s.outcome, amountIn (f s.bettor) + s.amount) := by
  intro s hs
  obtain ⟨b', hb', hback⟩ := h.book
  obtain rfl := Option.some.inj (hb'.symm.trans hb)
  rw [hback _ (hmem s hs), foldl_place_of_mem hl hs]

theorem Backed.allStaked {l : List Stake} (h : Backed k bettors (l.foldl place f) w)
    (hw : Reachable O w) (hl : (l.map (·.bettor)).Nodup) (hmem : ∀ s ∈ l, s.bettor ∈ bettors)
    (hpos : ∀ s ∈ l, 0 < s.amount) (hb : w.book? k = some b)
    (hreach : ∀ j < b.market.outcomes.length, ∃ s ∈ l, s.outcome = j) : AllStaked k w := by
  refine ⟨h.wellFormed, b, hb, fun j hj => ?_⟩
  obtain ⟨s, hs, rfl⟩ := hreach j hj
  have hback := h.placed hl hmem hb s hs
  exact pool_of_backing hw hb hback (Nat.add_pos_right _ (hpos s hs))

theorem placeBetsAtomic_did {amounts : List ℕ}
    (hrun : placeBetsAtomic O cfg bettors k amounts net = (r, final)) :
    Did (machine O) (fun _ => True) net final := by
  have hperforms : Performs (machine O) (fun _ => True)
      (placeBetsAtomic O cfg bettors k amounts) := placeBetsAtomic_performs fun _ _ _ => trivial
  have hdid := hperforms.did net
  rwa [hrun] at hdid

/-- However `placeBetsAtomic` ends, some batches were placed as they are and the others
not at all; and where the placed ones reach every outcome, no later proof cancels. -/
theorem stakes_by_batches {amounts : List ℕ} (hw : Reachable O net.state)
    (hb : net.state.book? k = some b) (hnodup : bettors.Nodup)
    (hnet : net.Only (NoBetBy k bettors))
    (hrun : placeBetsAtomic O cfg bettors k amounts net = (r, final)) :
    ∃ b' sent left, final.state.book? k = some b' ∧
      batches (stakesOf bettors amounts) = sent ++ left ∧ (r = .ok () → left = []) ∧
      (∀ s ∈ sent.flatten, 0 < s.amount ∧
        backing b' s.bettor = some (s.outcome, amountIn (backing b s.bettor) + s.amount)) ∧
      (∀ s ∈ left.flatten, backing b' s.bettor = backing b s.bettor) ∧
      ((∀ j < b'.market.outcomes.length, ∃ s ∈ sent.flatten, s.outcome = j) →
        ∀ is i w' b'', Settles k i → Program.step O ((machine O).run final.state is) i = .ok w' →
          w'.book? k = some b'' → b''.market.status = .settled) := by
  have hbacked : Backed k bettors (backing b) net.state :=
    ⟨reachable_wellFormed hw, b, hb, fun _ _ => rfl⟩
  obtain ⟨sent, left, hsplit, hleft, hpos, hafter⟩ := placeBetsAtomic_placed hbacked hnet hrun
  obtain ⟨b', hb', hback⟩ := hafter.book
  have hsub := stakesOf_bettors bettors amounts
  rw [← batches_flatten (stakesOf bettors amounts), hsplit, List.flatten_append,
    List.map_append] at hsub
  obtain ⟨hnd, -, hapart⟩ := List.nodup_append.mp (hnodup.sublist hsub.sublist)
  have hmem : ∀ s ∈ sent.flatten, s.bettor ∈ bettors := fun s hs =>
    hsub.subset (List.mem_append_left _ (List.mem_map_of_mem hs))
  refine ⟨b', sent, left, hb', hsplit, hleft,
    fun s hs => ⟨hpos s hs, hafter.placed hnd hmem hb' s hs⟩, fun s hs => ?_, fun hreach => ?_⟩
  · have hin : s.bettor ∈ left.flatten.map (·.bettor) := List.mem_map_of_mem hs
    have hnot : s.bettor ∉ sent.flatten.map (·.bettor) := fun hsent => hapart _ hsent _ hin rfl
    rw [hback _ (hsub.subset (List.mem_append_right _ hin)), foldl_place_of_notMem hnot]
  · have hfinal : Reachable O final.state := (placeBetsAtomic_did hrun).reachable hw
    have hstaked := hafter.allStaked hfinal hnd hmem hpos hb' hreach
    exact fun is i w' b'' hi hs hb'' => (hstaked.run is).settled hi hs hb''

/-- The bets are placed, but the script is not told. -/
def untoldNet : Net (World Unit) (Instruction Unit) :=
  ⟨strandedNet.state, [⟨[], .answered⟩, ⟨[], .lost false⟩]⟩

/-- The state in which that call leaves the market. -/
def untoldWorld : World Unit :=
  (placeBetsAtomic acceptingOracle sampleConfig [.key 12, .key 13]
    (sampleVisit.market sampleConfig) (stakeAmounts 2) untoldNet).2.state

theorem strandedNet_unstaked : (strandedNet.state.book? (sampleVisit.market sampleConfig)).map
    (fun b => (backing b (.key 12), backing b (.key 13))) = some (none, none) := by
  decide +kernel

theorem untoldWorld_staked : (untoldWorld.book? (sampleVisit.market sampleConfig)).map
    (fun b => (b.market.outcomes.length, (backing b (.key 12)).isSome)) = some (2, true) := by
  decide +kernel

/-- Both bets are in the one batch that was placed, and no later proof cancels. -/
theorem stakes_by_batches_sample :
    ∃ b, untoldWorld.book? (sampleVisit.market sampleConfig) = some b ∧
      backing b (.key 12) = some (0, 25000000) ∧ backing b (.key 13) = some (1, 62000000) ∧
      ∀ is i w' b', Settles (sampleVisit.market sampleConfig) i →
        Program.step acceptingOracle ((machine acceptingOracle).run untoldWorld is) i = .ok w' →
        w'.book? (sampleVisit.market sampleConfig) = some b' → b'.market.status = .settled := by
  obtain ⟨b, hb, hbacked⟩ := Option.map_eq_some_iff.mp strandedNet_unstaked
  obtain ⟨hhome, haway⟩ := Prod.mk.inj hbacked
  have hnet : untoldNet.Only (NoBetBy (sampleVisit.market sampleConfig) [.key 12, .key 13]) := by
    simp [untoldNet, Net.Only]
  have hw : Reachable acceptingOracle untoldNet.state := strandedNet_reachable
  have hb₀ : untoldNet.state.book? (sampleVisit.market sampleConfig) = some b := hb
  obtain ⟨b', sent, left, hb', hsplit, -, hsent, hleft, hsettles⟩ :=
    stakes_by_batches hw hb₀ (by decide) hnet rfl
  have hb' : untoldWorld.book? (sampleVisit.market sampleConfig) = some b' := hb'
  obtain ⟨hlen, hstaked⟩ : b'.market.outcomes.length = 2 ∧
      (backing b' (.key 12)).isSome = true := by
    have hstaked := untoldWorld_staked
    rw [hb', Option.map_some] at hstaked
    exact Prod.mk.inj (Option.some.inj hstaked)
  have hbatches : batches (stakesOf [.key 12, .key 13] (stakeAmounts 2)) =
      [[⟨.key 12, 0, 25000000⟩, ⟨.key 13, 1, 62000000⟩]] := by decide
  rw [hbatches] at hsplit
  cases sent with
  | nil =>
      have hsame := hleft ⟨.key 12, 0, 25000000⟩ (by rw [← List.nil_append left, ← hsplit]; simp)
      rw [hsame, hhome] at hstaked
      cases hstaked
  | cons batch sent =>
      obtain ⟨rfl, hrest⟩ := List.cons.inj hsplit
      obtain ⟨rfl, -⟩ := List.append_eq_nil_iff.mp hrest.symm
      have hplaced := hsent ⟨.key 12, 0, 25000000⟩ (by simp)
      have hplaced' := hsent ⟨.key 13, 1, 62000000⟩ (by simp)
      rw [hhome] at hplaced
      rw [haway] at hplaced'
      refine ⟨b', hb', hplaced.2, hplaced'.2, hsettles fun j hj => ?_⟩
      rw [hlen] at hj
      interval_cases j
      · exact ⟨⟨.key 12, 0, 25000000⟩, by simp, rfl⟩
      · exact ⟨⟨.key 13, 1, 62000000⟩, by simp, rfl⟩

/-! ## Created and staked -/

/-- The market has no rule yet. -/
structure Specless (k : Pubkey) (n : ℕ) (w : World D) : Prop where
  wellFormed : WellFormed w
  book : ∃ b, w.book? k = some b ∧ b.comboSpec = none ∧ b.market.outcomes.length = n

/-- The market has the rule. -/
structure Ruled (k : Pubkey) (spec : ComboSpec) (n : ℕ) (w : World D) : Prop where
  wellFormed : WellFormed w
  book : ∃ b, w.book? k = some b ∧ b.comboSpec = some spec ∧ b.market.outcomes.length = n

omit [Inhabited D] in
theorem bookStep_outcomes {x y : ℕ} (h : BookStep O w w' k b i b' x y) :
    b'.market.outcomes.length = b.market.outcomes.length := by
  have hlen := congrArg List.length h.sameTerms.specs
  rwa [List.length_map, List.length_map] at hlen

theorem Specless.step {n : ℕ} (h : Specless k n w) (hi : NoRule k i)
    (hs : Program.step O w i = .ok w') : Specless k n w' := by
  obtain ⟨b, hb, hspec, hlen⟩ := h.book
  obtain ⟨b', x, y, hb', hstep, -⟩ := step_book h.wellFormed hs hb
  refine ⟨WellFormed.step h.wellFormed hs, b', hb', ?_, (bookStep_outcomes hstep).trans hlen⟩
  cases hstep with
  | attach hk _ => exact absurd hk (hi _ _ _ rfl)
  | _ => exact hspec

theorem Ruled.step {spec : ComboSpec} {n : ℕ} (h : Ruled k spec n w)
    (hs : Program.step O w i = .ok w') : Ruled k spec n w' := by
  obtain ⟨b, hb, hspec, hlen⟩ := h.book
  obtain ⟨b', x, y, hb', hstep, -⟩ := step_book h.wellFormed hs hb
  refine ⟨WellFormed.step h.wellFormed hs, b', hb', ?_, (bookStep_outcomes hstep).trans hlen⟩
  cases hstep with
  | attach _ hc =>
      have hfresh := hc.fresh
      rw [hspec] at hfresh
      cases hfresh
  | _ => exact hspec

/-- What others do while a market is created and staked. -/
def Apart (k : Pubkey) (bettors : List Pubkey) (i : Instruction D) : Prop :=
  NoRule k i ∧ NoBetBy k bettors i

variable {d : Definition} {fixtureId lockTime : Int64} {n : ℕ}

theorem initializeMarket_creates {u : Unit} (hwf : WellFormed net.state)
    (hnet : net.Only (Apart (cfg.marketPdaFor fixtureId d.type) bettors))
    (hsend : send (machine O) [.initializeMarket ⟨cfg.wallet, cfg.usdcMint⟩
      (marketParams cfg fixtureId d lockTime)] net = (.ok u, final)) :
    final.Only (Apart (cfg.marketPdaFor fixtureId d.type) bettors) ∧
      Specless (cfg.marketPdaFor fixtureId d.type) d.outcomes.length final.state ∧
      Backed (cfg.marketPdaFor fixtureId d.type) bettors (fun _ => none) final.state := by
  obtain ⟨mid, hmid, hfinal, hcommit⟩ := send_ok hnet hsend
  have hstep : Program.step O mid.state (.initializeMarket ⟨cfg.wallet, cfg.usdcMint⟩
    (marketParams cfg fixtureId d lockTime)) = .ok final.state := commit_single hcommit
  have hmidwf : WellFormed mid.state :=
    hmid.preserves hwf fun _ _ _ _ hs hstep => WellFormed.step hs hstep
  obtain ⟨-, hnone, -, l, es, -, hstate⟩ := initializeMarket_ok hstep
  have hb : final.state.book? (cfg.marketPdaFor fixtureId d.type) =
      some ⟨newMarket O ⟨cfg.wallet, cfg.usdcMint⟩ (marketParams cfg fixtureId d lockTime), ∅,
        none⟩ := by
    rw [hstate]
    exact World.setBook_book?_self
  have hwf' := WellFormed.step hmidwf hstep
  refine ⟨hfinal, ⟨hwf', _, hb, rfl, ?_⟩, ⟨hwf', _, hb, fun o _ => ?_⟩⟩
  · simp [newMarket, marketParams]
  · simp [backing]

theorem Specless.did (h : Specless k n net.state)
    (hdid : Did (machine O) (Apart k bettors) net final) : Specless k n final.state :=
  hdid.preserves h fun _ _ _ hi hs hstep => hs.step hi.1 hstep

theorem Backed.didApart (h : Backed k bettors f net.state)
    (hdid : Did (machine O) (Apart k bettors) net final) : Backed k bettors f final.state :=
  hdid.preserves h fun _ _ _ hi hs hstep => hs.others hi.2 hstep

/-- Where there is no rule none is found, or the read fails. -/
theorem fetchComboSpec_none {found : Option ComboSpec} (h : Specless k n net.state)
    (hnet : net.Only (Apart k bettors)) (hfetch : fetchComboSpec O k net = (.ok found, final)) :
    found = none ∧ Did (machine O) (Apart k bettors) net final := by
  have hdid : Did (machine O) (Apart k bettors) net
      (read (machine O) (fun w => (w.book? k).bind (·.comboSpec)) net).2 := Performs.read net hnet
  unfold fetchComboSpec Script.rescue at hfetch
  cases hread : read (machine O) (fun w => (w.book? k).bind (·.comboSpec)) net with
  | mk r₁ net₁ =>
      rw [hread] at hfetch hdid
      cases r₁ with
      | ok spec =>
          obtain ⟨hr, rfl⟩ := Prod.mk.inj hfetch
          obtain rfl := Except.ok.inj hr
          obtain ⟨b, hb, hspec, -⟩ := (h.did hdid).book
          refine ⟨?_, hdid⟩
          rw [read_ok hread, hb]
          exact hspec
      | error e =>
          cases e with
          | killed => cases hfetch
          | refused e =>
              obtain ⟨hr, rfl⟩ := Prod.mk.inj hfetch
              exact ⟨(Except.ok.inj hr).symm, hdid⟩
          | unanswered t =>
              obtain ⟨hr, rfl⟩ := Prod.mk.inj hfetch
              exact ⟨(Except.ok.inj hr).symm, hdid⟩

theorem ensureComboSpec_attaches {u : Unit} (h : Specless k n net.state)
    (hback : Backed k bettors f net.state) (hnet : net.Only (Apart k bettors))
    (hrun : ensureComboSpec O cfg k d net = (.ok u, final)) :
    final.Only (Apart k bettors) ∧ Ruled k ⟨k, d.legs, d.outcomes⟩ n final.state ∧
      Backed k bettors f final.state := by
  cases hfetch : fetchComboSpec O k net with
  | mk r₁ net₁ =>
      cases r₁ with
      | error e =>
          rw [ensureComboSpec, bind_error hfetch] at hrun
          cases hrun
      | ok found =>
          obtain ⟨rfl, hdid⟩ := fetchComboSpec_none h hnet hfetch
          rw [ensureComboSpec, bind_ok hfetch] at hrun
          obtain ⟨mid, hmid, hfinal, hcommit⟩ := send_ok (hdid.only hnet) hrun
          have hstep : Program.step O mid.state (.initializeComboSpec ⟨cfg.wallet, k⟩ d.legs
            d.outcomes) = .ok final.state := commit_single hcommit
          have hmid' := hdid.trans hmid
          obtain ⟨b, hb, -, hlen⟩ := (h.did hmid').book
          obtain ⟨b₁, es, checks, hstate⟩ := initializeComboSpec_ok hstep
          obtain rfl := Option.some.inj (checks.book.symm.trans hb)
          have hb' : final.state.book? k =
              some { b₁ with comboSpec := some ⟨k, d.legs, d.outcomes⟩ } := by
            rw [hstate]
            exact World.setBook_book?_self
          refine ⟨hfinal, ⟨WellFormed.step (h.did hmid').wellFormed hstep, _, hb', rfl, hlen⟩,
            (hback.didApart hmid').others ?_ hstep⟩
          rintro _ _ _ h
          cases h

theorem initializeComboMarket_rules {u : Unit} (hwf : WellFormed net.state)
    (hnet : net.Only (Apart (cfg.marketPdaFor fixtureId d.type) bettors))
    (hrun : initializeComboMarket O cfg fixtureId d lockTime net = (.ok u, final)) :
    final.Only (Apart (cfg.marketPdaFor fixtureId d.type) bettors) ∧
      Ruled (cfg.marketPdaFor fixtureId d.type)
        ⟨cfg.marketPdaFor fixtureId d.type, d.legs, d.outcomes⟩ d.outcomes.length final.state ∧
      Backed (cfg.marketPdaFor fixtureId d.type) bettors (fun _ => none) final.state := by
  rw [initializeComboMarket] at hrun
  cases hsend : send (machine O) [.initializeMarket ⟨cfg.wallet, cfg.usdcMint⟩
      (marketParams cfg fixtureId d lockTime)] net with
  | mk r₁ net₁ =>
      cases r₁ with
      | error e =>
          rw [bind_error hsend] at hrun
          cases hrun
      | ok v =>
          rw [bind_ok hsend] at hrun
          obtain ⟨hnet₁, hspecless, hback⟩ := initializeMarket_creates hwf hnet hsend
          exact ensureComboSpec_attaches hspecless hback hnet₁ hrun

/-- What was tried last succeeded. -/
theorem withRetry_ok {C : Instruction D → Prop} {x : Keeper D Unit} {u : Unit}
    (hx : Performs (machine O) C x) (hnet : net.Only C)
    (hrun : withRetry x n net = (.ok u, final)) :
    ∃ mid, Did (machine O) C net mid ∧ x mid = (.ok u, final) := by
  induction n generalizing net with
  | zero => cases hrun
  | succ n ih =>
      have hdid := hx net hnet
      rw [withRetry, Script.rescue] at hrun
      cases hres : x net with
      | mk r₁ net₁ =>
          rw [hres] at hrun hdid
          cases r₁ with
          | ok v =>
              obtain ⟨rfl, rfl⟩ := hrun
              exact ⟨net, .refl net, hres⟩
          | error e =>
              cases e with
              | killed => cases hrun
              | refused e => cases hrun
              | unanswered t =>
                  cases t with
                  | false => cases hrun
                  | true =>
                      obtain ⟨mid, hmid, hxmid⟩ := ih (hdid.only hnet) hrun
                      exact ⟨mid, hdid.trans hmid, hxmid⟩

/-- All stakes of the book are placed when `stakeAll` reports no failure. -/
theorem stakeAll_placed (hw : Reachable O net.state) (hnodup : cfg.bettors.Nodup)
    (hback : Backed k cfg.bettors f net.state) (hnet : net.Only (NoBetBy k cfg.bettors))
    (hrun : stakeAll O cfg k d net = (.ok (), final)) (hb : final.state.book? k = some b) :
    (∀ s ∈ stakesOf (cfg.bettors.take d.outcomes.length) (stakeAmounts d.outcomes.length),
      backing b s.bettor = some (s.outcome, amountIn (f s.bettor) + s.amount)) ∧
    (d.outcomes.length ≤ cfg.bettors.length → b.market.outcomes.length = d.outcomes.length →
      AllStaked k final.state) := by
  obtain ⟨sent, left, hsplit, hleft, hpos, hafter⟩ := placeBetsAtomic_placed hback hnet hrun
  rw [hleft rfl, List.append_nil] at hsplit
  rw [← hsplit, batches_flatten] at hpos hafter
  have hsub := stakesOf_bettors (cfg.bettors.take d.outcomes.length)
    (stakeAmounts d.outcomes.length)
  have hnd := (hnodup.sublist (List.take_sublist _ _)).sublist hsub.sublist
  have hmem : ∀ s ∈ stakesOf (cfg.bettors.take d.outcomes.length)
      (stakeAmounts d.outcomes.length), s.bettor ∈ cfg.bettors := fun s hs =>
    List.mem_of_mem_take (hsub.subset (List.mem_map_of_mem hs))
  refine ⟨hafter.placed hnd hmem hb, fun henough hlen => ?_⟩
  refine hafter.allStaked ((placeBetsAtomic_did hrun).reachable hw) hnd hmem hpos hb ?_
  intro j hj
  refine stakesOf_outcome ?_ ?_
  · rw [List.length_take]
    omega
  · simp only [stakeAmounts, List.length_map, List.length_range]
    omega

/-- A visit that creates a market and reports no failure leaves it with its rule and with
the stakes of the book on its outcomes, and no later proof can cancel it. -/
theorem created_and_staked {v : Visit} (hw : Reachable O net.state) (hnodup : cfg.bettors.Nodup)
    (henough : v.definition.outcomes.length ≤ cfg.bettors.length)
    (hnet : net.Only (Apart (v.market cfg) cfg.bettors))
    (hrun : create O cfg v net = (.ok (), final)) :
    ∃ b, final.state.book? (v.market cfg) = some b ∧
      b.comboSpec = some ⟨v.market cfg, v.definition.legs, v.definition.outcomes⟩ ∧
      b.market.outcomes.length = v.definition.outcomes.length ∧
      (∀ s ∈ stakesOf (cfg.bettors.take v.definition.outcomes.length)
          (stakeAmounts v.definition.outcomes.length),
        backing b s.bettor = some (s.outcome, s.amount)) ∧
      ∀ is i w' b', Settles (v.market cfg) i →
        Program.step O ((machine O).run final.state is) i = .ok w' →
        w'.book? (v.market cfg) = some b' → b'.market.status = .settled := by
  have hperforms : Performs (machine O) (fun _ => True)
      (initializeComboMarket O cfg v.fixtureId v.definition (v.now + cfg.lockDelaySec)) :=
    initializeComboMarket_performs fun _ _ => trivial
  rw [create] at hrun
  cases hcreate : withRetry (initializeComboMarket O cfg v.fixtureId v.definition
      (v.now + cfg.lockDelaySec)) 6 net with
  | mk r₁ net₁ =>
      cases r₁ with
      | error e =>
          rw [bind_error hcreate] at hrun
          cases hrun
      | ok u =>
          rw [bind_ok hcreate] at hrun
          obtain ⟨mid, hmid, hlast⟩ := withRetry_ok hperforms (fun _ _ _ _ => trivial) hcreate
          have hmidw := hmid.reachable hw
          obtain ⟨hnet₁, hruled, hback⟩ := initializeComboMarket_rules
            (reachable_wellFormed hmidw) (fun beat hb => hnet beat (hmid.beats beat hb)) hlast
          have hw₁ : Reachable O net₁.state := by
            have hdid := hperforms.did mid
            rw [hlast] at hdid
            exact hdid.reachable hmidw
          have hruled' : Ruled (v.market cfg) _ _ final.state :=
            (placeBetsAtomic_did hrun).preserves hruled fun _ _ _ _ h hs => h.step hs
          obtain ⟨b, hb, hspec, hlen⟩ := hruled'.book
          obtain ⟨hplaced, hstaked⟩ := stakeAll_placed hw₁ hnodup hback
            (fun beat hbeat i hi => (hnet₁ beat hbeat i hi).2) hrun hb
          refine ⟨b, hb, hspec, hlen, fun s hs => ?_, fun is i w' b' hi hs hb' => ?_⟩
          · simpa [amountIn] using hplaced s hs
          · exact ((hstaked henough hlen).run is).settled hi hs hb'

/-- Nothing fails and nobody interferes. -/
def quietNet : Net (World Unit) (Instruction Unit) :=
  ⟨emptyWorld Unit, ⟨fundBettors, .answered⟩ :: List.replicate 4 ⟨[], .answered⟩⟩

theorem quietNet_apart : quietNet.Only (Apart (sampleVisit.market sampleConfig)
    sampleConfig.bettors) := by
  intro beat hbeat i hi
  have hfund : i ∈ (fundBettors : List (Instruction Unit)) := by
    rcases List.mem_cons.mp hbeat with rfl | hbeat
    · exact hi
    · rw [List.eq_of_mem_replicate hbeat] at hi
      cases hi
  constructor
  · rintro ctx legs outcomes rfl
    simp [fundBettors, fundWallets] at hfund
  · rintro ctx oi a rfl
    simp [fundBettors, fundWallets] at hfund

theorem created_and_staked_sample :
    ∃ b, (create acceptingOracle sampleConfig sampleVisit quietNet).2.state.book?
        (sampleVisit.market sampleConfig) = some b ∧
      backing b (.key 12) = some (0, 25000000) ∧ backing b (.key 13) = some (1, 62000000) := by
  have hok : (create acceptingOracle sampleConfig sampleVisit quietNet).1.toBool = true := by
    decide +kernel
  cases hrun : create acceptingOracle sampleConfig sampleVisit quietNet with
  | mk r final =>
      rw [hrun] at hok
      cases r with
      | error e => cases hok
      | ok u =>
          obtain ⟨b, hb, -, -, hplaced, -⟩ := created_and_staked
            (.init emptyWorld_genesis) (by decide) (by decide) quietNet_apart hrun
          exact ⟨b, hb, hplaced ⟨.key 12, 0, 25000000⟩ (by decide),
            hplaced ⟨.key 13, 1, 62000000⟩ (by decide)⟩

end ProofBook.Staking
