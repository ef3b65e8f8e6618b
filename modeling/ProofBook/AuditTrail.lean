import ProofBook.Escrow
import ProofBook.EventLog
import ProofBook.WinnerPayouts

/-!
# Auditing the program from its log

Over whole runs the records folded from the log are those of the accounts, and
the amounts in the log account for every escrow: what was paid in, less what was
paid out, plus what other markets and vaults say they paid into it and what was
sent there unasked.
-/
namespace ProofBook.AuditTrail
open Addresses State OracleWire TokenLedger Totals Chain Program Runs Steps StepCases MarketRuns
open EventLog WinnerPayouts Escrow

variable {D : Type} [Inhabited D] {O : OracleProgram D} {w w' w₀ : World D}
  {k : Pubkey} {i : Instruction D} {es : List (Event D)}

/-! ## Records -/

theorem step_blank (hw : WellFormed w) (hblank : ∀ k v, w.propVault? k = some v → Blank v)
    (h : step O w i = .ok w') {v' : PropVault D} (hv' : w'.propVault? k = some v') :
    Blank v' := by
  cases hv : w.propVault? k with
  | none =>
      obtain ⟨ctx, p, -, -, -, -, rfl, -⟩ := step_propVault_new h hv hv'
      exact fun _ => ⟨rfl, rfl, rfl⟩
  | some v =>
      obtain ⟨v₁, x, y, hv₁, hstep, -⟩ := step_propVault hw h hv
      obtain rfl := Option.some.inj (hv₁.symm.trans hv')
      cases hstep with
      | idle => exact hblank k v hv
      | @settle ctx proof holds hk checks moved =>
          intro hst
          cases holds <;> cases hst
      | cancel =>
          intro hst
          cases hst

/-- The log and the accounts agree. -/
structure LogInvariant (w : World D) : Prop where
  wellFormed : WellFormed w
  blank : ∀ k v, w.propVault? k = some v → Blank v
  market : ∀ k, w.log.foldl (replayMarket k) none = (w.book? k).map marketRecord
  propVault : ∀ k, w.log.foldl (replayVault k) none = (w.propVault? k).map vaultRecord

theorem Genesis.logInvariant (h : Genesis w) : LogInvariant w where
  wellFormed := Genesis.wellFormed h
  blank k v hv := by simp [World.propVault?, h.propVaults] at hv
  market k := by simp [World.book?, h.books, h.log]
  propVault k := by simp [World.propVault?, h.propVaults, h.log]

theorem LogInvariant.emits (hl : LogInvariant w) (h : step O w i = .ok w') (he : Emits w i w' es) :
    LogInvariant w' where
  wellFormed := WellFormed.step hl.wellFormed h
  blank _ _ hv := step_blank hl.wellFormed hl.blank h hv
  market k := by rw [he.log, List.foldl_append, hl.market, he.market]
  propVault k := by rw [he.log, List.foldl_append, hl.propVault, he.propVault]

theorem reachable_logInvariant (hw : Reachable O w) : LogInvariant w := by
  refine hw.invariant (fun _ hg => Genesis.logInvariant hg) fun s j t hl hs => ?_
  obtain ⟨es, he⟩ := step_emits hl.wellFormed hl.blank hs
  exact hl.emits hs he

/-- In every reachable state the records folded from the log are those of the
accounts, each market and each prop vault, and none besides. -/
theorem log_replays_state (hw : Reachable O w) (k : Pubkey) :
    w.log.foldl (replayMarket k) none = (w.book? k).map marketRecord ∧
      w.log.foldl (replayVault k) none = (w.propVault? k).map vaultRecord :=
  ⟨(reachable_logInvariant hw).market k, (reachable_logInvariant hw).propVault k⟩

theorem log_replays_paid :
    (paidWorld.log.foldl (replayMarket sampleMarket) none).map
      (fun r => (r.status, r.pools, r.paidOut, r.stakes (.key 13))) =
        some (.settled, [800, 200], 950, some ⟨0, 300, true⟩) := by
  have h := log_replays_state (w := paidWorld) (O := acceptingOracle)
    ⟨_, paidRun, emptyWorld_genesis, rfl⟩ sampleMarket
  rw [h.1]
  decide +kernel

/-! ## Amounts -/

instance (i : Instruction D) (k : Pubkey) : Decidable (ActsOn i k) :=
  inferInstanceAs (Decidable (_ ∨ _))

/-- Neither a market nor a prop vault is at the address. -/
def Absent (w : World D) (k : Pubkey) : Prop := w.book? k = none ∧ w.propVault? k = none

instance (w : World D) (k : Pubkey) : Decidable (Absent w k) :=
  inferInstanceAs (Decidable (_ ∧ _))

/-- The tokens that a transfer or a mint, by anybody, puts into the escrow. -/
def donation (O : OracleProgram D) (k : Pubkey) (w : World D) (i : Instruction D) : ℕ :=
  match step O w i with
  | .ok _ => donatedBy k i
  | .error _ => 0

/-- What the events of an operation on something else say was paid into the escrow. -/
def foreignPayout (O : OracleProgram D) (k : Pubkey) (w : World D) (i : Instruction D) : ℕ :=
  match step O w i with
  | .ok w' => if ActsOn i k then 0 else paidInto k i (w'.log.drop w.log.length)
  | .error _ => 0

def donations (O : OracleProgram D) (k : Pubkey) (w₀ : World D) (is : List (Instruction D)) : ℕ :=
  (machine O).accumulate (donation O k) w₀ is

def foreignPayouts (O : OracleProgram D) (k : Pubkey) (w₀ : World D)
    (is : List (Instruction D)) : ℕ :=
  (machine O).accumulate (foreignPayout O k) w₀ is

omit [Inhabited D] in
@[simp] theorem sent_append (k : Pubkey) (es fs : List (Event D)) :
    sent k (es ++ fs) = sent k es + sent k fs := by simp [sent]

omit [Inhabited D] in
@[simp] theorem received_append (k : Pubkey) (es fs : List (Event D)) :
    received k (es ++ fs) = received k es + received k fs := by simp [received]

omit [Inhabited D] in
/-- Events about other accounts state no amounts for this one. -/
theorem amounts_foreign (h : ∀ e ∈ es, ¬ About e k) : sent k es = 0 ∧ received k es = 0 := by
  constructor
  · refine List.sum_eq_zero (List.forall_mem_map.mpr fun e he => ?_)
    have := h e he
    cases e <;> simp_all [About, sentBy, Event.market?, Event.propVault?]
  · refine List.sum_eq_zero (List.forall_mem_map.mpr fun e he => ?_)
    have := h e he
    cases e <;> simp_all [About, receivedBy, Event.market?, Event.propVault?]

omit [Inhabited D] in
theorem key_canSign (hw : WellFormed w) (hk : ¬ Absent w k) : k.canSign = false := by
  cases hb : w.book? k with
  | some b =>
      rw [(hw.books k b hb).key]
      rfl
  | none =>
      cases hv : w.propVault? k with
      | some v =>
          rw [(hw.propVaults k v hv).key]
          rfl
      | none => exact absurd ⟨hb, hv⟩ hk

/-- The log and the escrow of one account, with what came from elsewhere. -/
structure EscrowInvariant (k : Pubkey) (w : World D) (given : ℕ) : Prop where
  log : LogInvariant w
  balance : w.escrow k + sent k w.log = received k w.log + given

/-- What a step brings into an escrow from elsewhere. -/
def given (O : OracleProgram D) (k : Pubkey) (w : World D) (i : Instruction D) : ℕ :=
  donation O k w i + foreignPayout O k w i

omit [Inhabited D] in
theorem donatedBy_of_acts (h : ActsOn i k) (j : Pubkey) : donatedBy j i = 0 :=
  h.elim (donatedBy_of_market · j) (donatedBy_of_propVault · j)

/-- An operation on something else adds what is donated and what it pays there. -/
theorem EscrowInvariant.idle {n : ℕ} (h : EscrowInvariant k w n) (hk : k.canSign = false)
    (hi : ¬ ActsOn i k) (hs : step O w i = .ok w') (he : Emits w i w' es) :
    EscrowInvariant k w' (n + given O k w i) := by
  have hforeign : ∀ e ∈ es, ¬ About e k := fun e hmem ha => hi (he.about e hmem k ha)
  obtain ⟨hsent, hreceived⟩ := amounts_foreign hforeign
  have hgiven : given O k w i = donatedBy k i + paidInto k i es := by
    simp [given, donation, foreignPayout, hs, if_neg hi, he.log]
  have hgains := he.gains k hk hi
  have hbalance := h.balance
  refine ⟨h.log.emits hs he, ?_⟩
  rw [he.log, sent_append, received_append, hsent, hreceived, hgiven]
  omega

/-- An operation on the account states the amounts it moves. -/
theorem EscrowInvariant.acts {n : ℕ} (h : EscrowInvariant k w n) (hi : ActsOn i k)
    (hs : step O w i = .ok w') (he : Emits w i w' es) :
    EscrowInvariant k w' (n + given O k w i) := by
  have hgiven : given O k w i = 0 := by
    simp [given, donation, foreignPayout, hs, if_pos hi, donatedBy_of_acts hi]
  have hmoney := he.money k hi
  have hbalance := h.balance
  refine ⟨h.log.emits hs he, ?_⟩
  rw [he.log, sent_append, received_append, hgiven]
  omega

theorem EscrowInvariant.step {n : ℕ} (h : EscrowInvariant k w n) (hk : k.canSign = false)
    (hs : step O w i = .ok w') : EscrowInvariant k w' (n + given O k w i) := by
  obtain ⟨es, he⟩ := step_emits h.log.wellFormed h.log.blank hs
  by_cases hi : ActsOn i k
  · exact h.acts hi hs he
  · exact h.idle hk hi hs he

theorem run_escrowInvariant (h₀ : Genesis w₀) (hk : k.canSign = false)
    (is : List (Instruction D)) : EscrowInvariant k ((machine O).run w₀ is)
      (donations O k w₀ is + foreignPayouts O k w₀ is) := by
  have hinit : EscrowInvariant k w₀ 0 := by
    refine ⟨Genesis.logInvariant h₀, ?_⟩
    have htitle := h₀.vaults k
    simp only [Ledger.title, Option.map_eq_none_iff] at htitle
    simp [h₀.log, sent, received, World.escrow, Ledger.balance, htitle]
  have h := Machine.run_accumulates (M := machine O) (f := given O k) (P := EscrowInvariant k)
    (fun s i t n hP hs => hP.step hk hs) ?_ hinit is
  · rw [Nat.zero_add] at h
    rw [donations, foreignPayouts, ← Machine.accumulate_add]
    exact h
  · intro s i e he
    have he : step O s i = .error e := he
    simp [given, donation, foreignPayout, he]

/-- The second vault is sent 50 by a wallet and paid 500 by the first. -/
def donatedRun : List (Instruction Unit) :=
  twoVaultsRun ++ [.splTransfer (.key 3) (.vault secondVault) (.key 13) 50, settleFirst]

end ProofBook.AuditTrail
