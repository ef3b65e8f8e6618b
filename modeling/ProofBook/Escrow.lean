import ProofBook.WinnerPayouts

/-!
# The escrow of a prop vault

Two permissionless exits compete for one escrow. It leaves whole, in the step
that leaves Funded, to the beneficiary exactly when a verified predicate held.
Operations on other vaults can at most add to it.
-/
namespace ProofBook.Escrow
open Addresses State Checked OracleWire OracleAdapter TokenLedger Totals Chain Program Runs Steps
open StepCases MarketRuns
open Instructions.Betting Instructions.Settlement Instructions.Payments Instructions.PropVaults

variable {D : Type}

/-- The whole escrow went to a token account of the given owner. -/
def SentTo (w w' : World D) (k : Pubkey) (v : PropVault D) (owner : Pubkey) : Prop :=
  ∃ t, w.ledger.title t = some (v.usdcMint, owner) ∧
    w'.ledger.balance t = w.ledger.balance t + w.escrow k ∧ w'.escrow k = 0

/-- A settle of the vault with the oracle's verdict on its predicate. -/
def SettledBy (O : OracleProgram D) (w : World D) (k : Pubkey) (v : PropVault D)
    (i : Instruction D) (holds : Bool) : Prop :=
  ∃ ctx proof, i = .settlePropVault ctx proof ∧ ctx.propVault = k ∧
    buildAndVerifyV3Legs O w.rootsView O.programId ctx.oracleRoots v.fixtureId v.legs v.predicates
      proof = .ok holds

def CancelledBy (k : Pubkey) (i : Instruction D) : Prop :=
  ∃ ctx, i = .cancelPropVault ctx ∧ ctx.propVault = k

/-- What one operation may do to a prop vault. -/
structure VaultLaw (O : OracleProgram D) (w w' : World D) (k : Pubkey) (v : PropVault D)
    (i : Instruction D) (v' : PropVault D) : Prop where
  leaves : v.status = .funded → v'.status ≠ .funded →
    (SettledBy O w k v i true ∧ v'.status = .paidOut ∧ SentTo w w' k v v.beneficiary) ∨
      ((SettledBy O w k v i false ∨ CancelledBy k i) ∧ v'.status = .refunded ∧
        SentTo w w' k v v.depositor)
  stays : v'.status = v.status → w.escrow k ≤ w'.escrow k
  final : v.status ≠ .funded → v' = v
  settle_late : ∀ holds, SettledBy O w k v i holds → v.lockTime ≤ w.clock
  cancel_late : CancelledBy k i →
    v.lockTime.toInt + v.resolutionTimeout.toInt < w.clock.toInt

/-- What an operation on one vault may do to another: pay into it, as the
beneficiary of a settle that held. -/
structure ForeignLaw (O : OracleProgram D) (w w' : World D) (i : Instruction D) (j k : Pubkey) :
    Prop where
  state : w'.propVault? k = w.propVault? k
  escrow : w'.escrow k = w.escrow k ∨ (w.escrow k < w'.escrow k ∧
    ∃ u, w.propVault? j = some u ∧ u.beneficiary = k ∧ SettledBy O w j u i true)

/-! ## One step -/

variable {O : OracleProgram D} {w w' w₀ : World D} {k j : Pubkey} {v v' : PropVault D}
  {i : Instruction D}

theorem sentTo_of_moved {dst owner : Pubkey} (ht : w.ledger.title dst = some (v.usdcMint, owner))
    (he : w'.escrow k + w.escrow k = w.escrow k + 0) (hp : 0 < w.escrow k)
    (hm : 0 < w.escrow k →
      Ledger.Moved w.ledger w'.ledger (.vault k) dst k (w.escrow k)) : SentTo w w' k v owner :=
  ⟨dst, ht, (hm hp).credit, by omega⟩

theorem vaultStep_law {x y : ℕ} (h : VaultStep O w w' k v i v' x y)
    (he : w'.escrow k + y = w.escrow k + x) (hc : v.status = .funded → 0 < w.escrow k) :
    VaultLaw O w w' k v i v' := by
  cases h with
  | idle hi =>
      refine ⟨fun h hn => absurd h hn, fun _ => by omega, fun _ => rfl, ?_, ?_⟩
      · rintro holds ⟨ctx, proof, rfl, hk, -⟩
        exact absurd (congrArg some hk) hi
      · rintro ⟨ctx, rfl, hk⟩
        exact absurd (congrArg some hk) hi
  | settle hk hs hm =>
      rename_i ctx proof holds
      have hp := hc hs.status
      refine ⟨fun _ _ => ?_, fun hst => ?_, fun hn => absurd hs.status hn, fun _ _ => hs.late, ?_⟩
      · cases holds
        · exact .inr ⟨.inl ⟨ctx, proof, rfl, hk, hs.verdict⟩, rfl,
            sentTo_of_moved hs.depositorToken he hp hm⟩
        · exact .inl ⟨⟨ctx, proof, rfl, hk, hs.verdict⟩, rfl,
            sentTo_of_moved hs.beneficiaryToken he hp hm⟩
      · rw [hs.status] at hst
        cases holds <;> cases hst
      · rintro ⟨ctx', hi, -⟩
        cases hi
  | cancel hk hs hm =>
      have hp := hc hs.status
      refine ⟨fun _ _ => ?_, fun hst => ?_, fun hn => absurd hs.status hn, ?_, fun _ => ?_⟩
      · exact .inr ⟨.inr ⟨_, rfl, hk⟩, rfl, sentTo_of_moved hs.depositorToken he hp hm⟩
      · rw [hs.status] at hst
        cases hst
      · rintro holds ⟨ctx', proof, hi, -⟩
        cases hi
      · have hd := (checkedAddI64_eq_some hs.sum).1
        have hl := Int64.lt_iff_toInt_lt.mp hs.late
        omega

/-- A transfer between two other accounts leaves an escrow alone. -/
theorem transfer_frame {l l' : Ledger Pubkey} {src dst authority : Pubkey} {amount : ℕ}
    (h : l.transfer src dst authority amount = .ok l') (hs : .vault k ≠ src)
    (hd : .vault k ≠ dst) : l'.balance (.vault k) = l.balance (.vault k) := by
  by_cases hne : src = dst
  · subst hne
    rw [Ledger.transfer_self h]
  · exact (Ledger.transfer_ok hne h).others _ hs hd

theorem not_canSign (ok : PropVaultOk w.ledger k v) : k.canSign = false := by
  rw [ok.key]
  rfl

/-- A token account owned by a wallet is no prop vault's escrow. -/
theorem escrow_ne_token (hw : WellFormed w) (ok : PropVaultOk w.ledger k v) {t m o : Pubkey}
    (ht : w.ledger.title t = some (m, o)) (ho : o.canSign = true) : .vault k ≠ t := by
  rintro rfl
  obtain rfl := hw.owners k m o ht
  rw [not_canSign ok] at ho
  cases ho

theorem sweep_foreign {w₁ : World D} {dst : Pubkey} (hjk : j ≠ k) (hd : .vault k ≠ dst)
    (h : sweep w (.vault j) dst j = .ok w₁) : w₁.escrow k = w.escrow k := by
  rcases sweep_ok h with ⟨-, rfl⟩ | ⟨-, l, hl, rfl⟩
  · rfl
  · exact transfer_frame hl (fun he => hjk (Pubkey.vault.inj he).symm) hd

variable [Inhabited D]

theorem step_foreign (hw : WellFormed w) (h : step O w i = .ok w')
    (hv : w.propVault? k = some v) (hj : Instruction.propVault? i = some j) (hjk : j ≠ k) :
    ForeignLaw O w w' i j k := by
  have ok := hw.propVaults k v hv
  have hne : Instruction.propVault? i ≠ some k := by
    rw [hj]
    exact fun he => hjk (Option.some.inj he)
  refine ⟨step_idle_propVault h hne, ?_⟩
  cases i <;> simp only [Instruction.propVault?, Option.some.injEq, reduceCtorEq] at hj <;>
    subst hj
  case initializePropVault ctx p =>
    obtain ⟨hs, -, -, -, ht, l₁, l, es, hl₁, hl, rfl⟩ := initializePropVault_ok h
    have hvault : (Pubkey.vault k) ≠ .vault (ctx.vaultKey p) :=
      fun he => hjk (Pubkey.vault.inj he).symm
    refine .inl ?_
    rw [World.setPropVault_escrow, World.setLedger_escrow,
      transfer_frame hl (escrow_ne_token hw ok ht hs) hvault,
      ((Ledger.initializeAccount_title hl₁).2.2 _ hvault).2, World.escrow]
  case settlePropVault ctx proof =>
    obtain ⟨u, holds, w₁, es, hc, hs, rfl⟩ := settlePropVault_ok h
    have hu := hw.propVaults _ u hc.propVault
    have hvk := hc.vault.symm.trans hu.vault
    rw [hvk] at hs
    by_cases hd : .vault k = ctx.destination holds
    · cases holds with
      | false =>
          have htok : w.ledger.title (.vault k) = some (u.usdcMint, u.depositor) :=
            hd ▸ hc.depositorToken
          exact absurd rfl (escrow_ne_token hw ok htok hu.depositor)
      | true =>
          have htok : w.ledger.title (.vault k) = some (u.usdcMint, u.beneficiary) :=
            hd ▸ hc.beneficiaryToken
          have hben := hw.owners k _ _ htok
          rcases sweep_ok hs with ⟨-, rfl⟩ | ⟨hpos, l, hl, rfl⟩
          · exact .inl rfl
          · have hdst : (Pubkey.vault ctx.propVault) ≠ ctx.destination true :=
              hvk ▸ hc.distinct true
            have hm := Ledger.transfer_ok hdst hl
            refine .inr ⟨?_, u, hc.propVault, hben, ctx, proof, rfl, rfl, hc.verdict⟩
            have hcred : l.balance (.vault k) =
                w.ledger.balance (.vault k) + w.ledger.balance (.vault ctx.propVault) :=
              hd ▸ hm.credit
            rw [World.setPropVault_escrow, World.setLedger_escrow, hcred, World.escrow]
            omega
    · exact .inl (World.setPropVault_escrow.trans (sweep_foreign hjk hd hs))
  case cancelPropVault ctx =>
    obtain ⟨u, d, w₁, es, hc, hs, rfl⟩ := cancelPropVault_ok h
    have hu := hw.propVaults _ u hc.propVault
    rw [hc.vault.symm.trans hu.vault] at hs
    exact .inl (World.setPropVault_escrow.trans
      (sweep_foreign hjk (escrow_ne_token hw ok hc.depositorToken hu.depositor) hs))

/-! ## Whole runs -/

/-- What holds of a prop vault, with the number of times its escrow has left. -/
structure VaultSound (v : PropVault D) (escrow departed : ℕ) : Prop where
  positive : 0 < v.amount
  covered : v.status = .funded → v.amount ≤ escrow
  departed : departed = if v.status = .funded then 0 else 1

/-- Whether an operation lowered the balance of the vault's escrow. -/
def departure (O : OracleProgram D) (k : Pubkey) (w : World D) (i : Instruction D) : ℕ :=
  if w.propVault? k ≠ none ∧ ((machine O).apply w i).escrow k < w.escrow k then 1 else 0

def departures (O : OracleProgram D) (k : Pubkey) (w₀ : World D) (is : List (Instruction D)) :
    ℕ := (machine O).accumulate (departure O k) w₀ is

omit [Inhabited D] in
theorem VaultSound.step {n x y : ℕ} (h : VaultSound v (w.escrow k) n)
    (hs : VaultStep O w w' k v i v' x y) (he : w'.escrow k + y = w.escrow k + x) :
    VaultSound v' (w'.escrow k) (n + if w'.escrow k < w.escrow k then 1 else 0) := by
  have leave : ∀ {u : PropVault D}, v.status = .funded → u.status ≠ .funded →
      u.amount = v.amount → w'.escrow k + w.escrow k = w.escrow k + 0 →
      VaultSound u (w'.escrow k) (n + if w'.escrow k < w.escrow k then 1 else 0) := by
    intro u hv hu ha h0
    have hc := h.covered hv
    have hp := h.positive
    have hn := h.departed
    rw [if_pos hv] at hn
    refine ⟨by rw [ha]; exact hp, fun hf => absurd hf hu, ?_⟩
    rw [if_neg hu, if_pos (by omega), hn]
  cases hs with
  | idle hi =>
      refine ⟨h.positive, fun hf => (h.covered hf).trans (by omega), ?_⟩
      rw [if_neg (by omega)]
      exact h.departed
  | settle hk hc hm =>
      rename_i ctx proof holds
      exact leave hc.status (by cases holds <;> simp [resolveVault]) rfl he
  | cancel hk hc hm => exact leave hc.status (by simp [expireVault]) rfl he

structure VaultInvariant (k : Pubkey) (w : World D) (departed : ℕ) : Prop where
  wellFormed : WellFormed w
  absent : w.propVault? k = none → departed = 0
  sound : ∀ v, w.propVault? k = some v → VaultSound v (w.escrow k) departed

theorem VaultInvariant.step {n : ℕ} (h : VaultInvariant k w n) (hs : step O w i = .ok w') :
    VaultInvariant k w' (n + departure O k w i) := by
  have happly : (machine O).apply w i = w' := Machine.apply_of_ok hs
  cases hv : w.propVault? k with
  | none =>
      have hn : n + departure O k w i = 0 := by simp [departure, hv, h.absent hv]
      refine ⟨WellFormed.step h.wellFormed hs, fun _ => hn, fun v' hv' => ?_⟩
      obtain ⟨ctx, p, -, -, -, ha, rfl, -, he, -⟩ := step_propVault_new hs hv hv'
      rw [hn, he]
      exact ⟨ha.positive, fun _ => le_rfl, rfl⟩
  | some v =>
      obtain ⟨v', x, y, hv', hstep, he⟩ := step_propVault h.wellFormed hs hv
      refine ⟨WellFormed.step h.wellFormed hs, fun hn => ?_, fun u hu => ?_⟩
      · rw [hn] at hv'
        cases hv'
      · obtain rfl := Option.some.inj (hv'.symm.trans hu)
        have hd := (h.sound v hv).step hstep he
        simpa [departure, hv, happly] using hd

theorem run_vaultInvariant (h₀ : Genesis w₀) (is : List (Instruction D)) :
    VaultInvariant k ((machine O).run w₀ is) (departures O k w₀ is) := by
  have h := Machine.run_accumulates (M := machine O) (f := departure O k)
    (P := VaultInvariant k) (n := 0) (fun s i t n hP hs => hP.step hs) ?_
    ⟨Genesis.wellFormed h₀, fun _ => rfl, fun v hv => by
      simp [World.propVault?, h₀.propVaults] at hv⟩ is
  · rwa [Nat.zero_add] at h
  · intro s i e he
    simp [departure, Machine.apply_of_error he]

theorem reachable_vaultSound (hw : Reachable O w) (hv : w.propVault? k = some v) :
    ∃ departed, VaultSound v (w.escrow k) departed := by
  obtain ⟨w₀, is, h₀, rfl⟩ := hw
  exact ⟨_, (run_vaultInvariant h₀ is).sound v hv⟩

/-- The escrow of a funded vault covers its amount; it has left exactly once
when the vault is no longer funded; every further step obeys the law of the
vault it acts on and leaves the state of all others. -/
theorem prop_vault_escrow (h₀ : Genesis w₀) (is : List (Instruction D))
    (hv : ((machine O).run w₀ is).propVault? k = some v) :
    (v.status = .funded → v.amount ≤ ((machine O).run w₀ is).escrow k) ∧
      departures O k w₀ is = (if v.status = .funded then 0 else 1) ∧
      ∀ i w', step O ((machine O).run w₀ is) i = .ok w' →
        (∃ v', w'.propVault? k = some v' ∧ VaultLaw O ((machine O).run w₀ is) w' k v i v') ∧
          ∀ j, Instruction.propVault? i = some j → j ≠ k →
            ForeignLaw O ((machine O).run w₀ is) w' i j k := by
  have hinv := run_vaultInvariant (O := O) (k := k) h₀ is
  have hs := hinv.sound v hv
  refine ⟨hs.covered, hs.departed, fun i w' hi => ⟨?_, fun j hj hjk => ?_⟩⟩
  · obtain ⟨v', x, y, hv', hstep, he⟩ := step_propVault hinv.wellFormed hi hv
    exact ⟨v', hv', vaultStep_law hstep he fun hf => hs.positive.trans_le (hs.covered hf)⟩
  · exact step_foreign hinv.wellFormed hi hv hj hjk

/-! ## Two vaults, one the beneficiary of the other -/

def firstVault : Pubkey := .propVault (.key 12) 0
def secondVault : Pubkey := .propVault (.key 13) 0

def createVault {D : Type} (wallet amount : ℕ) (beneficiary : Pubkey) : Instruction D :=
  .initializePropVault ⟨.key (wallet + 10), .key 1, .key wallet⟩
    ⟨0, [⟨1, 100⟩], [.single 0 .greaterThan 2], 7, amount, beneficiary, 100, 50⟩

/-- Past its lock time the first vault pays into the escrow of the second. -/
def settleFirst : Instruction Unit :=
  .settlePropVault ⟨.key 30, firstVault, .vault firstVault, .vault secondVault, .key 2, .key 9,
    .dailyScores (.key 9) 0⟩ ⟨0, ⟨7, ⟨1, 0, 0⟩, ()⟩, [], [], (), [3], [], [0]⟩

def twoVaultsRun : List (Instruction Unit) :=
  fundWallets ++ [createVault 2 500 secondVault, createVault 3 300 (.key 14), .setClock 100]

def twoVaultsWorld : World Unit := (machine acceptingOracle).run (emptyWorld Unit) twoVaultsRun

theorem twoVaultsWorld_vault :
    (twoVaultsWorld.propVault? secondVault).map (·.status) = some .funded := by
  decide +kernel

theorem prop_vault_escrow_twoVaults :
    ∃ v, twoVaultsWorld.propVault? secondVault = some v ∧
      v.amount ≤ twoVaultsWorld.escrow secondVault := by
  obtain ⟨v, hv, hs⟩ := Option.map_eq_some_iff.mp twoVaultsWorld_vault
  exact ⟨v, hv, (prop_vault_escrow emptyWorld_genesis twoVaultsRun hv).1 hs⟩

/-- The settlement of one vault changes the balance of another. -/
theorem escrow_not_isolated :
    ¬ ∀ (w w' : World Unit) (i : Instruction Unit) (j k : Pubkey), Reachable acceptingOracle w →
      w.propVault? k ≠ none → Instruction.propVault? i = some j → j ≠ k →
      step acceptingOracle w i = .ok w' → w'.escrow k = w.escrow k := by
  intro h
  obtain ⟨w', hw'⟩ : ∃ w', step acceptingOracle twoVaultsWorld settleFirst = .ok w' := by
    have hs : (step acceptingOracle twoVaultsWorld settleFirst).toOption.isSome = true := by
      decide +kernel
    cases hr : step acceptingOracle twoVaultsWorld settleFirst with
    | ok w' => exact ⟨w', rfl⟩
    | error e => simp [hr, Except.toOption] at hs
  have hv : twoVaultsWorld.propVault? secondVault ≠ none := by
    intro hn
    have := twoVaultsWorld_vault
    rw [hn] at this
    cases this
  have hsame := h twoVaultsWorld w' settleFirst firstVault secondVault
    ⟨_, twoVaultsRun, emptyWorld_genesis, rfl⟩ hv rfl (by decide) hw'
  have happly : (machine acceptingOracle).apply twoVaultsWorld settleFirst = w' :=
    Machine.apply_of_ok hw'
  have hbal : twoVaultsWorld.escrow secondVault = 300 ∧
      ((machine acceptingOracle).apply twoVaultsWorld settleFirst).escrow secondVault = 800 := by
    decide +kernel
  rw [happly] at hbal
  omega

end ProofBook.Escrow
