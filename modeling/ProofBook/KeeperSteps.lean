import ProofBook.Keeper

/-!
# Steps of the keeper

What every operation of the keeper keeps, whatever the state: accounts only move
forward, an address stands for the same record, what was submitted stays so. The
sweeper's pass is touched by its own operations only.
-/
namespace ProofBook.Keeper
open Addresses ProofBook.State Objects Store Runs

/-! ## Accounts only move forward -/

structure Later (a b : Account) : Prop where
  lockTime : b.lockTime = a.lockTime
  resolutionTimeout : b.resolutionTimeout = a.resolutionTimeout
  status : Forward a.status b.status

theorem Later.refl (a : Account) : Later a a := ⟨rfl, rfl, .inl rfl⟩

theorem Later.trans {a b c : Account} (h : Later a b) (h' : Later b c) : Later a c :=
  ⟨h'.lockTime.trans h.lockTime, h'.resolutionTimeout.trans h.resolutionTimeout,
    h.status.trans h'.status⟩

/-- The market had this account at some time. -/
def Seen (accounts : Accounts) (pda : Pubkey) (a : Account) : Prop :=
  ∃ b, accounts pda = some b ∧ Later a b

/-- The market came at least this far. -/
def Past (accounts : Accounts) (pda : Pubkey) (n : ℕ) : Prop :=
  ∃ b, accounts pda = some b ∧ n ≤ stage b.status

def Grows (accounts accounts' : Accounts) : Prop :=
  ∀ pda a, accounts pda = some a → Seen accounts' pda a

theorem Grows.refl (accounts : Accounts) : Grows accounts accounts :=
  fun _ a h => ⟨a, h, Later.refl a⟩

theorem Grows.trans {a b c : Accounts} (h : Grows a b) (h' : Grows b c) : Grows a c := by
  intro pda x hx
  obtain ⟨y, hy, hxy⟩ := h pda x hx
  obtain ⟨z, hz, hyz⟩ := h' pda y hy
  exact ⟨z, hz, hxy.trans hyz⟩

theorem Grows.update {accounts : Accounts} {pda : Pubkey} {b : Account}
    (h : ∀ a, accounts pda = some a → Later a b) :
    Grows accounts (Function.update accounts pda (some b)) := by
  intro pda' a ha
  by_cases hp : pda' = pda
  · subst hp
    exact ⟨b, Function.update_self .., h a ha⟩
  · exact ⟨a, by rwa [Function.update_of_ne hp], Later.refl a⟩

theorem Grows.create {accounts : Accounts} {pda : Pubkey} {b : Account}
    (h : accounts pda = none) : Grows accounts (Function.update accounts pda (some b)) := by
  refine .update fun a ha => ?_
  rw [h] at ha
  cases ha

section
variable {accounts accounts' : Accounts} {pda : Pubkey}

theorem Seen.grows {a : Account} (h : Seen accounts pda a) (hg : Grows accounts accounts') :
    Seen accounts' pda a := by
  obtain ⟨b, hb, hab⟩ := h
  obtain ⟨c, hc, hbc⟩ := hg pda b hb
  exact ⟨c, hc, hab.trans hbc⟩

theorem Past.grows {n : ℕ} (h : Past accounts pda n) (hg : Grows accounts accounts') :
    Past accounts' pda n := by
  obtain ⟨b, hb, hn⟩ := h
  obtain ⟨c, hc, hbc⟩ := hg pda b hb
  exact ⟨c, hc, hn.trans (hbc.status.stage_le)⟩

theorem Seen.past {a : Account} (h : Seen accounts pda a) : Past accounts pda (stage a.status) := by
  obtain ⟨b, hb, hab⟩ := h
  exact ⟨b, hb, hab.status.stage_le⟩

theorem Past.le {n m : ℕ} (h : Past accounts pda n) (hm : m ≤ n) : Past accounts pda m := by
  obtain ⟨b, hb, hn⟩ := h
  exact ⟨b, hb, hm.trans hn⟩

end

/-! ## Answers -/

def Landed (accounts : Accounts) : Tx → Prop
  | .initializeMarket pda lockTime resolutionTimeout =>
      ∃ b, accounts pda = some b ∧ b.lockTime = lockTime ∧ b.resolutionTimeout = resolutionTimeout
  | .lockMarket pda => Past accounts pda 1
  | .cancelMarket pda | .settleMarket pda => Past accounts pda 2

/-- What an answer to a call says about the accounts from then on. -/
def Answers (accounts : Accounts) : Call → Reply → Prop
  | .read pda, .account (some a) => Seen accounts pda a
  | .send tx, .confirmed => Landed accounts tx
  | .send (.settleMarket pda), .failed .alreadyResolved => Past accounts pda 2
  | _, .failed .alreadyResolved | .send _, .account _ => False
  | _, _ => True

theorem Landed.grows {accounts accounts' : Accounts} {tx : Tx} (h : Landed accounts tx)
    (hg : Grows accounts accounts') : Landed accounts' tx := by
  cases tx with
  | initializeMarket pda lockTime resolutionTimeout =>
      obtain ⟨b, hb, hl, hr⟩ := h
      obtain ⟨c, hc, hbc⟩ := hg pda b hb
      exact ⟨c, hc, hbc.lockTime.trans hl, hbc.resolutionTimeout.trans hr⟩
  | lockMarket pda => exact Past.grows h hg
  | cancelMarket pda => exact Past.grows h hg
  | settleMarket pda => exact Past.grows h hg

theorem Answers.grows {accounts accounts' : Accounts} {c : Call} {r : Reply}
    (h : Answers accounts c r) (hg : Grows accounts accounts') : Answers accounts' c r := by
  unfold Answers at h ⊢
  split at h
  · exact Seen.grows h hg
  · exact Landed.grows h hg
  · exact Past.grows h hg
  · exact h.elim
  · exact h.elim
  · trivial

/-! ## Calls -/

theorem Grows.move {accounts : Accounts} {pda : Pubkey} {a : Account} {status : MarketStatus}
    (ha : accounts pda = some a) (hlt : stage a.status < stage status) :
    Grows accounts (Function.update accounts pda (some { a with status })) := by
  refine .update fun a' ha' => ?_
  injection ha.symm.trans ha' with haa
  subst haa
  exact ⟨rfl, rfl, .inr hlt⟩

theorem Past.move {accounts : Accounts} {pda : Pubkey} {a : Account} {status : MarketStatus} :
    Past (Function.update accounts pda (some { a with status })) pda (stage status) :=
  ⟨_, Function.update_self .., le_rfl⟩

theorem Tx.land_spec {voided : Bool} {accounts accounts' : Accounts} {tx : Tx}
    (h : tx.land voided accounts = some accounts') :
    Grows accounts accounts' ∧ Landed accounts' tx := by
  cases tx with
  | initializeMarket pda lockTime resolutionTimeout =>
      simp only [Tx.land] at h
      split at h
      next hnew =>
        injection h with h
        subst h
        exact ⟨.update fun a ha => (nomatch hnew.1.symm.trans ha),
          _, Function.update_self .., rfl, rfl⟩
      · cases h
  | lockMarket pda =>
      simp only [Tx.land, Option.bind_eq_bind, Option.bind_eq_some_iff] at h
      obtain ⟨a, ha, h⟩ := h
      split at h
      next hst =>
        injection h with h
        subst h
        exact ⟨.move ha (by rw [hst]; decide), .move⟩
      · cases h
  | cancelMarket pda =>
      simp only [Tx.land, Option.bind_eq_bind, Option.bind_eq_some_iff] at h
      obtain ⟨a, ha, h⟩ := h
      split at h
      next hst =>
        injection h with h
        subst h
        exact ⟨.move ha (by rw [hst]; decide), .move⟩
      · cases h
  | settleMarket pda =>
      simp only [Tx.land, Option.bind_eq_bind, Option.bind_eq_some_iff] at h
      obtain ⟨a, ha, h⟩ := h
      split at h
      next hst =>
        injection h with h
        subst h
        have hstage : stage (if voided = true then MarketStatus.cancelled else .settled) = 2 := by
          cases voided <;> rfl
        exact ⟨.move ha (by rw [hst, hstage]; decide), Past.move.le hstage.ge⟩
      · cases h

theorem Call.serve_spec {voided reported : Bool} {accounts accounts' : Accounts} {c : Call}
    {r : Reply} (h : c.serve voided reported accounts = some (accounts', r)) :
    Grows accounts accounts' ∧ Answers accounts' c r := by
  cases c with
  | read pda =>
      simp only [Call.serve, Option.some.injEq, Prod.mk.injEq] at h
      obtain ⟨rfl, rfl⟩ := h
      refine ⟨.refl _, ?_⟩
      split
      · cases ha : accounts pda with
        | none => trivial
        | some a => exact ⟨a, ha, .refl a⟩
      · trivial
  | proof =>
      simp only [Call.serve, Option.some.injEq, Prod.mk.injEq] at h
      obtain ⟨rfl, rfl⟩ := h
      refine ⟨.refl _, ?_⟩
      split <;> trivial
  | send tx =>
      simp only [Call.serve, Option.map_eq_some_iff, Prod.mk.injEq] at h
      obtain ⟨accounts', hland, rfl, rfl⟩ := h
      obtain ⟨hg, hl⟩ := Tx.land_spec hland
      refine ⟨hg, ?_⟩
      split
      · exact hl
      · cases tx <;> trivial

theorem Call.mayFail_spec {accounts : Accounts} {c : Call} {e : Failure}
    (h : c.MayFail accounts e) : Answers accounts c (.failed e) := by
  cases e with
  | alreadyResolved =>
      obtain ⟨pda, rfl, ht⟩ := h rfl
      obtain ⟨a, ha, hterm⟩ := (Option.any_eq_true _ _).mp ht
      exact ⟨a, ha, (stage_of_terminal hterm).ge⟩
  | fatal => cases c with
    | send tx => cases tx <;> trivial
    | read _ => trivial
    | proof => trivial
  | retryable => cases c with
    | send tx => cases tx <;> trivial
    | read _ => trivial
    | proof => trivial

/-! ## References -/

section
variable {s : State}

theorem pdaOf_of_record {ref : ℕ} {m : Record} (hm : s.records[ref]? = some m) :
    s.pdaOf ref = some m.marketPda := by
  simp [State.pdaOf, hm]

theorem pdaOf_eq_some {ref : ℕ} {pda : Pubkey} :
    s.pdaOf ref = some pda ↔ ∃ m, s.records[ref]? = some m ∧ m.marketPda = pda := by
  simp [State.pdaOf]

theorem pdaOf_modifyRecord {ref : ℕ} {f : Record → Record}
    (hf : ∀ m, (f m).marketPda = m.marketPda) : (s.modifyRecord ref f).pdaOf = s.pdaOf := by
  funext r
  simp only [State.pdaOf, State.modifyRecord, List.getElem?_modify]
  cases s.records[r]? with
  | none => rfl
  | some m =>
      simp only [Option.map_eq_map, Option.map_some]
      split
      · rw [hf]
      · rfl

@[simp] theorem pdaOf_setPhase (ref : ℕ) (phase : MarketPhase) :
    (s.setPhase ref phase).pdaOf = s.pdaOf :=
  pdaOf_modifyRecord fun _ => rfl

theorem getElem?_modifyRecord {ref r : ℕ} {f : Record → Record} {m : Record} :
    (s.modifyRecord ref f).records[r]? = some m ↔
      ∃ m₀, s.records[r]? = some m₀ ∧ m = if ref = r then f m₀ else m₀ := by
  simp only [State.modifyRecord, List.getElem?_modify]
  cases s.records[r]? with
  | none => simp
  | some m₀ => simp [eq_comm]

theorem pdaOf_track {m : Record} {ref : ℕ} {pda : Pubkey} (h : s.pdaOf ref = some pda) :
    (s.track m).pdaOf ref = some pda := by
  obtain ⟨m₀, hm₀, rfl⟩ := pdaOf_eq_some.mp h
  have hlt := (List.getElem?_eq_some_iff.mp hm₀).1
  exact pdaOf_eq_some.mpr ⟨m₀, (List.getElem?_append_left hlt).trans hm₀, rfl⟩

end

/-! ## What every operation keeps -/

/-- The tracked markets refer to their own records. -/
def TrackedOk (s : State) : Prop := ∀ p ∈ s.tracked.values, s.pdaOf p.2 = some p.1

structure Keeps (s t : State) : Prop where
  pdaOf : ∀ ref pda, s.pdaOf ref = some pda → t.pdaOf ref = some pda
  accounts : Grows s.accounts t.accounts
  tracked : TrackedOk s → TrackedOk t
  submitted : s.submitted <:+ t.submitted

/-- And the pass of the sweeper is left alone. -/
structure Aside (s t : State) : Prop extends Keeps s t where
  sweep : t.sweep = s.sweep

section
variable {cfg : Config} {s t u : State}

theorem Keeps.refl (s : State) : Keeps s s :=
  ⟨fun _ _ h => h, .refl _, id, List.suffix_rfl⟩

theorem Keeps.trans (h : Keeps s t) (h' : Keeps t u) : Keeps s u :=
  ⟨fun ref pda hp => h'.pdaOf ref pda (h.pdaOf ref pda hp), h.accounts.trans h'.accounts,
    h'.tracked ∘ h.tracked, h.submitted.trans h'.submitted⟩

theorem Keeps.count_le (h : Keeps s t) (tx : Tx) : s.submitted.count tx ≤ t.submitted.count tx :=
  h.submitted.sublist.count_le tx

theorem Keeps.setSweep (h : Keeps s t) (x : Option Sweep) : Keeps s (t.setSweep x) :=
  ⟨h.pdaOf, h.accounts, h.tracked, h.submitted⟩

theorem Keeps.submit (h : Keeps s t) (tx : Tx) : Keeps s (t.submit tx) :=
  ⟨h.pdaOf, h.accounts, h.tracked, h.submitted.trans (List.suffix_cons ..)⟩

theorem Keeps.modifyRecord (h : Keeps s t) {ref : ℕ} {f : Record → Record}
    (hf : ∀ m, (f m).marketPda = m.marketPda) : Keeps s (t.modifyRecord ref f) := by
  have hpda : (t.modifyRecord ref f).pdaOf = t.pdaOf := pdaOf_modifyRecord hf
  exact ⟨fun r pda hp => hpda ▸ h.pdaOf r pda hp, h.accounts,
    fun hs p hp => hpda ▸ h.tracked hs p hp, h.submitted⟩

theorem Keeps.setPhase (h : Keeps s t) (ref : ℕ) (phase : MarketPhase) :
    Keeps s (t.setPhase ref phase) :=
  h.modifyRecord fun _ => rfl

theorem Keeps.track (h : Keeps s t) (m : Record) : Keeps s (t.track m) := by
  refine ⟨fun ref pda hp => pdaOf_track (h.pdaOf ref pda hp), h.accounts, fun hs p hp => ?_,
    h.submitted⟩
  rcases ObjectMap.mem_set.mp hp with rfl | ⟨hp, -⟩
  · exact pdaOf_eq_some.mpr ⟨m, by simp [State.track], rfl⟩
  · exact pdaOf_track (h.tracked hs p hp)

theorem Keeps.setAccounts (h : Keeps s t) {accounts : Accounts} (hg : Grows t.accounts accounts) :
    Keeps s { t with accounts } :=
  ⟨h.pdaOf, h.accounts.trans hg, h.tracked, h.submitted⟩

theorem Aside.refl (s : State) : Aside s s := ⟨.refl s, rfl⟩

theorem Aside.submit (h : Aside s t) (tx : Tx) : Aside s (t.submit tx) :=
  ⟨h.toKeeps.submit tx, h.sweep⟩

theorem Aside.modifyRecord (h : Aside s t) {ref : ℕ} {f : Record → Record}
    (hf : ∀ m, (f m).marketPda = m.marketPda) : Aside s (t.modifyRecord ref f) :=
  ⟨h.toKeeps.modifyRecord hf, h.sweep⟩

theorem Aside.setPhase (h : Aside s t) (ref : ℕ) (phase : MarketPhase) :
    Aside s (t.setPhase ref phase) :=
  ⟨h.toKeeps.setPhase ref phase, h.sweep⟩

theorem Aside.track (h : Aside s t) (m : Record) : Aside s (t.track m) :=
  ⟨h.toKeeps.track m, h.sweep⟩

theorem Aside.setAttempt (h : Aside s t) (pda : Pubkey) (x : Option Attempt) :
    Aside s (t.setAttempt pda x) :=
  ⟨⟨h.pdaOf, h.accounts, h.tracked, h.submitted⟩, h.sweep⟩

theorem Aside.setEnsure (h : Aside s t) (i : ℕ) (x : Option Ensure) : Aside s (t.setEnsure i x) :=
  ⟨⟨h.pdaOf, h.accounts, h.tracked, h.submitted⟩, h.sweep⟩

theorem Aside.setFixtures (h : Aside s t) (fixtures : ObjectMap FixtureLive.fixtureId) :
    Aside s { t with fixtures } :=
  ⟨⟨h.pdaOf, h.accounts, h.tracked, h.submitted⟩, h.sweep⟩

theorem Aside.setAccounts (h : Aside s t) {accounts : Accounts} (hg : Grows t.accounts accounts) :
    Aside s { t with accounts } :=
  ⟨h.toKeeps.setAccounts hg, h.sweep⟩

theorem Aside.startAttempt (h : Aside s t) (pda : Pubkey) (seq : ℤ) :
    Aside s (startAttempt t pda seq) := by
  unfold Keeper.startAttempt
  split
  · exact Aside.setAttempt (h.modifyRecord (by intro; rfl)) pda _
  · exact h

theorem Aside.onFinalised (h : Aside s t) (fixtureId seq : ℤ) :
    Aside s (onFinalised cfg t fixtureId seq) := by
  unfold Keeper.onFinalised
  split
  · exact Aside.startAttempt (h.modifyRecord (by intro; rfl)) _ seq
  · exact h

theorem Aside.recordResolution (h : Aside s t) (pda : Pubkey) (status : MarketStatus) :
    Aside s (recordResolution t pda status) := by
  unfold Keeper.recordResolution
  split
  · exact h.setPhase _ _
  · exact h

theorem Aside.failAttempt (h : Aside s t) (pda : Pubkey) (a : Attempt) (e : Failure) :
    Aside s (failAttempt cfg t pda a e) := by
  unfold Keeper.failAttempt
  split
  · exact (h.setPhase _ _).setAttempt pda none
  · exact h.setAttempt pda _

theorem Aside.resumeAttempt (h : Aside s t) (pda : Pubkey) (a : Attempt) (r : Reply) :
    Aside s (resumeAttempt cfg t pda a r) := by
  have hfail (e : Failure) : Aside s (Keeper.failAttempt cfg t pda a e) := h.failAttempt pda a e
  have hrecord (status : MarketStatus) :
      Aside s ((Keeper.recordResolution t pda status).setAttempt pda none) :=
    (h.recordResolution pda status).setAttempt pda none
  have hset (x : Option Attempt) : Aside s (t.setAttempt pda x) := h.setAttempt pda x
  unfold Keeper.resumeAttempt
  dsimp only
  split <;> try exact h
  · split
    · split
      · exact hset _
      · split
        · exact hfail _
        · exact hset _
    · exact hfail _
  · split
    · exact (h.submit _).setAttempt pda _
    · exact hfail _
  · split
    · exact hset _
    · exact hfail _
    · exact hset _
  · split
    · exact hrecord _
    · exact hfail _
  · exact hrecord _
  · split
    · exact hrecord _
    · exact hset _

theorem Aside.resumeEnsure (h : Aside s t) (i : ℕ) (e : Ensure) (now : ℤ) (r : Reply) :
    Aside s (resumeEnsure cfg t i e now r) := by
  unfold Keeper.resumeEnsure
  dsimp only
  split
  · exact (h.track _).setEnsure i none
  · split
    · exact h.setEnsure i none
    · exact (h.submit _).setEnsure i _
  · exact ((h.track _).setFixtures _).setEnsure i none
  · exact h.setEnsure i none

theorem Aside.ingest (h : Aside s t) (v : ScoreUpdate) : Aside s (ingest cfg t v) := by
  unfold Keeper.ingest
  dsimp only
  split
  · exact h.setFixtures _
  · split
    · exact (h.setFixtures _).onFinalised _ _
    · exact h.setFixtures _

theorem Aside.answer (h : Aside s t) {who : Who} (hw : who ≠ .sweep) (r : Reply) :
    Aside s (answer t r who) := by
  cases who with
  | sweep => exact absurd rfl hw
  | attempt pda => exact h.setAttempt pda _
  | ensure i => exact h.setEnsure i _

/-- The operations of the sweeper itself. -/
def Op.sweeps : Op → Bool
  | .sweep _ | .serve .sweep _ _ | .deny .sweep _ | .resume .sweep _ => true
  | _ => false

theorem next_aside {op : Op} (hop : op.sweeps = false) (h : next cfg s op = some t) :
    Aside s t := by
  cases op with
  | ingest u =>
      injection h with h
      exact h ▸ (Aside.refl s).ingest u
  | ensure i info lockTimeOverride =>
      simp only [next] at h
      split at h
      · injection h with h
        subst h
        unfold startEnsure
        split
        · exact .refl s
        · exact (Aside.refl s).setEnsure i _
      · cases h
  | sweep now => cases hop
  | attemptDue pda =>
      simp only [next, Option.bind_eq_bind, Option.bind_eq_some_iff] at h
      obtain ⟨a, -, h⟩ := h
      split at h
      · injection h with h
        exact h ▸ (Aside.refl s).startAttempt pda a.seq
      · cases h
  | serve who voided reported =>
      simp only [next, Option.bind_eq_bind, Option.bind_eq_some_iff] at h
      obtain ⟨c, -, ⟨accounts, r⟩, hserve, h⟩ := h
      injection h with h
      exact h ▸ ((Aside.refl s).setAccounts (Call.serve_spec hserve).1).answer
        (by rintro rfl; cases hop) r
  | deny who e =>
      simp only [next, Option.bind_eq_bind, Option.bind_eq_some_iff] at h
      obtain ⟨c, -, h⟩ := h
      split at h
      · injection h with h
        exact h ▸ (Aside.refl s).answer (by rintro rfl; cases hop) _
      · cases h
  | resume who now =>
      cases who with
      | sweep => cases hop
      | attempt pda =>
          simp only [next, resume, Option.bind_eq_bind, Option.bind_eq_some_iff] at h
          obtain ⟨a, -, r, -, h⟩ := h
          injection h with h
          exact h ▸ (Aside.refl s).resumeAttempt pda a r
      | ensure i =>
          simp only [next, resume, Option.bind_eq_bind, Option.bind_eq_some_iff] at h
          obtain ⟨e, -, r, -, h⟩ := h
          injection h with h
          exact h ▸ (Aside.refl s).resumeEnsure i e now r
  | chainCreates pda a =>
      simp only [next] at h
      split at h
      next hnew =>
        injection h with h
        exact h ▸ (Aside.refl s).setAccounts (.create hnew.1)
      · cases h
  | chainMoves pda status =>
      simp only [next, Option.bind_eq_bind, Option.bind_eq_some_iff] at h
      obtain ⟨a, ha, h⟩ := h
      split at h
      next hlt =>
        injection h with h
        exact h ▸ (Aside.refl s).setAccounts (.move ha hlt)
      · cases h

/-- All that an operation of the sweeper does. -/
inductive SweepOp (cfg : Config) (s : State) : Op → State → Prop
  | starts (now : ℤ) : SweepOp cfg s (.sweep now) (startSweep s now)
  | served {voided reported : Bool} {c : Call} {accounts : Accounts} {r : Reply}
      (hc : awaited cfg s .sweep = some c)
      (hserve : c.serve voided reported s.accounts = some (accounts, r)) :
      SweepOp cfg s (.serve .sweep voided reported) (answer { s with accounts } r .sweep)
  | denied {c : Call} {e : Failure} (hc : awaited cfg s .sweep = some c) :
      SweepOp cfg s (.deny .sweep e) (answer s (.failed e) .sweep)
  | resumed {sw : Sweep} {p : Pubkey} {r : Reply} (now : ℤ) (hsw : s.sweep = some sw)
      (hpda : s.pdaOf sw.ref = some p) (hr : sw.reply = some r) :
      SweepOp cfg s (.resume .sweep now) (resumeSweep s sw p r)

theorem next_sweeps {op : Op} (hop : op.sweeps = true) (h : next cfg s op = some t) :
    SweepOp cfg s op t := by
  cases op with
  | sweep now =>
      injection h with h
      exact h ▸ .starts now
  | serve who voided reported =>
      cases who with
      | sweep =>
          simp only [next, Option.bind_eq_bind, Option.bind_eq_some_iff] at h
          obtain ⟨c, hc, ⟨accounts, r⟩, hserve, h⟩ := h
          injection h with h
          exact h ▸ .served hc hserve
      | attempt _ => cases hop
      | ensure _ => cases hop
  | deny who e =>
      cases who with
      | sweep =>
          simp only [next, Option.bind_eq_bind, Option.bind_eq_some_iff] at h
          obtain ⟨c, hc, h⟩ := h
          split at h
          · injection h with h
            exact h ▸ .denied hc
          · cases h
      | attempt _ => cases hop
      | ensure _ => cases hop
  | resume who now =>
      cases who with
      | sweep =>
          simp only [next, resume, Option.bind_eq_bind, Option.bind_eq_some_iff] at h
          obtain ⟨sw, hsw, p, hpda, r, hr, h⟩ := h
          injection h with h
          exact h ▸ .resumed now hsw hpda hr
      | attempt _ => cases hop
      | ensure _ => cases hop
  | ingest _ => cases hop
  | ensure _ _ _ => cases hop
  | attemptDue _ => cases hop
  | chainCreates _ _ => cases hop
  | chainMoves _ _ => cases hop

theorem keeps_resumeSweep (s : State) (sw : Sweep) (pda : Pubkey) (r : Reply) :
    Keeps s (resumeSweep s sw pda r) := by
  have hset (x : Option Sweep) : Keeps s (s.setSweep x) := (Keeps.refl s).setSweep x
  have hsubmit (tx : Tx) (x : Option Sweep) : Keeps s ((s.submit tx).setSweep x) :=
    ((Keeps.refl s).submit tx).setSweep x
  have hphase (phase : MarketPhase) (x : Option Sweep) :
      Keeps s ((s.setPhase sw.ref phase).setSweep x) :=
    ((Keeps.refl s).setPhase sw.ref phase).setSweep x
  unfold resumeSweep
  dsimp only
  split
  · split
    · split
      · exact hsubmit _ _
      · exact hphase _ _
      · exact hset _
    · exact hset _
  · split
    · exact hphase _ _
    · exact hset _
  · split
    · split
      · exact hsubmit _ _
      · exact hphase _ _
      · exact hphase _ _
      · exact hset _
    · exact hset _
  · split
    · exact hphase _ _
    · exact hset _

theorem next_keeps {op : Op} (hs : next cfg s op = some t) : Keeps s t := by
  by_cases hsweeps : op.sweeps = true
  · cases next_sweeps hsweeps hs with
    | starts now =>
        unfold startSweep
        split
        · exact .refl s
        · exact (Keeps.refl s).setSweep _
    | served _ hserve =>
        exact ((Keeps.refl s).setAccounts (Call.serve_spec hserve).1).setSweep _
    | denied _ => exact (Keeps.refl s).setSweep _
    | resumed _ _ _ _ => exact keeps_resumeSweep s _ _ _
  · exact (next_aside (by simpa using hsweeps) hs).toKeeps

theorem step_eq_ok {op : Op} : (machine cfg).step s op = .ok t ↔ next cfg s op = some t := by
  cases h : next cfg s op <;> simp [machine, h]

end

end ProofBook.Keeper
