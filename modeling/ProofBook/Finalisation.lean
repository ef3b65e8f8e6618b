import ProofBook.Restarts

/-!
# Finalisations

A final record that is delivered while a market of its fixture is neither settled
nor in flight starts an attempt for it: the 1X2 settler at once, the catalogue
settler when its walk comes to the market. This holds of a run in which no final
record finds another one stored already, the 1X2 market is tracked as unresolved,
the walks read the markets they come to, and no restart cuts a walk short.
-/
namespace ProofBook.Finalisation
open Addresses ProofBook.State Objects Store Runs Restarts
open Keeper (Account Accounts Tx Failure Call Reply Keeps TrackedOk Grows Seen)

/-! ## The property -/

/-- The market exists and is not resolved. -/
def Live (w : World) (pda : Pubkey) : Prop :=
  (w.keeper.accounts pda).any (fun a => !a.status.terminal) = true

/-- And no attempt to settle it is in flight. -/
def Due (w : World) (pda : Pubkey) : Prop :=
  Live w pda ∧ (w.keeper.attempts pda).isNone = true ∧ w.inFlight pda = false

instance (w : World) (pda : Pubkey) : Decidable (Live w pda) := inferInstanceAs (Decidable (_ = _))

instance (w : World) (pda : Pubkey) : Decidable (Due w pda) :=
  inferInstanceAs (Decidable (_ ∧ _ ∧ _))

/-- The walk of this number still has the market before it. -/
def Ahead (w : World) (i : ℕ) (fixtureId : ℤ) (type : ℕ) : Prop :=
  (w.walks i).any (fun v => v.fixtureId = fixtureId ∧ type ∈ v.ahead) = true

/-- The operations that carry a walk on. -/
def ofWalk (i : ℕ) : Op → Bool
  | .serveWalk j _ _ | .denyWalk j _ | .resumeWalk j _ _ | .wakeWalk j => i = j
  | _ => false

def walkSteps (cfg : KeeperConfig) (i : ℕ) (w : World) (op : Op) : ℕ :=
  if ofWalk i op ∧ (next cfg w op).isSome then 1 else 0

/-- The steps a walk takes at most: two for each call, one for each wait. -/
def walkBound (cfg : KeeperConfig) : ℕ :=
  2 * (cfg.defs.length * (6 * cfg.settleMaxAttempts + 1)) + 1

/-- The walk is on its way to the market: it can take a step, and takes only so many. -/
def OnItsWay (cfg : KeeperConfig) (w : World) (ops : List Op) (i : ℕ) (fixtureId : ℤ)
    (type : ℕ) : Prop :=
  Ahead ((machine cfg).run w ops) i fixtureId type ∧
    (machine cfg).accumulate (walkSteps cfg i) w ops < walkBound cfg ∧
    ∃ op, ofWalk i op = true ∧ (next cfg ((machine cfg).run w ops) op).isSome = true

/-- The delivery starts an attempt for every market that is due: by `ops` later, the
walk has started it, or the market is resolved, or the walk is on its way. -/
def TakenUp (cfg : KeeperConfig) (w : World) (u : ScoreUpdate) (ops : List Op) : Prop :=
  (Due w (cfg.marketPdaFor u.fixtureId) →
    (((machine cfg).apply w (.ingest u)).keeper.attempts (cfg.marketPdaFor u.fixtureId)).isSome =
      true) ∧
  ∀ type ∈ cfg.defs, Due w (cfg.cataloguePdaFor u.fixtureId type) →
    let w' := (machine cfg).run ((machine cfg).apply w (.ingest u)) ops
    w.starts (cfg.cataloguePdaFor u.fixtureId type) <
        w'.starts (cfg.cataloguePdaFor u.fixtureId type) ∨
      ¬ Live w' (cfg.cataloguePdaFor u.fixtureId type) ∨
      OnItsWay cfg ((machine cfg).apply w (.ingest u)) ops w.launched u.fixtureId type

/-! ## The condition -/

/-- The 1X2 market that the settler finds for the fixture, if it would settle it. -/
def Tracked (cfg : KeeperConfig) (w : World) (fixtureId : ℤ) : Prop :=
  (Keeper.finalisable cfg.toConfig w.keeper fixtureId).any
    (fun p => p.2.marketPda = cfg.marketPdaFor fixtureId) = true

/-- The delivery of a final record finds none stored, the 1X2 market that is due is
tracked, and the keeper can prove the catalogue markets that are due. -/
def Heeded (cfg : KeeperConfig) (w : World) (u : ScoreUpdate) : Prop :=
  (Due w (cfg.marketPdaFor u.fixtureId) → Heard w.keeper u ∧ Tracked cfg w u.fixtureId) ∧
    ∀ type ∈ cfg.defs, Due w (cfg.cataloguePdaFor u.fixtureId type) →
      Heard w.keeper u ∧ cfg.client = true

/-- The walk of this number reads each live market that it comes to, and no restart
finds it with one ahead. -/
def Attended (cfg : KeeperConfig) (i : ℕ) (w : World) : Op → Prop
  | .serveWalk j _ reported => j = i →
      (awaitedWalk cfg w i).all (fun p =>
        decide (p.1.stop = .read → Live w (p.1.pda cfg) → reported = true)) = true
  | .denyWalk j _ => j = i →
      (awaitedWalk cfg w i).all (fun p =>
        decide (p.1.stop = .read → ¬ Live w (p.1.pda cfg))) = true
  | .restart =>
      (w.walks i).all (fun v =>
        decide (∀ type ∈ v.ahead, ¬ Live w (cfg.cataloguePdaFor v.fixtureId type))) = true
  | _ => True

instance (cfg : KeeperConfig) (w : World) (fixtureId : ℤ) : Decidable (Tracked cfg w fixtureId) :=
  inferInstanceAs (Decidable (_ = _))

instance (cfg : KeeperConfig) (w : World) (u : ScoreUpdate) : Decidable (Heeded cfg w u) :=
  inferInstanceAs (Decidable (_ ∧ _))

instance (cfg : KeeperConfig) (i : ℕ) (w : World) (op : Op) :
    Decidable (Attended cfg i w op) := by
  unfold Attended
  split <;> infer_instance

section
variable {cfg : KeeperConfig} {w w' : World}

theorem step_eq_ok {op : Op} : (machine cfg).step w op = .ok w' ↔ next cfg w op = some w' := by
  cases h : next cfg w op <;> simp [machine, h]

theorem apply_ingest (u : ScoreUpdate) : (machine cfg).apply w (.ingest u) = ingest cfg w u :=
  Machine.apply_of_ok (step_eq_ok.mpr rfl)

/-! ## The 1X2 market -/

theorem bootKeeper_spec (accounts : Accounts) (submitted : List Tx)
    (fixtureRows : ObjectMap FixtureRow.id) (marketRows : ObjectMap Row.pda) :
    Keeps (bareKeeper accounts submitted fixtureRows)
        (bootKeeper accounts submitted fixtureRows marketRows) ∧
      (bootKeeper accounts submitted fixtureRows marketRows).accounts = accounts := by
  unfold bootKeeper
  have hfold (rows : List Row) (s : Keeper.State) (hs : s.accounts = accounts)
      (hk : Keeps (bareKeeper accounts submitted fixtureRows) s) :
      Keeps (bareKeeper accounts submitted fixtureRows)
          (rows.foldl (fun s r => s.track (loadRecord r)) s) ∧
        (rows.foldl (fun s r => s.track (loadRecord r)) s).accounts = accounts := by
    induction rows generalizing s with
    | nil => exact ⟨hk, hs⟩
    | cons r rows ih => exact ih _ hs (hk.track (loadRecord r))
  exact hfold _ _ rfl (.refl _)

theorem trackedOk_boot (accounts : Accounts) (submitted : List Tx)
    (fixtureRows : ObjectMap FixtureRow.id) (marketRows : ObjectMap Row.pda) :
    TrackedOk (bootKeeper accounts submitted fixtureRows marketRows) :=
  (bootKeeper_spec accounts submitted fixtureRows marketRows).1.tracked nofun

/-! ## The steps of a walk -/

/-- The calls and waits left to the market a walk is at, at most. -/
def callsLeft (cfg : KeeperConfig) : WalkStop → ℕ
  | .read => 6 * cfg.settleMaxAttempts + 1
  | .fetch n => 6 * (cfg.settleMaxAttempts - n) + 6
  | .proof n _ => 6 * (cfg.settleMaxAttempts - n) + 5
  | .lock n => 6 * (cfg.settleMaxAttempts - n) + 4
  | .settle n => 6 * (cfg.settleMaxAttempts - n) + 3
  | .refetch n => 6 * (cfg.settleMaxAttempts - n) + 2
  | .sleeping n => 6 * (cfg.settleMaxAttempts - n) + 1

/-- The world in which the walk has started an attempt. -/
def started (cfg : KeeperConfig) (w : World) (v : Walk) : World :=
  (w.setInFlight (v.pda cfg) true).countStart (v.pda cfg)

/-- All that a walk does when it goes on. -/
inductive WalkStep (cfg : KeeperConfig) (w : World) (i : ℕ) (v : Walk) : World → Prop
  | passes (hstop : v.stop = .read)
      (hr : ∀ a, v.reply = some (.account (some a)) → a.status.terminal = true) :
      WalkStep cfg w i v (w.setWalk i (walkOn cfg w.inFlight v.fixtureId v.seq v.rest))
  | starts {stop : WalkStop} (hstop : v.stop = .read) (hne : stop ≠ .read)
      (hlt : callsLeft cfg stop < callsLeft cfg v.stop) :
      WalkStep cfg w i v ((started cfg w v).setWalk i (some { v with stop, reply := none }))
  | startsIdle (hstop : v.stop = .read) :
      WalkStep cfg w i v (finishAttempt cfg (started cfg w v) i v)
  | stays {stop : WalkStop} (hstop : v.stop ≠ .read) (hne : stop ≠ .read)
      (hlt : callsLeft cfg stop < callsLeft cfg v.stop) :
      WalkStep cfg w i v (w.setWalk i (some { v with stop, reply := none }))
  | finishes (hstop : v.stop ≠ .read) : WalkStep cfg w i v (finishAttempt cfg w i v)

theorem tryAttempt_cases {i : ℕ} {v : Walk} {n : ℕ} (hstop : v.stop = .sleeping n) :
    WalkStep cfg w i v (tryAttempt cfg w i v (n + 1)) := by
  have hread : v.stop ≠ .read := by rw [hstop]; nofun
  unfold tryAttempt
  split
  next hle =>
    refine .stays hread nofun ?_
    rw [hstop]
    simp only [callsLeft]
    omega
  · exact .finishes hread

theorem catchAttempt_cases {i : ℕ} {v : Walk} {n : ℕ} (e : Failure) (hstop : v.stop ≠ .read)
    (hlt : 6 * (cfg.settleMaxAttempts - n) + 1 < callsLeft cfg v.stop) :
    WalkStep cfg w i v (catchAttempt cfg w i v n e) := by
  unfold catchAttempt
  split
  · exact .finishes hstop
  · exact .stays hstop nofun hlt

theorem resumeWalk_cases {i : ℕ} {v : Walk} {r : Reply} (hr : v.reply = some r) (now : ℤ)
    (zero : Bool) : WalkStep cfg w i v (resumeWalk cfg w i v now zero r) := by
  unfold resumeWalk
  cases hstop : v.stop with
  | read =>
      have hpass (h : ∀ a, r = .account (some a) → a.status.terminal = true) :
          WalkStep cfg w i v (w.setWalk i (walkOn cfg w.inFlight v.fixtureId v.seq v.rest)) :=
        .passes hstop fun a ha => h a (Option.some.inj (hr.symm.trans ha))
      match r with
      | .account (some a) =>
          dsimp only
          split
          next ht => exact hpass fun b hb => by cases hb; exact ht
          · unfold tryAttempt
            split
            next hle =>
              refine .starts hstop nofun ?_
              rw [hstop]
              simp only [callsLeft]
              omega
            · exact .startsIdle hstop
      | .account none => exact hpass nofun
      | .confirmed => exact hpass nofun
      | .failed _ => exact hpass nofun
  | fetch n =>
      have hne : v.stop ≠ .read := by rw [hstop]; nofun
      have hcatch (e : Failure) : WalkStep cfg w i v (catchAttempt cfg w i v n e) :=
        catchAttempt_cases e hne (by rw [hstop]; simp only [callsLeft]; omega)
      match r with
      | .account (some a) =>
          dsimp only
          split
          · exact .finishes hne
          · exact .stays hne nofun (by rw [hstop]; simp only [callsLeft]; omega)
      | .account none => exact .finishes hne
      | .confirmed => exact hcatch _
      | .failed e => exact hcatch _
  | proof n a =>
      have hne : v.stop ≠ .read := by rw [hstop]; nofun
      have hcatch (e : Failure) : WalkStep cfg w i v (catchAttempt cfg w i v n e) :=
        catchAttempt_cases e hne (by rw [hstop]; simp only [callsLeft]; omega)
      match r with
      | .confirmed =>
          dsimp only
          split
          · split
            · exact .finishes hne
            · split
              · exact hcatch _
              · exact .stays hne nofun (by rw [hstop]; simp only [callsLeft]; omega)
          · exact .stays hne nofun (by rw [hstop]; simp only [callsLeft]; omega)
      | .account _ => exact hcatch _
      | .failed e => exact hcatch _
  | lock n =>
      have hne : v.stop ≠ .read := by rw [hstop]; nofun
      have hcatch (e : Failure) : WalkStep cfg w i v (catchAttempt cfg w i v n e) :=
        catchAttempt_cases e hne (by rw [hstop]; simp only [callsLeft]; omega)
      match r with
      | .confirmed => exact .stays hne nofun (by rw [hstop]; simp only [callsLeft]; omega)
      | .account _ => exact hcatch _
      | .failed e => exact hcatch _
  | settle n =>
      have hne : v.stop ≠ .read := by rw [hstop]; nofun
      have hcatch (e : Failure) : WalkStep cfg w i v (catchAttempt cfg w i v n e) :=
        catchAttempt_cases e hne (by rw [hstop]; simp only [callsLeft]; omega)
      match r with
      | .confirmed => exact .stays hne nofun (by rw [hstop]; simp only [callsLeft]; omega)
      | .account _ => exact hcatch _
      | .failed e => exact hcatch _
  | refetch n =>
      have hne : v.stop ≠ .read := by rw [hstop]; nofun
      have hcatch (e : Failure) : WalkStep cfg w i v (catchAttempt cfg w i v n e) :=
        catchAttempt_cases e hne (by rw [hstop]; simp only [callsLeft]; omega)
      match r with
      | .account (some _) => exact .finishes hne
      | .account none => exact hcatch _
      | .confirmed => exact hcatch _
      | .failed e => exact hcatch _
  | sleeping n => exact tryAttempt_cases hstop

/-! ## What every operation keeps -/

structure Onward (w w' : World) : Prop where
  accounts : Grows w.keeper.accounts w'.keeper.accounts
  tracked : TrackedOk w.keeper → TrackedOk w'.keeper
  launched : w.launched ≤ w'.launched
  starts : ∀ pda, w.starts pda ≤ w'.starts pda

theorem Onward.refl (w : World) : Onward w w := ⟨.refl _, id, le_rfl, fun _ => le_rfl⟩

theorem Onward.of_keeper {w : World} {keeper : Keeper.State} (h : Keeps w.keeper keeper) :
    Onward w { w with keeper } :=
  ⟨h.accounts, h.tracked, le_rfl, fun _ => le_rfl⟩

theorem WalkStep.keeper {i : ℕ} {v : Walk} (h : WalkStep cfg w i v w') : w'.keeper = w.keeper := by
  cases h <;> rfl

theorem WalkStep.launched {i : ℕ} {v : Walk} (h : WalkStep cfg w i v w') :
    w'.launched = w.launched := by
  cases h <;> rfl

theorem starts_started (v : Walk) (pda : Pubkey) :
    (started cfg w v).starts pda = if pda = v.pda cfg then w.starts pda + 1 else w.starts pda := by
  simp only [started, World.countStart, World.setInFlight, Function.update_apply]
  split
  next hp => rw [hp]
  · rfl

/-- An attempt is in flight only after it has been counted. -/
theorem WalkStep.inFlight {i : ℕ} {v : Walk} (h : WalkStep cfg w i v w') (pda : Pubkey) :
    w.starts pda ≤ w'.starts pda ∧
      (w.inFlight pda = false → w.starts pda < w'.starts pda ∨ w'.inFlight pda = false) := by
  have hstarted : w.starts pda ≤ (started cfg w v).starts pda := by
    rw [starts_started]
    split <;> omega
  cases h with
  | passes => exact ⟨le_rfl, .inr⟩
  | stays => exact ⟨le_rfl, .inr⟩
  | finishes =>
      refine ⟨le_rfl, fun hf => .inr ?_⟩
      simp only [finishAttempt, World.setWalk, World.setInFlight, Function.update_apply]
      split
      · rfl
      · exact hf
  | starts =>
      refine ⟨hstarted, fun hf => ?_⟩
      by_cases hp : pda = v.pda cfg
      · left
        change w.starts pda < (started cfg w v).starts pda
        rw [starts_started, if_pos hp]
        exact Nat.lt_succ_self _
      · right
        simp only [World.setWalk, started, World.countStart, World.setInFlight,
          Function.update_of_ne hp]
        exact hf
  | startsIdle =>
      refine ⟨hstarted, fun hf => .inr ?_⟩
      simp only [finishAttempt, started, World.countStart, World.setWalk, World.setInFlight,
        Function.update_apply]
      split
      · rfl
      · exact hf

theorem awaitedWalk_eq_some {i : ℕ} {v : Walk} {c : Call} (h : awaitedWalk cfg w i = some (v, c)) :
    w.walks i = some v ∧ v.reply = none ∧ walkCall (v.pda cfg) v.stop = some c := by
  simp only [awaitedWalk, Option.bind_eq_bind, Option.bind_eq_some_iff] at h
  obtain ⟨v', hv, c', hc, h⟩ := h
  split at h
  next hr =>
    simp only [Option.some.injEq, Prod.mk.injEq] at h
    obtain ⟨rfl, rfl⟩ := h
    exact ⟨hv, hr, hc⟩
  · cases h

/-- All that an operation does. -/
inductive Does (cfg : KeeperConfig) (w : World) : Op → World → Prop
  | ingest (u : ScoreUpdate) : Does cfg w (.ingest u) (ingest cfg w u)
  | keeper {op : Keeper.Op} {keeper : Keeper.State} (h : Keeps w.keeper keeper) :
      Does cfg w (.keeper op) { w with keeper }
  | serves {i : ℕ} {voided reported : Bool} {v : Walk} {c : Call} {accounts : Accounts} {r : Reply}
      (hv : awaitedWalk cfg w i = some (v, c))
      (hserve : c.serve voided reported w.keeper.accounts = some (accounts, r)) :
      Does cfg w (.serveWalk i voided reported)
        (answerWalk { w with keeper := { w.keeper with accounts } } i v r)
  | denies {i : ℕ} {e : Failure} {v : Walk} {c : Call} (hv : awaitedWalk cfg w i = some (v, c)) :
      Does cfg w (.denyWalk i e) (answerWalk w i v (.failed e))
  | walks {op : Op} {i : ℕ} {v : Walk} {w' : World} (hop : ofWalk i op = true)
      (hv : w.walks i = some v) (hr : v.stop = .read → v.reply ≠ none)
      (h : WalkStep cfg w i v w') : Does cfg w op w'
  | persists {op : Op} (fixtureRows : ObjectMap FixtureRow.id) (marketRows : ObjectMap Row.pda)
      (hop : ∀ i, ofWalk i op = false) (hr : op ≠ .restart) :
      Does cfg w op { w with fixtureRows, marketRows }
  | restarts : Does cfg w .restart (restart w)

theorem next_does {op : Op} (h : next cfg w op = some w') : Does cfg w op w' := by
  cases op with
  | ingest u =>
      injection h with h
      exact h ▸ .ingest u
  | keeper op =>
      simp only [next] at h
      split at h
      · cases h
      · obtain ⟨keeper, hk, rfl⟩ := Option.map_eq_some_iff.mp h
        exact .keeper (Keeper.next_keeps hk)
  | serveWalk i voided reported =>
      simp only [next, Option.bind_eq_bind, Option.bind_eq_some_iff] at h
      obtain ⟨⟨v, c⟩, hv, ⟨accounts, r⟩, hserve, h⟩ := h
      injection h with h
      exact h ▸ .serves hv hserve
  | denyWalk i e =>
      simp only [next, Option.bind_eq_bind, Option.bind_eq_some_iff] at h
      obtain ⟨⟨v, c⟩, hv, h⟩ := h
      injection h with h
      exact h ▸ .denies hv
  | resumeWalk i now zero =>
      simp only [next, Option.bind_eq_bind, Option.bind_eq_some_iff] at h
      obtain ⟨v, hv, r, hr, h⟩ := h
      injection h with h
      exact h ▸ .walks (by simp [ofWalk]) hv (fun _ hn => by cases hn.symm.trans hr)
        (resumeWalk_cases hr now zero)
  | wakeWalk i =>
      simp only [next, Option.bind_eq_bind, Option.bind_eq_some_iff] at h
      obtain ⟨v, hv, h⟩ := h
      split at h
      next n hstop =>
        injection h with h
        exact h ▸ .walks (by simp [ofWalk]) hv (fun hs => by cases hstop.symm.trans hs)
          (tryAttempt_cases hstop)
      · cases h
  | persistFixture id =>
      simp only [next, Option.bind_eq_bind, Option.bind_eq_some_iff] at h
      obtain ⟨f, -, h⟩ := h
      injection h with h
      exact h ▸ .persists _ w.marketRows (fun _ => rfl) fun h => by cases h
  | persistMarket pda =>
      simp only [next, Option.bind_eq_bind, Option.bind_eq_some_iff] at h
      obtain ⟨p, -, m, -, row, -, h⟩ := h
      injection h with h
      exact h ▸ .persists w.fixtureRows _ (fun _ => rfl) fun h => by cases h
  | syncMarket pda fixtureId marketType =>
      simp only [next, Option.bind_eq_bind, Option.bind_eq_some_iff] at h
      obtain ⟨a, -, h⟩ := h
      injection h with h
      exact h ▸ .persists w.fixtureRows _ (fun _ => rfl) fun h => by cases h
  | restart =>
      injection h with h
      exact h ▸ .restarts

theorem keeps_ingest (cfg : KeeperConfig) (w : World) (u : ScoreUpdate) :
    Keeps w.keeper (Keeper.ingest cfg.toConfig w.keeper u) :=
  have hs : Keeper.next cfg.toConfig w.keeper (.ingest u) =
      some (Keeper.ingest cfg.toConfig w.keeper u) := rfl
  Keeper.next_keeps hs

theorem launch_spec (cfg : KeeperConfig) (w : World) (fixtureId seq : ℤ) :
    (launch cfg w fixtureId seq).keeper = w.keeper ∧
      (launch cfg w fixtureId seq).inFlight = w.inFlight ∧
      (launch cfg w fixtureId seq).starts = w.starts ∧
      w.launched ≤ (launch cfg w fixtureId seq).launched ∧
      ∀ i < w.launched, (launch cfg w fixtureId seq).walks i = w.walks i := by
  unfold launch
  split
  · exact ⟨rfl, rfl, rfl, Nat.le_succ _, fun i hi => Function.update_of_ne hi.ne _ _⟩
  · exact ⟨rfl, rfl, rfl, le_rfl, fun _ _ => rfl⟩

theorem ingest_spec (cfg : KeeperConfig) (w : World) (u : ScoreUpdate) :
    (ingest cfg w u).keeper = Keeper.ingest cfg.toConfig w.keeper u ∧
      (ingest cfg w u).inFlight = w.inFlight ∧ (ingest cfg w u).starts = w.starts ∧
      w.launched ≤ (ingest cfg w u).launched ∧
      ∀ i < w.launched, (ingest cfg w u).walks i = w.walks i := by
  unfold Restarts.ingest
  dsimp only
  split
  · exact launch_spec cfg _ u.fixtureId u.seq
  · exact ⟨rfl, rfl, rfl, le_rfl, fun _ _ => rfl⟩

theorem restart_spec (w : World) :
    (restart w).keeper.accounts = w.keeper.accounts ∧ TrackedOk (restart w).keeper :=
  ⟨(bootKeeper_spec ..).2, trackedOk_boot _ _ _ _⟩

theorem next_onward {op : Op} (h : next cfg w op = some w') : Onward w w' := by
  cases next_does h with
  | ingest u =>
      obtain ⟨hk, -, hs, hl, -⟩ := ingest_spec cfg w u
      have hkeeps := keeps_ingest cfg w u
      exact ⟨hk ▸ hkeeps.accounts, hk ▸ hkeeps.tracked, hl, fun _ => hs ▸ le_rfl⟩
  | keeper hk => exact .of_keeper hk
  | serves _ hserve =>
      have hkeeps := (Keeps.refl w.keeper).setAccounts (Keeper.Call.serve_spec hserve).1
      exact ⟨hkeeps.accounts, hkeeps.tracked, le_rfl, fun _ => le_rfl⟩
  | denies _ => exact ⟨.refl _, id, le_rfl, fun _ => le_rfl⟩
  | walks _ _ _ hstep =>
      exact ⟨hstep.keeper ▸ .refl _, fun ht => hstep.keeper ▸ ht, hstep.launched.ge,
        fun pda => (hstep.inFlight pda).1⟩
  | persists _ _ _ _ => exact ⟨.refl _, id, le_rfl, fun _ => le_rfl⟩
  | restarts =>
      obtain ⟨ha, ht⟩ := restart_spec w
      exact ⟨ha ▸ .refl _, fun _ => ht, le_rfl, fun _ => le_rfl⟩

theorem trackedOk_run (cfg : KeeperConfig) (accounts : Accounts)
    (fixtureRows : ObjectMap FixtureRow.id)
    (marketRows : ObjectMap Row.pda) (ops : List Op) :
    TrackedOk ((machine cfg).run (boot accounts fixtureRows marketRows) ops).keeper :=
  Machine.run_preserves (fun _ _ _ ht h => (next_onward (step_eq_ok.mp h)).tracked ht)
    (trackedOk_boot accounts [] fixtureRows marketRows) ops

/-- The record that a finalisation finds is the tracked one of its market. -/
theorem tracked_of_finalisable {s : Keeper.State} (ht : TrackedOk s) {fixtureId : ℤ} {ref : ℕ}
    {m : Keeper.Record} (h : Keeper.finalisable cfg.toConfig s fixtureId = some (ref, m)) :
    s.tracked.get m.marketPda = some (m.marketPda, ref) := by
  simp only [Keeper.finalisable, Option.bind_eq_bind, Option.bind_eq_some_iff] at h
  obtain ⟨ref', hfind, m', hm, h⟩ := h
  split at h
  · cases h
  · simp only [Option.some.injEq, Prod.mk.injEq] at h
    obtain ⟨rfl, rfl⟩ := h
    obtain ⟨⟨p, ref⟩, hp, rfl⟩ := List.mem_map.mp (List.mem_of_find?_eq_some hfind)
    have hpda := (ht _ hp).symm.trans (Keeper.pdaOf_of_record hm)
    injection hpda with hpda
    dsimp only at hpda
    subst hpda
    exact ObjectMap.get_of_mem hp

/-- The settler starts an attempt for the market it finds. -/
theorem ingest_attempts (ht : TrackedOk w.keeper) {u : ScoreUpdate} (hu : Heard w.keeper u)
    (hm : Tracked cfg w u.fixtureId) :
    ((Restarts.ingest cfg w u).keeper.attempts (cfg.marketPdaFor u.fixtureId)).isSome = true := by
  obtain ⟨⟨ref, m⟩, hfin, hpda⟩ := (Option.any_eq_true _ _).mp hm
  have hpda : m.marketPda = cfg.marketPdaFor u.fixtureId := by simpa using hpda
  have hget := tracked_of_finalisable ht hfin
  rw [(ingest_spec cfg w u).1, ← hpda]
  simp only [Keeper.ingest, if_neg hu.1, if_pos hu.2]
  have hfin' (fixtures : ObjectMap FixtureLive.fixtureId) :
      Keeper.finalisable cfg.toConfig { w.keeper with fixtures } u.fixtureId = some (ref, m) := hfin
  simp only [Keeper.onFinalised, hfin', Keeper.startAttempt, Keeper.State.modifyRecord, hget,
    Keeper.State.setAttempt, Function.update_self, Option.isSome_some]

/-! ## The walk of a delivery -/

theorem walkOn_of_mem {inFlight : Pubkey → Bool} {fixtureId : ℤ} {type : ℕ}
    (hf : inFlight (cfg.cataloguePdaFor fixtureId type) = false) (seq : ℤ) {rest : List ℕ}
    (hmem : type ∈ rest) :
    ∃ v, walkOn cfg inFlight fixtureId seq rest = some v ∧ v.fixtureId = fixtureId ∧
      v.stop = .read ∧ v.reply = none ∧ (type ∈ v.rest ∨ v.type = type) := by
  induction rest with
  | nil => cases hmem
  | cons t rest ih =>
      unfold walkOn
      split
      next ht =>
        refine ih ((List.mem_cons.mp hmem).resolve_left ?_)
        rintro rfl
        exact absurd ht (by rw [hf]; decide)
      · exact ⟨_, rfl, rfl, rfl, rfl, (List.mem_cons.mp hmem).symm.imp_right Eq.symm⟩

/-- The walk has the market before it, and a read that returned showed it. -/
def Coming (cfg : KeeperConfig) (w : World) (i : ℕ) (fixtureId : ℤ) (type : ℕ) : Prop :=
  ∃ v, w.walks i = some v ∧ v.fixtureId = fixtureId ∧
    (type ∈ v.rest ∨ v.type = type ∧ v.stop = .read ∧ (v.reply = none ∨
      ∃ a, v.reply = some (.account (some a)) ∧
        Seen w.keeper.accounts (cfg.cataloguePdaFor fixtureId type) a))

/-- Since `n` was counted an attempt was started, or the market is resolved, or it is
not in flight and the walk is coming. -/
def Owed (cfg : KeeperConfig) (i : ℕ) (fixtureId : ℤ) (type n : ℕ) (w : World) : Prop :=
  n < w.starts (cfg.cataloguePdaFor fixtureId type) ∨
    ¬ Live w (cfg.cataloguePdaFor fixtureId type) ∨
    w.inFlight (cfg.cataloguePdaFor fixtureId type) = false ∧ Coming cfg w i fixtureId type

theorem coming_walkOn {i : ℕ} {fixtureId seq : ℤ} {type : ℕ} {rest : List ℕ}
    (hf : w.inFlight (cfg.cataloguePdaFor fixtureId type) = false) (hmem : type ∈ rest) :
    Coming cfg (w.setWalk i (walkOn cfg w.inFlight fixtureId seq rest)) i fixtureId type := by
  obtain ⟨v, hv, hid, hstop, hreply, htype⟩ := walkOn_of_mem hf seq hmem
  refine ⟨v, ?_, hid, htype.imp_right fun ht => ⟨ht, hstop, .inl hreply⟩⟩
  simp [World.setWalk, hv]

/-- A resolved market stays so. -/
theorem not_live_grows {pda : Pubkey} (hg : Grows w.keeper.accounts w'.keeper.accounts)
    (ha : (w.keeper.accounts pda).isSome = true) (h : ¬ Live w pda) : ¬ Live w' pda := by
  obtain ⟨a, ha⟩ := Option.isSome_iff_exists.mp ha
  obtain ⟨b, hb, hab⟩ := hg pda a ha
  have hterm : a.status.terminal = true := by
    simpa [Live, ha] using h
  have hst := hab.status.eq_of_terminal hterm
  simp [Live, hb, ← hst, hterm]

theorem Seen.not_live {pda : Pubkey} {a : Account} (h : Seen w.keeper.accounts pda a)
    (hterm : a.status.terminal = true) : ¬ Live w pda := by
  obtain ⟨b, hb, hab⟩ := h
  have hst := hab.status.eq_of_terminal hterm
  simp [Live, hb, ← hst, hterm]

section
variable {i : ℕ} {fixtureId : ℤ} {type n : ℕ}

/-- The market exists, and the walk was launched when `n` was counted. -/
structure Standing (cfg : KeeperConfig) (i : ℕ) (fixtureId : ℤ) (type n : ℕ) (w : World) :
    Prop where
  account : (w.keeper.accounts (cfg.cataloguePdaFor fixtureId type)).isSome = true
  launched : i < w.launched
  counted : n ≤ w.starts (cfg.cataloguePdaFor fixtureId type)

theorem Standing.onward (h : Standing cfg i fixtureId type n w) (ho : Onward w w') :
    Standing cfg i fixtureId type n w' := by
  obtain ⟨a, ha⟩ := Option.isSome_iff_exists.mp h.account
  obtain ⟨b, hb, -⟩ := ho.accounts _ a ha
  exact ⟨hb ▸ rfl, h.launched.trans_le ho.launched, h.counted.trans (ho.starts _)⟩

theorem Coming.grows (h : Coming cfg w i fixtureId type) (hw : w'.walks i = w.walks i)
    (hg : Grows w.keeper.accounts w'.keeper.accounts) : Coming cfg w' i fixtureId type := by
  obtain ⟨v, hv, hid, hrest⟩ := h
  refine ⟨v, hw.trans hv, hid, hrest.imp_right ?_⟩
  rintro ⟨ht, hs, hr⟩
  exact ⟨ht, hs, hr.imp_right fun ⟨a, ha, hseen⟩ => ⟨a, ha, hseen.grows hg⟩⟩

/-- An operation that leaves the walk and the marks of attempts alone. -/
theorem Owed.frame (ho : Owed cfg i fixtureId type n w) (hs : Standing cfg i fixtureId type n w)
    (hstarts : w'.starts = w.starts) (hin : w'.inFlight = w.inFlight)
    (hw : w'.walks i = w.walks i) (hg : Grows w.keeper.accounts w'.keeper.accounts) :
    Owed cfg i fixtureId type n w' := by
  rcases ho with hn | hnl | ⟨hf, hc⟩
  · exact .inl (hstarts ▸ hn)
  · exact .inr (.inl (not_live_grows hg hs.account hnl))
  · exact .inr (.inr ⟨hin ▸ hf, hc.grows hw hg⟩)

/-- The walk of another delivery goes on. -/
theorem Owed.other {j : ℕ} {v : Walk} (ho : Owed cfg i fixtureId type n w)
    (hs : Standing cfg i fixtureId type n w) (h : WalkStep cfg w j v w') (hj : i ≠ j) :
    Owed cfg i fixtureId type n w' := by
  have hin := h.inFlight (cfg.cataloguePdaFor fixtureId type)
  have hwalk : w'.walks i = w.walks i := by
    cases h <;> exact Function.update_of_ne hj _ _
  have hg : Grows w.keeper.accounts w'.keeper.accounts := h.keeper ▸ .refl _
  rcases ho with hn | hnl | ⟨hf, hc⟩
  · exact .inl (hn.trans_le hin.1)
  · exact .inr (.inl (not_live_grows hg hs.account hnl))
  · rcases hin.2 hf with hlt | hf'
    · exact .inl (hs.counted.trans_lt hlt)
    · exact .inr (.inr ⟨hf', hc.grows hwalk hg⟩)

/-- The walk itself goes on. -/
theorem Owed.own {v : Walk} (ho : Owed cfg i fixtureId type n w)
    (hs : Standing cfg i fixtureId type n w) (hv : w.walks i = some v)
    (hr : v.stop = .read → v.reply ≠ none) (h : WalkStep cfg w i v w') :
    Owed cfg i fixtureId type n w' := by
  have hin := h.inFlight (cfg.cataloguePdaFor fixtureId type)
  have hg : Grows w.keeper.accounts w'.keeper.accounts := h.keeper ▸ .refl _
  rcases ho with hn | hnl | ⟨hf, v', hv', hid, hrest⟩
  · exact .inl (hn.trans_le hin.1)
  · exact .inr (.inl (not_live_grows hg hs.account hnl))
  obtain rfl : v = v' := Option.some.inj (hv.symm.trans hv')
  rcases hin.2 hf with hlt | hf'
  · exact .inl (hs.counted.trans_lt hlt)
  rcases hrest with hmem | ⟨rfl, hstop, hreply⟩
  · subst hid
    refine .inr (.inr ⟨hf', ?_⟩)
    cases h with
    | passes => exact coming_walkOn hf hmem
    | starts => exact ⟨_, Function.update_self .., rfl, .inl hmem⟩
    | startsIdle => exact coming_walkOn hf' hmem
    | stays => exact ⟨_, Function.update_self .., rfl, .inl hmem⟩
    | finishes => exact coming_walkOn hf' hmem
  · subst hid
    have hreply' := hreply.resolve_left (hr hstop)
    obtain ⟨a, ha, hseen⟩ := hreply'
    cases h with
    | passes _ hterm => exact .inr (.inl (Seen.not_live hseen (hterm a ha)))
    | starts =>
        left
        refine hs.counted.trans_lt ?_
        change w.starts _ < (started cfg w v).starts (v.pda cfg)
        rw [starts_started, if_pos rfl]
        exact Nat.lt_succ_self _
    | startsIdle =>
        left
        refine hs.counted.trans_lt ?_
        change w.starts _ < (started cfg w v).starts (v.pda cfg)
        rw [starts_started, if_pos rfl]
        exact Nat.lt_succ_self _
    | stays hne => exact absurd hstop hne
    | finishes hne => exact absurd hstop hne

theorem mem_ahead {v : Walk} (h : type ∈ v.rest ∨ v.type = type ∧ v.stop = .read) :
    type ∈ v.ahead := by
  unfold Walk.ahead
  rcases h with hmem | ⟨rfl, hstop⟩
  · split
    · exact List.mem_cons_of_mem _ hmem
    · exact hmem
  · rw [if_pos hstop]
    exact List.mem_cons_self

/-- The call of the walk is answered; a read of the market must succeed. -/
theorem Owed.answered {v : Walk} {r : Reply} (ho : Owed cfg i fixtureId type n w)
    (hs : Standing cfg i fixtureId type n w) (hv : w.walks i = some v) {keeper : Keeper.State}
    (hk : Keeps w.keeper keeper)
    (hr : v.stop = .read → Live w (v.pda cfg) →
      ∃ a, r = .account (some a) ∧ Seen keeper.accounts (v.pda cfg) a) :
    Owed cfg i fixtureId type n (answerWalk { w with keeper } i v r) := by
  rcases ho with hn | hnl | ⟨hf, v', hv', hid, hrest⟩
  · exact .inl hn
  · exact .inr (.inl (not_live_grows hk.accounts hs.account hnl))
  obtain rfl : v = v' := Option.some.inj (hv.symm.trans hv')
  subst hid
  rcases hrest with hmem | ⟨rfl, hstop, -⟩
  · exact .inr (.inr ⟨hf, _, Function.update_self .., rfl, .inl hmem⟩)
  · by_cases hlive : Live w (v.pda cfg)
    · obtain ⟨a, rfl, hseen⟩ := hr hstop hlive
      exact .inr (.inr ⟨hf, _, Function.update_self .., rfl,
        .inr ⟨rfl, hstop, .inr ⟨a, rfl, hseen⟩⟩⟩)
    · exact .inr (.inl (not_live_grows hk.accounts hs.account hlive))

theorem Owed.restart (ho : Owed cfg i fixtureId type n w)
    (hs : Standing cfg i fixtureId type n w) (hop : Attended cfg i w .restart) :
    Owed cfg i fixtureId type n (Restarts.restart w) := by
  have hg : Grows w.keeper.accounts (Restarts.restart w).keeper.accounts :=
    (restart_spec w).1 ▸ .refl _
  rcases ho with hn | hnl | ⟨-, v, hv, hid, hrest⟩
  · exact .inl hn
  · exact .inr (.inl (not_live_grows hg hs.account hnl))
  · simp only [Attended, hv, Option.all_some, decide_eq_true_eq] at hop
    have hmem : type ∈ v.ahead := mem_ahead (hrest.imp_right fun ⟨ht, hst, _⟩ => ⟨ht, hst⟩)
    exact .inr (.inl (not_live_grows hg hs.account (hid ▸ hop type hmem)))

/-- An attended step keeps what is owed. -/
theorem Owed.next (ho : Owed cfg i fixtureId type n w) (hs : Standing cfg i fixtureId type n w)
    {op : Op} (hop : Attended cfg i w op) (h : next cfg w op = some w') :
    Owed cfg i fixtureId type n w' := by
  have hg := (next_onward h).accounts
  cases next_does h with
  | ingest u =>
      obtain ⟨-, hin, hstarts, -, hwalks⟩ := ingest_spec cfg w u
      exact ho.frame hs hstarts hin (hwalks i hs.launched) hg
  | keeper _ => exact ho.frame hs rfl rfl rfl hg
  | @serves j voided reported v c accounts r hv hserve =>
      obtain ⟨hvw, -, hc⟩ := awaitedWalk_eq_some hv
      by_cases hj : i = j
      · subst hj
        have hk := (Keeps.refl w.keeper).setAccounts (Keeper.Call.serve_spec hserve).1
        refine ho.answered hs hvw hk fun hstop hlive => ?_
        simp only [Attended, hv, Option.all_some, decide_eq_true_eq] at hop
        have hrep := hop trivial hstop hlive
        rw [hstop] at hc
        injection hc with hc
        subst hc hrep
        simp only [Call.serve, if_true, Option.some.injEq, Prod.mk.injEq] at hserve
        obtain ⟨rfl, rfl⟩ := hserve
        obtain ⟨a, ha, -⟩ := (Option.any_eq_true _ _).mp hlive
        exact ⟨a, congrArg _ ha, a, ha, .refl a⟩
      · exact ho.frame hs rfl rfl (Function.update_of_ne hj _ _) hg
  | @denies j e v c hv =>
      obtain ⟨hvw, -, hc⟩ := awaitedWalk_eq_some hv
      by_cases hj : i = j
      · subst hj
        simp only [Attended, hv, Option.all_some, decide_eq_true_eq] at hop
        exact ho.answered hs hvw (.refl _) fun hstop hlive => absurd hlive (hop trivial hstop)
      · exact ho.frame hs rfl rfl (Function.update_of_ne hj _ _) hg
  | @walks _ j v _ _ hv hr hstep =>
      by_cases hj : i = j
      · subst hj
        exact ho.own hs hv hr hstep
      · exact ho.other hs hstep hj
  | persists _ _ _ _ => exact ho.frame hs rfl rfl rfl hg
  | restarts => exact ho.restart hs hop

theorem Owed.run (ho : Owed cfg i fixtureId type n w) (hs : Standing cfg i fixtureId type n w)
    {ops : List Op} (hops : (machine cfg).Along (Attended cfg i) w ops) :
    Owed cfg i fixtureId type n ((machine cfg).run w ops) := by
  refine (hops.preserves (P := fun w => Owed cfg i fixtureId type n w ∧
    Standing cfg i fixtureId type n w) ?_ ⟨ho, hs⟩).1
  rintro w₁ op w₂ ⟨ho, hs⟩ hop hstep
  have h := step_eq_ok.mp hstep
  exact ⟨ho.next hs hop h, hs.onward (next_onward h)⟩

/-! ## How long a walk takes -/

/-- The steps left to a walk, at most. -/
def stepsLeft (cfg : KeeperConfig) : Option Walk → ℕ
  | none => 0
  | some v =>
      2 * (v.rest.length * (6 * cfg.settleMaxAttempts + 1) + callsLeft cfg v.stop) +
        if v.reply = none then 1 else 0

theorem stepsLeft_walkOn (inFlight : Pubkey → Bool) (fixtureId seq : ℤ) (rest : List ℕ) :
    stepsLeft cfg (walkOn cfg inFlight fixtureId seq rest) ≤
      2 * (rest.length * (6 * cfg.settleMaxAttempts + 1)) + 1 := by
  induction rest with
  | nil => exact Nat.zero_le _
  | cons t rest ih =>
      unfold walkOn
      split
      · rw [List.length_cons, Nat.add_mul]
        omega
      · simp only [stepsLeft, callsLeft, List.length_cons, Nat.add_mul, one_mul, if_true]
        omega

theorem callsLeft_pos (cfg : KeeperConfig) (stop : WalkStop) : 0 < callsLeft cfg stop := by
  cases stop <;> exact Nat.succ_pos _

theorem WalkStep.stepsLeft {v : Walk} (h : WalkStep cfg w i v w') :
    stepsLeft cfg (w'.walks i) < stepsLeft cfg (some v) := by
  have hpos := callsLeft_pos cfg v.stop
  have hover (inFlight : Pubkey → Bool) :
      Finalisation.stepsLeft cfg (walkOn cfg inFlight v.fixtureId v.seq v.rest) <
        Finalisation.stepsLeft cfg (some v) := by
    refine (stepsLeft_walkOn inFlight v.fixtureId v.seq v.rest).trans_lt ?_
    simp only [Finalisation.stepsLeft]
    omega
  have hon {stop : WalkStop} (hlt : callsLeft cfg stop < callsLeft cfg v.stop) :
      Finalisation.stepsLeft cfg (some { v with stop, reply := none }) <
        Finalisation.stepsLeft cfg (some v) := by
    simp only [Finalisation.stepsLeft, if_true]
    omega
  have hset (w : World) (x : Option Walk) : (w.setWalk i x).walks i = x :=
    Function.update_self ..
  cases h with
  | passes => exact hset w _ ▸ hover _
  | starts _ _ hlt => exact hset _ _ ▸ hon hlt
  | startsIdle => exact hset _ _ ▸ hover _
  | stays _ _ hlt => exact hset w _ ▸ hon hlt
  | finishes => exact hset _ _ ▸ hover _

theorem ofWalk_inj {j : ℕ} {op : Op} (hi : ofWalk i op = true) (hj : ofWalk j op = true) :
    i = j := by
  cases op <;> simp_all [ofWalk]

theorem stepsLeft_answer {v : Walk} {r : Reply} (hr : v.reply = none) :
    stepsLeft cfg (some { v with reply := some r }) < stepsLeft cfg (some v) := by
  simp [stepsLeft, hr]

/-- An operation of the walk takes a step off, any other one adds none. -/
theorem stepsLeft_next (hi : i < w.launched) {op : Op} (h : next cfg w op = some w') :
    walkSteps cfg i w op + stepsLeft cfg (w'.walks i) ≤ stepsLeft cfg (w.walks i) := by
  have hother (hop : ofWalk i op = false) (hw : w'.walks i = w.walks i) :
      walkSteps cfg i w op + stepsLeft cfg (w'.walks i) ≤ stepsLeft cfg (w.walks i) := by
    simp [walkSteps, hop, hw]
  have hown (hlt : stepsLeft cfg (w'.walks i) < stepsLeft cfg (w.walks i)) :
      walkSteps cfg i w op + stepsLeft cfg (w'.walks i) ≤ stepsLeft cfg (w.walks i) := by
    unfold walkSteps
    split <;> omega
  cases next_does h with
  | ingest u => exact hother rfl ((ingest_spec cfg w u).2.2.2.2 i hi)
  | keeper _ => exact hother rfl rfl
  | @serves j _ _ v _ accounts r hv _ =>
      obtain ⟨hvw, hnone, -⟩ := awaitedWalk_eq_some hv
      by_cases hj : i = j
      · subst hj
        refine hown ?_
        rw [hvw]
        simpa [answerWalk, World.setWalk] using stepsLeft_answer hnone
      · exact hother (by simp [ofWalk, hj]) (Function.update_of_ne hj _ _)
  | @denies j e v c hv =>
      obtain ⟨hvw, hnone, -⟩ := awaitedWalk_eq_some hv
      by_cases hj : i = j
      · subst hj
        refine hown ?_
        rw [hvw]
        simpa [answerWalk, World.setWalk] using stepsLeft_answer hnone
      · exact hother (by simp [ofWalk, hj]) (Function.update_of_ne hj _ _)
  | @walks _ j v _ hop hv hr hstep =>
      by_cases hj : i = j
      · subst hj
        refine hown ?_
        rw [hv]
        exact hstep.stepsLeft
      · refine hother ?_ ?_
        · cases hop' : ofWalk i op with
          | false => rfl
          | true => exact absurd (ofWalk_inj hop' hop) hj
        · cases hstep <;> exact Function.update_of_ne hj _ _
  | persists _ _ hop _ => exact hother (hop i) rfl
  | restarts =>
      have hnone : (Restarts.restart w).walks i = none := rfl
      rw [hnone]
      simp [walkSteps, ofWalk, stepsLeft]

/-- The steps of a walk in a run, and those left to it. -/
theorem stepsLeft_run (cfg : KeeperConfig) (hi : i < w.launched) (ops : List Op) :
    (machine cfg).accumulate (walkSteps cfg i) w ops +
        stepsLeft cfg (((machine cfg).run w ops).walks i) ≤ stepsLeft cfg (w.walks i) := by
  have hrun := Machine.run_accumulates (M := machine cfg) (f := walkSteps cfg i)
    (P := fun t k => i < t.launched ∧ k + stepsLeft cfg (t.walks i) ≤ stepsLeft cfg (w.walks i))
    ?_ ?_ (s := w) (n := 0) ⟨hi, by omega⟩ ops
  · simpa using hrun.2
  · rintro t op t' k ⟨ht, hk⟩ hstep
    have h := step_eq_ok.mp hstep
    have hle := stepsLeft_next ht h
    exact ⟨ht.trans_le (next_onward h).launched, by omega⟩
  · intro t op e herr
    have hnone : next cfg t op = none := by
      cases h : next cfg t op with
      | none => rfl
      | some t' => cases (step_eq_ok.mpr h).symm.trans herr
    simp [walkSteps, hnone]

/-- A walk that is not over can take a step. -/
theorem walk_goes_on {v : Walk} (hv : w.walks i = some v) :
    ∃ op, ofWalk i op = true ∧ (next cfg w op).isSome = true := by
  cases hr : v.reply with
  | some r => exact ⟨.resumeWalk i 0 false, by simp [ofWalk], by simp [next, hv, hr]⟩
  | none =>
      cases hc : walkCall (v.pda cfg) v.stop with
      | some c =>
          exact ⟨.denyWalk i .retryable, by simp [ofWalk],
            by simp [next, awaitedWalk, hv, hc, hr]⟩
      | none =>
          refine ⟨.wakeWalk i, by simp [ofWalk], ?_⟩
          cases hs : v.stop <;> simp_all [walkCall, next]

end

/-! ## Finalisations are taken up -/

theorem Live.isSome {pda : Pubkey} (h : Live w pda) : (w.keeper.accounts pda).isSome = true := by
  obtain ⟨a, ha, -⟩ := (Option.any_eq_true _ _).mp h
  exact ha ▸ rfl

/-- The delivery launches a walk that comes to every market that is due. -/
theorem ingest_launches {u : ScoreUpdate} (hu : Heard w.keeper u) (hclient : cfg.client = true)
    {type : ℕ} (htype : type ∈ cfg.defs)
    (hdue : Due w (cfg.cataloguePdaFor u.fixtureId type)) :
    Owed cfg w.launched u.fixtureId type (w.starts (cfg.cataloguePdaFor u.fixtureId type))
        (Restarts.ingest cfg w u) ∧
      Standing cfg w.launched u.fixtureId type
        (w.starts (cfg.cataloguePdaFor u.fixtureId type)) (Restarts.ingest cfg w u) ∧
      stepsLeft cfg ((Restarts.ingest cfg w u).walks w.launched) ≤ walkBound cfg := by
  obtain ⟨hlive, -, hf⟩ := hdue
  have heq : Restarts.ingest cfg w u =
      { { w with keeper := Keeper.ingest cfg.toConfig w.keeper u }.setWalk w.launched
          (walkOn cfg w.inFlight u.fixtureId u.seq cfg.defs) with launched := w.launched + 1 } := by
    rw [Restarts.ingest, if_pos hu, launch, if_pos hclient]
  have hwalk : (Restarts.ingest cfg w u).walks w.launched =
      walkOn cfg w.inFlight u.fixtureId u.seq cfg.defs := by
    rw [heq]
    exact Function.update_self ..
  refine ⟨.inr (.inr ⟨?_, ?_⟩), ⟨?_, ?_, ?_⟩, ?_⟩
  · rw [(ingest_spec cfg w u).2.1]
    exact hf
  · obtain ⟨v, hv, hid, hstop, hreply, hmem⟩ := walkOn_of_mem hf u.seq htype
    exact ⟨v, hwalk.trans hv, hid, hmem.imp_right fun ht => ⟨ht, hstop, .inl hreply⟩⟩
  · obtain ⟨a, ha⟩ := Option.isSome_iff_exists.mp hlive.isSome
    obtain ⟨b, hb, -⟩ := (keeps_ingest cfg w u).accounts _ a ha
    rw [(ingest_spec cfg w u).1, hb]
    rfl
  · rw [heq]
    exact Nat.lt_succ_self _
  · rw [(ingest_spec cfg w u).2.2.1]
  · rw [hwalk]
    exact stepsLeft_walkOn ..

theorem Coming.onItsWay {i : ℕ} {fixtureId : ℤ} {type : ℕ} {ops : List Op} (hi : i < w.launched)
    (hle : stepsLeft cfg (w.walks i) ≤ walkBound cfg)
    (h : Coming cfg ((machine cfg).run w ops) i fixtureId type) :
    OnItsWay cfg w ops i fixtureId type := by
  obtain ⟨v, hv, hid, hrest⟩ := h
  have hrun := stepsLeft_run cfg hi ops
  have hpos := callsLeft_pos cfg v.stop
  refine ⟨?_, ?_, walk_goes_on hv⟩
  · have hmem : type ∈ v.ahead := mem_ahead (hrest.imp_right fun ⟨ht, hst, _⟩ => ⟨ht, hst⟩)
    simp [Ahead, hv, hid, hmem]
  · have hlow : 0 < stepsLeft cfg (some v) := by
      simp only [stepsLeft]
      omega
    rw [hv] at hrun
    omega

/-- A final record whose delivery is heeded and whose walk is attended is taken up. -/
theorem finalisation_taken_up (accounts : Accounts) (fixtureRows : ObjectMap FixtureRow.id)
    (marketRows : ObjectMap Row.pda) (before after : List Op) (u : ScoreUpdate) :
    let w := (machine cfg).run (boot accounts fixtureRows marketRows) before
    Heeded cfg w u →
      (machine cfg).Along (Attended cfg w.launched) ((machine cfg).apply w (.ingest u)) after →
        TakenUp cfg w u after := by
  rintro w ⟨hmarket, hcatalogue⟩ hafter
  have htracked : TrackedOk w.keeper := trackedOk_run cfg accounts fixtureRows marketRows before
  refine ⟨fun hdue => ?_, fun type htype hdue => ?_⟩
  · obtain ⟨hheard, hfound⟩ := hmarket hdue
    rw [apply_ingest]
    exact ingest_attempts htracked hheard hfound
  · obtain ⟨hheard, hclient⟩ := hcatalogue type htype hdue
    obtain ⟨howed, hstanding, hle⟩ := ingest_launches hheard hclient htype hdue
    rw [apply_ingest] at hafter ⊢
    refine (howed.run hstanding hafter).imp_right fun h => h.imp_right fun hc => ?_
    exact hc.2.onItsWay hstanding.launched hle

end

/-! ## Runs -/

def winnerPda : Pubkey := .market (.key 1) 7 0

def cornersPda : Pubkey := .market (.key 1) 7 28

def liveConfig : KeeperConfig where
  marketType := 0
  resolutionTimeoutSec := 100
  settleMaxAttempts := 3
  marketPdaFor id := .market (.key 1) (.ofInt id) 0
  catalogue := [0, 28]
  cataloguePdaFor id type := .market (.key 1) (.ofInt id) type
  client := true
  teamCode _ := none

def liveKeeper : Machine World Op Unit := machine liveConfig

def newKeeper : World := boot (fun _ => none) .empty .empty

def finalRecord : ScoreUpdate := ⟨7, 5, 0, some finalStatus, none⟩

/-- Two markets of fixture 7 are created and locked; the keeper adopts one. -/
def lockedMarkets : List Op :=
  [.keeper (.chainCreates winnerPda ⟨.opened, 1000, 100, by decide⟩),
    .keeper (.chainCreates cornersPda ⟨.opened, 1000, 100, by decide⟩),
    .keeper (.chainMoves winnerPda .locked), .keeper (.chainMoves cornersPda .locked),
    .keeper (.ensure 0 ⟨7, none, none, none, some 1000, none⟩ none),
    .keeper (.serve (.ensure 0) false true), .keeper (.resume (.ensure 0) 0)]

/-- What is known of them is written, and the keeper starts again. -/
def rewritten : List Op := [.persistFixture 7, .syncMarket winnerPda 7 0, .restart]

theorem finalisation_taken_up_restarted :
    Due (liveKeeper.run newKeeper (lockedMarkets ++ rewritten)) winnerPda ∧
      Due (liveKeeper.run newKeeper (lockedMarkets ++ rewritten)) cornersPda ∧
      TakenUp liveConfig (liveKeeper.run newKeeper (lockedMarkets ++ rewritten)) finalRecord
        [.serveWalk 0 false true, .resumeWalk 0 0 false, .denyWalk 0 .fatal,
          .resumeWalk 0 0 false, .restart] :=
  ⟨by decide +kernel, by decide +kernel,
    finalisation_taken_up (fun _ => none) .empty .empty (lockedMarkets ++ rewritten)
      [.serveWalk 0 false true, .resumeWalk 0 0 false, .denyWalk 0 .fatal, .resumeWalk 0 0 false,
        .restart] finalRecord (by decide +kernel) (by decide +kernel)⟩

/-- The keeper stops after it wrote that the fixture is finalised and before it settled
the market: no later delivery starts an attempt. -/
theorem finalisation_lost :
    ¬ ∀ before u, u.statusId = some finalStatus →
      TakenUp liveConfig (liveKeeper.run newKeeper before) u [] := by
  intro h
  have hstart := (h (lockedMarkets ++ .ingest finalRecord :: rewritten) finalRecord rfl).1
    (by decide +kernel)
  exact absurd hstart (by decide +kernel)

end ProofBook.Finalisation
