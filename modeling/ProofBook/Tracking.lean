import ProofBook.KeeperSteps

/-!
# Tracked records against the chain

A record agrees with its account when an open market is only ever `created` and
a locked one is in no terminal phase. Every operation of the keeper keeps this,
except a final record that arrives while the market is still open: it puts the
record in the phase `settling`, which the sweeper never locks.
-/
namespace ProofBook.Keeper
open Addresses ProofBook.State Objects Store Runs

/-! ## The invariant -/

def PhaseOk : MarketStatus → MarketPhase → Prop
  | .opened, phase => phase = .created
  | .locked, phase => phase ≠ .settled ∧ phase ≠ .cancelled
  | .settled, _ | .cancelled, _ => True

structure RecordOk (accounts : Accounts) (m : Record) (b : Account) : Prop where
  account : accounts m.marketPda = some b
  lockTime : m.lockTime = b.lockTime
  resolutionTimeout : m.resolutionTimeout = b.resolutionTimeout
  phase : PhaseOk b.status m.phase

theorem PhaseOk.forward {a b : MarketStatus} {phase : MarketPhase} (h : PhaseOk a phase)
    (hab : Forward a b) : PhaseOk b phase := by
  rcases hab with rfl | hlt
  · exact h
  · cases a <;> cases b <;> simp_all [PhaseOk, stage]

theorem phaseOk_loadPhase (a : MarketStatus) : PhaseOk a (loadPhase a) := by
  cases a <;> simp [PhaseOk, loadPhase]

/-- Once a market is locked, its record may be in any phase that is not terminal. -/
theorem PhaseOk.of_locked {a : MarketStatus} {phase : MarketPhase} (h : 1 ≤ stage a)
    (hs : phase ≠ .settled) (hc : phase ≠ .cancelled) : PhaseOk a phase := by
  cases a <;> simp_all [PhaseOk, stage]

theorem PhaseOk.of_terminal {a : MarketStatus} (phase : MarketPhase) (h : 2 ≤ stage a) :
    PhaseOk a phase := by
  cases a <;> simp_all [PhaseOk, stage]

theorem RecordOk.grows {accounts accounts' : Accounts} {m : Record} {b : Account}
    (h : RecordOk accounts m b) (hg : Grows accounts accounts') : ∃ c, RecordOk accounts' m c := by
  obtain ⟨c, hc, hbc⟩ := hg _ b h.account
  exact ⟨c, hc, h.lockTime.trans hbc.lockTime.symm,
    h.resolutionTimeout.trans hbc.resolutionTimeout.symm, h.phase.forward hbc.status⟩

structure SweepOk (accounts : Accounts) (pdaOf : ℕ → Option Pubkey) (sw : Sweep) : Prop where
  known : ∀ ref ∈ sw.ref :: sw.rest, (pdaOf ref).isSome
  /-- The records of one pass are of different markets. -/
  nodup : ((sw.ref :: sw.rest).map pdaOf).Nodup
  answered : ∀ pda r, pdaOf sw.ref = some pda → sw.reply = some r →
    Answers accounts (sweepCall pda sw.stop) r

/-- An attempt runs only for a market that is no longer open. -/
structure AttemptOk (accounts : Accounts) (pdaOf : ℕ → Option Pubkey) (pda : Pubkey)
    (a : Attempt) : Prop where
  ref : pdaOf a.ref = some pda
  locked : Past accounts pda 1
  resolved : a.stop = .refetch ∨ a.stop = .refetchResolved ∨ (∃ st, a.stop = .recordProof st) →
    Past accounts pda 2
  answered : ∀ c r, attemptCall pda a.stop = some c → a.reply = some r → Answers accounts c r

def EnsureOk (cfg : Config) (accounts : Accounts) (e : Ensure) : Prop :=
  ∀ r, e.reply = some r →
    Answers accounts (ensureCall cfg (cfg.marketPdaFor e.info.fixtureId) e.stop) r

structure Fit (cfg : Config) (s : State) : Prop where
  records : ∀ m ∈ s.records, ∃ b, RecordOk s.accounts m b
  tracked : ∀ p ∈ s.tracked.values, s.pdaOf p.2 = some p.1
  sweep : ∀ sw, s.sweep = some sw → SweepOk s.accounts s.pdaOf sw
  attempts : ∀ pda a, s.attempts pda = some a → AttemptOk s.accounts s.pdaOf pda a
  ensures : ∀ i e, s.ensures i = some e → EnsureOk cfg s.accounts e

/-- What the parts of the invariant rest on is only added to. -/
structure Extends (s t : State) : Prop where
  accounts : Grows s.accounts t.accounts
  pdaOf : ∀ ref pda, s.pdaOf ref = some pda → t.pdaOf ref = some pda

section
variable {cfg : Config} {s t : State}

theorem Extends.pdaOf_eq (h : Extends s t) {ref : ℕ} (hs : (s.pdaOf ref).isSome) :
    t.pdaOf ref = s.pdaOf ref := by
  obtain ⟨pda, hpda⟩ := Option.isSome_iff_exists.mp hs
  rw [hpda, h.pdaOf ref pda hpda]

theorem SweepOk.extends {sw : Sweep} (h : SweepOk s.accounts s.pdaOf sw) (he : Extends s t) :
    SweepOk t.accounts t.pdaOf sw where
  known ref hr := by
    rw [he.pdaOf_eq (h.known ref hr)]
    exact h.known ref hr
  nodup := by
    have hmap : (sw.ref :: sw.rest).map t.pdaOf = (sw.ref :: sw.rest).map s.pdaOf :=
      List.map_congr_left fun ref hr => he.pdaOf_eq (h.known ref hr)
    rw [hmap]
    exact h.nodup
  answered pda r hp hr := by
    rw [he.pdaOf_eq (h.known _ List.mem_cons_self)] at hp
    exact (h.answered pda r hp hr).grows he.accounts

theorem AttemptOk.extends {pda : Pubkey} {a : Attempt} (h : AttemptOk s.accounts s.pdaOf pda a)
    (he : Extends s t) : AttemptOk t.accounts t.pdaOf pda a where
  ref := he.pdaOf _ _ h.ref
  locked := h.locked.grows he.accounts
  resolved hr := (h.resolved hr).grows he.accounts
  answered c r hc hr := (h.answered c r hc hr).grows he.accounts

theorem EnsureOk.extends {e : Ensure} (h : EnsureOk cfg s.accounts e) (he : Extends s t) :
    EnsureOk cfg t.accounts e :=
  fun r hr => (h r hr).grows he.accounts

/-- The parts that an update of the records or the accounts leaves alone. -/
theorem Fit.extends (h : Fit cfg s) (he : Extends s t)
    (hrecords : ∀ m ∈ t.records, ∃ b, RecordOk t.accounts m b)
    (htracked : ∀ p ∈ t.tracked.values, p ∈ s.tracked.values ∨ t.pdaOf p.2 = some p.1)
    (hsweep : t.sweep = s.sweep) (hattempts : t.attempts = s.attempts)
    (hensures : t.ensures = s.ensures) : Fit cfg t where
  records := hrecords
  tracked p hp := (htracked p hp).elim (fun hp => he.pdaOf _ _ (h.tracked p hp)) id
  sweep sw hsw := (h.sweep sw (hsweep ▸ hsw)).extends he
  attempts pda a ha := (h.attempts pda a (hattempts ▸ ha)).extends he
  ensures i e hi := (h.ensures i e (hensures ▸ hi)).extends he

theorem Fit.setSweep (h : Fit cfg s) {x : Option Sweep}
    (hx : ∀ sw, x = some sw → SweepOk s.accounts s.pdaOf sw) :
    Fit cfg (s.setSweep x) :=
  ⟨h.records, h.tracked, hx, h.attempts, h.ensures⟩

theorem Fit.setAttempt (h : Fit cfg s) {pda : Pubkey} {x : Option Attempt}
    (hx : ∀ a, x = some a → AttemptOk s.accounts s.pdaOf pda a) : Fit cfg (s.setAttempt pda x) := by
  refine ⟨h.records, h.tracked, h.sweep, fun pda' a ha => ?_, h.ensures⟩
  by_cases hp : pda' = pda
  · subst hp
    exact hx a (by simpa [State.setAttempt] using ha)
  · exact h.attempts pda' a (by simpa [State.setAttempt, Function.update_of_ne hp] using ha)

theorem Fit.setEnsure (h : Fit cfg s) {i : ℕ} {x : Option Ensure}
    (hx : ∀ e, x = some e → EnsureOk cfg s.accounts e) : Fit cfg (s.setEnsure i x) := by
  refine ⟨h.records, h.tracked, h.sweep, h.attempts, fun j e he => ?_⟩
  by_cases hj : j = i
  · subst hj
    exact hx e (by simpa [State.setEnsure] using he)
  · exact h.ensures j e (by simpa [State.setEnsure, Function.update_of_ne hj] using he)

theorem Fit.submit (h : Fit cfg s) (tx : Tx) : Fit cfg (s.submit tx) :=
  ⟨h.records, h.tracked, h.sweep, h.attempts, h.ensures⟩

theorem Fit.setFixtures (h : Fit cfg s) (fixtures : ObjectMap FixtureLive.fixtureId) :
    Fit cfg { s with fixtures } :=
  ⟨h.records, h.tracked, h.sweep, h.attempts, h.ensures⟩

theorem Fit.record (h : Fit cfg s) {ref : ℕ} {m : Record} (hm : s.records[ref]? = some m) :
    ∃ b, RecordOk s.accounts m b :=
  h.records m (List.mem_of_getElem? hm)

theorem Extends.modifyRecord {ref : ℕ} {f : Record → Record}
    (hf : ∀ m, (f m).marketPda = m.marketPda) : Extends s (s.modifyRecord ref f) :=
  ⟨Grows.refl _, fun _ _ hp => by rwa [pdaOf_modifyRecord hf]⟩

theorem Fit.modifyRecord (h : Fit cfg s) {ref : ℕ} {f : Record → Record}
    (hf : ∀ m, (f m).marketPda = m.marketPda)
    (hok : ∀ m b, s.records[ref]? = some m → RecordOk s.accounts m b →
      RecordOk s.accounts (f m) b) : Fit cfg (s.modifyRecord ref f) := by
  refine h.extends (.modifyRecord hf) (fun m hm => ?_) (fun p hp => .inl hp) rfl rfl rfl
  obtain ⟨r, hr⟩ := List.mem_iff_getElem?.mp hm
  obtain ⟨m₀, hm₀, rfl⟩ := getElem?_modifyRecord.mp hr
  obtain ⟨b, hb⟩ := h.record hm₀
  split
  next hrr =>
    subst hrr
    exact ⟨b, hok m₀ b hm₀ hb⟩
  · exact ⟨b, hb⟩

theorem Fit.setPhase (h : Fit cfg s) {ref : ℕ} {phase : MarketPhase} {pda : Pubkey}
    (hpda : s.pdaOf ref = some pda)
    (hphase : ∀ b, s.accounts pda = some b → PhaseOk b.status phase) :
    Fit cfg (s.setPhase ref phase) := by
  refine h.modifyRecord (fun _ => rfl) fun m b hm hb => { hb with phase := ?_ }
  rw [pdaOf_of_record hm] at hpda
  injection hpda with hpda
  exact hphase b (hpda ▸ hb.account)

/-- A phase that is not terminal, for a market that is no longer open. -/
theorem Fit.setPhase_of_locked (h : Fit cfg s) {ref : ℕ} {phase : MarketPhase} {pda : Pubkey}
    (hpda : s.pdaOf ref = some pda) (hpast : Past s.accounts pda 1) (hs : phase ≠ .settled)
    (hc : phase ≠ .cancelled) : Fit cfg (s.setPhase ref phase) := by
  refine h.setPhase hpda fun b hb => ?_
  obtain ⟨b', hb', hn⟩ := hpast
  rw [hb] at hb'
  injection hb' with hb'
  exact .of_locked (hb' ▸ hn) hs hc

theorem Fit.setPhase_of_terminal (h : Fit cfg s) {ref : ℕ} {pda : Pubkey} (phase : MarketPhase)
    (hpda : s.pdaOf ref = some pda) (hpast : Past s.accounts pda 2) :
    Fit cfg (s.setPhase ref phase) := by
  refine h.setPhase hpda fun b hb => ?_
  obtain ⟨b', hb', hn⟩ := hpast
  rw [hb] at hb'
  injection hb' with hb'
  exact .of_terminal phase (hb' ▸ hn)

theorem Fit.setAttempts (h : Fit cfg s) (ref : ℕ) (f : ℕ → ℕ) :
    Fit cfg (s.modifyRecord ref fun m => { m with settleAttempts := f m.settleAttempts }) :=
  h.modifyRecord (fun _ => rfl) fun _ _ _ hb => { hb with }

theorem Fit.track (h : Fit cfg s) {m : Record} {b : Account} (hm : RecordOk s.accounts m b) :
    Fit cfg (s.track m) := by
  refine h.extends ⟨Grows.refl _, fun _ _ => pdaOf_track⟩ (fun m' hm' => ?_) (fun p hp => ?_)
    rfl rfl rfl
  · rcases List.mem_append.mp hm' with hm' | hm'
    · exact h.records m' hm'
    · exact ⟨b, List.mem_singleton.mp hm' ▸ hm⟩
  · rcases ObjectMap.mem_set.mp hp with rfl | ⟨hp, -⟩
    · exact .inr (pdaOf_eq_some.mpr ⟨m, by simp [State.track], rfl⟩)
    · exact .inl hp

theorem Fit.setAccounts (h : Fit cfg s) {accounts : Accounts} (hg : Grows s.accounts accounts) :
    Fit cfg { s with accounts } := by
  refine h.extends ⟨hg, fun _ _ hp => hp⟩ (fun m hm => ?_) (fun p hp => .inl hp) rfl rfl rfl
  obtain ⟨b, hb⟩ := h.records m hm
  exact hb.grows hg

/-! ## The sweeper -/

theorem walk_eq_some {records : List Record} {now : ℤ} {rest : List ℕ} {sw : Sweep}
    (h : walk records now rest = some sw) :
    (sw.ref :: sw.rest) <:+ rest ∧ sw.now = now ∧ sw.reply = none ∧
      ∃ m, records[sw.ref]? = some m ∧ firstStop now m = some sw.stop := by
  induction rest with
  | nil => cases h
  | cons ref rest ih =>
      unfold walk at h
      split at h
      next stop hstop =>
        injection h with h
        subst h
        exact ⟨List.suffix_rfl, rfl, rfl, Option.bind_eq_some_iff.mp hstop⟩
      · obtain ⟨hs, hr⟩ := ih h
        exact ⟨hs.trans (List.suffix_cons ref rest), hr⟩

/-- What a pass still has to visit is of different markets. -/
structure RefsOk (pdaOf : ℕ → Option Pubkey) (refs : List ℕ) : Prop where
  known : ∀ ref ∈ refs, (pdaOf ref).isSome
  nodup : (refs.map pdaOf).Nodup

theorem RefsOk.suffix {pdaOf : ℕ → Option Pubkey} {refs refs' : List ℕ} (h : RefsOk pdaOf refs)
    (hs : refs' <:+ refs) : RefsOk pdaOf refs' :=
  ⟨fun ref hr => h.known ref (hs.subset hr), h.nodup.sublist (hs.sublist.map pdaOf)⟩

theorem SweepOk.unanswered {accounts : Accounts} {pdaOf : ℕ → Option Pubkey} {sw : Sweep}
    (h : RefsOk pdaOf (sw.ref :: sw.rest)) (hr : sw.reply = none) : SweepOk accounts pdaOf sw :=
  ⟨h.known, h.nodup, fun _ _ _ h => nomatch hr.symm.trans h⟩

theorem SweepOk.refsOk {accounts : Accounts} {pdaOf : ℕ → Option Pubkey} {sw : Sweep}
    (h : SweepOk accounts pdaOf sw) : RefsOk pdaOf (sw.ref :: sw.rest) :=
  ⟨h.known, h.nodup⟩

theorem Fit.setSweep_walk (h : Fit cfg s) {refs : List ℕ} (hrefs : RefsOk s.pdaOf refs) (now : ℤ) :
    Fit cfg (s.setSweep (walk s.records now refs)) := by
  refine h.setSweep fun sw hsw => ?_
  obtain ⟨hs, -, hr, -⟩ := walk_eq_some hsw
  exact .unanswered (hrefs.suffix hs) hr

theorem Fit.setSweep_stop (h : Fit cfg s) {sw : Sweep} (hrefs : RefsOk s.pdaOf (sw.ref :: sw.rest))
    (stop : SweepStop) : Fit cfg (s.setSweep (some { sw with stop, reply := none })) := by
  refine h.setSweep fun sw' hsw => ?_
  injection hsw with hsw
  subst hsw
  exact .unanswered hrefs rfl

theorem Fit.setSweep_backstop (h : Fit cfg s) {sw : Sweep}
    (hrefs : RefsOk s.pdaOf (sw.ref :: sw.rest)) :
    Fit cfg (s.setSweep (backstop s.records sw)) := by
  unfold backstop
  split
  · exact h.setSweep_stop hrefs .cancelRead
  · exact h.setSweep_walk (hrefs.suffix (List.suffix_cons ..)) sw.now

theorem Fit.endSweep (h : Fit cfg s) : Fit cfg (s.setSweep none) :=
  h.setSweep fun _ hsw => nomatch hsw

theorem Fit.trackedRefs (h : Fit cfg s) : RefsOk s.pdaOf (s.tracked.values.map Prod.snd) := by
  constructor
  · intro ref hr
    obtain ⟨p, hp, rfl⟩ := List.mem_map.mp hr
    rw [h.tracked p hp]
    rfl
  · have hmap : (s.tracked.values.map Prod.snd).map s.pdaOf =
        (s.tracked.values.map Prod.fst).map some := by
      simp only [List.map_map]
      exact List.map_congr_left fun p hp => h.tracked p hp
    rw [hmap]
    exact s.tracked.nodup.map (Option.some_injective _)

theorem Fit.startSweep (h : Fit cfg s) (now : ℤ) : Fit cfg (startSweep s now) := by
  unfold Keeper.startSweep
  split
  · exact h
  · exact h.setSweep_walk h.trackedRefs now

/-- What a read that was served tells of the market. -/
theorem past_of_read {accounts : Accounts} {pda : Pubkey} {a : Option Account} {st : MarketStatus}
    (h : Answers accounts (.read pda) (.account a)) (hst : statusOf a = some st) :
    Past accounts pda (stage st) := by
  cases a with
  | none => cases hst
  | some a =>
      injection hst with hst
      exact hst ▸ Seen.past h

/-- The state with a record's phase brought up to date, or as it was. -/
structure Marked (cfg : Config) (s u : State) : Prop where
  fit : Fit cfg u
  accounts : u.accounts = s.accounts
  pdaOf : u.pdaOf = s.pdaOf
  submitted : u.submitted = s.submitted

theorem Fit.unmarked (h : Fit cfg s) : Marked cfg s s := ⟨h, rfl, rfl, rfl⟩

theorem Fit.marked {ref : ℕ} {phase : MarketPhase} (h : Fit cfg (s.setPhase ref phase)) :
    Marked cfg s (s.setPhase ref phase) :=
  ⟨h, rfl, pdaOf_setPhase ref phase, rfl⟩

/-- All that a pass does once its call has returned. -/
inductive SweepStep (cfg : Config) (s : State) (sw : Sweep) (pda : Pubkey) (r : Reply) :
    State → Prop
  | readFailed (hstop : sw.stop = .lockRead ∨ sw.stop = .cancelRead)
      (hr : ∀ b, r ≠ .account b) : SweepStep cfg s sw pda r (s.setSweep none)
  | locks {a : Account} (hstop : sw.stop = .lockRead) (hr : r = .account (some a))
      (ha : a.status = .opened) :
      SweepStep cfg s sw pda r
        ((s.submit (.lockMarket pda)).setSweep (some { sw with stop := .lock, reply := none }))
  | cancels {a : Account} (hstop : sw.stop = .cancelRead) (hr : r = .account (some a))
      (ha : a.status = .locked) :
      SweepStep cfg s sw pda r
        ((s.submit (.cancelMarket pda)).setSweep (some { sw with stop := .cancel, reply := none }))
  | goesOn {u : State} (hstop : sw.stop = .lockRead ∨ sw.stop = .lock) (hu : Marked cfg s u) :
      SweepStep cfg s sw pda r (u.setSweep (backstop u.records sw))
  | passes {u : State} (hu : Marked cfg s u) :
      SweepStep cfg s sw pda r (u.setSweep (walk u.records sw.now sw.rest))

theorem resumeSweep_cases (h : Fit cfg s) {sw : Sweep} {pda : Pubkey} {r : Reply}
    (hsw : s.sweep = some sw) (hpda : s.pdaOf sw.ref = some pda) (hr : sw.reply = some r) :
    SweepStep cfg s sw pda r (resumeSweep s sw pda r) := by
  have hans := (h.sweep sw hsw).answered pda r hpda hr
  unfold resumeSweep
  cases hstop : sw.stop with
  | lockRead =>
      rw [hstop] at hans
      cases r with
      | account a =>
          dsimp only
          split
          next hst =>
            obtain ⟨b, rfl, hb⟩ := Option.map_eq_some_iff.mp hst
            exact .locks hstop rfl hb
          next hst =>
            exact .goesOn (.inl hstop) (h.setPhase_of_locked hpda (past_of_read hans hst)
              (by decide) (by decide)).marked
          · exact .goesOn (.inl hstop) h.unmarked
      | confirmed => exact .readFailed (.inl hstop) nofun
      | failed e => exact .readFailed (.inl hstop) nofun
  | lock =>
      rw [hstop] at hans
      cases r with
      | account a => exact .goesOn (.inr hstop) h.unmarked
      | confirmed =>
          exact .goesOn (.inr hstop)
            (h.setPhase_of_locked hpda hans (by decide) (by decide)).marked
      | failed e => exact .goesOn (.inr hstop) h.unmarked
  | cancelRead =>
      rw [hstop] at hans
      cases r with
      | account a =>
          dsimp only
          split
          next hst =>
            obtain ⟨b, rfl, hb⟩ := Option.map_eq_some_iff.mp hst
            exact .cancels hstop rfl hb
          next hst => exact .passes (h.setPhase_of_terminal _ hpda (past_of_read hans hst)).marked
          next hst => exact .passes (h.setPhase_of_terminal _ hpda (past_of_read hans hst)).marked
          · exact .passes h.unmarked
      | confirmed => exact .readFailed (.inr hstop) nofun
      | failed e => exact .readFailed (.inr hstop) nofun
  | cancel =>
      rw [hstop] at hans
      cases r with
      | account a => exact .passes h.unmarked
      | confirmed => exact .passes (h.setPhase_of_terminal _ hpda hans).marked
      | failed e => exact .passes h.unmarked

theorem Fit.resumeSweep (h : Fit cfg s) {sw : Sweep} {pda : Pubkey} {r : Reply}
    (hsw : s.sweep = some sw) (hpda : s.pdaOf sw.ref = some pda) (hr : sw.reply = some r) :
    Fit cfg (resumeSweep s sw pda r) := by
  have hrefs := (h.sweep sw hsw).refsOk
  have hcases := resumeSweep_cases h hsw hpda hr
  generalize Keeper.resumeSweep s sw pda r = t at hcases ⊢
  cases hcases with
  | readFailed => exact h.endSweep
  | locks => exact (h.submit _).setSweep_stop hrefs .lock
  | cancels => exact (h.submit _).setSweep_stop hrefs .cancel
  | goesOn _ hu => exact hu.fit.setSweep_backstop (hu.pdaOf ▸ hrefs)
  | passes hu =>
      exact hu.fit.setSweep_walk (hu.pdaOf ▸ hrefs.suffix (List.suffix_cons ..)) sw.now

/-! ## The settler -/

theorem Fit.endAttempt (h : Fit cfg s) (pda : Pubkey) : Fit cfg (s.setAttempt pda none) :=
  h.setAttempt fun _ ha => nomatch ha

theorem Fit.startAttempt (h : Fit cfg s) {pda : Pubkey} (hpast : Past s.accounts pda 1) (seq : ℤ) :
    Fit cfg (startAttempt s pda seq) := by
  unfold Keeper.startAttempt
  split
  next p ref hget =>
    obtain ⟨hmem, hkey⟩ := ObjectMap.get_eq_some.mp hget
    have href : s.pdaOf ref = some pda := by
      rw [h.tracked _ hmem]
      exact congrArg some hkey
    refine (h.setAttempts ref (· + 1)).setAttempt fun a ha => ?_
    injection ha with ha
    subst ha
    refine ⟨(Extends.modifyRecord (by intro; rfl)).pdaOf _ _ href, hpast, ?_,
      fun _ _ _ hr => nomatch hr⟩
    rintro (hst | hst | ⟨_, hst⟩) <;> cases hst
  · exact h

theorem finalisable_eq_some {fixtureId : ℤ} {ref : ℕ} {m : Record}
    (h : finalisable cfg s fixtureId = some (ref, m)) :
    s.records[ref]? = some m ∧ m.phase ≠ .settled ∧ m.phase ≠ .cancelled := by
  unfold finalisable at h
  simp only [Option.bind_eq_bind, Option.bind_eq_some_iff] at h
  obtain ⟨ref', -, m', hm, h⟩ := h
  split at h
  · cases h
  next hne =>
    simp only [Option.some.injEq, Prod.mk.injEq] at h
    obtain ⟨rfl, rfl⟩ := h
    simp only [not_or] at hne
    exact ⟨hm, hne.2⟩

theorem Fit.onFinalised (h : Fit cfg s) {fixtureId : ℤ}
    (hlocked : ∀ p, finalisable cfg s fixtureId = some p →
      statusOf (s.accounts p.2.marketPda) ≠ some .opened) (seq : ℤ) :
    Fit cfg (onFinalised cfg s fixtureId seq) := by
  unfold Keeper.onFinalised
  split
  next ref m hfin =>
    obtain ⟨hm, -⟩ := finalisable_eq_some hfin
    obtain ⟨b, hb⟩ := h.record hm
    have hopen : b.status ≠ .opened := fun he =>
      hlocked _ hfin (by rw [hb.account]; exact congrArg some he)
    have hstage : 1 ≤ stage b.status := by
      cases hst : b.status <;> first | exact absurd hst hopen | simp [stage]
    have hfit : Fit cfg
        (s.modifyRecord ref fun m => { m with phase := .settling, settleAttempts := 0 }) := by
      refine h.modifyRecord (fun _ => rfl) fun m' b' hm' hb' => ?_
      have hmm : m' = m := Option.some.inj (hm'.symm.trans hm)
      subst hmm
      have hbb : b' = b := Option.some.inj (hb'.account.symm.trans hb.account)
      subst hbb
      exact { hb' with phase := .of_locked hstage nofun nofun }
    exact hfit.startAttempt ⟨b, hb.account, hstage⟩ seq
  · exact h

theorem Fit.recordResolution (h : Fit cfg s) {pda : Pubkey} (hpast : Past s.accounts pda 2)
    (status : MarketStatus) : Fit cfg (recordResolution s pda status) := by
  unfold Keeper.recordResolution
  split
  next p ref hget =>
    obtain ⟨hmem, hkey⟩ := ObjectMap.get_eq_some.mp hget
    refine h.setPhase_of_terminal _ ?_ hpast
    rw [h.tracked _ hmem]
    exact congrArg some hkey
  · exact h

section
variable {pda : Pubkey} {a : Attempt}

theorem Fit.setAttempt_stop (h : Fit cfg s) (ha : AttemptOk s.accounts s.pdaOf pda a)
    (stop : AttemptStop)
    (hresolved : stop = .refetch ∨ stop = .refetchResolved ∨ (∃ st, stop = .recordProof st) →
      Past s.accounts pda 2) :
    Fit cfg (s.setAttempt pda (some { a with stop, reply := none })) := by
  refine h.setAttempt fun a' ha' => ?_
  injection ha' with ha'
  subst ha'
  exact ⟨ha.ref, ha.locked, hresolved, fun _ _ _ hr => nomatch hr⟩

theorem Fit.failAttempt (h : Fit cfg s) (ha : AttemptOk s.accounts s.pdaOf pda a) (e : Failure) :
    Fit cfg (failAttempt cfg s pda a e) := by
  unfold Keeper.failAttempt
  split
  · exact (h.setPhase_of_locked ha.ref ha.locked (by decide) (by decide)).endAttempt pda
  · exact h.setAttempt_stop ha .waiting (by simp)

theorem Fit.resumeAttempt (h : Fit cfg s) {r : Reply} (ha : s.attempts pda = some a)
    (hr : a.reply = some r) : Fit cfg (resumeAttempt cfg s pda a r) := by
  have hok := h.attempts pda a ha
  unfold Keeper.resumeAttempt
  have hfail (e : Failure) : Fit cfg (Keeper.failAttempt cfg s pda a e) := h.failAttempt hok e
  cases hstop : a.stop with
  | fetch =>
      have hans := hok.answered _ r (congrArg (attemptCall pda) hstop) hr
      match r, hans with
      | .account (some acc), hans =>
          dsimp only
          split
          next ht =>
            exact h.setAttempt_stop hok _ fun _ =>
              (Seen.past hans).le (stage_of_terminal ht).ge
          · split
            · exact hfail _
            · exact h.setAttempt_stop hok .proof (by simp)
      | .account none, _ => exact hfail _
      | .confirmed, _ => exact hfail _
      | .failed e, _ => exact hfail _
  | proof =>
      match r with
      | .confirmed => exact (h.submit _).setAttempt_stop hok .settle (by simp)
      | .account _ => exact hfail _
      | .failed _ => exact hfail _
  | settle =>
      have hans := hok.answered _ r (congrArg (attemptCall pda) hstop) hr
      match r, hans with
      | .failed .alreadyResolved, hans => exact h.setAttempt_stop hok .refetchResolved fun _ => hans
      | .failed .fatal, _ => exact hfail _
      | .failed .retryable, _ => exact hfail _
      | .confirmed, hans => exact h.setAttempt_stop hok .refetch fun _ => hans
  | refetch =>
      have hpast := hok.resolved (.inl hstop)
      match r with
      | .account (some acc) => exact (h.recordResolution hpast _).endAttempt pda
      | .account none => exact hfail _
      | .confirmed => exact hfail _
      | .failed _ => exact hfail _
  | recordProof st =>
      exact (h.recordResolution (hok.resolved (.inr (.inr ⟨st, hstop⟩))) st).endAttempt pda
  | refetchResolved =>
      have hpast := hok.resolved (.inr (.inl hstop))
      match r with
      | .account (some acc) => exact (h.recordResolution hpast _).endAttempt pda
      | .account none => exact h.endAttempt pda
      | .confirmed => exact h.endAttempt pda
      | .failed _ => exact h.endAttempt pda
  | waiting => exact h

end

/-! ## Discovery -/

theorem Fit.endEnsure (h : Fit cfg s) (i : ℕ) : Fit cfg (s.setEnsure i none) :=
  h.setEnsure fun _ he => nomatch he

theorem Fit.setEnsure_unanswered (h : Fit cfg s) (i : ℕ) (info : FixtureInfo)
    (lockTimeOverride : Option ℤ) (stop : EnsureStop) :
    Fit cfg (s.setEnsure i (some ⟨info, lockTimeOverride, stop, none⟩)) := by
  refine h.setEnsure fun e he => ?_
  injection he with he
  subst he
  exact fun _ hr => nomatch hr

theorem Fit.startEnsure (h : Fit cfg s) (i : ℕ) (info : FixtureInfo)
    (lockTimeOverride : Option ℤ) : Fit cfg (startEnsure cfg s i info lockTimeOverride) := by
  unfold Keeper.startEnsure
  split
  · exact h
  · exact h.setEnsure_unanswered i info lockTimeOverride .fetch

theorem Seen.adopted {accounts : Accounts} {info : FixtureInfo} {a : Account}
    (h : Seen accounts (cfg.marketPdaFor info.fixtureId) a) :
    ∃ b, RecordOk accounts (adoptedRecord cfg info a) b := by
  obtain ⟨b, hb, hab⟩ := h
  exact ⟨b, hb, hab.lockTime.symm, hab.resolutionTimeout.symm,
    (phaseOk_loadPhase a.status).forward hab.status⟩

theorem createdOk {accounts : Accounts} {info : FixtureInfo} {lockTime : ℤ}
    (h : Landed accounts (.initializeMarket (cfg.marketPdaFor info.fixtureId) lockTime
      cfg.resolutionTimeoutSec)) :
    ∃ b, RecordOk accounts (createdRecord cfg info lockTime) b := by
  obtain ⟨b, hb, hl, hr⟩ := h
  refine ⟨b, hb, hl.symm, hr.symm, ?_⟩
  cases b.status <;> simp [PhaseOk, createdRecord]

theorem Fit.resumeEnsure (h : Fit cfg s) {i : ℕ} {e : Ensure} {r : Reply}
    (he : s.ensures i = some e) (hr : e.reply = some r) (now : ℤ) :
    Fit cfg (resumeEnsure cfg s i e now r) := by
  have hans := h.ensures i e he r hr
  unfold Keeper.resumeEnsure
  split
  next hstop =>
    rw [hstop] at hans
    obtain ⟨b, hb⟩ := Seen.adopted hans
    exact (h.track hb).endEnsure i
  · dsimp only
    split
    · exact h.endEnsure i
    · exact (h.submit _).setEnsure_unanswered i _ _ _
  next hstop =>
    rw [hstop] at hans
    obtain ⟨b, hb⟩ := createdOk hans
    exact ((h.track hb).setFixtures _).endEnsure i
  · exact h.endEnsure i

theorem Fit.answer (h : Fit cfg s) {who : Who} {c : Call} {r : Reply}
    (hc : awaited cfg s who = some c) (hr : Answers s.accounts c r) : Fit cfg (answer s r who) := by
  cases who with
  | sweep =>
      simp only [awaited, Option.bind_eq_bind, Option.bind_eq_some_iff] at hc
      obtain ⟨sw, hsw, pda, hpda, hc⟩ := hc
      split at hc
      · injection hc with hc
        subst hc
        have hok := h.sweep sw hsw
        refine h.setSweep fun sw' hsw' => ?_
        rw [hsw] at hsw'
        injection hsw' with hsw'
        subst hsw'
        refine ⟨hok.known, hok.nodup, fun pda' r' hpda' hr' => ?_⟩
        injection hr' with hr'
        injection hpda.symm.trans hpda' with hpp
        exact hr' ▸ hpp ▸ hr
      · cases hc
  | attempt pda =>
      simp only [awaited, Option.bind_eq_bind, Option.bind_eq_some_iff] at hc
      obtain ⟨a, ha, hc⟩ := hc
      split at hc
      · have hok := h.attempts pda a ha
        refine h.setAttempt fun a' ha' => ?_
        rw [ha] at ha'
        injection ha' with ha'
        subst ha'
        refine ⟨hok.ref, hok.locked, hok.resolved, fun c' r' hc' hr' => ?_⟩
        injection hr' with hr'
        injection hc.symm.trans hc' with hcc
        exact hr' ▸ hcc ▸ hr
      · cases hc
  | ensure i =>
      simp only [awaited, Option.bind_eq_bind, Option.bind_eq_some_iff] at hc
      obtain ⟨e, he, hc⟩ := hc
      split at hc
      · injection hc with hc
        refine h.setEnsure fun e' he' => ?_
        rw [he] at he'
        injection he' with he'
        subst he'
        intro r' hr'
        injection hr' with hr'
        rw [hc]
        exact hr' ▸ hr
      · cases hc

/-! ## Steps -/

/-- No final record of a fixture starts an attempt while its market is still open. -/
def LockedFirst (cfg : Config) (s : State) : Op → Prop
  | .ingest u =>
      let fx := fixtureOf s u.fixtureId
      ¬ Stale fx u → Finalises fx u →
        (finalisable cfg s u.fixtureId).all (fun p =>
          statusOf (s.accounts p.2.marketPda) ≠ some .opened) = true
  | _ => True

instance (cfg : Config) (s : State) (op : Op) : Decidable (LockedFirst cfg s op) := by
  unfold LockedFirst
  split <;> infer_instance

theorem Fit.ingest (h : Fit cfg s) {u : ScoreUpdate} (hl : LockedFirst cfg s (.ingest u)) :
    Fit cfg (ingest cfg s u) := by
  unfold Keeper.ingest
  dsimp only
  split
  · exact h.setFixtures _
  next hfresh =>
    split
    next hfinal =>
      refine (h.setFixtures _).onFinalised (fun p hp => ?_) u.seq
      have hall := hl hfresh hfinal
      have hp' : finalisable cfg s u.fixtureId = some p := hp
      rw [hp'] at hall
      simpa using hall
    · exact h.setFixtures _

theorem Fit.resume (h : Fit cfg s) {now : ℤ} {who : Who} (hs : resume cfg s now who = some t) :
    Fit cfg t := by
  cases who with
  | sweep =>
      simp only [Keeper.resume, Option.bind_eq_bind, Option.bind_eq_some_iff] at hs
      obtain ⟨sw, hsw, pda, hpda, r, hr, hs⟩ := hs
      injection hs with hs
      exact hs ▸ h.resumeSweep hsw hpda hr
  | attempt pda =>
      simp only [Keeper.resume, Option.bind_eq_bind, Option.bind_eq_some_iff] at hs
      obtain ⟨a, ha, r, hr, hs⟩ := hs
      injection hs with hs
      exact hs ▸ h.resumeAttempt ha hr
  | ensure i =>
      simp only [Keeper.resume, Option.bind_eq_bind, Option.bind_eq_some_iff] at hs
      obtain ⟨e, he, r, hr, hs⟩ := hs
      injection hs with hs
      exact hs ▸ h.resumeEnsure he hr now

theorem Fit.next (h : Fit cfg s) {op : Op} (hl : LockedFirst cfg s op)
    (hs : next cfg s op = some t) : Fit cfg t := by
  cases op with
  | ingest u =>
      injection hs with hs
      exact hs ▸ h.ingest hl
  | ensure i info lockTimeOverride =>
      simp only [Keeper.next] at hs
      split at hs
      · injection hs with hs
        exact hs ▸ h.startEnsure i info lockTimeOverride
      · cases hs
  | sweep now =>
      injection hs with hs
      exact hs ▸ h.startSweep now
  | attemptDue pda =>
      simp only [Keeper.next, Option.bind_eq_bind, Option.bind_eq_some_iff] at hs
      obtain ⟨a, ha, hs⟩ := hs
      split at hs
      · injection hs with hs
        exact hs ▸ h.startAttempt (h.attempts pda a ha).locked a.seq
      · cases hs
  | serve who voided reported =>
      simp only [Keeper.next, Option.bind_eq_bind, Option.bind_eq_some_iff] at hs
      obtain ⟨c, hc, ⟨accounts, r⟩, hserve, hs⟩ := hs
      obtain ⟨hg, hans⟩ := Call.serve_spec hserve
      injection hs with hs
      have hc' : awaited cfg { s with accounts } who = some c := hc
      exact hs ▸ (h.setAccounts hg).answer hc' hans
  | deny who e =>
      simp only [Keeper.next, Option.bind_eq_bind, Option.bind_eq_some_iff] at hs
      obtain ⟨c, hc, hs⟩ := hs
      split at hs
      next hmay =>
        injection hs with hs
        exact hs ▸ h.answer hc (Call.mayFail_spec hmay)
      · cases hs
  | resume who now => exact h.resume hs
  | chainCreates pda a =>
      simp only [Keeper.next] at hs
      split at hs
      next hnew =>
        injection hs with hs
        exact hs ▸ h.setAccounts (.create hnew.1)
      · cases hs
  | chainMoves pda status =>
      simp only [Keeper.next, Option.bind_eq_bind, Option.bind_eq_some_iff] at hs
      obtain ⟨a, ha, hs⟩ := hs
      split at hs
      next hlt =>
        injection hs with hs
        exact hs ▸ h.setAccounts (.move ha hlt)
      · cases hs

/-- The keeper starts with records that agree with the chain, and with nothing running. -/
structure Init (cfg : Config) (s : State) : Prop where
  records : ∀ m ∈ s.records, ∃ b, RecordOk s.accounts m b
  tracked : ∀ p ∈ s.tracked.values, s.pdaOf p.2 = some p.1
  sweep : s.sweep = none
  attempts : s.attempts = fun _ => none
  ensures : s.ensures = fun _ => none

theorem Init.fit (h : Init cfg s) : Fit cfg s where
  records := h.records
  tracked := h.tracked
  sweep _ hsw := nomatch h.sweep.symm.trans hsw
  attempts _ _ ha := nomatch (congrFun h.attempts _).symm.trans ha
  ensures _ _ he := nomatch (congrFun h.ensures _).symm.trans he

/-- Along such a run every record agrees with its account. -/
theorem Fit.run (h : Fit cfg s) {ops : List Op} (ha : (machine cfg).Along (LockedFirst cfg) s ops) :
    Fit cfg ((machine cfg).run s ops) :=
  ha.preserves (fun _ _ _ hs hl hstep => hs.next hl (step_eq_ok.mp hstep)) h

end

end ProofBook.Keeper
