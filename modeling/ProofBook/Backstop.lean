import ProofBook.Tracking

/-!
# The backstop

A pass of the sweeper submits what each tracked market calls for: `lock_market`
once its lock time has come, `cancel_market` once it stayed locked past its
resolution timeout. This rests on the records agreeing with the chain, so it
holds in every run in which no final record finds its market open, and whatever
the settler and fixture discovery do during the pass.
-/
namespace ProofBook.Keeper
open Addresses ProofBook.State Objects Store Runs

/-! ## What a market calls for -/

/-- Open past its lock time, or locked past its resolution timeout. -/
def dueTx (now : ℤ) (pda : Pubkey) (a : Account) : Option Tx :=
  match a.status with
  | .opened => if a.lockTime ≤ now then some (.lockMarket pda) else none
  | .locked => if a.lockTime + a.resolutionTimeout < now then some (.cancelMarket pda) else none
  | .settled | .cancelled => none

def Submits (s t : State) (tx : Tx) : Prop := s.submitted.count tx < t.submitted.count tx

theorem dueTx_opened {now : ℤ} {pda : Pubkey} {a : Account} {tx : Tx}
    (h : dueTx now pda a = some tx) (ha : a.status = .opened) :
    a.lockTime ≤ now ∧ tx = .lockMarket pda := by
  simp only [dueTx, ha] at h
  split at h
  next hle =>
    injection h with h
    exact ⟨hle, h.symm⟩
  · cases h

theorem dueTx_locked {now : ℤ} {pda : Pubkey} {a : Account} {tx : Tx}
    (h : dueTx now pda a = some tx) (ha : a.status = .locked) :
    a.lockTime + a.resolutionTimeout < now ∧ tx = .cancelMarket pda := by
  simp only [dueTx, ha] at h
  split at h
  next hlt =>
    injection h with h
    exact ⟨hlt, h.symm⟩
  · cases h

theorem dueTx_status {now : ℤ} {pda : Pubkey} {a : Account} {tx : Tx}
    (h : dueTx now pda a = some tx) : a.status = .opened ∨ a.status = .locked := by
  cases ha : a.status with
  | opened => exact .inl rfl
  | locked => exact .inr rfl
  | settled => simp [dueTx, ha] at h
  | cancelled => simp [dueTx, ha] at h

/-- Where the visit of a market that calls for a transaction may stand. -/
def StopOk (a : Account) (stop : SweepStop) : Prop :=
  stop = .lockRead ∨ a.status = .locked ∧ stop = .cancelRead

/-- A record that agrees with its account is visited when the market calls for it. -/
theorem firstStop_of_due {accounts : Accounts} {now : ℤ} {pda : Pubkey} {a : Account} {tx : Tx}
    {m : Record} (hdue : dueTx now pda a = some tx) (hm : RecordOk accounts m a) :
    ∃ stop, firstStop now m = some stop ∧ StopOk a stop := by
  have hphase := hm.phase
  have hpos := a.timeout_pos
  rcases dueTx_status hdue with ha | ha
  · obtain ⟨hle, -⟩ := dueTx_opened hdue ha
    rw [ha] at hphase
    have hlock : LockDue now m := ⟨hphase, by rw [hm.lockTime]; exact hle⟩
    have hne : ¬ (m.phase = .settled ∨ m.phase = .cancelled) := by
      rw [show m.phase = .created from hphase]
      decide
    exact ⟨.lockRead, by rw [firstStop, if_neg hne, if_pos hlock], .inl rfl⟩
  · obtain ⟨hlt, -⟩ := dueTx_locked hdue ha
    rw [ha] at hphase
    have hne : ¬ (m.phase = .settled ∨ m.phase = .cancelled) := not_or.mpr hphase
    by_cases hlock : LockDue now m
    · exact ⟨.lockRead, by rw [firstStop, if_neg hne, if_pos hlock], .inl rfl⟩
    · have hlocked : m.lockTime ≤ now := by rw [hm.lockTime]; omega
      have hback : BackstopDue now m := by
        refine ⟨?_, by rw [hm.lockTime, hm.resolutionTimeout]; exact hlt⟩
        have hnew : m.phase ≠ .created := fun hc => hlock ⟨hc, hlocked⟩
        cases hp : m.phase <;> simp_all
      exact ⟨.cancelRead, by rw [firstStop, if_neg hne, if_neg hlock, if_pos hback],
        .inr ⟨ha, rfl⟩⟩

/-! ## A visit that is still to come -/

/-- The pass has the record before it, or asks for its account. -/
def AheadOf (a : Account) (ref : ℕ) (sw : Sweep) : Prop :=
  ref ∈ sw.rest ∨
    sw.ref = ref ∧ StopOk a sw.stop ∧ (sw.reply = none ∨ sw.reply = some (.account (some a)))

def Reads (stop : SweepStop) : Prop := stop = .lockRead ∨ stop = .cancelRead

instance (stop : SweepStop) : Decidable (Reads stop) := inferInstanceAs (Decidable (_ ∨ _))

/-- No read of the pass has failed. -/
def ReadOk (sw : Sweep) : Prop :=
  Reads sw.stop → ∀ r, sw.reply = some r → ∃ b, r = .account b

structure Pending (now : ℤ) (pda : Pubkey) (a : Account) (ref : ℕ) (s : State) : Prop where
  account : s.accounts pda = some a
  pdaOf : s.pdaOf ref = some pda
  visit : ∃ sw, s.sweep = some sw ∧ sw.now = now ∧ ReadOk sw ∧ AheadOf a ref sw

theorem ReadOk.unanswered {sw : Sweep} (h : sw.reply = none) : ReadOk sw :=
  fun _ _ hr => nomatch h.symm.trans hr

/-- A walk does not pass over a record that stops it. -/
theorem walk_stops {records : List Record} {now : ℤ} {refs : List ℕ} {ref : ℕ} {stop : SweepStop}
    (href : ref ∈ refs) (hstop : (records[ref]?).bind (firstStop now) = some stop) :
    ∃ sw, walk records now refs = some sw ∧
      (ref ∈ sw.rest ∨ sw.ref = ref ∧ sw.stop = stop) := by
  induction refs with
  | nil => cases href
  | cons ref' refs ih =>
      unfold walk
      rcases List.mem_cons.mp href with rfl | href
      · rw [hstop]
        exact ⟨_, rfl, .inr ⟨rfl, rfl⟩⟩
      · split
        · exact ⟨_, rfl, .inl href⟩
        · exact ih href

section
variable {cfg : Config} {s t : State} {now : ℤ} {pda : Pubkey} {a : Account} {ref : ℕ} {tx : Tx}

theorem Fit.recordOk (h : Fit cfg s) (ha : s.accounts pda = some a)
    (href : s.pdaOf ref = some pda) : ∃ m, s.records[ref]? = some m ∧ RecordOk s.accounts m a := by
  obtain ⟨m, hm, rfl⟩ := pdaOf_eq_some.mp href
  obtain ⟨b, hb⟩ := h.record hm
  have hba : b = a := Option.some.inj (hb.account.symm.trans ha)
  exact ⟨m, hm, hba ▸ hb⟩

theorem pending_walk (h : Fit cfg s) (ha : s.accounts pda = some a) (href : s.pdaOf ref = some pda)
    (hdue : dueTx now pda a = some tx) {refs : List ℕ} (hmem : ref ∈ refs) :
    Pending now pda a ref (s.setSweep (walk s.records now refs)) := by
  obtain ⟨m, hm, hok⟩ := h.recordOk ha href
  obtain ⟨stop, hstop, hgood⟩ := firstStop_of_due hdue hok
  obtain ⟨sw, hsw, hahead⟩ := walk_stops hmem (by rw [hm]; exact hstop)
  obtain ⟨-, hnow, hr, -⟩ := walk_eq_some hsw
  refine ⟨ha, href, sw, hsw, hnow, .unanswered hr, hahead.imp_right ?_⟩
  rintro ⟨hrf, rfl⟩
  exact ⟨hrf, hgood, .inl hr⟩

/-- The rest of a visit to another record. -/
theorem pending_backstop (h : Fit cfg s) (ha : s.accounts pda = some a)
    (href : s.pdaOf ref = some pda) (hdue : dueTx now pda a = some tx) {sw : Sweep}
    (hnow : sw.now = now) (hmem : ref ∈ sw.rest) :
    Pending now pda a ref (s.setSweep (backstop s.records sw)) := by
  unfold backstop
  split
  · exact ⟨ha, href, _, rfl, hnow, .unanswered rfl, .inl hmem⟩
  · rw [hnow]
    exact pending_walk h ha href hdue hmem

/-- A market found locked past its timeout is asked for again before the visit ends. -/
theorem backstop_setPhase (h : Fit cfg s) {sw : Sweep} {p : Pubkey} (ha : s.accounts p = some a)
    (hpda : s.pdaOf sw.ref = some p) (hlt : a.lockTime + a.resolutionTimeout < sw.now) :
    backstop (s.setPhase sw.ref .locked).records sw =
      some { sw with stop := .cancelRead, reply := none } := by
  obtain ⟨m, hm, hok⟩ := h.recordOk ha hpda
  have hget : (s.setPhase sw.ref .locked).records[sw.ref]? = some { m with phase := .locked } :=
    getElem?_modifyRecord.mpr ⟨m, hm, by rw [if_pos rfl]⟩
  have hdue : BackstopDue sw.now { m with phase := .locked } :=
    ⟨.inl rfl, by rw [hok.lockTime, hok.resolutionTimeout]; exact hlt⟩
  rw [backstop, hget, if_pos]
  simpa using hdue

theorem pending_resumeSweep (h : Fit cfg s) (hp : Pending now pda a ref s)
    (hdue : dueTx now pda a = some tx) {sw : Sweep} {p : Pubkey} {r : Reply}
    (hsw : s.sweep = some sw) (hpda : s.pdaOf sw.ref = some p) (hr : sw.reply = some r) :
    Pending now pda a ref (resumeSweep s sw p r) ∨ Submits s (resumeSweep s sw p r) tx := by
  obtain ⟨sw', hsw', hnow, hread, hahead⟩ := hp.visit
  obtain rfl : sw = sw' := Option.some.inj (hsw.symm.trans hsw')
  rcases hahead with hmem | ⟨rfl, hstop, hreply⟩
  · left
    have hcases := resumeSweep_cases h hsw hpda hr
    generalize resumeSweep s sw p r = t at hcases ⊢
    cases hcases with
    | readFailed hstop hne =>
        obtain ⟨b, hb⟩ := hread hstop r hr
        exact absurd hb (hne b)
    | locks => exact ⟨hp.account, hp.pdaOf, _, rfl, hnow, .unanswered rfl, .inl hmem⟩
    | cancels => exact ⟨hp.account, hp.pdaOf, _, rfl, hnow, .unanswered rfl, .inl hmem⟩
    | goesOn _ hu =>
        exact pending_backstop hu.fit (hu.accounts ▸ hp.account) (hu.pdaOf ▸ hp.pdaOf) hdue hnow
          hmem
    | passes hu =>
        rw [hnow]
        exact pending_walk hu.fit (hu.accounts ▸ hp.account) (hu.pdaOf ▸ hp.pdaOf) hdue hmem
  · obtain rfl : p = pda := Option.some.inj (hpda.symm.trans hp.pdaOf)
    have hra : r = .account (some a) := by
      rcases hreply with hnone | hsome
      · cases hnone.symm.trans hr
      · exact Option.some.inj (hr.symm.trans hsome)
    subst hra
    rcases dueTx_status hdue with ha | ha
    · obtain ⟨-, rfl⟩ := dueTx_opened hdue ha
      rcases hstop with hstop | ⟨hl, -⟩
      · right
        simp [resumeSweep, hstop, statusOf, ha, Submits, State.submit, State.setSweep]
      · cases hl.symm.trans ha
    · obtain ⟨hlt, rfl⟩ := dueTx_locked hdue ha
      rcases hstop with hstop | ⟨-, hstop⟩
      · left
        have hback := backstop_setPhase h hp.account hpda (hnow ▸ hlt)
        have hpdaOf : (s.setPhase sw.ref .locked).pdaOf sw.ref = some p := by
          rw [pdaOf_setPhase]
          exact hpda
        simp only [resumeSweep, hstop, statusOf, Option.map_some, ha, hback]
        exact ⟨hp.account, hpdaOf, _, rfl, hnow, .unanswered rfl,
          .inr ⟨rfl, .inr ⟨ha, rfl⟩, .inl rfl⟩⟩
      · right
        simp [resumeSweep, hstop, statusOf, ha, Submits, State.submit, State.setSweep]

/-! ## The steps of a pass -/

/-- Every read of the pass succeeds. -/
def ReadsSucceed (s : State) : Op → Prop
  | .serve .sweep _ reported =>
      s.sweep.all (fun sw => decide (Reads sw.stop → reported = true)) = true
  | .deny .sweep _ => s.sweep.all (fun sw => decide (¬ Reads sw.stop)) = true
  | _ => True

/-- During the pass the market is moved by nobody but the sweeper. -/
def InPass (cfg : Config) (pda : Pubkey) (s : State) (op : Op) : Prop :=
  LockedFirst cfg s op ∧ ReadsSucceed s op ∧
    (op.sweeps = true ∨ ((machine cfg).apply s op).accounts pda = s.accounts pda)

instance (s : State) (op : Op) : Decidable (ReadsSucceed s op) := by
  unfold ReadsSucceed
  split <;> infer_instance

instance (cfg : Config) (pda : Pubkey) (s : State) (op : Op) : Decidable (InPass cfg pda s op) :=
  inferInstanceAs (Decidable (_ ∧ _ ∧ _))

theorem StopOk.reads {stop : SweepStop} (h : StopOk a stop) : Reads stop :=
  h.imp_right And.right

theorem sweepCall_of_reads {p : Pubkey} {stop : SweepStop} (h : Reads stop) :
    sweepCall p stop = .read p := by
  rcases h with rfl | rfl <;> rfl

theorem Tx.land_other {voided : Bool} {accounts accounts' : Accounts} {p : Pubkey} (hne : pda ≠ p)
    (htx : tx = .lockMarket p ∨ tx = .cancelMarket p)
    (h : tx.land voided accounts = some accounts') : accounts' pda = accounts pda := by
  rcases htx with rfl | rfl <;>
    simp only [Tx.land, Option.bind_eq_bind, Option.bind_eq_some_iff] at h <;>
    obtain ⟨b, -, h⟩ := h <;>
    split at h <;>
    first
      | (injection h with h
         rw [← h, Function.update_of_ne hne])
      | cases h

theorem serve_other {voided reported : Bool} {accounts accounts' : Accounts} {p : Pubkey}
    (hne : pda ≠ p) {stop : SweepStop} {r : Reply}
    (h : (sweepCall p stop).serve voided reported accounts = some (accounts', r)) :
    accounts' pda = accounts pda := by
  cases stop <;> simp only [sweepCall, Call.serve, Option.some.injEq, Prod.mk.injEq,
    Option.map_eq_some_iff] at h
  · rw [h.1]
  · obtain ⟨_, hland, rfl, -⟩ := h
    exact Tx.land_other hne (.inl rfl) hland
  · rw [h.1]
  · obtain ⟨_, hland, rfl, -⟩ := h
    exact Tx.land_other hne (.inr rfl) hland

theorem awaited_sweep {c : Call} (h : awaited cfg s .sweep = some c) :
    ∃ sw p, s.sweep = some sw ∧ s.pdaOf sw.ref = some p ∧ sw.reply = none ∧
      c = sweepCall p sw.stop := by
  simp only [awaited, Option.bind_eq_bind, Option.bind_eq_some_iff] at h
  obtain ⟨sw, hsw, p, hp, h⟩ := h
  split at h
  next hr =>
    injection h with h
    exact ⟨sw, p, hsw, hp, hr, h.symm⟩
  · cases h

theorem pending_serve (h : Fit cfg s) (hp : Pending now pda a ref s) {voided reported : Bool}
    {c : Call} (hc : awaited cfg s .sweep = some c) {accounts : Accounts} {r : Reply}
    (hserve : c.serve voided reported s.accounts = some (accounts, r))
    (hreads : ReadsSucceed s (.serve .sweep voided reported)) :
    Pending now pda a ref (answer { s with accounts } r .sweep) := by
  obtain ⟨sw, p, hsw, hpda, hnone, rfl⟩ := awaited_sweep hc
  obtain ⟨sw', hsw', hnow, -, hahead⟩ := hp.visit
  obtain rfl : sw = sw' := Option.some.inj (hsw.symm.trans hsw')
  simp only [ReadsSucceed, hsw, Option.all_some, decide_eq_true_eq] at hreads
  have hread : Reads sw.stop → accounts = s.accounts ∧ r = .account (s.accounts p) := by
    intro hs
    rw [sweepCall_of_reads hs, Call.serve, hreads hs, if_pos rfl] at hserve
    simp only [Option.some.injEq, Prod.mk.injEq] at hserve
    exact ⟨hserve.1.symm, hserve.2.symm⟩
  have haccount : accounts pda = some a := by
    rcases hahead with hmem | ⟨-, hstop, -⟩
    · refine (serve_other ?_ hserve).trans hp.account
      rintro rfl
      have hnodup := (h.sweep sw hsw).nodup
      rw [List.map_cons, List.nodup_cons, hpda] at hnodup
      exact hnodup.1 (List.mem_map.mpr ⟨ref, hmem, hp.pdaOf⟩)
    · rw [(hread hstop.reads).1]
      exact hp.account
  refine ⟨haccount, hp.pdaOf, { sw with reply := some r }, ?_, hnow, ?_, ?_⟩
  · simp [answer, State.setSweep, hsw]
  · intro hs r' hr'
    injection hr' with hr'
    exact ⟨_, hr' ▸ (hread hs).2⟩
  · refine hahead.imp_right ?_
    rintro ⟨rfl, hstop, -⟩
    obtain rfl : p = pda := Option.some.inj (hpda.symm.trans hp.pdaOf)
    refine ⟨rfl, hstop, .inr ?_⟩
    rw [(hread hstop.reads).2, hp.account]

theorem pending_deny (hp : Pending now pda a ref s) {c : Call} {e : Failure}
    (hc : awaited cfg s .sweep = some c) (hreads : ReadsSucceed s (.deny .sweep e)) :
    Pending now pda a ref (answer s (.failed e) .sweep) := by
  obtain ⟨sw, p, hsw, -, -, -⟩ := awaited_sweep hc
  obtain ⟨sw', hsw', hnow, -, hahead⟩ := hp.visit
  obtain rfl : sw = sw' := Option.some.inj (hsw.symm.trans hsw')
  simp only [ReadsSucceed, hsw, Option.all_some, decide_eq_true_eq] at hreads
  refine ⟨hp.account, hp.pdaOf, { sw with reply := some (.failed e) }, ?_, hnow,
    fun hs => absurd hs hreads, hahead.imp_right ?_⟩
  · simp [answer, State.setSweep, hsw]
  · rintro ⟨-, hstop, -⟩
    exact absurd hstop.reads hreads

theorem Pending.aside (hp : Pending now pda a ref s) (h : Aside s t)
    (ha : t.accounts pda = s.accounts pda) : Pending now pda a ref t := by
  obtain ⟨sw, hsw, hrest⟩ := hp.visit
  exact ⟨ha.trans hp.account, h.pdaOf _ _ hp.pdaOf, sw, h.sweep.trans hsw, hrest⟩

/-- A step of the pass either submits the transaction or leaves the visit to come. -/
theorem pending_next (h : Fit cfg s) (hp : Pending now pda a ref s)
    (hdue : dueTx now pda a = some tx) {op : Op} (hop : InPass cfg pda s op)
    (hs : next cfg s op = some t) : Pending now pda a ref t ∨ Submits s t tx := by
  obtain ⟨-, hreads, halone⟩ := hop
  by_cases hsweeps : op.sweeps = true
  · cases next_sweeps hsweeps hs with
    | starts now' =>
        obtain ⟨sw, hsw, -⟩ := hp.visit
        left
        simpa [startSweep, hsw] using hp
    | served hc hserve => exact .inl (pending_serve h hp hc hserve hreads)
    | denied hc => exact .inl (pending_deny hp hc hreads)
    | resumed _ hsw hpda hr => exact pending_resumeSweep h hp hdue hsw hpda hr
  · have hacc := halone.resolve_left hsweeps
    rw [Machine.apply_of_ok (step_eq_ok.mpr hs)] at hacc
    exact .inl (hp.aside (next_aside (by simpa using hsweeps) hs) hacc)

/-- A pass in which the visit is still to come submits the transaction before it ends. -/
theorem pending_run (h : Fit cfg s) (hp : Pending now pda a ref s)
    (hdue : dueTx now pda a = some tx) {ops : List Op}
    (hops : (machine cfg).Along (InPass cfg pda) s ops)
    (hend : ((machine cfg).run s ops).sweep = none) : Submits s ((machine cfg).run s ops) tx := by
  have hrun : Fit cfg ((machine cfg).run s ops) ∧ Keeps s ((machine cfg).run s ops) ∧
      (Pending now pda a ref ((machine cfg).run s ops) ∨
        Submits s ((machine cfg).run s ops) tx) := by
    refine hops.preserves (P := fun t => Fit cfg t ∧ Keeps s t ∧
      (Pending now pda a ref t ∨ Submits s t tx)) ?_ ⟨h, .refl s, .inl hp⟩
    rintro t op u ⟨ht, hk, hor⟩ hop hstep
    have hs := step_eq_ok.mp hstep
    have hk' := next_keeps hs
    refine ⟨ht.next hop.1 hs, hk.trans hk', ?_⟩
    rcases hor with hp | hsub
    · exact (pending_next ht hp hdue hop hs).imp_right fun hsub =>
        (hk.count_le tx).trans_lt hsub
    · exact .inr (hsub.trans_le (hk'.count_le tx))
  refine hrun.2.2.resolve_left fun hp' => ?_
  obtain ⟨sw, hsw, -⟩ := hp'.visit
  cases hend.symm.trans hsw

theorem pending_start (h : Fit cfg s) (hsweep : s.sweep = none)
    (htracked : (s.tracked.get pda).isSome) (ha : s.accounts pda = some a)
    (hdue : dueTx now pda a = some tx) : ∃ ref, Pending now pda a ref (startSweep s now) := by
  obtain ⟨⟨p, ref⟩, hget⟩ := Option.isSome_iff_exists.mp htracked
  obtain ⟨hmem, rfl⟩ := ObjectMap.get_eq_some.mp hget
  have hstart : startSweep s now =
      s.setSweep (walk s.records now (s.tracked.values.map Prod.snd)) := by
    rw [startSweep, hsweep]
  rw [hstart]
  exact ⟨ref, pending_walk h ha (h.tracked _ hmem) hdue (List.mem_map_of_mem hmem)⟩

/-! ## A pass on its own -/

/-- The next call of the pass is served, and the pass goes on. -/
def sweepRound : List Op := [.serve .sweep false true, .resume .sweep 0]

def sweepRounds : ℕ → List Op
  | 0 => []
  | n + 1 => sweepRound ++ sweepRounds n

/-- The calls left to a visit, at most. -/
def callsLeft : SweepStop → ℕ
  | .lockRead => 4
  | .lock => 3
  | .cancelRead => 2
  | .cancel => 1

/-- The calls left to a pass, at most. -/
def work : Option Sweep → ℕ
  | none => 0
  | some sw => 4 * sw.rest.length + callsLeft sw.stop

/-- The pass has just made a call, and a transaction it sent will land. -/
def Fresh (s : State) : Prop :=
  ∀ sw p, s.sweep = some sw → s.pdaOf sw.ref = some p → sw.reply = none ∧
    (sw.stop = .lock → (s.accounts p).any (·.status = .opened) = true) ∧
    (sw.stop = .cancel → (s.accounts p).any (·.status = .locked) = true)

theorem firstStop_reads {m : Record} {stop : SweepStop} (h : firstStop now m = some stop) :
    Reads stop := by
  unfold firstStop at h
  split at h
  · cases h
  · split at h
    · exact .inl (Option.some.inj h).symm
    · split at h
      · exact .inr (Option.some.inj h).symm
      · cases h

theorem Fresh.of_reads (h : ∀ sw, s.sweep = some sw → sw.reply = none ∧ Reads sw.stop) :
    Fresh s := by
  intro sw p hsw _
  obtain ⟨hr, hs⟩ := h sw hsw
  refine ⟨hr, fun hst => ?_, fun hst => ?_⟩ <;> rw [hst] at hs <;> rcases hs with hs | hs <;>
    cases hs

theorem walk_work (records : List Record) (now : ℤ) (refs : List ℕ) :
    work (walk records now refs) ≤ 4 * refs.length ∧
      ∀ sw, walk records now refs = some sw → sw.reply = none ∧ Reads sw.stop := by
  cases hw : walk records now refs with
  | none => exact ⟨Nat.zero_le _, nofun⟩
  | some sw =>
      obtain ⟨hs, -, hr, m, -, hstop⟩ := walk_eq_some hw
      have hreads := firstStop_reads hstop
      have hlen := hs.length_le
      simp only [List.length_cons] at hlen
      refine ⟨?_, fun sw' hsw' => Option.some.inj hsw' ▸ ⟨hr, hreads⟩⟩
      have hcalls : callsLeft sw.stop ≤ 4 := by
        rcases hreads with hst | hst <;> rw [hst] <;> decide
      simp only [work]
      omega

theorem backstop_work (records : List Record) (sw : Sweep) :
    work (backstop records sw) ≤ 4 * sw.rest.length + 2 ∧
      ∀ sw', backstop records sw = some sw' → sw'.reply = none ∧ Reads sw'.stop := by
  unfold backstop
  split
  · exact ⟨le_rfl, fun sw' hsw' => Option.some.inj hsw' ▸ ⟨rfl, .inr rfl⟩⟩
  · obtain ⟨hle, hsw⟩ := walk_work records sw.now sw.rest
    exact ⟨hle.trans (Nat.le_add_right ..), hsw⟩

theorem sweepCall_lands {accounts : Accounts} {p : Pubkey} {stop : SweepStop}
    (hlock : stop = .lock → (accounts p).any (·.status = .opened) = true)
    (hcancel : stop = .cancel → (accounts p).any (·.status = .locked) = true) :
    ∃ accounts' r, (sweepCall p stop).serve false true accounts = some (accounts', r) ∧
      (Reads stop → accounts' = accounts ∧ r = .account (accounts p)) := by
  cases stop with
  | lockRead => exact ⟨_, _, rfl, fun _ => ⟨rfl, rfl⟩⟩
  | cancelRead => exact ⟨_, _, rfl, fun _ => ⟨rfl, rfl⟩⟩
  | lock =>
      obtain ⟨b, hb, hst⟩ := (Option.any_eq_true _ _).mp (hlock rfl)
      have hst : b.status = .opened := by simpa using hst
      exact ⟨_, .confirmed, by simp [sweepCall, Call.serve, Tx.land, hb, hst]; rfl,
        fun hr => by rcases hr with hr | hr <;> cases hr⟩
  | cancel =>
      obtain ⟨b, hb, hst⟩ := (Option.any_eq_true _ _).mp (hcancel rfl)
      have hst : b.status = .locked := by simpa using hst
      exact ⟨_, .confirmed, by simp [sweepCall, Call.serve, Tx.land, hb, hst]; rfl,
        fun hr => by rcases hr with hr | hr <;> cases hr⟩

/-- A round of a pass on its own brings it nearer to its end. -/
theorem sweepRound_spec (h : Fit cfg s) (hf : Fresh s) {sw : Sweep} (hsw : s.sweep = some sw) :
    Fresh ((machine cfg).run s sweepRound) ∧
      work ((machine cfg).run s sweepRound).sweep < work s.sweep := by
  obtain ⟨p, hpda⟩ := Option.isSome_iff_exists.mp ((h.sweep sw hsw).known _ List.mem_cons_self)
  obtain ⟨hnone, hlock, hcancel⟩ := hf sw p hsw hpda
  obtain ⟨accounts, r, hserve, hread⟩ := sweepCall_lands hlock hcancel
  have hc : awaited cfg s .sweep = some (sweepCall p sw.stop) := by
    simp [awaited, hsw, hpda, hnone]
  have hnext : next cfg s (.serve .sweep false true) =
      some (answer { s with accounts } r .sweep) := by
    simp only [next, hc, Option.bind_eq_bind, Option.bind_some, hserve]
  have hl : LockedFirst cfg s (.serve .sweep false true) := trivial
  have ht := h.next hl hnext
  have hsw' : (answer { s with accounts } r .sweep).sweep = some { sw with reply := some r } := by
    simp [answer, State.setSweep, hsw]
  have hresume : next cfg (answer { s with accounts } r .sweep) (.resume .sweep 0) =
      some (resumeSweep (answer { s with accounts } r .sweep) { sw with reply := some r } p r) := by
    have hpda' : (answer { s with accounts } r .sweep).pdaOf sw.ref = some p := hpda
    simp [next, resume, hsw', hpda']
  have hrun : (machine cfg).run s sweepRound =
      resumeSweep (answer { s with accounts } r .sweep) { sw with reply := some r } p r := by
    rw [sweepRound, Machine.run_cons, Machine.apply_of_ok (step_eq_ok.mpr hnext), Machine.run_cons,
      Machine.apply_of_ok (step_eq_ok.mpr hresume), Machine.run_nil]
  have hwork : work s.sweep = 4 * sw.rest.length + callsLeft sw.stop := by rw [hsw]; rfl
  have hcases := resumeSweep_cases ht hsw' hpda rfl
  rw [hrun, hwork]
  generalize resumeSweep (answer { s with accounts } r .sweep) { sw with reply := some r } p r = t
    at hcases ⊢
  have hpos : 0 < callsLeft sw.stop := by cases sw.stop <;> decide
  cases hcases with
  | readFailed =>
      refine ⟨fun _ _ hs => (by cases hs), ?_⟩
      simp only [State.setSweep, work]
      omega
  | locks hstop hr ha =>
      obtain ⟨rfl, hacc⟩ := hread (.inl hstop)
      have hacc' := hr.symm.trans hacc
      injection hacc' with hacc'
      refine ⟨?_, ?_⟩
      · rintro _ p' ⟨rfl⟩ hp'
        obtain rfl : p = p' := Option.some.inj (hpda.symm.trans hp')
        refine ⟨rfl, fun _ => ?_, fun h => (by cases h)⟩
        change (s.accounts p).any _ = true
        simp [← hacc', ha]
      · simp only [State.setSweep, work, show sw.stop = .lockRead from hstop]
        exact Nat.add_lt_add_left (by decide) _
  | cancels hstop hr ha =>
      obtain ⟨rfl, hacc⟩ := hread (.inr hstop)
      have hacc' := hr.symm.trans hacc
      injection hacc' with hacc'
      refine ⟨?_, ?_⟩
      · rintro _ p' ⟨rfl⟩ hp'
        obtain rfl : p = p' := Option.some.inj (hpda.symm.trans hp')
        refine ⟨rfl, fun h => (by cases h), fun _ => ?_⟩
        change (s.accounts p).any _ = true
        simp [← hacc', ha]
      · simp only [State.setSweep, work, show sw.stop = .cancelRead from hstop]
        exact Nat.add_lt_add_left (by decide) _
  | goesOn hstop hu =>
      obtain ⟨hle, hreads⟩ := backstop_work _ { sw with reply := some r }
      refine ⟨.of_reads hreads, hle.trans_lt (Nat.add_lt_add_left ?_ _)⟩
      rcases hstop with hst | hst <;> rw [show sw.stop = _ from hst] <;> decide
  | passes hu =>
      obtain ⟨hle, hreads⟩ := walk_work _ sw.now sw.rest
      exact ⟨.of_reads hreads, hle.trans_lt (Nat.lt_add_of_pos_right hpos)⟩

theorem sweepRounds_idle (h : s.sweep = none) (n : ℕ) :
    (machine cfg).run s (sweepRounds n) = s := by
  have hserve : (machine cfg).apply s (.serve .sweep false true) = s := by
    refine Machine.apply_of_error (e := ()) ?_
    simp [machine, next, awaited, h]
  have hresume : (machine cfg).apply s (.resume .sweep 0) = s := by
    refine Machine.apply_of_error (e := ()) ?_
    simp [machine, next, resume, h]
  induction n with
  | zero => rfl
  | succ n ih =>
      rw [sweepRounds, Machine.run_append, sweepRound, Machine.run_cons, hserve, Machine.run_cons,
        hresume, Machine.run_nil, ih]

theorem sweepRounds_spec {n : ℕ} (h : Fit cfg s) (hf : Fresh s) (hn : work s.sweep ≤ n) :
    ((machine cfg).run s (sweepRounds n)).sweep = none := by
  induction n generalizing s with
  | zero =>
      cases hsw : s.sweep with
      | none => exact hsw
      | some sw =>
          rw [hsw] at hn
          have hpos : 0 < callsLeft sw.stop := by cases sw.stop <;> decide
          simp only [work] at hn
          omega
  | succ n ih =>
      cases hsw : s.sweep with
      | none =>
          rw [sweepRounds_idle hsw]
          exact hsw
      | some sw =>
          obtain ⟨hf', hlt⟩ := sweepRound_spec h hf hsw
          have h' : Fit cfg ((machine cfg).run s sweepRound) := h.run ⟨trivial, trivial, trivial⟩
          rw [sweepRounds, Machine.run_append]
          exact ih h' hf' (by omega)

theorem inPass_sweepRounds (s : State) (n : ℕ) :
    (machine cfg).Along (InPass cfg pda) s (sweepRounds n) := by
  induction n generalizing s with
  | zero => trivial
  | succ n ih =>
      refine ⟨⟨trivial, ?_, .inl rfl⟩, ⟨trivial, trivial, .inl rfl⟩, ih _⟩
      cases hsw : s.sweep <;> simp [ReadsSucceed, hsw]

end

/-! ## The backstop -/

/-- What a tracked market calls for is submitted by a pass that starts now. -/
def Backstopped (cfg : Config) (s : State) : Prop :=
  ∀ now pda a tx, s.sweep = none → (s.tracked.get pda).isSome = true → s.accounts pda = some a →
    dueTx now pda a = some tx → ∀ n, 4 * s.tracked.values.length ≤ n →
      ((machine cfg).run s (.sweep now :: sweepRounds n)).sweep = none ∧
        Submits s ((machine cfg).run s (.sweep now :: sweepRounds n)) tx

/-- The same for a pass amid the other components, once it is over. -/
def BackstoppedAmid (cfg : Config) (s : State) : Prop :=
  ∀ now pda a tx, s.sweep = none → (s.tracked.get pda).isSome = true → s.accounts pda = some a →
    dueTx now pda a = some tx → ∀ ops, (machine cfg).Along (InPass cfg pda) s (.sweep now :: ops) →
      ((machine cfg).run s (.sweep now :: ops)).sweep = none →
        Submits s ((machine cfg).run s (.sweep now :: ops)) tx

section
variable {cfg : Config} {s : State}

theorem apply_sweep (now : ℤ) : (machine cfg).apply s (.sweep now) = startSweep s now :=
  Machine.apply_of_ok (step_eq_ok.mpr rfl)

theorem submits_startSweep {t : State} {now : ℤ} {tx : Tx} (h : Submits (startSweep s now) t tx) :
    Submits s t tx := by
  have hsub : (startSweep s now).submitted = s.submitted := by
    unfold startSweep
    split <;> rfl
  rwa [Submits, hsub] at h

theorem Fit.backstoppedAmid (h : Fit cfg s) : BackstoppedAmid cfg s := by
  intro now pda a tx hsweep htracked ha hdue ops hops hend
  obtain ⟨ref, hp⟩ := pending_start h hsweep htracked ha hdue
  have hops := hops.2
  rw [Machine.run_cons] at hend ⊢
  rw [apply_sweep] at hops hend ⊢
  exact submits_startSweep (pending_run (h.startSweep now) hp hdue hops hend)

theorem Fit.backstopped (h : Fit cfg s) : Backstopped cfg s := by
  intro now pda a tx hsweep htracked ha hdue n hn
  have hend : ((machine cfg).run s (.sweep now :: sweepRounds n)).sweep = none := by
    have hstart : (Keeper.startSweep s now).sweep =
        walk s.records now (s.tracked.values.map Prod.snd) := by
      rw [Keeper.startSweep, hsweep]
      rfl
    obtain ⟨hle, hreads⟩ := walk_work s.records now (s.tracked.values.map Prod.snd)
    rw [List.length_map] at hle
    rw [Machine.run_cons, apply_sweep]
    refine sweepRounds_spec (h.startSweep now) (.of_reads ?_) ?_
    · rw [hstart]
      exact hreads
    · rw [hstart]
      exact hle.trans hn
  exact ⟨hend, h.backstoppedAmid now pda a tx hsweep htracked ha hdue _
    ⟨⟨trivial, trivial, .inl rfl⟩, inPass_sweepRounds _ n⟩ hend⟩

/-- In a run in which no final record finds its market open, a pass submits
whatever a tracked market calls for, on its own and amid the other components. -/
theorem strands_no_market {s₀ : State} (h₀ : Init cfg s₀) (ops : List Op)
    (hops : (machine cfg).Along (LockedFirst cfg) s₀ ops) :
    Backstopped cfg ((machine cfg).run s₀ ops) ∧ BackstoppedAmid cfg ((machine cfg).run s₀ ops) :=
  have h := h₀.fit.run hops
  ⟨h.backstopped, h.backstoppedAmid⟩

end

/-! ## Runs -/

def replayPda : Pubkey := .market (.key 1) 7 0

def replayConfig : Config where
  marketType := 0
  resolutionTimeoutSec := 100
  settleMaxAttempts := 3
  marketPdaFor id := .market (.key 1) (.ofInt id) 0

def emptyKeeper : State where
  accounts _ := none
  fixtures := .empty
  records := []
  tracked := .empty
  sweep := none
  attempts _ := none
  ensures _ := none
  submitted := []

theorem emptyKeeper_init : Init replayConfig emptyKeeper :=
  ⟨nofun, nofun, rfl, rfl, rfl⟩

/-- A market of fixture 7 is created, to lock at 1000. -/
def createdRun : List Op :=
  [.ensure 0 ⟨7, none, none, none, some 1000, none⟩ none, .serve (.ensure 0) false true,
    .resume (.ensure 0) 0, .serve (.ensure 0) false true, .resume (.ensure 0) 0]

def finalRecord : ScoreUpdate := ⟨7, 5, 0, some finalStatus, none⟩

/-- The market locks before the final record; the settlement gets no proof. -/
def lockedRun : List Op :=
  createdRun ++ .sweep 1000 :: sweepRounds 4 ++
    [.ingest finalRecord, .serve (.attempt replayPda) false true, .resume (.attempt replayPda) 0,
      .deny (.attempt replayPda) .fatal, .resume (.attempt replayPda) 0]

theorem strands_no_market_locked :
    Submits ((machine replayConfig).run emptyKeeper lockedRun)
      ((machine replayConfig).run ((machine replayConfig).run emptyKeeper lockedRun)
        (.sweep 1101 :: sweepRounds 4)) (.cancelMarket replayPda) :=
  ((strands_no_market emptyKeeper_init lockedRun (by decide +kernel)).1 1101 replayPda
    ⟨.locked, 1000, 100, by decide⟩ _ (by decide +kernel) (by decide +kernel) (by decide +kernel)
    (by decide +kernel) 4 (by decide +kernel)).2

/-- A final record that arrives while the market is open: no pass locks it any more. -/
theorem market_stranded :
    ¬ ∀ s₀, Init replayConfig s₀ → ∀ ops,
      Backstopped replayConfig ((machine replayConfig).run s₀ ops) := by
  intro h
  have hpass := h emptyKeeper emptyKeeper_init (createdRun ++ [.ingest finalRecord]) 1000 replayPda
    ⟨.opened, 1000, 100, by decide⟩ (.lockMarket replayPda) (by decide +kernel)
    (by decide +kernel) (by decide +kernel) (by decide +kernel) 4 (by decide +kernel)
  exact absurd hpass.2 (by unfold Submits; decide +kernel)

end ProofBook.Keeper
