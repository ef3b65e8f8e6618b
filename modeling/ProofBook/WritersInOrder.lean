import ProofBook.TwoWriters

/-!
# When two writers keep the rows in order

A flush holds the record of the market it is about to write, and the receipts of its
loop; a sync holds the accounts it has read. What they hold may be overtaken before it
is written. The rows stay in order in every run in which a flush takes a record up only
when its phase says what the process has read of the market, a sync reads no stale
account, neither takes a market up while the other holds another status of it, and no
receipt is healed that a flush then writes without a score.
-/
namespace ProofBook.WritersInOrder
open Addresses State KeyedTable Objects BestPerKey DbSync Store Runs TwoWriters

variable {D : Type}

/-! ## What a flush holds -/

/-- The record that is written next. -/
def taking : Option Flush → Option MarketRecord
  | some (.market m _) => some m
  | _ => none

def attests (r : ProofReceipt) : Pubkey × Bool := (r.marketPda, r.provenScore.isSome)

/-- The receipts of the loop of a flush, and whether each has a score. -/
def heldReceipts : Flush → List (Pubkey × Bool)
  | .findMarket r rest | .returned (.upsertReceipt r rest) => (r :: rest).map attests
  | .receipt row rest => (row.marketPda, row.provenP1.isSome) :: rest.map attests
  | .returned (.receipts rest) => rest.map attests
  | _ => []

section
variable {d : StoreData} {f : Flush} {teamCode : String → Option String}

theorem held_nextKv {rows : List KvRow} (h : nextKv rows = some f) : heldReceipts f = [] := by
  cases rows with
  | nil => cases h
  | cons row rest =>
      cases h
      rfl

theorem held_nextReceipt {rest : List ProofReceipt} (h : nextReceipt d rest = some f) :
    heldReceipts f = rest.map attests := by
  cases rest with
  | nil => exact held_nextKv h
  | cons r rest =>
      cases h
      rfl

theorem held_nextMarket {rest : List Pubkey} (h : nextMarket d rest = some f) :
    heldReceipts f = [] ∨ heldReceipts f = d.receipts.values.map attests := by
  induction rest with
  | nil => exact .inr (held_nextReceipt h)
  | cons pda rest ih =>
      rw [nextMarket] at h
      split at h
      · cases h
        exact .inl rfl
      · exact ih h

theorem held_nextFixture {rest : List ℤ} (h : nextFixture teamCode d rest = some f) :
    heldReceipts f = [] ∨ heldReceipts f = d.receipts.values.map attests := by
  induction rest with
  | nil => exact held_nextMarket h
  | cons id rest ih =>
      rw [nextFixture] at h
      split at h
      · cases h
        exact .inl rfl
      · exact ih h

/-- A flush that goes on holds what it held, or takes up the receipts in memory. -/
theorem held_goOn {now : ℤ} {next : Stage} (h : goOn teamCode d now next = some f) :
    heldReceipts f = [] ∨ heldReceipts f = d.receipts.values.map attests ∨
      heldReceipts f = heldReceipts (.returned next) := by
  cases next with
  | fixtures rest => exact (held_nextFixture h).imp_right .inl
  | markets rest => exact (held_nextMarket h).imp_right .inl
  | receipts rest => exact .inr (.inr (held_nextReceipt h))
  | upsertReceipt r rest =>
      cases h
      refine .inr (.inr ?_)
      simp [heldReceipts, attests, receiptRow]
  | kv rest => exact .inl (held_nextKv h)

end

/-! ## The condition -/

variable (teamCode : String → Option String)

/-- What a flush takes up: a record whose phase is written as what was read of the
market, and receipts that were not healed without it. -/
def TakesUp (s : State D) (flushing : Option Flush) : Prop :=
  (∀ m ∈ taking flushing, stage (marketStatus m.phase) = s.seen m.marketPda ∧
    ∀ p ∈ s.sync, ∀ x ∈ p.rest, marketPda x = m.marketPda →
      stage x.status = stage (marketStatus m.phase)) ∧
  ∀ f ∈ flushing, ∀ x ∈ heldReceipts f, x.2 = false → x.1 ∉ s.healed

/-- The receipt in memory has a score. -/
def Scored (s : State D) (pda : Pubkey) : Prop :=
  ∃ r ∈ s.store.data.receipts.get pda, r.provenScore.isSome = true

def InOrder (s : State D) : Op D → Prop
  | .store op => ∀ store ∈ s.store.step teamCode op,
      store.flushing = s.store.flushing ∨ TakesUp s store.flushing
  | .syncAccounts cfg all => ∀ m ∈ pickBest cfg all, s.seen (marketPda m) ≤ stage m.status ∧
      ∀ r ∈ taking s.store.flushing, r.marketPda = marketPda m →
        stage (marketStatus r.phase) = stage m.status
  | .recordResolution onchain _ proven => onchain.status.terminal = true ∧
      (onchain.status = .settled → proven = none → ¬ Scored s (marketPda onchain))
  | .healUpdate => ∀ p ∈ s.healing, ∀ x ∈ p.rest.head?, ∀ f ∈ s.store.flushing,
      (x.1, false) ∉ heldReceipts f
  | _ => True

instance (s : State D) (flushing : Option Flush) : Decidable (TakesUp s flushing) :=
  inferInstanceAs (Decidable (_ ∧ _))

instance (s : State D) (pda : Pubkey) : Decidable (Scored s pda) :=
  inferInstanceAs (Decidable (∃ r ∈ s.store.data.receipts.get pda, r.provenScore.isSome = true))

instance (s : State D) (op : Op D) : Decidable (InOrder teamCode s op) := by
  unfold InOrder
  split <;> infer_instance

/-! ## What the writers hold of a market -/

/-- The row is not past the status. -/
def NotPast (t : Tables) (pda : Pubkey) (st : MarketStatus) : Prop :=
  ∀ a, rowStatus t pda = some a → stage a ≤ stage st

/-- No row is past what was read of its market, or past what a writer holds of it, and
two writers that hold a market hold the same of it. -/
structure Held (s : State D) : Prop where
  rows : ∀ pda a, rowStatus s.store.tables pda = some a → stage a ≤ s.seen pda
  record : ∀ m ∈ taking s.store.flushing, stage (marketStatus m.phase) ≤ s.seen m.marketPda ∧
    NotPast s.store.tables m.marketPda (marketStatus m.phase)
  account : ∀ p ∈ s.sync, ∀ x ∈ p.rest, stage x.status ≤ s.seen (marketPda x) ∧
    NotPast s.store.tables (marketPda x) x.status
  apart : ∀ p ∈ s.sync, (p.rest.map marketPda).Nodup
  agree : ∀ m ∈ taking s.store.flushing, ∀ p ∈ s.sync, ∀ x ∈ p.rest, marketPda x = m.marketPda →
    stage x.status = stage (marketStatus m.phase)

section
variable {teamCode : String → Option String} {hex : D → String} {fits : MarketData → Bool}
  {s t : State D} {op : Op D}

/-- Fewer rows, fewer holders, more that was read. -/
theorem Held.mono (h : Held s)
    (hrows : ∀ pda a, rowStatus t.store.tables pda = some a → rowStatus s.store.tables pda = some a)
    (htaking : ∀ m ∈ taking t.store.flushing, m ∈ taking s.store.flushing)
    (hsync : ∀ p ∈ t.sync, ∃ q ∈ s.sync, p.rest.Sublist q.rest)
    (hseen : ∀ pda, s.seen pda ≤ t.seen pda) : Held t where
  rows pda a ha := (h.rows pda a (hrows pda a ha)).trans (hseen pda)
  record m hm := by
    obtain ⟨hle, hpast⟩ := h.record m (htaking m hm)
    exact ⟨hle.trans (hseen _), fun a ha => hpast a (hrows _ a ha)⟩
  account p hp x hx := by
    obtain ⟨q, hq, hsub⟩ := hsync p hp
    obtain ⟨hle, hpast⟩ := h.account q hq x (hsub.subset hx)
    exact ⟨hle.trans (hseen _), fun a ha => hpast a (hrows _ a ha)⟩
  apart p hp := by
    obtain ⟨q, hq, hsub⟩ := hsync p hp
    exact (h.apart q hq).sublist (hsub.map marketPda)
  agree m hm p hp x hx hpda := by
    obtain ⟨q, hq, hsub⟩ := hsync p hp
    exact h.agree m (htaking m hm) q hq x (hsub.subset hx) hpda

theorem le_note (seen : Pubkey → ℕ) (pda : Pubkey) (read : MarketStatus) (pda' : Pubkey) :
    seen pda' ≤ note seen pda read pda' := by
  unfold note
  by_cases hp : pda' = pda
  · subst hp
    rw [Function.update_self]
    exact le_max_left _ _
  · rw [Function.update_of_ne hp]

theorem stage_le_note (seen : Pubkey → ℕ) (pda : Pubkey) (read : MarketStatus) :
    stage read ≤ note seen pda read pda := by
  rw [note, Function.update_self]
  exact le_max_right _ _

theorem le_foldl_note (ms : List (Market D)) (seen : Pubkey → ℕ) (pda : Pubkey) :
    seen pda ≤ ms.foldl (fun seen m => note seen (marketPda m) m.status) seen pda := by
  induction ms generalizing seen with
  | nil => exact le_rfl
  | cons m ms ih => exact (le_note seen (marketPda m) m.status pda).trans (ih _)

theorem stage_le_foldl_note {ms : List (Market D)} {m : Market D} (hm : m ∈ ms)
    (seen : Pubkey → ℕ) :
    stage m.status ≤ ms.foldl (fun seen m => note seen (marketPda m) m.status) seen
      (marketPda m) := by
  induction ms generalizing seen with
  | nil => cases hm
  | cons x ms ih =>
      rcases List.mem_cons.mp hm with rfl | hm
      · exact (stage_le_note seen (marketPda m) m.status).trans (le_foldl_note ms _ _)
      · exact ih hm _

/-- A sync takes up one account of each market. -/
theorem pickBest_apart (cfg : KeeperConfig) (all : List (Market D)) :
    ((pickBest cfg all).map marketPda).Nodup := by
  have hkeys : ((pickBest cfg all).map bestKey).Nodup := (best_kept _).keys
  refine List.Nodup.map_on (fun x hx y hy hpda => ?_) hkeys.of_map
  refine List.inj_on_of_nodup_map hkeys hx hy ?_
  simp only [marketPda, Pubkey.market.injEq] at hpda
  simp [bestKey, hpda.2.1, hpda.2.2]

theorem Held.readAccounts (h : Held s) {cfg : KeeperConfig} {all : List (Market D)}
    (hin : InOrder teamCode s (.syncAccounts cfg all)) :
    Held { s with
      sync := some ⟨none, pickBest cfg all⟩
      seen := (pickBest cfg all).foldl
        (fun seen m => note seen (marketPda m) m.status) s.seen } where
  rows pda a ha := (h.rows pda a ha).trans (le_foldl_note _ _ _)
  record m hm := ⟨(h.record m hm).1.trans (le_foldl_note _ _ _), (h.record m hm).2⟩
  account p hp x hx := by
    cases hp
    exact ⟨stage_le_foldl_note hx _, fun a ha => (h.rows _ a ha).trans (hin x hx).1⟩
  apart p hp := by
    cases hp
    exact pickBest_apart cfg all
  agree m hm p hp x hx hpda := by
    cases hp
    exact ((hin x hx).2 m hm hpda.symm).symm

/-- A row is written over by what its writer holds. -/
theorem Held.written (h : Held s) {store : PgStore} {m : MarketRecord}
    (hm : m ∈ taking s.store.flushing) (htaking : taking store.flushing = none)
    (hrow : ∀ pda, rowStatus store.tables pda = if pda = m.marketPda then
      (rowStatus s.store.tables pda).map fun _ => marketStatus m.phase
      else rowStatus s.store.tables pda) : Held { s with store } where
  rows pda a ha := by
    rw [hrow] at ha
    split at ha
    next hp =>
      obtain ⟨-, -, rfl⟩ := Option.map_eq_some_iff.mp ha
      exact hp ▸ (h.record m hm).1
    · exact h.rows pda a ha
  record x hx := by
    rw [htaking] at hx
    cases hx
  account p hp x hx := by
    refine ⟨(h.account p hp x hx).1, fun a ha => ?_⟩
    rw [hrow] at ha
    split at ha
    next hpda =>
      obtain ⟨-, -, rfl⟩ := Option.map_eq_some_iff.mp ha
      exact (h.agree m hm p hp x hx hpda).ge
    · exact (h.account p hp x hx).2 a ha
  apart := h.apart
  agree x hx := by
    rw [htaking] at hx
    cases hx

theorem Held.upserted (h : Held s) {known : Option (List ℤ)} {m : Market D}
    {rest : List (Market D)} {tables : Tables} (hsync : s.sync = some ⟨known, m :: rest⟩)
    (hrow : ∀ pda, rowStatus tables pda = if pda = marketPda m then some m.status
      else rowStatus s.store.tables pda) :
    Held { s.setTables tables with sync := some ⟨known, rest⟩ } where
  rows pda a ha := by
    have ha : rowStatus tables pda = some a := ha
    rw [hrow] at ha
    split at ha
    next hp =>
      obtain rfl := Option.some.inj ha
      exact hp ▸ (h.account _ hsync m List.mem_cons_self).1
    · exact h.rows pda a ha
  record x hx := by
    refine ⟨(h.record x hx).1, fun a ha => ?_⟩
    have ha : rowStatus tables x.marketPda = some a := ha
    rw [hrow] at ha
    split at ha
    next hp =>
      obtain rfl := Option.some.inj ha
      exact (h.agree x hx _ hsync m List.mem_cons_self hp.symm).le
    · exact (h.record x hx).2 a ha
  account p hp x hx := by
    cases hp
    have hx' := List.mem_cons_of_mem m hx
    refine ⟨(h.account _ hsync x hx').1, fun a ha => ?_⟩
    have ha : rowStatus tables (marketPda x) = some a := ha
    rw [hrow, if_neg] at ha
    · exact (h.account _ hsync x hx').2 a ha
    · intro hpda
      have hnodup := h.apart _ hsync
      rw [List.map_cons, List.nodup_cons] at hnodup
      exact hnodup.1 (hpda ▸ List.mem_map_of_mem hx)
  apart p hp := by
    cases hp
    have hnodup := h.apart _ hsync
    rw [List.map_cons, List.nodup_cons] at hnodup
    exact hnodup.2
  agree x hx p hp y hy := by
    cases hp
    exact h.agree x hx _ hsync y (List.mem_cons_of_mem m hy)

theorem Held.storeStep (h : Held s) {op : FlushOp} {store : PgStore}
    (hin : InOrder teamCode s (.store op)) (hs : s.store.step teamCode op = some store) :
    Held { s with store } := by
  have kept (hmarkets : store.tables.markets = s.store.tables.markets) : Held { s with store } := by
    have hrow (pda : Pubkey) : rowStatus store.tables pda = rowStatus s.store.tables pda := by
      rw [rowStatus, hmarkets, rowStatus]
    rcases hin store hs with hsame | ⟨htakes, -⟩
    · refine h.mono (fun pda a ha => (hrow pda) ▸ ha) (fun m hm => ?_)
        (fun p hp => ⟨p, hp, .refl _⟩) fun _ => le_rfl
      rwa [← hsame]
    · refine ⟨fun pda a ha => h.rows pda a ((hrow pda) ▸ ha), fun m hm => ?_, fun p hp x hx => ?_,
        h.apart, fun m hm => (htakes m hm).2⟩
      · obtain ⟨heq, -⟩ := htakes m hm
        exact ⟨heq.le, fun a ha => heq ▸ h.rows _ a ((hrow _) ▸ ha)⟩
      · exact ⟨(h.account p hp x hx).1, fun a ha => (h.account p hp x hx).2 a ((hrow _) ▸ ha)⟩
  cases PgStore.step_stepped hs with
  | timerFires => exact kept (congrArg Tables.markets PgStore.flushAsync_tables)
  | flush => exact kept (congrArg Tables.markets PgStore.flushAsync_tables)
  | resumes => exact kept rfl
  | fails => exact kept rfl
  | @executes f tables next running executed =>
      cases f with
      | market m rest =>
          obtain ⟨rfl, rfl⟩ := Prod.mk.inj (Option.some.inj executed)
          refine h.written (m := m) ?_ rfl fun pda => rowStatus_writeMarket m s.store.tables pda
          rw [running]
          rfl
      | returned next => cases executed
      | fixture | findMarket | receipt | kv =>
          obtain ⟨rfl, -⟩ := Prod.mk.inj (Option.some.inj executed)
          exact kept rfl

theorem restarted_held : Held s.restarted where
  rows pda a ha := by
    have ha : rowStatus s.store.tables pda = some a := ha
    simp [State.restarted, ha]
  record m hm := by cases hm
  account p hp := by cases hp
  apart p hp := by cases hp
  agree m hm := by cases hm

/-- Nothing of a market is written or taken up. -/
theorem Held.aside (h : Held s) (htables : t.store.tables.markets = s.store.tables.markets)
    (hflushing : t.store.flushing = s.store.flushing) (hsync : t.sync = s.sync)
    (hseen : ∀ pda, s.seen pda ≤ t.seen pda) : Held t := by
  refine h.mono (fun pda a ha => ?_) (fun m hm => ?_) (fun p hp => ⟨p, hsync ▸ hp, .refl _⟩) hseen
  · rwa [rowStatus, htables] at ha
  · rwa [hflushing] at hm

theorem Held.endSync (h : Held s) : Held s.endSync :=
  h.mono (fun _ _ ha => ha) (fun _ hm => hm) (fun _ hp => by cases hp) fun _ => le_rfl

theorem Held.syncUpsert (h : Held s) (hs : next teamCode hex fits s .syncUpsert = some t) :
    Held t := by
  obtain ⟨known, m, rest, hsync, rfl | rfl | ⟨tables, hu, rfl⟩⟩ := next_syncUpsert hs
  · refine h.mono (fun _ _ ha => ha) (fun _ hm => hm) (fun p hp => ⟨_, hsync, ?_⟩) fun _ => le_rfl
    cases hp
    exact List.sublist_cons_self m rest
  · exact h.endSync
  · exact h.upserted hsync (rowStatus_upsertRow hu)

/-- The receipts are healed without the markets. -/
theorem Held.healUpdate (h : Held s) (hs : next teamCode hex fits s .healUpdate = some t) :
    Held t := by
  obtain ⟨pda, id, rest, fixture, -, rfl | rfl | ⟨f, r, -, -, -, rfl⟩⟩ := next_healUpdate hs
  · exact h.aside rfl rfl rfl fun _ => le_rfl
  · exact h.aside rfl rfl rfl fun _ => le_rfl
  · exact h.aside rfl rfl rfl fun _ => le_rfl

theorem Held.step (h : Held s) (hin : InOrder teamCode s op)
    (hs : next teamCode hex fits s op = some t) : Held t := by
  have hsetPhase {pda : Pubkey} {phase : MarketPhase} {u : State D}
      (hu : s.setPhase pda phase = some u) : Held u := by
    obtain ⟨m, -, rfl⟩ := Option.map_eq_some_iff.mp hu
    exact h.aside rfl rfl rfl fun _ => le_rfl
  have hreadPhase {pda : Pubkey} {phase : MarketPhase} {read : MarketStatus} {u : State D}
      (hu : (s.setPhase pda phase).map (·.reads pda read) = some u) : Held u := by
    obtain ⟨u', hu', rfl⟩ := Option.map_eq_some_iff.mp hu
    exact (hsetPhase hu').aside rfl rfl rfl (le_note _ _ _)
  cases op <;> simp only [next, Option.ite_none_right_eq_some, Option.ite_none_left_eq_some,
    Option.some.injEq, Option.bind_eq_bind, Option.bind_eq_some_iff] at hs
  case fixture f =>
    subst hs
    exact h.aside rfl rfl rfl fun _ => le_rfl
  case adopt m read =>
    obtain ⟨-, rfl⟩ := hs
    exact h.aside rfl rfl rfl (le_note _ _ _)
  case onFinalised pda =>
    obtain ⟨m, -, -, hs⟩ := hs
    exact hsetPhase hs
  case attemptFailed pda => exact hsetPhase hs
  case recordResolution onchain settleTx proven =>
    obtain ⟨m, -, -, rfl⟩ := hs
    exact h.aside rfl rfl rfl (le_note _ _ _)
  case sweepLocked pda => exact hreadPhase hs.2
  case sweepResolved pda read => exact hreadPhase hs.2
  case store op =>
    obtain ⟨store, hstore, rfl⟩ := Option.map_eq_some_iff.mp hs
    exact h.storeStep hin hstore
  case restart =>
    subst hs
    exact restarted_held
  case chainMoves pda status =>
    obtain ⟨-, rfl⟩ := hs
    exact h.aside rfl rfl rfl fun _ => le_rfl
  case syncAccounts cfg all =>
    obtain ⟨-, rfl⟩ := hs
    exact h.readAccounts hin
  case syncFixtures =>
    obtain ⟨p, hp, rfl⟩ := hs
    refine h.mono (fun _ _ ha => ha) (fun _ hm => hm) (fun q hq => ⟨p, hp, ?_⟩) fun _ => le_rfl
    cases hq
    exact .refl _
  case syncUpsert => exact @Held.syncUpsert D teamCode hex fits s t h hs
  case syncPurge =>
    split at hs
    · cases hs
      exact h.mono (fun pda a ha => rowStatus_purge ha) (fun _ hm => hm)
        (fun _ hp => by cases hp) fun _ => le_rfl
    · cases hs
  case syncFails =>
    subst hs
    exact h.endSync
  case healBlanks =>
    obtain ⟨-, rfl⟩ := hs
    exact h.aside rfl rfl rfl fun _ => le_rfl
  case healFixture =>
    split at hs
    · cases hs
      exact h.aside rfl rfl rfl fun _ => le_rfl
    · cases hs
  case healUpdate => exact @Held.healUpdate D teamCode hex fits s t h hs
  case healFails =>
    subst hs
    exact h.aside rfl rfl rfl fun _ => le_rfl

end

/-! ## What is known of the scores -/

/-- The score of a receipt is in memory, or its row was healed. -/
def Attested (s : State D) (pda : Pubkey) : Prop := pda ∈ s.healed ∨ Scored s pda

/-- A score that a row shows or a flush holds is attested, and a receipt that a flush
holds without a score has none in its row. -/
structure Scores (s : State D) : Prop where
  rows : ∀ pda, ∀ r ∈ s.store.tables.receipts.get pda, r.provenP1 ≠ none → Attested s pda
  apart : ∀ f ∈ s.store.flushing, ((heldReceipts f).map Prod.fst).Nodup
  blank : ∀ f ∈ s.store.flushing, ∀ pda, (pda, false) ∈ heldReceipts f →
    ∀ r ∈ s.store.tables.receipts.get pda, r.provenP1 = none
  scored : ∀ f ∈ s.store.flushing, ∀ pda, (pda, true) ∈ heldReceipts f → Attested s pda

section
variable {teamCode : String → Option String} {hex : D → String} {fits : MarketData → Bool}
  {s t : State D} {op : Op D}

theorem Scores.mono (h : Scores s)
    (hrows : ∀ pda, ∀ r ∈ t.store.tables.receipts.get pda, r ∈ s.store.tables.receipts.get pda)
    (hflushing : t.store.flushing = s.store.flushing)
    (hattested : ∀ pda, Attested s pda → Attested t pda) : Scores t where
  rows pda r hr hp := hattested pda (h.rows pda r (hrows pda r hr) hp)
  apart f hf := h.apart f (hflushing ▸ hf)
  blank f hf pda hx r hr := h.blank f (hflushing ▸ hf) pda hx r (hrows pda r hr)
  scored f hf pda hx := hattested pda (h.scored f (hflushing ▸ hf) pda hx)

/-- No receipt changes, in memory or in the tables. -/
theorem Scores.aside (h : Scores s) (hdata : t.store.data.receipts = s.store.data.receipts)
    (htables : t.store.tables.receipts = s.store.tables.receipts)
    (hflushing : t.store.flushing = s.store.flushing) (hhealed : t.healed = s.healed) :
    Scores t := by
  refine h.mono (fun pda r hr => ?_) hflushing fun pda ha => ?_
  · rwa [htables] at hr
  · rwa [Attested, hhealed, Scored, hdata]

theorem attests_apart (d : StoreData) : ((d.receipts.values.map attests).map Prod.fst).Nodup := by
  rw [List.map_map]
  exact d.receipts.nodup

theorem scored_of_mem {pda : Pubkey}
    (h : (pda, true) ∈ s.store.data.receipts.values.map attests) : Scored s pda := by
  obtain ⟨r, hr, hattests⟩ := List.mem_map.mp h
  obtain ⟨rfl, hsome⟩ := Prod.mk.inj hattests
  exact ⟨r, ObjectMap.get_of_mem hr, hsome⟩

theorem not_scored_of_mem {pda : Pubkey}
    (h : (pda, false) ∈ s.store.data.receipts.values.map attests) : ¬ Scored s pda := by
  rintro ⟨x, hx, hsome⟩
  obtain ⟨r, hr, hattests⟩ := List.mem_map.mp h
  obtain ⟨rfl, hnone⟩ := Prod.mk.inj hattests
  obtain rfl := Option.some.inj ((ObjectMap.get_of_mem hr).symm.trans hx)
  rw [hnone] at hsome
  cases hsome

/-- A flush that takes up the receipts in memory takes up what is attested. -/
theorem Scores.loops (h : Scores s) {f : Flush}
    (hheld : heldReceipts f = s.store.data.receipts.values.map attests)
    (htakes : ∀ x ∈ heldReceipts f, x.2 = false → x.1 ∉ s.healed) :
    Scores { s with store := { s.store with flushing := some f } } where
  rows := h.rows
  apart g hg := by
    cases hg
    rw [hheld]
    exact attests_apart s.store.data
  blank g hg pda hx r hr := by
    cases hg
    by_contra hp
    rcases h.rows pda r hr hp with hhealed | hscored
    · exact htakes _ hx rfl hhealed
    · exact not_scored_of_mem (hheld ▸ hx) hscored
  scored g hg pda hx := by
    cases hg
    exact .inr (scored_of_mem (hheld ▸ hx))

/-- A flush goes on with some of the receipts that it held. -/
theorem Scores.holds (h : Scores s) {flushing : Option Flush}
    (hheld : ∀ f ∈ flushing, heldReceipts f = [] ∨
      ∃ g ∈ s.store.flushing, (heldReceipts f).Sublist (heldReceipts g)) :
    Scores { s with store := { s.store with flushing } } where
  rows := h.rows
  apart f hf := by
    rcases hheld f hf with hnil | ⟨g, hg, hsub⟩
    · rw [hnil]
      exact List.nodup_nil
    · exact (h.apart g hg).sublist (hsub.map Prod.fst)
  blank f hf pda hx := by
    rcases hheld f hf with hnil | ⟨g, hg, hsub⟩
    · rw [hnil] at hx
      cases hx
    · exact h.blank g hg pda (hsub.subset hx)
  scored f hf pda hx := by
    rcases hheld f hf with hnil | ⟨g, hg, hsub⟩
    · rw [hnil] at hx
      cases hx
    · exact h.scored g hg pda (hsub.subset hx)

theorem Scores.idle (h : Scores s) :
    Scores { s with store := { s.store with flushing := none } } where
  rows := h.rows
  apart f hf := by cases hf
  blank f hf := by cases hf
  scored f hf := by cases hf

/-- A receipt is written, and none of the others that the flush holds is of its market. -/
theorem Scores.written (h : Scores s) {row : ReceiptRow} {rest : List ProofReceipt}
    (hf : s.store.flushing = some (.receipt row rest)) :
    Scores { s with store := { s.store with
      tables := { s.store.tables with receipts := s.store.tables.receipts.set row }
      flushing := some (.returned (.receipts rest)) } } where
  rows pda r hr hp := by
    by_cases hpda : pda = row.marketPda
    · subst hpda
      rw [ObjectMap.get_set_self] at hr
      cases hr
      refine h.scored _ hf row.marketPda (List.mem_cons.mpr (.inl ?_))
      rw [Option.isSome_iff_ne_none.mpr hp]
    · rw [ObjectMap.get_set_of_ne hpda] at hr
      exact h.rows pda r hr hp
  apart f hg := by
    cases hg
    have hnodup := h.apart _ hf
    rw [heldReceipts, List.map_cons, List.nodup_cons] at hnodup
    exact hnodup.2
  blank f hg pda hx r hr := by
    cases hg
    have hnodup := h.apart _ hf
    rw [heldReceipts, List.map_cons, List.nodup_cons] at hnodup
    have hpda : pda ≠ row.marketPda := by
      rintro rfl
      exact hnodup.1 (List.mem_map.mpr ⟨_, hx, rfl⟩)
    rw [ObjectMap.get_set_of_ne hpda] at hr
    exact h.blank _ hf pda (List.mem_cons_of_mem _ hx) r hr
  scored f hg pda hx := by
    cases hg
    exact h.scored _ hf pda (List.mem_cons_of_mem _ hx)

/-- A flush that goes on holds what it held, or takes up the receipts in memory. -/
theorem Scores.goesOn (h : Scores s) {now : ℤ} {next : Stage} {flushing : Option Flush}
    (hgoes : goOn teamCode s.store.data now next = flushing)
    (hnext : heldReceipts (.returned next) = [] ∨ s.store.flushing = some (.returned next))
    (htakes : TakesUp s flushing) :
    Scores { s with store := { s.store with flushing } } := by
  cases flushing with
  | none => exact h.idle
  | some f =>
      rcases held_goOn hgoes with hnil | hloop | hsame
      · exact h.holds fun g hg => .inl (by cases hg; exact hnil)
      · exact h.loops hloop (htakes.2 f rfl)
      · refine h.holds fun g hg => ?_
        cases hg
        rw [hsame]
        exact hnext.imp_right fun hs => ⟨_, hs, .refl _⟩

theorem Scores.flushAsync (h : Scores s) (hin : (s.store.flushAsync teamCode).flushing =
    s.store.flushing ∨ TakesUp s (s.store.flushAsync teamCode).flushing) :
    Scores { s with store := s.store.flushAsync teamCode } := by
  unfold PgStore.flushAsync at hin ⊢
  split
  · exact h
  next hidle =>
    rw [if_neg hidle] at hin
    rcases hin with hsame | htakes
    · have hsame : startFlush teamCode s.store.data = s.store.flushing := hsame
      rw [hsame]
      exact h
    · have hgoes : goOn teamCode s.store.data 0 (.fixtures (fixtureOrder s.store.data)) =
          startFlush teamCode s.store.data := rfl
      exact h.goesOn hgoes (.inl rfl) htakes

theorem Scores.storeStep (h : Scores s) {op : FlushOp} {store : PgStore}
    (hin : InOrder teamCode s (.store op)) (hs : s.store.step teamCode op = some store) :
    Scores { s with store } := by
  have hin := hin store hs
  cases PgStore.step_stepped hs with
  | timerFires =>
      have htimer : Scores { s with store := { s.store with timer := false } } :=
        h.aside rfl rfl rfl rfl
      exact htimer.flushAsync hin
  | flush => exact h.flushAsync hin
  | @resumes now next returned =>
      rcases hin with hsame | htakes
      · have hsame : goOn teamCode s.store.data now next = s.store.flushing := hsame
        rw [hsame]
        exact h
      · exact h.goesOn rfl (.inr returned) htakes
  | @fails f running =>
      refine h.holds fun g hg => .inl ?_
      cases f with
      | market m rest =>
          cases hg
          rfl
      | returned next =>
          cases next <;> cases hg
          rfl
      | _ => cases hg
  | @executes f tables next running executed =>
      cases f with
      | receipt row rest =>
          obtain ⟨rfl, rfl⟩ := Prod.mk.inj (Option.some.inj executed)
          exact h.written running
      | returned next => cases executed
      | findMarket r rest =>
          obtain ⟨rfl, rfl⟩ := Prod.mk.inj (Option.some.inj executed)
          refine h.holds fun g hg => .inr ⟨_, running, ?_⟩
          cases hg
          split
          · exact .refl _
          · exact List.sublist_cons_self _ _
      | fixture | market | kv =>
          obtain ⟨rfl, rfl⟩ := Prod.mk.inj (Option.some.inj executed)
          refine (h.holds fun g hg => .inl ?_ : Scores { s with
            store := { s.store with flushing := some (.returned _) } }).aside rfl rfl rfl rfl
          cases hg
          rfl

theorem Scores.recordResolution (h : Scores s) {m : MarketRecord} {onchain : Market D}
    {settleTx : String} {proven : Option ProvenStat}
    (hin : onchain.status = .settled → proven = none → ¬ Scored s (marketPda onchain)) :
    Scores (s.setData (Store.recordResolution hex s.store.data m onchain settleTx proven)) := by
  refine h.mono (fun _ _ hr => hr) rfl fun pda ha => ha.imp_right fun hscored => ?_
  obtain ⟨r, hr, hsome⟩ := hscored
  have hget := get_recordResolution hex s.store.data m onchain settleTx proven pda
  split at hget
  next hnew =>
    obtain ⟨hst, rfl⟩ := hnew
    cases proven with
    | none => exact absurd ⟨r, hr, hsome⟩ (hin hst rfl)
    | some p => exact ⟨_, hget, rfl⟩
  · exact ⟨r, hget.trans hr, hsome⟩

/-- What the rows show is in memory after a restart. -/
theorem State.Ok.restartedScores (h : s.Ok teamCode) : Scores s.restarted where
  rows pda r hr hp := by
    obtain ⟨hmem, rfl⟩ := ObjectMap.get_eq_some.mp hr
    refine .inr ⟨loadReceipt r, ObjectMap.get_eq_some.mpr ⟨List.mem_map_of_mem hmem, rfl⟩, ?_⟩
    have hpaired : PairedReceipt r := h.store.rows.receipts r hmem
    have hp2 : r.provenP2 ≠ none := fun h2 => hp (hpaired.mpr h2)
    obtain ⟨p1, h1⟩ := Option.ne_none_iff_exists'.mp hp
    obtain ⟨p2, h2⟩ := Option.ne_none_iff_exists'.mp hp2
    rw [loadReceipt, h1, h2]
    rfl
  apart f hf := by cases hf
  blank f hf := by cases hf
  scored f hf := by cases hf

theorem Scores.heals (h : Scores s) {pda : Pubkey} {f : FixtureRow} {r : ReceiptRow}
    (hr : s.store.tables.receipts.get pda = some r)
    (hin : ∀ g ∈ s.store.flushing, (pda, false) ∉ heldReceipts g) :
    Scores { s.setReceipt (heal f r) with healed := pda :: s.healed } := by
  have hkey : (heal f r).marketPda = pda := by rw [heal_marketPda, ObjectMap.get_key hr]
  have hgrow (pda' : Pubkey) (ha : Attested s pda') :
      Attested { s.setReceipt (heal f r) with healed := pda :: s.healed } pda' :=
    ha.imp_left (List.mem_cons_of_mem pda)
  refine ⟨fun pda' x hx hp => ?_, h.apart, fun g hg pda' hheld x hx => ?_,
    fun g hg pda' hheld => hgrow pda' (h.scored g hg pda' hheld)⟩
  · by_cases hpda : pda' = pda
    · exact .inl (hpda ▸ List.mem_cons_self)
    · have hx : (s.store.tables.receipts.set (heal f r)).get pda' = some x := hx
      rw [ObjectMap.get_set_of_ne (hkey ▸ hpda)] at hx
      exact hgrow pda' (h.rows pda' x hx hp)
  · have hpda : pda' ≠ pda := by
      rintro rfl
      exact hin g hg hheld
    have hx : (s.store.tables.receipts.set (heal f r)).get pda' = some x := hx
    rw [ObjectMap.get_set_of_ne (hkey ▸ hpda)] at hx
    exact h.blank g hg pda' hheld x hx

theorem Scores.healUpdate (h : Scores s) (hin : InOrder teamCode s .healUpdate)
    (hs : next teamCode hex fits s .healUpdate = some t) : Scores t := by
  have hset (healing : Option HealPass) : Scores (s.setHealing healing) := h.aside rfl rfl rfl rfl
  obtain ⟨pda, id, rest, fixture, hp, hcase⟩ := next_healUpdate hs
  rcases hcase with rfl | rfl | ⟨f, r, -, -, hr, rfl⟩
  · exact hset _
  · exact hset none
  · exact (hset (healNext rest)).heals hr (hin _ hp _ rfl)

theorem Scores.syncUpsert (h : Scores s) (hs : next teamCode hex fits s .syncUpsert = some t) :
    Scores t := by
  obtain ⟨known, m, rest, -, rfl | rfl | ⟨tables, hu, rfl⟩⟩ := next_syncUpsert hs
  · exact h.aside rfl rfl rfl rfl
  · exact h.aside rfl rfl rfl rfl
  · obtain ⟨markets, -, rfl⟩ := upsertRow_eq_some hu
    exact h.aside rfl rfl rfl rfl

theorem Scores.step (h : Scores s) (hok : s.Ok teamCode) (hin : InOrder teamCode s op)
    (hs : next teamCode hex fits s op = some t) : Scores t := by
  have hsetPhase {pda : Pubkey} {phase : MarketPhase} {u : State D}
      (hu : s.setPhase pda phase = some u) : Scores u := by
    obtain ⟨m, -, rfl⟩ := Option.map_eq_some_iff.mp hu
    exact h.aside rfl rfl rfl rfl
  have hreadPhase {pda : Pubkey} {phase : MarketPhase} {read : MarketStatus} {u : State D}
      (hu : (s.setPhase pda phase).map (·.reads pda read) = some u) : Scores u := by
    obtain ⟨u', hu', rfl⟩ := Option.map_eq_some_iff.mp hu
    exact (hsetPhase hu').aside rfl rfl rfl rfl
  cases op <;> simp only [next, Option.ite_none_right_eq_some, Option.ite_none_left_eq_some,
    Option.some.injEq, Option.bind_eq_bind, Option.bind_eq_some_iff] at hs
  case fixture f =>
    subst hs
    exact h.aside rfl rfl rfl rfl
  case adopt m read =>
    obtain ⟨-, rfl⟩ := hs
    exact h.aside rfl rfl rfl rfl
  case onFinalised pda =>
    obtain ⟨m, -, -, hs⟩ := hs
    exact hsetPhase hs
  case attemptFailed pda => exact hsetPhase hs
  case recordResolution onchain settleTx proven =>
    obtain ⟨m, -, -, rfl⟩ := hs
    exact (h.recordResolution hin.2).aside rfl rfl rfl rfl
  case sweepLocked pda => exact hreadPhase hs.2
  case sweepResolved pda read => exact hreadPhase hs.2
  case store op =>
    obtain ⟨store, hstore, rfl⟩ := Option.map_eq_some_iff.mp hs
    exact h.storeStep hin hstore
  case restart =>
    subst hs
    exact State.Ok.restartedScores hok
  case chainMoves pda status =>
    obtain ⟨-, rfl⟩ := hs
    exact h.aside rfl rfl rfl rfl
  case syncAccounts cfg all =>
    obtain ⟨-, rfl⟩ := hs
    exact h.aside rfl rfl rfl rfl
  case syncFixtures =>
    obtain ⟨p, -, rfl⟩ := hs
    exact h.aside rfl rfl rfl rfl
  case syncUpsert => exact @Scores.syncUpsert D teamCode hex fits s t h hs
  case syncPurge =>
    split at hs
    · cases hs
      exact h.mono (fun pda r hr => (ObjectMap.get_filter.mp hr).1) rfl fun _ ha => ha
    · cases hs
  case syncFails =>
    subst hs
    exact h.aside rfl rfl rfl rfl
  case healBlanks =>
    obtain ⟨-, rfl⟩ := hs
    exact h.aside rfl rfl rfl rfl
  case healFixture =>
    split at hs
    · cases hs
      exact h.aside rfl rfl rfl rfl
    · cases hs
  case healUpdate => exact @Scores.healUpdate D teamCode hex fits s t h hin hs
  case healFails =>
    subst hs
    exact h.aside rfl rfl rfl rfl

/-! ## What is written is not behind -/

/-- What a flush or a sync writes next is not behind the row. -/
theorem notBehind (hok : s.Ok teamCode) (hheld : Held s) (hscores : Scores s)
    (hin : InOrder teamCode s op) : NotBehind s op := by
  cases op with
  | recordResolution onchain settleTx proven => exact hin.1
  | syncUpsert =>
      simp only [NotBehind]
      split
      next m rest hsync =>
        rw [Option.all_eq_true]
        intro a ha
        exact decide_eq_true ((hheld.account _ hsync m List.mem_cons_self).2 a ha)
      · trivial
  | store op =>
      cases op with
      | execute =>
          simp only [NotBehind]
          split
          next m rest hf =>
            rw [Option.all_eq_true]
            intro a ha
            exact decide_eq_true ((hheld.record m (by rw [hf]; rfl)).2 a ha)
          next row rest hf =>
            rw [Option.all_eq_true]
            intro r hr
            have hpaired : PairedReceipt r :=
              hok.store.rows.receipts r (ObjectMap.get_eq_some.mp hr).1
            have hrow : PairedReceipt row := (hok.store.flushing _ hf).1
            have hp1 : r.provenP1 ≠ none → row.provenP1 ≠ none := by
              intro hp hnone
              refine hp (hscores.blank _ hf row.marketPda (List.mem_cons.mpr (.inl ?_)) r hr)
              rw [hnone]
              rfl
            refine decide_eq_true ⟨hp1, fun hp2 hnone => ?_⟩
            exact hp1 (fun hp => hp2 (hpaired.mp hp)) (hrow.mpr hnone)
          · trivial
      | _ => trivial
  | _ => trivial

end

/-! ## Runs -/

/-- Nothing on chain, in the database or in memory. -/
def start (D : Type) : State D := ⟨.booted .empty, fun _ => [], none, none, fun _ => 0, []⟩

theorem start_ok (teamCode : String → Option String) {D : Type} :
    (start D).Ok teamCode where
  store := .empty
  chain _ := List.Pairwise.nil
  markets pda st hst := by cases hst
  sync p hp := by cases hp
  healing p hp := by cases hp

theorem start_held {D : Type} : Held (start D) where
  rows pda a ha := by cases ha
  record m hm := by cases hm
  account p hp := by cases hp
  apart p hp := by cases hp
  agree m hm := by cases hm

theorem start_scores {D : Type} : Scores (start D) where
  rows pda r hr := by cases hr
  apart f hf := by cases hf
  blank f hf := by cases hf
  scored f hf := by cases hf

def keeperPda : Pubkey := marketPda (Mirror.keeperMarket .opened)

/-- A flush of so many rows. -/
def flushes (n : ℕ) : List (Op Unit) :=
  .store .flush :: (List.replicate n [.store .execute, .store (.resume 0)]).flatten

def syncs (status : MarketStatus) : List (Op Unit) :=
  [.syncAccounts Mirror.catalogueConfig [Mirror.keeperMarket status], .syncFixtures, .syncUpsert,
    .syncPurge]

def keeperRecord : MarketRecord :=
  loadMarket (mirrorRow none (Mirror.keeperMarket .opened))

/-- The keeper takes a market over, locks it, and writes that. -/
def lockedRun : List (Op Unit) :=
  [.fixture (freshFixture 7)] ++ flushes 1 ++
    [.chainMoves keeperPda .opened, .adopt keeperRecord .opened] ++ syncs .opened ++
      [.chainMoves keeperPda .locked, .sweepLocked keeperPda] ++ flushes 2

/-- The settlement is over before the next flush. -/
def settledRun (read : MarketStatus) (proven : Option ProvenStat) : List (Op Unit) :=
  lockedRun ++ [.onFinalised keeperPda, .chainMoves keeperPda .settled,
    .recordResolution (Mirror.keeperMarket read) "tx" proven] ++ flushes 2

def twoWriters : Machine (State Unit) (Op Unit) Unit :=
  machine (fun _ => none) (fun _ => "") fun _ => true

/-- A flush while the settlement is under way. -/
def settlingRun : List (Op Unit) :=
  lockedRun ++ [.onFinalised keeperPda, .store .flush, .store .execute, .store (.resume 0)]

/-- The fixture is marked proven, and a sync heals the receipt of a settlement that
had no proof at hand. -/
def healedRun : List (Op Unit) :=
  settledRun .settled none ++ [.store .execute, .store (.resume 0), .store .execute,
    .store (.resume 0), .fixture { freshFixture 7 with
      proofStatus := some .proven, score := some ⟨2, 1⟩ }] ++ flushes 1 ++
    [.healBlanks, .healFixture, .healUpdate, .store .execute, .store (.resume 0), .store .execute,
      .store (.resume 0)]

end ProofBook.WritersInOrder
