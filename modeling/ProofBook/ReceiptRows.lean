import ProofBook.SettledReceipts

/-!
# The signature and the period of a receipt

The account of a market does not say which transaction settled it. The sync takes the
newest one on the account that succeeded, and a period of 100; the settler has the
signature it was given, and the one of its record where it finds the market resolved.
Rows are faithful in a run where nothing has succeeded on an account since its settlement
when the sync looks, the settler finds no market resolved but one whose settlement its
record holds, and the periods are those of the rule.
-/
namespace ProofBook.ReceiptRows
open Addresses Objects Store Chain Transactions Settlers
open OracleWire (OracleProgram)
open Program (Instruction)
open MarketRuns ComboRule SettledReceipts

variable {D : Type} {cfg : Config D} {s t : State D} {n n' : Node D} {k pda : Pubkey}
  {a : Attempt D} {r : Reply D} {i : ℕ} {v : Walk D} {settleTx : String} {period : Option ℤ}

/-! ## The property -/

/-- The transaction moved the market to Settled, and proved leaves of this period. -/
def Faithful (n : Node D) (market : Pubkey) (settleTx : String) (period : Option ℤ) : Prop :=
  ∃ x ∈ n.settlements, x.market = market ∧ x.signature = settleTx ∧
    ∀ q ∈ x.periods, period = some q.toInt

structure RowFaithful (n : Node D) (row : ReceiptRow) : Prop where
  faithful : Faithful n row.marketPda row.settleTx row.statPeriod
  signed : row.settleTx ≠ ""

/-! ## The condition -/

def SettledBy (n : Node D) (market : Pubkey) (settleTx : String) : Prop :=
  ∃ x ∈ n.settlements, x.market = market ∧ x.signature = settleTx

/-- The rule of the market pins this period. -/
def PeriodPinned (n : Node D) (market : Pubkey) (period : Option ℤ) : Prop :=
  ∀ b ∈ n.world.book? market, ∀ q ∈ pinnedPeriods b, period = some q.toInt

/-- Of the newest transactions on the account none has succeeded since its settlement. -/
def NoneSince (n : Node D) (market : Pubkey) : Prop :=
  ∃ newer x older, n.signaturesFor market 20 = newer ++ x :: older ∧
    (∀ y ∈ newer, y.failed = true) ∧ x.failed = false ∧ SettledBy n market x.signature

/-- The attempt reads back a market after its own settlement was confirmed. -/
def readsBack (a : Attempt D) : Bool :=
  match a.stop with
  | .refetch _ _ => true
  | _ => false

/-- The sync is about to look for the signature. -/
def looks (y : Sync D) : Bool :=
  match y.stop with
  | .signatures _ _ => true
  | _ => false

/-- What a step rests on when it makes a receipt. -/
def Evident (s : State D) : Op D → Prop
  | .resume (.attempt pda) _ =>
      ∀ a ∈ s.attempts pda, ∀ r ∈ a.reply, ∀ e ∈ evidence a r, e.1.status = .settled →
        (readsBack a = true ∨ SettledBy s.node pda a.settleTx) ∧
          PeriodPinned s.node pda (e.2.2.bind (·.period))
  | .advanceSync =>
      ∀ y ∈ s.sync, looks y = true →
        (∃ x ∈ s.node.signaturesFor y.row.pda 20, x.failed = false) →
          NoneSince s.node y.row.pda ∧ PeriodPinned s.node y.row.pda (some 100)
  | _ => True

instance (n : Node D) (market : Pubkey) (settleTx : String) :
    Decidable (SettledBy n market settleTx) := inferInstanceAs (Decidable (∃ x ∈ _, _))

instance (n : Node D) (market : Pubkey) (period : Option ℤ) :
    Decidable (PeriodPinned n market period) :=
  have (b : Book D) : Decidable (∀ q ∈ pinnedPeriods b, period = some q.toInt) :=
    List.decidableBAll _ _
  inferInstanceAs (Decidable (∀ b ∈ _, ∀ q ∈ pinnedPeriods b, _))

/-- The first transaction that has not failed, with those before it. -/
theorem find_succeeded {l : List Transaction} {x : Transaction} :
    (l.find? fun y => !y.failed) = some x ↔
      ∃ newer older, l = newer ++ x :: older ∧ (∀ y ∈ newer, y.failed = true) ∧
        x.failed = false := by
  rw [List.find?_eq_some_iff_append]
  constructor
  · rintro ⟨hx, newer, older, rfl, hnewer⟩
    exact ⟨newer, older, rfl, by simpa using hnewer, by simpa using hx⟩
  · rintro ⟨newer, older, rfl, hnewer, hx⟩
    exact ⟨by simp [hx], newer, older, rfl, by simpa using hnewer⟩

theorem noneSince_iff : NoneSince n k ↔
    ∃ x ∈ (n.signaturesFor k 20).find? fun y => !y.failed, SettledBy n k x.signature := by
  constructor
  · rintro ⟨newer, x, older, hl, hnewer, hx, hs⟩
    exact ⟨x, find_succeeded.mpr ⟨newer, older, hl, hnewer, hx⟩, hs⟩
  · rintro ⟨x, hx, hs⟩
    obtain ⟨newer, older, hl, hnewer, hfailed⟩ := find_succeeded.mp hx
    exact ⟨newer, x, older, hl, hnewer, hfailed, hs⟩

instance (n : Node D) (market : Pubkey) : Decidable (NoneSince n market) :=
  decidable_of_iff _ noneSince_iff.symm

instance (s : State D) (op : Op D) : Decidable (Evident s op) :=
  match op with
  | .resume (.attempt _) _ | .advanceSync => by unfold Evident; infer_instance
  | .resume (.walk _) _ | .transact .. | .finalised .. | .attemptDue .. | .wakeWalk ..
  | .answer .. | .startSync .. | .syncThrows | .store .. | .mutate .. | .syncMarket ..
  | .importFixture .. | .heal .. | .restart =>
      .isTrue trivial

/-! ## What is kept -/

theorem Faithful.later (h : Faithful n k settleTx period) (hl : n.Later n') :
    Faithful n' k settleTx period := by
  obtain ⟨x, hx, hrest⟩ := h
  exact ⟨x, hl.settlements x hx, hrest⟩

theorem Faithful.signed (hn : NodeOk n) (h : Faithful n k settleTx period) : settleTx ≠ "" := by
  obtain ⟨x, hx, -, rfl, -⟩ := h
  exact (hn.settlements x hx).1

/-- The leaves of a settlement have the periods that the rule pins. -/
theorem faithful_iff (hn : NodeOk n) :
    Faithful n k settleTx period ↔ SettledBy n k settleTx ∧ PeriodPinned n k period := by
  constructor
  · rintro ⟨x, hx, rfl, rfl, hperiods⟩
    obtain ⟨-, b, hb, -, hpinned⟩ := hn.settlements x hx
    refine ⟨⟨x, hx, rfl, rfl⟩, fun b' hb' q hq => hperiods q ?_⟩
    obtain rfl := Option.some.inj (hb.symm.trans hb')
    exact hpinned.symm ▸ hq
  · rintro ⟨⟨x, hx, rfl, rfl⟩, hperiod⟩
    obtain ⟨-, b, hb, -, hpinned⟩ := hn.settlements x hx
    exact ⟨x, hx, rfl, rfl, fun q hq => hperiod b hb q (hpinned ▸ hq)⟩

/-- Receipts are faithful, in memory and in the table. -/
def fidelity (n : Node D) : Property where
  fixture _ := True
  market _ := True
  receipt r := Faithful n r.marketPda r.settleTx r.statPeriod
  receiptRow row := Faithful n row.marketPda row.settleTx row.statPeriod

/-- And the row that the sync is about to create is. -/
structure Kept (cfg : Config D) (s : State D) : Prop where
  store : (fidelity s.node).Holds cfg.teamCode s.store
  sync : ∀ y ∈ s.sync, ∀ row, y.stop = .create row →
    Faithful s.node row.marketPda row.settleTx row.statPeriod

theorem fidelity_later (hl : n.Later n') : (fidelity n).Le (fidelity n') where
  fixture _ h := h
  market _ h := h
  receipt _ h := h.later hl
  receiptRow _ h := h.later hl

theorem Kept.later (h : Kept cfg s) (hl : s.node.Later n') : Kept cfg { s with node := n' } where
  store := h.store.mono (fidelity_later hl)
  sync y hy row hrow := (h.sync y hy row hrow).later hl

theorem Kept.congr (h : Kept cfg s) (hnode : t.node = s.node) (hstore : t.store = s.store)
    (hsync : t.sync = s.sync) : Kept cfg t where
  store := by rw [hnode, hstore]; exact h.store
  sync := by rw [hnode, hsync]; exact h.sync

/-- Only the receipts in memory matter. -/
theorem Kept.setData (h : Kept cfg s) {data : StoreData} {timer : Bool}
    (hdata : ∀ r ∈ data.receipts.values, Faithful s.node r.marketPda r.settleTx r.statPeriod) :
    Kept cfg { s with store := { s.store with data, timer } } where
  store := ⟨⟨fun _ _ => trivial, fun _ _ => trivial, hdata⟩, h.store.rows, h.store.flushing⟩
  sync := h.sync

theorem Kept.setTables (h : Kept cfg s) {tables : Tables}
    (hrows : ∀ row ∈ tables.receipts.values,
      Faithful s.node row.marketPda row.settleTx row.statPeriod) :
    Kept cfg (s.setTables tables) where
  store := ⟨h.store.data, ⟨fun _ _ => trivial, hrows⟩, h.store.flushing⟩
  sync := h.sync

theorem Kept.setSync (h : Kept cfg s) {y : Option (Sync D)}
    (hy : ∀ x ∈ y, ∀ row, x.stop = .create row →
      Faithful s.node row.marketPda row.settleTx row.statPeriod) : Kept cfg (s.setSync y) where
  store := h.store
  sync := hy


/-! ## The settler -/

theorem Kept.beginStep (h : Kept cfg s) (hstep : BeginStep s t) : Kept cfg t := by
  cases hstep with
  | none memory | begins memory =>
      have hreceipts := h.store.data.receipts
      rw [← memory.receipts] at hreceipts
      exact (h.setData hreceipts).congr rfl rfl rfl

/-- What an attempt records of a settled market is faithful. -/
theorem evident_faithful {a : Attempt D} {r : Reply D} {now : ℤ} {m : State.Market D}
    {settleTx : String} {proven : Option ProvenStat} (hsound : Sound cfg s)
    (hc : Evident s (.resume (.attempt pda) now)) (ha : s.attempts pda = some a)
    (hr : a.reply = some r) (he : evidence a r = some (m, settleTx, proven))
    (hs : m.status = .settled) : Faithful s.node pda settleTx (proven.bind (·.period)) := by
  obtain ⟨hsettled, hperiod⟩ := hc a ha r hr _ he hs
  refine (faithful_iff hsound.node).mpr ⟨?_, hperiod⟩
  have hattempt := hsound.attempts pda a ha
  obtain ⟨b, hb, -, hresult⟩ := evidence_past hattempt hr he
  have hterm : m.status.terminal = true := by rw [hs]; rfl
  unfold evidence at he
  split at he <;> cases he
  next b' settleTx' hstop =>
    obtain ⟨b₁, hb₁, -, -, hby⟩ := hattempt.refetch _ _ hstop
    obtain rfl := Option.some.inj (hb₁.symm.trans hb)
    exact hby ((hresult hterm).status.trans hs)
  next hstop => simpa [readsBack, hstop] using hsettled
  next hstop => simpa [readsBack, hstop] using hsettled
  next hstop => simpa [readsBack, hstop] using hsettled

theorem Kept.attemptStep {a : Attempt D} {r : Reply D} {now : ℤ} (h : Kept cfg s)
    (hsound : Sound cfg s) (hc : Evident s (.resume (.attempt pda) now))
    (ha : s.attempts pda = some a) (hr : a.reply = some r)
    (hstep : AttemptStep cfg s pda a r t) : Kept cfg t := by
  cases hstep with
  | on memory =>
      have hreceipts := h.store.data.receipts
      rw [← memory.receipts] at hreceipts
      exact (h.setData hreceipts).congr rfl rfl rfl
  | waits => exact h
  | @records m settleTx proven found =>
      have hrecord : RecordStep cfg s pda m settleTx proven (record cfg s pda m settleTx proven) :=
        record_step m settleTx proven
      generalize record cfg s pda m settleTx proven = u at hrecord ⊢
      refine Kept.congr (s := u) ?_ rfl rfl rfl
      cases hrecord with
      | untracked => exact h
      | settled _ status =>
          have hfaithful := evident_faithful hsound hc ha hr found status
          obtain ⟨-, -, hpda, -⟩ := evidence_past (hsound.attempts pda a ha) hr found
          refine (h.setData fun x hx => ?_).congr rfl rfl rfl
          simp only [recordResolution, if_pos status] at hx
          rcases ObjectMap.mem_set.mp hx with rfl | ⟨hx, -⟩
          · change Faithful s.node (DbSync.marketPda m) settleTx _
            rwa [hpda]
          · exact h.store.data.receipts x hx
      | cancelled _ status =>
          refine (h.setData fun x hx => ?_).congr rfl rfl rfl
          simp only [recordResolution, if_neg status] at hx
          exact h.store.data.receipts x hx

theorem Kept.walkStep (h : Kept cfg s) (hstep : WalkStep cfg s i v r t) : Kept cfg t := by
  cases hstep with
  | on | finds | announces => exact h.congr rfl rfl rfl
  | waits => exact h

/-! ## The sync -/

/-- The signature that the sync recovers is the settlement's, if none is newer. -/
theorem recoverSettleTx_settled {settleTx : String} (h : recoverSettleTx n k = some settleTx) :
    (∃ x ∈ n.signaturesFor k 20, x.failed = false) ∧ (NoneSince n k → SettledBy n k settleTx) := by
  simp only [recoverSettleTx, Option.map_eq_some_iff] at h
  obtain ⟨x, hx, rfl⟩ := h
  constructor
  · exact ⟨x, List.mem_of_find?_eq_some hx, by simpa using List.find?_some hx⟩
  · intro hnone
    obtain ⟨y, hy, hs⟩ := noneSince_iff.mp hnone
    obtain rfl := Option.some.inj (hx.symm.trans hy)
    exact hs

theorem Kept.syncOn {rest : List SyncRow} (h : Kept cfg s) :
    Kept cfg (s.setSync (syncOn rest)) := by
  refine h.setSync fun x hx row hrow => ?_
  cases rest with
  | nil => cases hx
  | cons head rest =>
      cases hx
      cases hrow

theorem Kept.advanceSync {y : Settlers.Sync D} (h : Kept cfg s) (hn : NodeOk s.node)
    (hc : Evident s .advanceSync) (hy : s.sync = some y) :
    Kept cfg (advanceSync cfg.hex s y) := by
  unfold Settlers.advanceSync
  dsimp only
  cases hstop : y.stop with
  | fetchMarket =>
      dsimp only
      split
      · split
        · refine h.setSync fun x hx row hrow => ?_
          cases hx
          cases hrow
        · exact h.syncOn
      · exact h.syncOn
  | findFixture acc =>
      refine h.setSync fun x hx row hrow => ?_
      cases hx
      cases hrow
  | signatures acc fixture =>
      dsimp only
      split
      next settleTx hsettle =>
        refine h.setSync fun x hx row hrow => ?_
        cases hx
        cases hrow
        obtain ⟨hsucceeded, hsettled⟩ := recoverSettleTx_settled hsettle
        obtain ⟨hnone, hperiod⟩ := hc y hy (by rw [looks, hstop]) hsucceeded
        exact (faithful_iff hn).mpr ⟨hsettled hnone, hperiod⟩
      · exact h.syncOn
  | create row =>
      dsimp only
      split
      · refine (Kept.setTables h fun x hx => ?_).syncOn
        rcases ObjectMap.mem_set.mp hx with rfl | ⟨hx, -⟩
        · exact h.sync y hy _ hstop
        · exact h.store.rows.receipts x hx
      · exact h.syncOn

/-! ## Runs -/

variable [Inhabited D] {O : OracleProgram D}

omit [Inhabited D] in
/-- What boots is read from rows. -/
theorem Kept.restart (h : Kept cfg s) : (fidelity s.node).Holds cfg.teamCode
    (.booted s.store.tables) where
  data := ⟨fun _ _ => trivial, fun _ _ => trivial, fun r hr => by
    obtain ⟨row, hrow, rfl⟩ := List.mem_map.mp hr
    exact h.store.rows.receipts row hrow⟩
  rows := h.store.rows
  flushing _ hf := by cases hf

omit [Inhabited D] in
theorem Kept.mutate (h : Kept cfg s) {m : WriteThrough.Mutation} (hm : Foreign s.store.data m) :
    Kept cfg (s.setData (m.apply s.store.data)).save := by
  refine (h.setData fun r hr => ?_).congr rfl rfl rfl
  cases m with
  | receipt => exact hm.elim
  | _ => exact h.store.data.receipts r hr

omit [Inhabited D] in
theorem Kept.heal (h : Kept cfg s) {r : ReceiptRow} {fixture : FixtureRow}
    (hr : s.store.tables.receipts.get k = some r) :
    Kept cfg (s.setTables
      { s.store.tables with receipts := s.store.tables.receipts.set (heal fixture r) }) := by
  have hrow := h.store.rows.receipts r (ObjectMap.get_eq_some.mp hr).1
  refine Kept.setTables h fun x hx => ?_
  rcases ObjectMap.mem_set.mp hx with rfl | ⟨hx, -⟩
  · unfold Store.heal
    split_ifs
    · exact hrow
    · exact hrow
  · exact h.store.rows.receipts x hx

theorem Kept.step {op : Op D} (h : Kept cfg s) (hsound : Sound cfg s) (hc : Evident s op)
    (hstep : Step O cfg s op t) : Kept cfg t := by
  have hl := (hstep.later hsound.node).2
  cases hstep with
  | transact => exact h.later hl
  | finalised begins =>
      have hbegun := h.beginStep begins
      unfold Settlers.launch
      split
      · exact hbegun.congr rfl rfl rfl
      · exact hbegun
  | attemptDue begins => exact h.beginStep begins
  | wakeWalk =>
      unfold tryAttempt
      split_ifs
      · exact h.congr rfl rfl rfl
      · exact h.congr rfl rfl rfl
  | @answer who answer c node r awaits serve =>
      rw [reply_node] at hl
      have hlater := h.later hl
      cases who with
      | attempt | walk => exact hlater.congr rfl rfl rfl
  | resumeAttempt running returned step => exact h.attemptStep hsound hc running returned step
  | resumeWalk _ _ step => exact h.walkStep step
  | startSync => exact h.syncOn
  | advanceSync running => exact h.advanceSync hsound.node hc running
  | syncThrows => exact h.syncOn
  | store flush => exact ⟨h.store.step (fun _ _ hr => hr) flush, h.sync⟩
  | mutate foreign => exact h.mutate foreign
  | syncMarket => exact Kept.setTables h h.store.rows.receipts
  | importFixture => exact Kept.setTables h h.store.rows.receipts
  | heal found => exact h.heal found
  | restart => exact ⟨h.restart, fun _ hy => by cases hy⟩

omit [Inhabited D] in
theorem start_kept (h : Start s) : Kept cfg s where
  store := by rw [h.store]; exact .empty
  sync y hy := by rw [h.sync] at hy; cases hy

/-- In a run whose steps all have the evidence, every receipt row carries the signature
of its settlement and the period that was proven. -/
theorem rows_faithful {s₀ : State D} (h₀ : Start s₀) (ops : List (Op D))
    (hc : (machine O cfg).Along Evident s₀ ops) :
    ∀ row ∈ ((machine O cfg).run s₀ ops).store.tables.receipts.values,
      RowFaithful ((machine O cfg).run s₀ ops).node row := by
  have hstep (s : State D) (op : Op D) (t : State D) (h : Sound cfg s ∧ Kept cfg s)
      (hc : Evident s op) (hs : (machine O cfg).step s op = .ok t) :
      Sound cfg t ∧ Kept cfg t := by
    have hstep := next_step (machine_step.mp hs)
    exact ⟨h.1.step hstep, h.2.step h.1 hc hstep⟩
  obtain ⟨hsound, hkept⟩ := hc.preserves hstep ⟨start_sound h₀, start_kept h₀⟩
  intro row hrow
  have hfaithful := hkept.store.rows.receipts row hrow
  exact ⟨hfaithful, hfaithful.signed hsound.node⟩

/-! ## A winner claims before the sync looks -/

def goalsRow : DbSync.MarketRow where
  pda := comboMarket
  data :=
    { fixtureId := 7
      marketType := 16
      status := .settled
      lockTime := 100000
      resolutionTimeout := 50
      feeBps := 500
      usdcMint := .key 1
      vault := .vault comboMarket
      authority := .key 20
      oracleProgram := .key 9
      totalPool := 500
      pools := [500, 0]
      totalWinningPool := some 500
      feeAmount := some 25
      winningOutcome := some 0
      settledAt := some 100000 }
  createdTx := none
  lockTx := none
  settleTx := none
  cancelTx := none
  isPda := ⟨7, rfl, rfl⟩

/-- The market settles, transactions land on its account, and the sync projects its
receipt. -/
def syncedRun (later : List (Op Unit)) : List (Op Unit) :=
  goalsRun 3 ++ later ++
    [.syncMarket goalsRow, .startSync [⟨comboMarket, 7, 16⟩], .advanceSync, .advanceSync,
      .advanceSync, .advanceSync]

def syncedWorld (later : List (Op Unit)) : State Unit :=
  (machine acceptingOracle goalsConfig).run emptyState (syncedRun later)

def claim (userToken : Pubkey) : Op Unit :=
  .transact "claim" [] [.claimWinnings ⟨.key 12, comboMarket, .vault comboMarket, userToken⟩]

/-- A claim to another's account fails, and the sync passes over it. -/
theorem rows_faithful_failedClaim :
    ((syncedWorld [claim (.key 3)]).store.tables.receipts.values.map
        fun row => (row.marketPda, row.settleTx)) = [(comboMarket, "settle")] ∧
      ∀ row ∈ (syncedWorld [claim (.key 3)]).store.tables.receipts.values,
        RowFaithful (syncedWorld [claim (.key 3)]).node row := by
  constructor
  · decide +kernel
  · unfold syncedWorld
    exact rows_faithful emptyState_start (syncedRun [claim (.key 3)]) (by decide +kernel)

theorem syncedWorld_claim :
    ((syncedWorld [claim (.key 2)]).store.tables.receipts.values.map
        fun row => (row.marketPda, row.settleTx)) = [(comboMarket, "claim")] ∧
      (syncedWorld [claim (.key 2)]).node.settlements.map (·.signature) = ["settle"] := by
  decide +kernel

/-- The winner has claimed, and the receipt names the claim as the settlement. -/
theorem row_of_claim : ¬ ∀ row ∈ (syncedWorld [claim (.key 2)]).store.tables.receipts.values,
    RowFaithful (syncedWorld [claim (.key 2)]).node row := by
  intro h
  obtain ⟨hrows, hsettlements⟩ := syncedWorld_claim
  have hmem : (comboMarket, "claim") ∈
      (syncedWorld [claim (.key 2)]).store.tables.receipts.values.map
        fun row => (row.marketPda, row.settleTx) := by
    rw [hrows]
    exact List.mem_singleton.mpr rfl
  obtain ⟨row, hrow, hpair⟩ := List.mem_map.mp hmem
  obtain ⟨x, hx, -, hsignature, -⟩ := (h row hrow).faithful
  have hsettle := List.mem_map_of_mem (f := (·.signature)) hx
  rw [hsettlements, List.mem_singleton, hsignature, (Prod.mk.inj hpair).2] at hsettle
  exact absurd hsettle (by decide)

end ProofBook.ReceiptRows
