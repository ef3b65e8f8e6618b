import ProofBook.Mirror
import ProofBook.PgStore
import ProofBook.ReceiptSync
import ProofBook.Resolution
import ProofBook.Lib.Runs

/-!
# Two writers of the same rows

The write-through store writes the status of a market from the keeper's record,
the sync from the account. Nothing orders them: a record may lag behind the row,
its phases `settling` and `error` are written as open, and an account may have
been read before the row was written. The store also writes receipts that the
sync has healed.
-/
namespace ProofBook.TwoWriters
open Addresses State KeyedTable Objects BestPerKey DbSync Store Runs

/-! ## The keeper, its sync, and the chain -/

/-- The status a row shows. -/
def rowStatus (t : Tables) (pda : Pubkey) : Option MarketStatus :=
  (t.markets.find pda).map (·.data.status)

structure SyncPass (D : Type) where
  /-- The fixtures in the database, once they are read. -/
  known : Option (List ℤ)
  rest : List (Market D)

structure HealPass where
  rest : List (Pubkey × ℤ)
  /-- The row of the first fixture, once it is read. -/
  fixture : Option (Option FixtureRow)

structure State (D : Type) where
  store : PgStore
  /-- The statuses an account has had, the newest first. -/
  chain : Pubkey → List MarketStatus
  sync : Option (SyncPass D)
  healing : Option HealPass
  /-- The stage of the furthest status the process has loaded or read of a market. -/
  seen : Pubkey → ℕ
  /-- The receipts that were healed since the process started. -/
  healed : List Pubkey

inductive Op (D : Type)
  | fixture (f : FixtureLive)
  /-- Discovery takes a market of the chain over. -/
  | adopt (m : MarketRecord) (read : MarketStatus)
  | onFinalised (pda : Pubkey)
  | attemptFailed (pda : Pubkey)
  | recordResolution (onchain : Market D) (settleTx : String) (proven : Option ProvenStat)
  | sweepLocked (pda : Pubkey)
  | sweepResolved (pda : Pubkey) (read : MarketStatus)
  | store (op : FlushOp)
  | restart
  | chainMoves (pda : Pubkey) (status : MarketStatus)
  | syncAccounts (cfg : KeeperConfig) (all : List (Market D))
  | syncFixtures
  | syncUpsert
  | syncPurge
  | syncFails
  | healBlanks
  | healFixture
  | healUpdate
  | healFails

section
variable {D : Type} (teamCode : String → Option String) (hex : D → String)
  (fits : MarketData → Bool)

def State.setData (s : State D) (data : StoreData) : State D :=
  { s with store := { s.store with data }.saveSoon }

def State.setTables (s : State D) (tables : Tables) : State D :=
  { s with store := { s.store with tables } }

def State.setReceipt (s : State D) (r : ReceiptRow) : State D :=
  s.setTables { s.store.tables with receipts := s.store.tables.receipts.set r }

def State.setPhase (s : State D) (pda : Pubkey) (phase : MarketPhase) : Option (State D) :=
  (s.store.data.markets.get pda).map fun m =>
    s.setData { s.store.data with markets := s.store.data.markets.set { m with phase } }

def State.endSync (s : State D) : State D := { s with sync := none }

def State.setHealing (s : State D) (healing : Option HealPass) : State D := { s with healing }

def note (seen : Pubkey → ℕ) (pda : Pubkey) (read : MarketStatus) : Pubkey → ℕ :=
  Function.update seen pda (max (seen pda) (stage read))

/-- A status is read of an account. -/
def State.reads (s : State D) (pda : Pubkey) (read : MarketStatus) : State D :=
  { s with seen := note s.seen pda read }

/-- A restart loses what was in memory and what was under way. -/
def State.restarted (s : State D) : State D :=
  { s with
    store := .booted s.store.tables
    sync := none
    healing := none
    seen := fun pda => ((rowStatus s.store.tables pda).map stage).getD 0
    healed := [] }

/-- The upsert of one account. -/
def upsertRow (m : Market D) (t : Tables) : Option Tables :=
  match upsertMarket fits m ⟨[], t.markets, [], []⟩ with
  | .ok _ db => some { t with markets := db.markets }
  | .error _ _ => none

/-- The purge of the dead generations takes their receipts along. -/
def purge (t : Tables) : Tables :=
  let markets := t.markets.deleteMany (·.data.marketType ∈ deadGenerations)
  { t with markets, receipts := t.receipts.filter fun r => (markets.find r.marketPda).isSome }

/-- The blank receipts of one pass. -/
def blankReceipts (t : Tables) : List (Pubkey × ℤ) :=
  ((t.receipts.values.filter (·.provenP1 = none)).take 40).map fun r => (r.marketPda, r.fixtureId)

/-- The pass over the receipts that are left, if any. -/
def healNext (rest : List (Pubkey × ℤ)) : Option HealPass :=
  if rest = [] then none else some ⟨rest, none⟩

/-- The step, or nothing if it is not due. -/
def next (s : State D) : Op D → Option (State D)
  | .fixture f =>
      some (s.setData { s.store.data with fixtures := s.store.data.fixtures.set f })
  | .adopt m read =>
      if s.store.data.markets.get m.marketPda = none ∧ read ∈ s.chain m.marketPda then
        let adopted := { m with phase := loadPhase read }
        let data := { s.store.data with markets := s.store.data.markets.set adopted }
        some ((s.setData data).reads m.marketPda read)
      else none
  | .onFinalised pda => do
      let m ← s.store.data.markets.get pda
      if m.phase = .settled ∨ m.phase = .cancelled then none else s.setPhase pda .settling
  | .attemptFailed pda => s.setPhase pda .error
  | .recordResolution onchain settleTx proven => do
      let m ← s.store.data.markets.get (marketPda onchain)
      if onchain.status ∈ s.chain (marketPda onchain) then
        let data := Store.recordResolution hex s.store.data m onchain settleTx proven
        some ((s.setData data).reads (marketPda onchain) onchain.status)
      else none
  | .sweepLocked pda =>
      if .locked ∈ s.chain pda then (s.setPhase pda .locked).map (·.reads pda .locked) else none
  | .sweepResolved pda read =>
      if read.terminal = true ∧ read ∈ s.chain pda then
        (s.setPhase pda (loadPhase read)).map (·.reads pda read)
      else none
  | .store op => (s.store.step teamCode op).map fun store => { s with store }
  | .restart => some s.restarted
  | .chainMoves pda status =>
      if (s.chain pda).all (stage · < stage status) = true then
        some { s with chain := Function.update s.chain pda (status :: s.chain pda) }
      else none
  | .syncAccounts cfg all =>
      if s.sync.isNone = true ∧ ∀ m ∈ all, m.status ∈ s.chain (marketPda m) then
        some { s with
          sync := some ⟨none, pickBest cfg all⟩
          seen := (pickBest cfg all).foldl (fun seen m => note seen (marketPda m) m.status) s.seen }
      else none
  | .syncFixtures => do
      let p ← s.sync
      let known := s.store.tables.fixtures.values.map (·.id)
      some { s with sync := some { p with known := some known } }
  | .syncUpsert =>
      match s.sync with
      | some ⟨some known, m :: rest⟩ =>
          if m.fixtureId.toInt ∈ known then
            match upsertRow fits m s.store.tables with
            | some tables => some { s.setTables tables with sync := some ⟨some known, rest⟩ }
            | none => some s.endSync
          else some { s with sync := some ⟨some known, rest⟩ }
      | _ => none
  | .syncPurge =>
      match s.sync with
      | some ⟨some _, []⟩ => some (s.setTables (purge s.store.tables)).endSync
      | _ => none
  | .syncFails => some s.endSync
  | .healBlanks =>
      if s.healing.isNone then
        some (s.setHealing (healNext (blankReceipts s.store.tables)))
      else none
  | .healFixture =>
      match s.healing with
      | some ⟨(pda, id) :: rest, none⟩ =>
          let fixture := s.store.tables.fixtures.get id
          some (s.setHealing (some ⟨(pda, id) :: rest, some fixture⟩))
      | _ => none
  | .healUpdate =>
      match s.healing with
      | some ⟨(pda, _) :: rest, some fixture⟩ =>
          let t := s.setHealing (healNext rest)
          match fixture with
          | none => some t
          | some f =>
              if Healable f then
                match s.store.tables.receipts.get pda with
                | some r => some { t.setReceipt (heal f r) with healed := pda :: s.healed }
                | none => some (s.setHealing none)
              else some t
      | _ => none
  | .healFails => some (s.setHealing none)

def machine : Machine (State D) (Op D) Unit :=
  ⟨fun s op => (next teamCode hex fits s op).elim (.error ()) .ok⟩

end

/-! ## What the writers hold -/

/-- A terminal status was read from the chain. -/
def Backed (chain : Pubkey → List MarketStatus) (pda : Pubkey) (status : MarketStatus) : Prop :=
  status.terminal = true → status ∈ chain pda

/-- Both sides of a score are there, or neither is. -/
def Paired (r : FixtureRow) : Prop := r.provenP1 = none ↔ r.provenP2 = none

def PairedReceipt (r : ReceiptRow) : Prop := r.provenP1 = none ↔ r.provenP2 = none

/-- What a flush carries. -/
def carried (chain : Pubkey → List MarketStatus) : Property where
  fixture := Paired
  market m := Backed chain m.marketPda (marketStatus m.phase)
  receipt _ := True
  receiptRow := PairedReceipt

theorem paired_fixtureRow (teamCode : String → Option String) (f : FixtureLive) :
    Paired (fixtureRow teamCode f) := by
  unfold Paired fixtureRow
  cases f.score <;> simp

theorem paired_receiptRow (now : ℤ) (r : ProofReceipt) : PairedReceipt (receiptRow now r) := by
  unfold PairedReceipt receiptRow
  cases r.provenScore <;> simp

theorem paired_heal {f : FixtureRow} {r : ReceiptRow} (hf : Paired f) (hr : PairedReceipt r) :
    PairedReceipt (heal f r) := by
  unfold heal
  split
  · exact hf
  · exact hr

theorem carried_le {chain chain' : Pubkey → List MarketStatus}
    (h : ∀ pda, ∀ st ∈ chain pda, st ∈ chain' pda) : (carried chain).Le (carried chain') :=
  ⟨fun _ h => h, fun _ hm ht => h _ _ (hm ht), fun _ h => h, fun _ h => h⟩

section
variable {D : Type}

structure State.Ok (teamCode : String → Option String) (s : State D) : Prop where
  store : (carried s.chain).Holds teamCode s.store
  chain : ∀ pda, (s.chain pda).Pairwise fun newer older => stage older < stage newer
  markets : ∀ pda, ∀ st ∈ rowStatus s.store.tables pda, Backed s.chain pda st
  sync : ∀ p ∈ s.sync, ∀ m ∈ p.rest, m.status ∈ s.chain (marketPda m)
  healing : ∀ p ∈ s.healing, ∀ f, p.fixture = some (some f) → Paired f

/-- No row goes backward, and no receipt loses its score. -/
structure Lawful (s t : State D) : Prop where
  status : ∀ pda a b, rowStatus s.store.tables pda = some a →
    rowStatus t.store.tables pda = some b → Forward a b
  score : ∀ pda a b, s.store.tables.receipts.get pda = some a →
    t.store.tables.receipts.get pda = some b →
      (a.provenP1 ≠ none → b.provenP1 ≠ none) ∧ (a.provenP2 ≠ none → b.provenP2 ≠ none)

/-- What is written now is not behind the row it is written over. -/
def NotBehind (s : State D) : Op D → Prop
  | .recordResolution onchain _ _ => onchain.status.terminal = true
  | .store .execute =>
      match s.store.flushing with
      | some (.market m _) =>
          (rowStatus s.store.tables m.marketPda).all (stage · ≤ stage (marketStatus m.phase)) = true
      | some (.receipt row _) =>
          (s.store.tables.receipts.get row.marketPda).all (fun r =>
            (r.provenP1 ≠ none → row.provenP1 ≠ none) ∧
              (r.provenP2 ≠ none → row.provenP2 ≠ none)) = true
      | _ => True
  | .syncUpsert =>
      match s.sync with
      | some ⟨_, m :: _⟩ =>
          (rowStatus s.store.tables (marketPda m)).all (stage · ≤ stage m.status) = true
      | _ => True
  | _ => True

variable {teamCode : String → Option String} {hex : D → String} {fits : MarketData → Bool}
  {s t : State D}

theorem status_same (h : t.store.tables.markets = s.store.tables.markets) :
    ∀ pda a b, rowStatus s.store.tables pda = some a → rowStatus t.store.tables pda = some b →
      Forward a b := by
  intro pda a b ha hb
  unfold rowStatus at ha hb
  rw [h, ha] at hb
  exact .inl (Option.some.inj hb)

theorem score_same (h : t.store.tables.receipts = s.store.tables.receipts) :
    ∀ pda a b, s.store.tables.receipts.get pda = some a →
      t.store.tables.receipts.get pda = some b →
        (a.provenP1 ≠ none → b.provenP1 ≠ none) ∧ (a.provenP2 ≠ none → b.provenP2 ≠ none) := by
  intro pda a b ha hb
  rw [h, ha] at hb
  cases hb
  exact ⟨id, id⟩

theorem Lawful.of_tables (h : t.store.tables.markets = s.store.tables.markets)
    (hr : t.store.tables.receipts = s.store.tables.receipts) : Lawful s t :=
  ⟨status_same h, score_same hr⟩

/-- A terminal status is the last one. -/
theorem State.Ok.current (h : s.Ok teamCode) {pda : Pubkey} {a : MarketStatus}
    (ha : a ∈ s.chain pda) (ht : a.terminal = true) : (s.chain pda).head? = some a := by
  have hsorted := h.chain pda
  cases hc : s.chain pda with
  | nil => simp [hc] at ha
  | cons newest older =>
      rw [hc] at ha hsorted
      rcases List.mem_cons.mp ha with rfl | ha
      · rfl
      · have hlt := (List.pairwise_cons.mp hsorted).1 a ha
        rw [stage_of_terminal ht] at hlt
        exact absurd hlt (Nat.not_lt.mpr (stage_le newest))

/-- A write that is not behind the row takes it forward. -/
theorem State.Ok.forward (h : s.Ok teamCode) {pda : Pubkey} {a b : MarketStatus}
    (ha : rowStatus s.store.tables pda = some a) (hb : Backed s.chain pda b)
    (hle : stage a ≤ stage b) : Forward a b := by
  refine .of_le hle fun hta htb => ?_
  have hcur := h.current (h.markets pda a ha hta) hta
  rw [h.current (hb htb) htb] at hcur
  exact (Option.some.inj hcur).symm

/-! ## The writes of markets -/

theorem rowStatus_writeMarket (m : MarketRecord) (tables : Tables) (pda : Pubkey) :
    rowStatus { tables with markets := writeMarket m tables.markets } pda =
      if pda = m.marketPda then (rowStatus tables pda).map fun _ => marketStatus m.phase
      else rowStatus tables pda := by
  unfold rowStatus
  dsimp only
  rw [find_writeMarket]
  cases hf : tables.markets.find pda with
  | none => simp
  | some r =>
      obtain rfl : r.pda = pda := (Table.find_eq_some.mp hf).2
      by_cases hp : r.pda = m.marketPda <;> simp [hp, carryOver]

theorem upsertRow_eq_some {m : Market D} {tables tables' : Tables}
    (h : upsertRow fits m tables = some tables') :
    ∃ markets, tables.markets.put (mirrorRow (tables.markets.find (marketPda m)) m) = some markets ∧
      tables' = { tables with markets } := by
  unfold upsertRow upsertMarket at h
  dsimp only at h
  split at h
  next db hok =>
    cases h
    split at hok
    · split at hok
      next markets hput =>
        cases hok
        exact ⟨markets, hput, rfl⟩
      · cases hok
    · cases hok
  · cases h

theorem rowStatus_upsertRow {m : Market D} {tables tables' : Tables}
    (h : upsertRow fits m tables = some tables') (pda : Pubkey) :
    rowStatus tables' pda = if pda = marketPda m then some m.status else rowStatus tables pda := by
  obtain ⟨markets, hput, rfl⟩ := upsertRow_eq_some h
  unfold rowStatus
  by_cases hp : pda = marketPda m
  · subst hp
    have hself := Table.find_put_self hput
    simp only [mirrorRow] at hself
    simp [hself, marketData]
  · rw [if_neg hp, Table.find_put_of_ne hput hp]

theorem rowStatus_purge {tables : Tables} {pda : Pubkey} {st : MarketStatus}
    (h : rowStatus (purge tables) pda = some st) : rowStatus tables pda = some st := by
  unfold rowStatus purge at h
  dsimp only at h
  rw [Table.find_deleteMany] at h
  obtain ⟨r, hr, rfl⟩ := Option.map_eq_some_iff.mp h
  exact Option.map_eq_some_iff.mpr ⟨r, (Option.filter_eq_some_iff.mp hr).1, rfl⟩

/-! ## Steps -/

/-- The upsert of one account skips it, writes it, or ends the sync. -/
theorem next_syncUpsert (hs : next teamCode hex fits s .syncUpsert = some t) :
    ∃ known m rest, s.sync = some ⟨some known, m :: rest⟩ ∧
      (t = { s with sync := some ⟨some known, rest⟩ } ∨ t = s.endSync ∨
        ∃ tables, upsertRow fits m s.store.tables = some tables ∧
          t = { s.setTables tables with sync := some ⟨some known, rest⟩ }) := by
  simp only [next] at hs
  split at hs
  next known m rest hsync =>
    refine ⟨known, m, rest, hsync, ?_⟩
    split at hs
    · split at hs
      next tables hu =>
        cases hs
        exact .inr (.inr ⟨tables, hu, rfl⟩)
      · cases hs
        exact .inr (.inl rfl)
    · cases hs
      exact .inl rfl
  · cases hs

/-- One step over a blank receipt heals it, or leaves the rows alone. -/
theorem next_healUpdate (hs : next teamCode hex fits s .healUpdate = some t) :
    ∃ pda id rest fixture, s.healing = some ⟨(pda, id) :: rest, some fixture⟩ ∧
      (t = s.setHealing (healNext rest) ∨ t = s.setHealing none ∨
        ∃ f r, fixture = some f ∧ Healable f ∧ s.store.tables.receipts.get pda = some r ∧
          t = { (s.setHealing (healNext rest)).setReceipt (heal f r) with
            healed := pda :: s.healed }) := by
  simp only [next] at hs
  split at hs
  next pda id rest fixture hp =>
    refine ⟨pda, id, rest, fixture, hp, ?_⟩
    cases fixture with
    | none =>
        cases hs
        exact .inl rfl
    | some f =>
        simp only at hs
        split at hs
        next hok =>
          split at hs
          next r hr =>
            cases hs
            exact .inr (.inr ⟨f, r, rfl, hok, hr, rfl⟩)
          · cases hs
            exact .inr (.inl rfl)
        · cases hs
          exact .inl rfl
  · cases hs

theorem State.Ok.grow (h : s.Ok teamCode) {chain : Pubkey → List MarketStatus}
    (hgrow : ∀ pda, ∀ st ∈ s.chain pda, st ∈ chain pda)
    (hsorted : ∀ pda, (chain pda).Pairwise fun newer older => stage older < stage newer) :
    State.Ok teamCode { s with chain } where
  store := h.store.mono (carried_le hgrow)
  chain := hsorted
  markets pda st hst ht := hgrow pda st (h.markets pda st hst ht)
  sync p hp m hm := hgrow _ _ (h.sync p hp m hm)
  healing := h.healing

theorem State.Ok.setData (h : s.Ok teamCode) {data : StoreData}
    (hd : (carried s.chain).Data teamCode data) : (s.setData data).Ok teamCode :=
  ⟨⟨hd, h.store.rows, h.store.flushing⟩, h.chain, h.markets, h.sync, h.healing⟩

theorem lawful_setData {data : StoreData} : Lawful s (s.setData data) := .of_tables rfl rfl

theorem State.Ok.setPhase (h : s.Ok teamCode) {pda : Pubkey} {phase : MarketPhase}
    (hb : Backed s.chain pda (marketStatus phase)) (hs : s.setPhase pda phase = some t) :
    t.Ok teamCode ∧ Lawful s t := by
  obtain ⟨m, hm, rfl⟩ := Option.map_eq_some_iff.mp hs
  obtain rfl : m.marketPda = pda := ObjectMap.get_key hm
  exact ⟨h.setData (h.store.data.setMarket hb), lawful_setData⟩

/-- The statement for a market writes what the chain backs. -/
theorem State.Ok.writeMarket (h : s.Ok teamCode) {m : MarketRecord} {store : PgStore}
    (hstore : (carried s.chain).Holds teamCode store)
    (hb : Backed s.chain m.marketPda (marketStatus m.phase))
    (hin : ∀ a, rowStatus s.store.tables m.marketPda = some a →
      stage a ≤ stage (marketStatus m.phase))
    (htables : store.tables =
      { s.store.tables with markets := Store.writeMarket m s.store.tables.markets }) :
    State.Ok teamCode { s with store } ∧ Lawful s { s with store } := by
  have hrow (pda : Pubkey) := rowStatus_writeMarket m s.store.tables pda
  rw [← htables] at hrow
  refine ⟨⟨hstore, h.chain, fun pda st hst => ?_, h.sync, h.healing⟩,
    ⟨fun pda a b ha hb' => ?_, ?_⟩⟩
  · rw [hrow] at hst
    split at hst
    next hp =>
      obtain ⟨-, -, rfl⟩ := Option.map_eq_some_iff.mp hst
      exact hp ▸ hb
    · exact h.markets pda st hst
  · rw [hrow] at hb'
    split at hb'
    next hp =>
      subst hp
      obtain ⟨-, -, rfl⟩ := Option.map_eq_some_iff.mp hb'
      exact h.forward ha hb (hin a ha)
    · exact .inl (Option.some.inj (ha.symm.trans hb'))
  · exact score_same (t := { s with store }) (by rw [htables])

/-- The statement for a receipt keeps the score of the row it replaces. -/
theorem State.Ok.writeReceipt (h : s.Ok teamCode) {row : ReceiptRow} {store : PgStore}
    (hstore : (carried s.chain).Holds teamCode store)
    (hin : ∀ r, s.store.tables.receipts.get row.marketPda = some r →
      (r.provenP1 ≠ none → row.provenP1 ≠ none) ∧ (r.provenP2 ≠ none → row.provenP2 ≠ none))
    (htables : store.tables =
      { s.store.tables with receipts := s.store.tables.receipts.set row }) :
    State.Ok teamCode { s with store } ∧ Lawful s { s with store } := by
  refine ⟨⟨hstore, h.chain, ?_, h.sync, h.healing⟩, ⟨status_same ?_, fun pda a b ha hb => ?_⟩⟩
  · intro pda st hst
    exact h.markets pda st (by simpa [rowStatus, htables] using hst)
  · rw [htables]
  · have hb : (s.store.tables.receipts.set row).get pda = some b := by rw [← hb, htables]
    by_cases hp : pda = row.marketPda
    · subst hp
      rw [ObjectMap.get_set_self] at hb
      cases hb
      exact hin a ha
    · rw [ObjectMap.get_set_of_ne hp, ha] at hb
      cases hb
      exact ⟨id, id⟩

/-- The store writes what it carries. -/
theorem State.Ok.storeStep (h : s.Ok teamCode) {op : FlushOp} {store : PgStore}
    (hin : NotBehind s (.store op)) (hs : s.store.step teamCode op = some store) :
    State.Ok teamCode { s with store } ∧ Lawful s { s with store } := by
  have hstore := h.store.step (fun now r _ => paired_receiptRow now r) hs
  have unwritten (hm : store.tables.markets = s.store.tables.markets)
      (hr : store.tables.receipts = s.store.tables.receipts) :
      State.Ok teamCode { s with store } ∧ Lawful s { s with store } := by
    refine ⟨⟨hstore, h.chain, fun pda st hst => ?_, h.sync, h.healing⟩, .of_tables hm hr⟩
    exact h.markets pda st (by simpa [rowStatus, hm] using hst)
  rcases (PgStore.step_stepped hs).tables with htables | ⟨rfl, f, next, hf, he⟩
  · exact unwritten (congrArg Tables.markets htables) (congrArg Tables.receipts htables)
  cases f with
  | market m rest =>
      simp only [NotBehind, hf] at hin
      refine h.writeMarket hstore (h.store.flushing _ hf) (fun a ha => ?_)
        (Prod.mk.inj (Option.some.inj he)).1.symm
      simpa [ha] using hin
  | receipt row rest =>
      simp only [NotBehind, hf] at hin
      refine h.writeReceipt hstore (fun r hr => ?_) (Prod.mk.inj (Option.some.inj he)).1.symm
      simpa only [hr, Option.all_some, decide_eq_true_eq] using hin
  | returned next => cases he
  | fixture | findMarket | kv =>
      have htables := (Prod.mk.inj (Option.some.inj he)).1.symm
      exact unwritten (by rw [htables]) (by rw [htables])

theorem mem_pickBest {cfg : KeeperConfig} {all : List (Market D)} {m : Market D}
    (h : m ∈ pickBest cfg all) : m ∈ all :=
  (List.mem_filter.mp ((best_kept _).top m h).mem).1

theorem State.Ok.recordResolution (h : s.Ok teamCode) {m : MarketRecord} {onchain : Market D}
    {settleTx : String} {proven : Option ProvenStat}
    (hm : s.store.data.markets.get (marketPda onchain) = some m)
    (hread : onchain.status ∈ s.chain (marketPda onchain)) (ht : onchain.status.terminal = true) :
    (s.setData (Store.recordResolution hex s.store.data m onchain settleTx proven)).Ok
      teamCode := by
  have hstatus : marketStatus (resolvedPhase onchain.status) = onchain.status := by
    cases hs : onchain.status <;> first | rfl | (rw [hs] at ht; cases ht)
  have hbacked : Backed s.chain m.marketPda (marketStatus (resolvedPhase onchain.status)) := by
    rw [hstatus, ObjectMap.get_key hm]
    exact fun _ => hread
  have hd := h.store.data.setMarket (m := resolveRecord m onchain settleTx) hbacked
  exact h.setData ⟨hd.fixtures, hd.markets, fun _ _ => trivial⟩

theorem State.Ok.restarted (h : s.Ok teamCode) : s.restarted.Ok teamCode where
  store := by
    refine ⟨⟨fun f _ => paired_fixtureRow teamCode f, fun m hm => ?_, fun _ _ => trivial⟩,
      h.store.rows, fun f hf => by cases hf⟩
    obtain ⟨r, hr, rfl⟩ := List.mem_map.mp hm
    have hrow : rowStatus s.store.tables r.pda = some r.data.status := by
      unfold rowStatus
      rw [Table.find_eq_some.mpr ⟨hr, rfl⟩]
      rfl
    have hb := h.markets r.pda _ hrow
    rwa [← marketStatus_loadPhase r.data.status] at hb
  chain := h.chain
  markets := h.markets
  sync p hp := by cases hp
  healing p hp := by cases hp

/-- What was seen and healed does not matter to what is backed. -/
theorem State.Ok.noting (h : s.Ok teamCode) (seen : Pubkey → ℕ) (healed : List Pubkey) :
    State.Ok teamCode { s with seen, healed } :=
  ⟨h.store, h.chain, h.markets, h.sync, h.healing⟩

theorem State.Ok.readPhase (h : s.Ok teamCode) {pda : Pubkey} {read : MarketStatus}
    (hb : Backed s.chain pda read)
    (hs : (s.setPhase pda (loadPhase read)).map (·.reads pda read) = some t) :
    t.Ok teamCode ∧ Lawful s t := by
  obtain ⟨t', ht, rfl⟩ := Option.map_eq_some_iff.mp hs
  obtain ⟨hok, hlawful⟩ := h.setPhase (by rwa [marketStatus_loadPhase]) ht
  exact ⟨hok.noting _ _, hlawful.status, hlawful.score⟩

theorem State.Ok.setSync (h : s.Ok teamCode) {sync : Option (SyncPass D)}
    (hs : ∀ p ∈ sync, ∀ m ∈ p.rest, m.status ∈ s.chain (marketPda m)) :
    State.Ok teamCode { s with sync } :=
  ⟨h.store, h.chain, h.markets, hs, h.healing⟩

theorem State.Ok.endSync (h : s.Ok teamCode) : s.endSync.Ok teamCode :=
  h.setSync fun p hp => by cases hp

theorem State.Ok.setHealing (h : s.Ok teamCode) {healing : Option HealPass}
    (hh : ∀ p ∈ healing, ∀ f, p.fixture = some (some f) → Paired f) :
    (s.setHealing healing).Ok teamCode :=
  ⟨h.store, h.chain, h.markets, h.sync, hh⟩

theorem healNext_unread {rest : List (Pubkey × ℤ)} :
    ∀ p ∈ healNext rest, ∀ f, p.fixture = some (some f) → Paired f := by
  intro p hp f hf
  unfold healNext at hp
  split at hp
  · cases hp
  · cases hp
    cases hf

/-- The upsert of a market that was read. -/
theorem State.Ok.upsert (h : s.Ok teamCode) {known : List ℤ} {m : Market D}
    {rest : List (Market D)} {tables : Tables} (hsync : s.sync = some ⟨some known, m :: rest⟩)
    (hin : NotBehind s .syncUpsert) (hu : upsertRow fits m s.store.tables = some tables) :
    (s.setTables tables).Ok teamCode ∧ Lawful s (s.setTables tables) := by
  have hread := h.sync _ hsync m List.mem_cons_self
  have hstatus := rowStatus_upsertRow hu
  obtain ⟨markets, -, rfl⟩ := upsertRow_eq_some hu
  simp only [NotBehind, hsync] at hin
  refine ⟨⟨⟨h.store.data, ⟨h.store.rows.fixtures, h.store.rows.receipts⟩, h.store.flushing⟩,
    h.chain, fun pda st hst => ?_, h.sync, h.healing⟩, ⟨fun pda a b ha hb => ?_, ?_⟩⟩
  · have hst : rowStatus { s.store.tables with markets } pda = some st := hst
    rw [hstatus] at hst
    split at hst
    next hp =>
      cases hst
      exact fun _ => hp ▸ hread
    · exact h.markets pda st hst
  · have hb : rowStatus { s.store.tables with markets } pda = some b := hb
    rw [hstatus] at hb
    split at hb
    next hp =>
      cases hb
      subst hp
      exact h.forward ha (fun _ => hread) (by simpa [ha] using hin)
    · exact .inl (Option.some.inj (ha.symm.trans hb))
  · exact score_same rfl

theorem State.Ok.syncUpsert (h : s.Ok teamCode) (hin : NotBehind s .syncUpsert)
    (hs : next teamCode hex fits s .syncUpsert = some t) : t.Ok teamCode ∧ Lawful s t := by
  obtain ⟨known, m, rest, hsync, hcase⟩ := next_syncUpsert hs
  have hrest : ∀ p ∈ some (⟨some known, rest⟩ : SyncPass D), ∀ x ∈ p.rest,
      x.status ∈ s.chain (marketPda x) := by
    intro p hp x hx
    cases hp
    exact h.sync _ hsync x (List.mem_cons_of_mem _ hx)
  rcases hcase with rfl | rfl | ⟨tables, hu, rfl⟩
  · exact ⟨h.setSync hrest, .of_tables rfl rfl⟩
  · exact ⟨h.endSync, .of_tables rfl rfl⟩
  · obtain ⟨hok, hlawful⟩ := h.upsert hsync hin hu
    exact ⟨hok.setSync hrest, hlawful.status, hlawful.score⟩

theorem State.Ok.purge (h : s.Ok teamCode) :
    (s.setTables (purge s.store.tables)).Ok teamCode ∧
      Lawful s (s.setTables (purge s.store.tables)) := by
  have hreceipts : ∀ r ∈ (TwoWriters.purge s.store.tables).receipts.values, PairedReceipt r :=
    fun r hr => h.store.rows.receipts r (List.mem_of_mem_filter hr)
  refine ⟨⟨⟨h.store.data, ⟨h.store.rows.fixtures, hreceipts⟩, h.store.flushing⟩,
    h.chain, fun pda st hst => h.markets pda st (rowStatus_purge hst), h.sync, h.healing⟩,
    ⟨fun pda a b ha hb => ?_, fun pda a b ha hb => ?_⟩⟩
  · exact .inl (Option.some.inj (ha.symm.trans (rowStatus_purge hb)))
  · have hb := (ObjectMap.get_filter.mp hb).1
    rw [ha] at hb
    cases hb
    exact ⟨id, id⟩

/-- The chain gives a market a later status. -/
theorem State.Ok.chainMoves (h : s.Ok teamCode) {pda : Pubkey} {status : MarketStatus}
    (hlt : (s.chain pda).all (stage · < stage status) = true) :
    State.Ok teamCode
      { s with chain := Function.update s.chain pda (status :: s.chain pda) } := by
  apply h.grow
  · intro pda' st hst
    by_cases hp : pda' = pda
    · subst hp
      simpa using .inr hst
    · simpa [hp] using hst
  · intro pda'
    by_cases hp : pda' = pda
    · subst hp
      simpa using ⟨by simpa using hlt, h.chain pda'⟩
    · simpa [hp] using h.chain pda'

/-- A receipt is healed with both sides of a score. -/
theorem State.Ok.heal (h : s.Ok teamCode) {f : FixtureRow} {r : ReceiptRow} {pda : Pubkey}
    (hpaired : Paired f) (hok : Healable f)
    (hr : s.store.tables.receipts.get pda = some r) :
    (s.setReceipt (Store.heal f r)).Ok teamCode ∧ Lawful s (s.setReceipt (Store.heal f r)) := by
  have hrow := paired_heal hpaired (h.store.rows.receipts r (ObjectMap.get_eq_some.mp hr).1)
  refine ⟨⟨⟨h.store.data, h.store.rows.setReceipt hrow, h.store.flushing⟩,
    h.chain, h.markets, h.sync, h.healing⟩,
    ⟨fun pda' a b ha hb => .inl (Option.some.inj (ha.symm.trans hb)), fun pda' a b ha hb => ?_⟩⟩
  have hkey : r.marketPda = pda := ObjectMap.get_key hr
  have hb : (s.store.tables.receipts.set (Store.heal f r)).get pda' = some b := hb
  by_cases hpda : pda' = (Store.heal f r).marketPda
  · rw [hpda, ObjectMap.get_set_self] at hb
    cases hb
    simp only [Store.heal, if_pos hok]
    exact ⟨fun _ => hok.2, fun _ h2 => hok.2 (hpaired.mpr h2)⟩
  · rw [ObjectMap.get_set_of_ne hpda, ha] at hb
    cases hb
    exact ⟨id, id⟩

theorem State.Ok.healUpdate (h : s.Ok teamCode)
    (hs : next teamCode hex fits s .healUpdate = some t) : t.Ok teamCode ∧ Lawful s t := by
  obtain ⟨pda, id, rest, fixture, hp, hcase⟩ := next_healUpdate hs
  have hnext := h.setHealing (@healNext_unread rest)
  rcases hcase with rfl | rfl | ⟨f, r, rfl, hok, hr, rfl⟩
  · exact ⟨hnext, .of_tables rfl rfl⟩
  · exact ⟨h.setHealing (fun p hp => by cases hp), .of_tables rfl rfl⟩
  · obtain ⟨hheal, hlawful⟩ := hnext.heal (h.healing _ hp f rfl) hok hr
    exact ⟨hheal.noting _ _, hlawful.status, hlawful.score⟩

theorem State.Ok.step (h : s.Ok teamCode) {op : Op D} (hin : NotBehind s op)
    (hs : next teamCode hex fits s op = some t) : t.Ok teamCode ∧ Lawful s t := by
  cases op <;> simp only [next, Option.ite_none_right_eq_some, Option.ite_none_left_eq_some,
    Option.some.injEq, Option.bind_eq_bind, Option.bind_eq_some_iff] at hs
  case fixture f =>
    subst hs
    exact ⟨h.setData (h.store.data.setFixture (paired_fixtureRow teamCode f)), lawful_setData⟩
  case adopt m read =>
    obtain ⟨⟨-, hread⟩, rfl⟩ := hs
    refine ⟨(h.setData (h.store.data.setMarket ?_)).noting _ _, .of_tables rfl rfl⟩
    show Backed s.chain m.marketPda (marketStatus (loadPhase read))
    rw [marketStatus_loadPhase]
    exact fun _ => hread
  case onFinalised pda =>
    obtain ⟨m, -, -, hs⟩ := hs
    exact h.setPhase (fun ht => by cases ht) hs
  case attemptFailed pda => exact h.setPhase (fun ht => by cases ht) hs
  case recordResolution onchain settleTx proven =>
    obtain ⟨m, hm, hread, rfl⟩ := hs
    exact ⟨(h.recordResolution hm hread hin).noting _ _, .of_tables rfl rfl⟩
  case sweepLocked pda =>
    have hread : Backed s.chain pda .locked := fun ht => by cases ht
    exact h.readPhase hread hs.2
  case sweepResolved pda read => exact h.readPhase (fun _ => hs.1.2) hs.2
  case store op =>
    obtain ⟨store, hstore, rfl⟩ := Option.map_eq_some_iff.mp hs
    exact h.storeStep hin hstore
  case restart =>
    subst hs
    exact ⟨h.restarted, .of_tables rfl rfl⟩
  case chainMoves pda status =>
    obtain ⟨hlt, rfl⟩ := hs
    exact ⟨h.chainMoves hlt, .of_tables rfl rfl⟩
  case syncAccounts cfg all =>
    obtain ⟨⟨-, hread⟩, rfl⟩ := hs
    have hsync : State.Ok teamCode { s with sync := some ⟨none, pickBest cfg all⟩ } :=
      h.setSync fun p hp m hm => by
        cases hp
        exact hread m (mem_pickBest hm)
    exact ⟨hsync.noting _ s.healed, .of_tables rfl rfl⟩
  case syncFixtures =>
    obtain ⟨p, hp, rfl⟩ := hs
    refine ⟨h.setSync fun q hq m hm => ?_, .of_tables rfl rfl⟩
    cases hq
    exact h.sync p hp m hm
  case syncUpsert => exact @State.Ok.syncUpsert D teamCode hex fits s t h hin hs
  case syncPurge =>
    split at hs
    · cases hs
      exact ⟨h.purge.1.endSync, h.purge.2.status, h.purge.2.score⟩
    · cases hs
  case syncFails =>
    subst hs
    exact ⟨h.endSync, .of_tables rfl rfl⟩
  case healBlanks =>
    obtain ⟨-, rfl⟩ := hs
    exact ⟨h.setHealing healNext_unread, .of_tables rfl rfl⟩
  case healFixture =>
    split at hs
    next pda id rest hp =>
      cases hs
      refine ⟨h.setHealing ?_, .of_tables rfl rfl⟩
      rintro p ⟨⟩ f hf
      have hget : s.store.tables.fixtures.get id = some f := Option.some.inj hf
      exact h.store.rows.fixtures f (ObjectMap.get_eq_some.mp hget).1
    · cases hs
  case healUpdate => exact @State.Ok.healUpdate D teamCode hex fits s t h hs
  case healFails =>
    subst hs
    exact ⟨h.setHealing (fun p hp => by cases hp), .of_tables rfl rfl⟩

end

end ProofBook.TwoWriters
