import ProofBook.PgStore
import ProofBook.Lib.Runs
import ProofBook.Lib.WriteBehind

/-!
# What the write-through store loses

Every change in memory arms the timer, and the flush it starts writes everything.
But a timer that fires while a flush is running starts nothing, a flush that
fails is not repeated, and a receipt whose market has no row yet is passed over.
-/
namespace ProofBook.WriteThrough
open Addresses Objects DbSync Store Runs WriteBehind

/-! ## Memory and rows -/

inductive Key
  | fixture (id : ℤ)
  | receipt (marketPda : Pubkey)
  | kv (key : KvKey)
deriving DecidableEq

inductive Value
  | fixture (f : FixtureLive)
  | receipt (r : ProofReceipt)
  | kv (value : String)
deriving DecidableEq

def kvEntries (d : StoreData) : List (Key × Value) :=
  [KvKey.usdcMint, .txlineJwt, .txlineApiToken].filterMap fun key =>
    (d.kv key).map fun value => (.kv key, .kv value)

/-- The fixtures, receipts and key-value pairs in memory. -/
def entries (d : StoreData) : List (Key × Value) :=
  d.fixtures.values.map (fun f => (.fixture f.fixtureId, .fixture f)) ++
    (d.receipts.values.map (fun r => (.receipt r.marketPda, .receipt r)) ++ kvEntries d)

theorem mem_kvEntries {d : StoreData} {x : Key × Value} :
    x ∈ kvEntries d ↔ ∃ key value, d.kv key = some value ∧ x = (.kv key, .kv value) := by
  simp only [kvEntries, List.mem_filterMap, Option.map_eq_some_iff]
  constructor
  · rintro ⟨key, -, value, hv, rfl⟩
    exact ⟨key, value, hv, rfl⟩
  · rintro ⟨key, value, hv, rfl⟩
    exact ⟨key, by cases key <;> simp, value, hv, rfl⟩

section
variable (teamCode : String → Option String)

/-- The row is what writing the fixture gives, or the fixture what loading the row
gives. -/
def rowOfFixture (row : FixtureRow) : Value → Bool
  | .fixture f => fixtureRow teamCode f = row ∨ loadFixture row = f
  | _ => false

/-- For the time a receipt lacks the row may have any. -/
def rowOfReceipt (row : ReceiptRow) : Value → Bool
  | .receipt r => receiptRow (row.settledAt / 1000) r = row ∨ loadReceipt row = r
  | _ => false

def rowOfKv (row : KvRow) : Value → Bool
  | .kv value => row.value = value
  | _ => false

/-- What the rows show of the memory. -/
def view (t : Tables) : View Key Value
  | .fixture id => fun v => (t.fixtures.get id).any (rowOfFixture teamCode · v)
  | .receipt pda => fun v => (t.receipts.get pda).any (rowOfReceipt · v)
  | .kv key => fun v => (t.kv.get key).any (rowOfKv · v)

def fixtureWrite (row : FixtureRow) : Write Key Value :=
  (.fixture row.id, rowOfFixture teamCode row)

def receiptWrite (row : ReceiptRow) : Write Key Value := (.receipt row.marketPda, rowOfReceipt row)

def kvWrite (row : KvRow) : Write Key Value := (.kv row.key, rowOfKv row)

/-- The write of a receipt at a time that is not known yet. -/
def receiptPending (r : ProofReceipt) : Write Key Value :=
  (.receipt r.marketPda, fun v => v = .receipt r)

def fixturesPending (d : StoreData) (ids : List ℤ) : List (Write Key Value) :=
  ids.filterMap fun id =>
    (d.fixtures.get id).map fun f => fixtureWrite teamCode (fixtureRow teamCode f)

/-- The writes after the loop over the fixtures. -/
def latePending (d : StoreData) (receipts : List ProofReceipt) : List (Write Key Value) :=
  receipts.map receiptPending ++ (kvRows d).map kvWrite

/-- The writes that a flush at this stage has still to make. -/
def stagePending (d : StoreData) : Stage → List (Write Key Value)
  | .fixtures rest => fixturesPending teamCode d rest ++ latePending d d.receipts.values
  | .markets _ => latePending d d.receipts.values
  | .receipts rest => latePending d rest
  | .upsertReceipt r rest => latePending d (r :: rest)
  | .kv rest => rest.map kvWrite

def flushPending (d : StoreData) : Flush → List (Write Key Value)
  | .fixture row rest => fixtureWrite teamCode row :: stagePending teamCode d (.fixtures rest)
  | .market _ rest => stagePending teamCode d (.markets rest)
  | .findMarket r rest => stagePending teamCode d (.upsertReceipt r rest)
  | .receipt row rest => receiptWrite row :: stagePending teamCode d (.receipts rest)
  | .kv row rest => stagePending teamCode d (.kv (row :: rest))
  | .returned next => stagePending teamCode d next

def pending (d : StoreData) (flushing : Option Flush) : List (Write Key Value) :=
  flushing.elim [] (flushPending teamCode d)

/-- Every value in memory equals what was last written to its row. -/
def Synced (s : PgStore) : Prop := (view teamCode s.tables).Shows (entries s.data)

/-- Every value in memory will be in its row once the running flush is through. -/
def Covered (s : PgStore) : Prop :=
  ((view teamCode s.tables).after (pending teamCode s.data s.flushing)).Shows (entries s.data)

instance (s : PgStore) : Decidable (Synced teamCode s) :=
  inferInstanceAs (Decidable (View.Shows _ _))

instance (s : PgStore) : Decidable (Covered teamCode s) :=
  inferInstanceAs (Decidable (View.Shows _ _))

end

/-! ## Runs -/

/-- A change in memory; the value replaces the one of its key. -/
inductive Mutation
  | fixture (f : FixtureLive)
  | market (m : MarketRecord)
  | receipt (r : ProofReceipt)
  | kv (key : KvKey) (value : Option String)
deriving DecidableEq

def Mutation.apply (d : StoreData) : Mutation → StoreData
  | .fixture f => { d with fixtures := d.fixtures.set f }
  | .market m => { d with markets := d.markets.set m }
  | .receipt r => { d with receipts := d.receipts.set r }
  | .kv key value => { d with kv := Function.update d.kv key value }

inductive Op
  /-- A change, followed by `saveSoon`. -/
  | mutate (m : Mutation)
  | store (op : FlushOp)
  /-- A sync upserts the row of a market. -/
  | syncMarket (row : MarketRow)
deriving DecidableEq

def step (teamCode : String → Option String) (s : PgStore) : Op → Except Unit PgStore
  | .mutate m => .ok { s with data := m.apply s.data }.saveSoon
  | .store op => (s.step teamCode op).elim (.error ()) .ok
  | .syncMarket row =>
      (s.tables.markets.put row).elim (.error ()) fun markets =>
        .ok { s with tables := { s.tables with markets } }

def machine (teamCode : String → Option String) : Machine PgStore Op Unit := ⟨step teamCode⟩

/-! ## The pending writes -/

section
variable {teamCode : String → Option String} {d : StoreData}

theorem view_setFixture (t : Tables) (row : FixtureRow) :
    view teamCode { t with fixtures := t.fixtures.set row } =
      (view teamCode t).write (fixtureWrite teamCode row) := by
  funext k v
  by_cases hk : k = .fixture row.id
  · subst hk
    simp [view, View.write, fixtureWrite]
  · simp only [View.write, fixtureWrite, Function.update_of_ne hk]
    cases k with
    | fixture id =>
        simp only [view]
        rw [ObjectMap.get_set_of_ne fun h => hk (by rw [h])]
    | _ => rfl

theorem view_setReceipt (t : Tables) (row : ReceiptRow) :
    view teamCode { t with receipts := t.receipts.set row } =
      (view teamCode t).write (receiptWrite row) := by
  funext k v
  by_cases hk : k = .receipt row.marketPda
  · subst hk
    simp [view, View.write, receiptWrite]
  · simp only [View.write, receiptWrite, Function.update_of_ne hk]
    cases k with
    | receipt pda =>
        simp only [view]
        rw [ObjectMap.get_set_of_ne fun h => hk (by rw [h])]
    | _ => rfl

theorem view_setKv (t : Tables) (row : KvRow) :
    view teamCode { t with kv := t.kv.set row } = (view teamCode t).write (kvWrite row) := by
  funext k v
  by_cases hk : k = .kv row.key
  · subst hk
    simp [view, View.write, kvWrite]
  · simp only [View.write, kvWrite, Function.update_of_ne hk]
    cases k with
    | kv key =>
        simp only [view]
        rw [ObjectMap.get_set_of_ne fun h => hk (by rw [h])]
    | _ => rfl

theorem pending_nextKv (rows : List KvRow) :
    pending teamCode d (nextKv rows) = rows.map kvWrite := by
  cases rows <;> rfl

theorem pending_nextReceipt (receipts : List ProofReceipt) :
    pending teamCode d (nextReceipt d receipts) = latePending d receipts := by
  cases receipts with
  | nil => exact pending_nextKv _
  | cons r rest => rfl

theorem pending_nextMarket (pdas : List Pubkey) :
    pending teamCode d (nextMarket d pdas) = latePending d d.receipts.values := by
  induction pdas with
  | nil => exact pending_nextReceipt _
  | cons pda rest ih =>
      unfold nextMarket
      split
      · rfl
      · exact ih

theorem pending_nextFixture (ids : List ℤ) :
    pending teamCode d (nextFixture teamCode d ids) =
      stagePending teamCode d (.fixtures ids) := by
  induction ids with
  | nil => exact pending_nextMarket _
  | cons id rest ih =>
      unfold nextFixture
      simp only [stagePending, fixturesPending, List.filterMap_cons] at ih ⊢
      split
      next f hf => simp [hf, pending, flushPending, stagePending, fixturesPending]
      next hf => simpa [hf] using ih

/-- Going on leaves the pending writes as they were, but for the time a receipt is
written with. -/
theorem goOn_le (e : View Key Value) (now : ℤ) (next : Stage) :
    (e.after (stagePending teamCode d next)).Le
      (e.after (pending teamCode d (goOn teamCode d now next))) := by
  cases next with
  | fixtures rest => exact (pending_nextFixture rest).symm ▸ fun _ _ h => h
  | markets rest => exact (pending_nextMarket rest).symm ▸ fun _ _ h => h
  | receipts rest => exact (pending_nextReceipt rest).symm ▸ fun _ _ h => h
  | kv rest => exact (pending_nextKv rest).symm ▸ fun _ _ h => h
  | upsertReceipt r rest =>
      refine View.Le.after (e.write_le ?_) _
      intro v hv
      have hv : v = .receipt r := by simpa using hv
      subst hv
      have hsettled : receiptRow ((receiptRow now r).settledAt / 1000) r = receiptRow now r := by
        by_cases hz : r.settledAt = 0 <;> simp [receiptRow, hz]
      simp [rowOfReceipt, hsettled]

/-- The writes of a flush that starts. -/
theorem mem_startPending {w : Write Key Value} :
    w ∈ stagePending teamCode d (.fixtures (fixtureOrder d)) ↔
      (∃ f ∈ d.fixtures.values, w = fixtureWrite teamCode (fixtureRow teamCode f)) ∨
        (∃ r ∈ d.receipts.values, w = receiptPending r) ∨
          ∃ row ∈ kvRows d, w = kvWrite row := by
  have hfix : w ∈ fixturesPending teamCode d (fixtureOrder d) ↔
      ∃ f ∈ d.fixtures.values, w = fixtureWrite teamCode (fixtureRow teamCode f) := by
    simp only [fixturesPending, List.mem_filterMap, Option.map_eq_some_iff, mem_fixtureOrder]
    constructor
    · rintro ⟨id, -, f, hf, rfl⟩
      exact ⟨f, (ObjectMap.get_eq_some.mp hf).1, rfl⟩
    · rintro ⟨f, hf, rfl⟩
      exact ⟨_, ⟨f, hf, rfl⟩, f, ObjectMap.get_of_mem hf, rfl⟩
  simp only [stagePending, latePending, List.mem_append, List.mem_map, hfix, @eq_comm _ w]

/-- A flush that starts writes everything in memory. -/
theorem startFlush_shows (e : View Key Value) (hkv : ∀ key, d.kv key ≠ some "") :
    (e.after (pending teamCode d (startFlush teamCode d))).Shows (entries d) := by
  unfold startFlush
  rw [pending_nextFixture]
  intro x hx
  simp only [entries, List.mem_append, List.mem_map, mem_kvEntries] at hx
  rcases hx with ⟨f, hf, rfl⟩ | ⟨r, hr, rfl⟩ | ⟨key, value, hv, rfl⟩
  · refine View.after_of_forall ?_ (.inl ⟨_, mem_startPending.mpr (.inl ⟨f, hf, rfl⟩), rfl⟩)
    intro w hw hkey
    rcases mem_startPending.mp hw with ⟨f', hf', rfl⟩ | ⟨r, -, rfl⟩ | ⟨row, -, rfl⟩
    · have hid : f'.fixtureId = f.fixtureId := Key.fixture.inj hkey
      obtain rfl := List.inj_on_of_nodup_map d.fixtures.nodup hf' hf hid
      simp [fixtureWrite, rowOfFixture]
    · cases hkey
    · cases hkey
  · refine View.after_of_forall ?_ (.inl ⟨_, mem_startPending.mpr (.inr (.inl ⟨r, hr, rfl⟩)), rfl⟩)
    intro w hw hkey
    rcases mem_startPending.mp hw with ⟨f, -, rfl⟩ | ⟨r', hr', rfl⟩ | ⟨row, -, rfl⟩
    · cases hkey
    · have hpda : r'.marketPda = r.marketPda := Key.receipt.inj hkey
      obtain rfl := List.inj_on_of_nodup_map d.receipts.nodup hr' hr hpda
      simp [receiptPending]
    · cases hkey
  · have hne : value ≠ "" := fun h => hkv key (h ▸ hv)
    have hrow : (⟨key, value, hne⟩ : KvRow) ∈ kvRows d := mem_kvRows.mpr hv
    refine View.after_of_forall ?_
      (.inl ⟨_, mem_startPending.mpr (.inr (.inr ⟨_, hrow, rfl⟩)), rfl⟩)
    intro w hw hkey
    rcases mem_startPending.mp hw with ⟨f, -, rfl⟩ | ⟨r, -, rfl⟩ | ⟨row, hrow', rfl⟩
    · cases hkey
    · cases hkey
    · have hk : row.key = key := Key.kv.inj hkey
      have hvalue : d.kv key = some row.value := hk ▸ mem_kvRows.mp hrow'
      simpa [kvWrite, rowOfKv] using Option.some.inj (hvalue.symm.trans hv)

/-- Executing a statement makes the first pending write; only the receipt of a
market without a row is passed over. -/
theorem execute_covered {t t' : Tables} {f : Flush} {next : Stage} {memory : List (Key × Value)}
    (h : execute t f = some (t', next))
    (hrow : ∀ r rest, f = .findMarket r rest → t.markets.find r.marketPda = none →
      view teamCode t (.receipt r.marketPda) (.receipt r) = true)
    (hc : ((view teamCode t).after (flushPending teamCode d f)).Shows memory) :
    ((view teamCode t').after (stagePending teamCode d next)).Shows memory := by
  cases f with
  | fixture row rest =>
      obtain ⟨rfl, rfl⟩ := Prod.mk.inj (Option.some.inj h)
      rwa [view_setFixture]
  | market m rest =>
      obtain ⟨rfl, rfl⟩ := Prod.mk.inj (Option.some.inj h)
      exact hc
  | findMarket r rest =>
      obtain ⟨rfl, rfl⟩ := Prod.mk.inj (Option.some.inj h)
      split
      · exact hc
      next hnone =>
        refine (View.Le.after (View.write_le_self _ ?_) _).shows hc
        intro v hv
        have hv : v = .receipt r := by simpa [receiptPending] using hv
        exact hv ▸ hrow r rest rfl (by simpa using hnone)
  | receipt row rest =>
      obtain ⟨rfl, rfl⟩ := Prod.mk.inj (Option.some.inj h)
      rwa [view_setReceipt]
  | kv row rest =>
      obtain ⟨rfl, rfl⟩ := Prod.mk.inj (Option.some.inj h)
      rwa [view_setKv]
  | returned next => cases h

end

/-! ## Nothing is lost -/

section
variable (teamCode : String → Option String)

/-- No key-value pair is set to the empty string. The timer fires during a flush
only when that flush still writes every value its row lags behind, and no older
one. A statement fails, or a receipt is passed over, only while the timer is armed
or the rows show what is in memory without it. -/
def Kept (s : PgStore) : Op → Prop
  | .mutate (.kv _ value) => value ≠ some ""
  | .store .timerFires => s.flushing.isSome = true → Covered teamCode s
  | .store .execute =>
      match s.flushing with
      | some (.findMarket r _) =>
          s.tables.markets.find r.marketPda = none → s.timer = true ∨
            view teamCode s.tables (.receipt r.marketPda) (.receipt r) = true
      | _ => True
  | .store .fail =>
      match s.flushing with
      | some f => failed f = none → s.timer = true ∨ Synced teamCode s
      | none => True
  | _ => True

instance (s : PgStore) (op : Op) : Decidable (Kept teamCode s op) := by
  unfold Kept
  split <;> first | infer_instance | split <;> infer_instance

/-- Every value in memory is in its row, or will be once the running flush or the
one the timer starts is through. -/
structure Ok (s : PgStore) : Prop where
  truthy : ∀ key, s.data.kv key ≠ some ""
  covered : s.timer = true ∨ Covered teamCode s

variable {teamCode} {s t : PgStore} {op : Op}

theorem Ok.flushAsync (truthy : ∀ key, s.data.kv key ≠ some "")
    (hc : s.flushing.isSome = true → s.timer = true ∨ Covered teamCode s) :
    Ok teamCode (s.flushAsync teamCode) := by
  unfold PgStore.flushAsync
  split
  next hf => exact ⟨truthy, hc hf⟩
  · exact ⟨truthy, .inr (startFlush_shows _ truthy)⟩

theorem Ok.storeStep {o : FlushOp} (hs : Ok teamCode s) (hk : Kept teamCode s (.store o))
    (h : s.step teamCode o = some t) : Ok teamCode t := by
  cases PgStore.step_stepped h with
  | timerFires armed => exact Ok.flushAsync hs.truthy fun hf => .inr (hk hf)
  | flush => exact Ok.flushAsync hs.truthy fun _ => hs.covered
  | executes running executed =>
      refine ⟨hs.truthy, ?_⟩
      by_cases ht : s.timer = true
      · exact .inl ht
      · have hc := hs.covered.resolve_left ht
        simp only [Covered, running, pending, Option.elim_some] at hc
        refine .inr (execute_covered executed ?_ hc)
        intro r rest hr hnone
        subst hr
        simp only [Kept, running] at hk
        exact (hk hnone).resolve_left ht
  | resumes returned =>
      refine ⟨hs.truthy, hs.covered.imp id fun hc => ?_⟩
      simp only [Covered, returned, pending, Option.elim_some] at hc
      exact (goOn_le _ _ _).shows hc
  | @fails f running =>
      refine ⟨hs.truthy, ?_⟩
      simp only [Kept, running] at hk
      by_cases ht : s.timer = true
      · exact .inl ht
      · right
        have hc := hs.covered.resolve_left ht
        simp only [Covered, running, pending, Option.elim_some] at hc
        have hsynced : failed f = none → Synced teamCode s := fun hn => (hk hn).resolve_left ht
        cases f with
        | market m rest => exact hc
        | returned next =>
            cases next with
            | markets rest => exact hc
            | _ => exact hsynced rfl
        | _ => exact hsynced rfl

theorem Ok.step (hs : Ok teamCode s) (hk : Kept teamCode s op)
    (h : step teamCode s op = .ok t) : Ok teamCode t := by
  cases op with
  | mutate m =>
      cases h
      refine ⟨?_, .inl rfl⟩
      cases m with
      | kv key value =>
          intro key'
          by_cases hkey : key' = key
          · subst hkey
            simpa [PgStore.saveSoon, Mutation.apply, Kept] using hk
          · simpa [PgStore.saveSoon, Mutation.apply, hkey] using hs.truthy key'
      | _ => exact hs.truthy
  | store o =>
      simp only [WriteThrough.step] at h
      cases ho : s.step teamCode o with
      | none => simp [ho] at h
      | some t' =>
          simp only [ho, Option.elim_some, Except.ok.injEq] at h
          exact h ▸ hs.storeStep hk ho
  | syncMarket row =>
      simp only [WriteThrough.step] at h
      cases hm : s.tables.markets.put row with
      | none => simp [hm] at h
      | some markets =>
          simp only [hm, Option.elim_some, Except.ok.injEq] at h
          subst h
          exact ⟨hs.truthy, hs.covered⟩

/-- Right after boot the memory is what the rows hold. -/
theorem booted_ok (tables : Tables) : Ok teamCode (.booted tables) := by
  refine ⟨?_, .inr ?_⟩
  · intro key hkey
    obtain ⟨row, -, hrow⟩ := Option.map_eq_some_iff.mp hkey
    exact row.truthy hrow
  · intro x hx
    simp only [entries, PgStore.booted, load, ObjectMap.map, List.mem_append, List.mem_map,
      mem_kvEntries, Option.map_eq_some_iff] at hx
    rcases hx with ⟨f, ⟨row, hrow, rfl⟩, rfl⟩ | ⟨r, ⟨row, hrow, rfl⟩, rfl⟩ |
      ⟨key, value, ⟨row, hrow, rfl⟩, rfl⟩
    · have hget := ObjectMap.get_of_mem hrow
      simp [PgStore.booted, pending, view, loadFixture, rowOfFixture, hget]
    · have hget := ObjectMap.get_of_mem hrow
      simp [PgStore.booted, pending, view, loadReceipt, rowOfReceipt, hget]
    · simp [PgStore.booted, pending, view, rowOfKv, hrow]

/-- Between flushes nothing runs that could still write. -/
theorem Covered.synced (h : Covered teamCode s) (hq : s.flushing = none) : Synced teamCode s := by
  simpa [Covered, Synced, hq, pending] using h

end

/-- In every run whose steps keep what they abandon, a store at rest has written
everything, and a store that has not is going to: the running flush or the armed
timer will. -/
theorem writes_everything (teamCode : String → Option String) (tables : Tables) (ops : List Op)
    (h : (machine teamCode).Along (Kept teamCode) (.booted tables) ops) :
    let s := (machine teamCode).run (.booted tables) ops
    (s.Quiescent → Synced teamCode s) ∧ (s.timer = true ∨ Covered teamCode s) := by
  have hok : Ok teamCode ((machine teamCode).run (.booted tables) ops) :=
    h.preserves (fun s op t hs hk hstep => hs.step hk hstep) (booted_ok tables)
  refine ⟨fun hq => ?_, hok.covered⟩
  have hc := hok.covered.resolve_left (by simp [hq.1])
  exact hc.synced hq.2

/-- A fixture at a point of its feed. -/
def fixtureAt (seq : ℤ) : FixtureLive := { freshFixture 7 with lastSeq := some seq }

/-- The write of the first change fails; by then a second one has armed the timer. -/
def failedWrite : List Op :=
  [.mutate (.fixture (fixtureAt 1)), .store .timerFires, .mutate (.fixture (fixtureAt 2)),
    .store .fail, .store .timerFires, .store .execute, .store (.resume 0)]

theorem writes_everything_failedWrite :
    let s := (machine fun _ => none).run (.booted .empty) failedWrite
    s.Quiescent ∧ Synced (fun _ => none) s := by
  have h := writes_everything (fun _ => none) .empty failedWrite (by decide +kernel)
  exact ⟨by decide +kernel, h.1 (by decide +kernel)⟩

/-- The second change comes while the first is written, and its timer fires before
that flush is through. -/
def lateTimer : List Op :=
  [.mutate (.fixture (fixtureAt 1)), .store .timerFires, .mutate (.fixture (fixtureAt 2)),
    .store .timerFires, .store .execute, .store (.resume 0)]

theorem update_lost : ¬ ∀ teamCode tables ops,
    let s := (machine teamCode).run (.booted tables) ops
    s.Quiescent → Synced teamCode s := by
  intro h
  exact absurd (h (fun _ => none) .empty lateTimer (by decide +kernel)) (by decide +kernel)

end ProofBook.WriteThrough
