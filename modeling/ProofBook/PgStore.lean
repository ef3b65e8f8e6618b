import ProofBook.Store

/-!
# The write-through store

`saveSoon` arms a timer of 250 ms unless it is armed; the timer starts a flush
unless one is running. A flush writes row after row: each statement is awaited,
so that memory and tables may change before it is executed and again before the
flush goes on. A fixture is read when its turn comes, a receipt and the key-value
pairs are those of the moment their loop began. A failed statement ends the
flush, but for that of a market, which is ignored.
-/
namespace ProofBook.Store
open Addresses Objects

/-- Where a flush goes on once the statement it awaits has returned. -/
inductive Stage
  | fixtures (rest : List ℤ)
  | markets (rest : List Pubkey)
  | receipts (rest : List ProofReceipt)
  | upsertReceipt (r : ProofReceipt) (rest : List ProofReceipt)
  | kv (rest : List KvRow)
deriving DecidableEq

/-- What a running flush awaits. -/
inductive Flush
  | fixture (row : FixtureRow) (rest : List ℤ)
  | market (m : MarketRecord) (rest : List Pubkey)
  | findMarket (r : ProofReceipt) (rest : List ProofReceipt)
  | receipt (row : ReceiptRow) (rest : List ProofReceipt)
  | kv (row : KvRow) (rest : List KvRow)
  /-- The statement was executed; the flush has not gone on yet. -/
  | returned (next : Stage)
deriving DecidableEq

/-- The order of `Object.values` for keys that are numbers. -/
def fixtureOrder (d : StoreData) : List ℤ :=
  (d.fixtures.values.map (·.fixtureId)).insertionSort (· ≤ ·)

theorem mem_fixtureOrder {d : StoreData} {id : ℤ} :
    id ∈ fixtureOrder d ↔ ∃ f ∈ d.fixtures.values, f.fixtureId = id := by
  unfold fixtureOrder
  rw [List.mem_insertionSort, List.mem_map]

def nextKv : List KvRow → Option Flush
  | [] => none
  | row :: rest => some (.kv row rest)

def nextReceipt (d : StoreData) : List ProofReceipt → Option Flush
  | [] => nextKv (kvRows d)
  | r :: rest => some (.findMarket r rest)

def nextMarket (d : StoreData) : List Pubkey → Option Flush
  | [] => nextReceipt d d.receipts.values
  | pda :: rest =>
      match d.markets.get pda with
      | some m => some (.market m rest)
      | none => nextMarket d rest

section
variable (teamCode : String → Option String)

def nextFixture (d : StoreData) : List ℤ → Option Flush
  | [] => nextMarket d (d.markets.values.map (·.marketPda))
  | id :: rest =>
      match d.fixtures.get id with
      | some f => some (.fixture (fixtureRow teamCode f) rest)
      | none => nextFixture d rest

/-- The flush runs on to its next statement; none when it is through. -/
def goOn (d : StoreData) (now : ℤ) : Stage → Option Flush
  | .fixtures rest => nextFixture teamCode d rest
  | .markets rest => nextMarket d rest
  | .receipts rest => nextReceipt d rest
  | .upsertReceipt r rest => some (.receipt (receiptRow now r) rest)
  | .kv rest => nextKv rest

def startFlush (d : StoreData) : Option Flush := nextFixture teamCode d (fixtureOrder d)

end

/-- The database executes the statement that is awaited. -/
def execute (t : Tables) : Flush → Option (Tables × Stage)
  | .fixture row rest => some ({ t with fixtures := t.fixtures.set row }, .fixtures rest)
  | .market m rest => some ({ t with markets := writeMarket m t.markets }, .markets rest)
  | .findMarket r rest =>
      some (t, if (t.markets.find r.marketPda).isSome then .upsertReceipt r rest
        else .receipts rest)
  | .receipt row rest => some ({ t with receipts := t.receipts.set row }, .receipts rest)
  | .kv row rest => some ({ t with kv := t.kv.set row }, .kv rest)
  | .returned _ => none

/-- The statement that is awaited is reported failed, executed or not. -/
def failed : Flush → Option Flush
  | .market _ rest | .returned (.markets rest) => some (.returned (.markets rest))
  | _ => none

structure PgStore where
  data : StoreData
  tables : Tables
  timer : Bool
  flushing : Option Flush

inductive FlushOp
  | timerFires
  | flush
  | execute
  | resume (now : ℤ)
  | fail
deriving DecidableEq

namespace PgStore

def saveSoon (s : PgStore) : PgStore := { s with timer := true }

/-- The store after boot. -/
def booted (t : Tables) : PgStore := ⟨load t, t, false, none⟩

/-- No timer armed and no flush in progress. -/
def Quiescent (s : PgStore) : Prop := s.timer = false ∧ s.flushing = none

instance (s : PgStore) : Decidable s.Quiescent := inferInstanceAs (Decidable (_ ∧ _))

variable (teamCode : String → Option String)

def flushAsync (s : PgStore) : PgStore :=
  if s.flushing.isSome then s else { s with flushing := startFlush teamCode s.data }

def timerFires (s : PgStore) : PgStore := flushAsync teamCode { s with timer := false }

def step (s : PgStore) : FlushOp → Option PgStore
  | .timerFires => if s.timer then some (s.timerFires teamCode) else none
  | .flush => some (s.flushAsync teamCode)
  | .execute => do
      let f ← s.flushing
      let (tables, next) ← execute s.tables f
      some { s with tables, flushing := some (.returned next) }
  | .resume now =>
      match s.flushing with
      | some (.returned next) => some { s with flushing := goOn teamCode s.data now next }
      | _ => none
  | .fail => do
      let f ← s.flushing
      some { s with flushing := failed f }

/-- One step of the store. -/
inductive Stepped (s : PgStore) : FlushOp → PgStore → Prop
  | timerFires (armed : s.timer = true) : Stepped s .timerFires (s.timerFires teamCode)
  | flush : Stepped s .flush (s.flushAsync teamCode)
  | executes {f : Flush} {tables : Tables} {next : Stage} (running : s.flushing = some f)
      (executed : Store.execute s.tables f = some (tables, next)) :
      Stepped s .execute { s with tables, flushing := some (.returned next) }
  | resumes {now : ℤ} {next : Stage} (returned : s.flushing = some (.returned next)) :
      Stepped s (.resume now) { s with flushing := goOn teamCode s.data now next }
  | fails {f : Flush} (running : s.flushing = some f) :
      Stepped s .fail { s with flushing := failed f }

variable {teamCode} {s t : PgStore} {op : FlushOp}

theorem step_stepped (h : s.step teamCode op = some t) : Stepped teamCode s op t := by
  cases op with
  | timerFires =>
      simp only [step, Option.ite_none_right_eq_some, Option.some.injEq] at h
      exact h.2 ▸ .timerFires h.1
  | flush =>
      cases h
      exact .flush
  | execute =>
      simp only [step, Option.bind_eq_bind, Option.bind_eq_some_iff] at h
      obtain ⟨f, hf, ⟨tables, next⟩, he, h⟩ := h
      cases h
      exact .executes hf he
  | resume now =>
      simp only [step] at h
      split at h
      next next hf =>
        cases h
        exact .resumes hf
      · cases h
  | fail =>
      simp only [step, Option.bind_eq_bind, Option.bind_eq_some_iff] at h
      obtain ⟨f, hf, h⟩ := h
      cases h
      exact .fails hf

@[simp] theorem flushAsync_tables : (s.flushAsync teamCode).tables = s.tables := by
  unfold flushAsync
  split <;> rfl

/-- Only the statement of a flush changes the tables. -/
theorem Stepped.tables (h : Stepped teamCode s op t) : t.tables = s.tables ∨
    op = .execute ∧ ∃ f next, s.flushing = some f ∧
      Store.execute s.tables f = some (t.tables, next) := by
  cases h with
  | timerFires => exact .inl flushAsync_tables
  | flush => exact .inl flushAsync_tables
  | executes running executed => exact .inr ⟨rfl, _, _, running, executed⟩
  | resumes | fails => exact .inl rfl

end PgStore

/-! ## What a flush carries -/

/-- A property of what is written, one predicate for each kind. -/
structure Property where
  fixture : FixtureRow → Prop
  market : MarketRecord → Prop
  receipt : ProofReceipt → Prop
  receiptRow : ReceiptRow → Prop

namespace Property
variable (p : Property)

def Stage : Stage → Prop
  | .receipts rest => ∀ r ∈ rest, p.receipt r
  | .upsertReceipt r rest => ∀ x ∈ r :: rest, p.receipt x
  | _ => True

def Flush : Flush → Prop
  | .fixture row _ => p.fixture row
  | .market m _ => p.market m
  | .findMarket r rest => ∀ x ∈ r :: rest, p.receipt x
  | .receipt row rest => p.receiptRow row ∧ ∀ r ∈ rest, p.receipt r
  | .kv _ _ => True
  | .returned next => p.Stage next

/-- The objects in memory have the property. -/
structure Data (teamCode : String → Option String) (d : StoreData) : Prop where
  fixtures : ∀ f ∈ d.fixtures.values, p.fixture (fixtureRow teamCode f)
  markets : ∀ m ∈ d.markets.values, p.market m
  receipts : ∀ r ∈ d.receipts.values, p.receipt r

/-- The rows have the property. -/
structure Rows (t : Tables) : Prop where
  fixtures : ∀ r ∈ t.fixtures.values, p.fixture r
  receipts : ∀ r ∈ t.receipts.values, p.receiptRow r

structure Holds (teamCode : String → Option String) (s : PgStore) : Prop where
  data : p.Data teamCode s.data
  rows : p.Rows s.tables
  flushing : ∀ f ∈ s.flushing, p.Flush f

/-- One property is stronger than another, kind by kind. -/
structure Le (p q : Property) : Prop where
  fixture : ∀ r, p.fixture r → q.fixture r
  market : ∀ m, p.market m → q.market m
  receipt : ∀ r, p.receipt r → q.receipt r
  receiptRow : ∀ r, p.receiptRow r → q.receiptRow r

variable {p} {teamCode : String → Option String} {d : StoreData} {t : Tables}

theorem Le.stage {q : Property} (h : p.Le q) {next : Store.Stage} (hn : p.Stage next) :
    q.Stage next := by
  cases next with
  | receipts rest => exact fun r hr => h.receipt r (hn r hr)
  | upsertReceipt r rest => exact fun x hx => h.receipt x (hn x hx)
  | _ => trivial

theorem Le.flush {q : Property} (h : p.Le q) {f : Store.Flush} (hf : p.Flush f) : q.Flush f := by
  cases f with
  | fixture row rest => exact h.fixture row hf
  | market m rest => exact h.market m hf
  | findMarket r rest => exact fun x hx => h.receipt x (hf x hx)
  | receipt row rest => exact ⟨h.receiptRow row hf.1, fun r hr => h.receipt r (hf.2 r hr)⟩
  | kv row rest => trivial
  | returned next => exact h.stage hf

theorem Holds.mono {q : Property} (h : p.Le q) {s : PgStore} (hs : p.Holds teamCode s) :
    q.Holds teamCode s where
  data := ⟨fun f hf => h.fixture _ (hs.data.fixtures f hf),
    fun m hm => h.market _ (hs.data.markets m hm), fun r hr => h.receipt _ (hs.data.receipts r hr)⟩
  rows := ⟨fun r hr => h.fixture _ (hs.rows.fixtures r hr),
    fun r hr => h.receiptRow _ (hs.rows.receipts r hr)⟩
  flushing f hf := h.flush (hs.flushing f hf)

theorem Rows.empty : p.Rows .empty where
  fixtures r hr := by cases hr
  receipts r hr := by cases hr

/-- With nothing in the tables there is nothing in memory. -/
theorem Holds.empty : p.Holds teamCode (.booted .empty) where
  data := ⟨fun f hf => (by cases hf), fun m hm => (by cases hm), fun r hr => (by cases hr)⟩
  rows := .empty
  flushing f hf := by cases hf

theorem Data.setFixture (h : p.Data teamCode d) {f : FixtureLive}
    (hf : p.fixture (fixtureRow teamCode f)) :
    p.Data teamCode { d with fixtures := d.fixtures.set f } := by
  refine ⟨fun g hg => ?_, h.markets, h.receipts⟩
  rcases ObjectMap.mem_set.mp hg with rfl | ⟨hg, -⟩
  · exact hf
  · exact h.fixtures g hg

theorem Data.setMarket (h : p.Data teamCode d) {m : MarketRecord} (hm : p.market m) :
    p.Data teamCode { d with markets := d.markets.set m } := by
  refine ⟨h.fixtures, fun x hx => ?_, h.receipts⟩
  rcases ObjectMap.mem_set.mp hx with rfl | ⟨hx, -⟩
  · exact hm
  · exact h.markets x hx

theorem Rows.setFixture (h : p.Rows t) {row : FixtureRow} (hr : p.fixture row) :
    p.Rows { t with fixtures := t.fixtures.set row } := by
  refine ⟨fun r hr' => ?_, h.receipts⟩
  rcases ObjectMap.mem_set.mp hr' with rfl | ⟨hr', -⟩
  · exact hr
  · exact h.fixtures r hr'

theorem Rows.setReceipt (h : p.Rows t) {row : ReceiptRow} (hr : p.receiptRow row) :
    p.Rows { t with receipts := t.receipts.set row } := by
  refine ⟨h.fixtures, fun r hr' => ?_⟩
  rcases ObjectMap.mem_set.mp hr' with rfl | ⟨hr', -⟩
  · exact hr
  · exact h.receipts r hr'

theorem flush_nextKv (rows : List KvRow) : ∀ f ∈ nextKv rows, p.Flush f := by
  intro f hf
  cases rows with
  | nil => cases hf
  | cons row rest =>
      cases hf
      trivial

theorem flush_nextReceipt {rest : List ProofReceipt} (hr : ∀ r ∈ rest, p.receipt r) :
    ∀ f ∈ nextReceipt d rest, p.Flush f := by
  cases rest with
  | nil => exact flush_nextKv _
  | cons r rest =>
      rintro f ⟨⟩
      exact hr

theorem Data.nextMarket (h : p.Data teamCode d) (rest : List Pubkey) :
    ∀ f ∈ nextMarket d rest, p.Flush f := by
  induction rest with
  | nil => exact flush_nextReceipt h.receipts
  | cons pda rest ih =>
      unfold Store.nextMarket
      split
      next m hm =>
        rintro f ⟨⟩
        exact h.markets m (ObjectMap.get_eq_some.mp hm).1
      · exact ih

theorem Data.nextFixture (h : p.Data teamCode d) (rest : List ℤ) :
    ∀ f ∈ nextFixture teamCode d rest, p.Flush f := by
  induction rest with
  | nil => exact h.nextMarket _
  | cons id rest ih =>
      unfold Store.nextFixture
      split
      next fx hfx =>
        rintro f ⟨⟩
        exact h.fixtures fx (ObjectMap.get_eq_some.mp hfx).1
      · exact ih

variable (hreceipt : ∀ now r, p.receipt r → p.receiptRow (Store.receiptRow now r))
include hreceipt

/-- A flush that goes on carries objects of the memory. -/
theorem Data.goOn (h : p.Data teamCode d) (now : ℤ) {next : Store.Stage} (hn : p.Stage next) :
    ∀ f ∈ goOn teamCode d now next, p.Flush f := by
  cases next with
  | fixtures rest => exact h.nextFixture rest
  | markets rest => exact h.nextMarket rest
  | receipts rest => exact flush_nextReceipt hn
  | upsertReceipt r rest =>
      rintro f ⟨⟩
      exact ⟨hreceipt now r (hn r List.mem_cons_self), fun x hx => hn x (List.mem_cons_of_mem _ hx)⟩
  | kv rest => exact flush_nextKv _

omit hreceipt in
theorem Rows.execute {t' : Tables} {f : Store.Flush} {next : Store.Stage} (ht : p.Rows t)
    (hf : p.Flush f) (h : execute t f = some (t', next)) : p.Rows t' ∧ p.Stage next := by
  cases f with
  | fixture row rest =>
      cases h
      exact ⟨ht.setFixture hf, trivial⟩
  | market m rest =>
      cases h
      exact ⟨⟨ht.fixtures, ht.receipts⟩, trivial⟩
  | findMarket r rest =>
      obtain ⟨rfl, rfl⟩ := Prod.mk.inj (Option.some.inj h)
      refine ⟨ht, ?_⟩
      split
      · exact hf
      · exact fun x hx => hf x (List.mem_cons_of_mem _ hx)
  | receipt row rest =>
      cases h
      exact ⟨ht.setReceipt hf.1, hf.2⟩
  | kv row rest =>
      cases h
      exact ⟨⟨ht.fixtures, ht.receipts⟩, trivial⟩
  | returned next => cases h

omit hreceipt in
theorem flush_failed {f g : Store.Flush} (h : failed f = some g) : p.Flush g := by
  cases f with
  | market m rest =>
      cases h
      trivial
  | returned next =>
      cases next <;> cases h
      trivial
  | _ => cases h

omit hreceipt in
theorem Holds.flushAsync {s : PgStore} (h : p.Holds teamCode s) :
    p.Holds teamCode (s.flushAsync teamCode) := by
  unfold PgStore.flushAsync
  split
  · exact h
  · exact ⟨h.data, h.rows, h.data.nextFixture _⟩

/-- What memory and rows have, a flush keeps. -/
theorem Holds.step {s t : PgStore} {op : FlushOp} (h : p.Holds teamCode s)
    (hstep : s.step teamCode op = some t) : p.Holds teamCode t := by
  cases PgStore.step_stepped hstep with
  | timerFires => exact Holds.flushAsync ⟨h.data, h.rows, h.flushing⟩
  | flush => exact h.flushAsync
  | executes running executed =>
      obtain ⟨hrows, hnext⟩ := h.rows.execute (h.flushing _ running) executed
      refine ⟨h.data, hrows, fun g hg => ?_⟩
      cases hg
      exact hnext
  | resumes returned =>
      exact ⟨h.data, h.rows, h.data.goOn hreceipt _ (h.flushing _ returned)⟩
  | fails => exact ⟨h.data, h.rows, fun g hg => flush_failed hg⟩

end Property
end ProofBook.Store
