import ProofBook.Ingest
import ProofBook.PgStore
import ProofBook.ReceiptSync
import ProofBook.Lib.Runs

/-!
# Where a proven score comes from

A row is marked proven, with its score, outside the keeper. The keeper loads the
score into the field that the feed writes too, and writes the field back as long
as the fixture is marked proven. So what it writes is proven as long as the feed
only repeats it.
-/
namespace ProofBook.ProvenScores
open Addresses Objects Store Runs

/-- The keeper, its database, and what rows held when they were marked proven. -/
structure State where
  store : PgStore
  marked : List (ℤ × Option ℤ × Option ℤ)
  /-- The rows a sync has read so far. -/
  reads : List FixtureRow

def start : State := ⟨.booted .empty, [], []⟩

/-- The import writes a score only with its mark. -/
def importRow (row : FixtureRow) : FixtureRow :=
  if row.proofStatus = .proven then row else { row with provenP1 := none, provenP2 := none }

inductive Op
  | ingest (u : ScoreUpdate)
  | ensureMarket (info : FixtureInfo) (lockTime : ℤ)
  | store (op : FlushOp)
  | restart
  | importFixture (row : FixtureRow)
  | readFixture (id : ℤ)
  | projectReceipt (onchain : ReceiptRow) (fixture : Option FixtureRow)
  | heal (marketPda : Pubkey) (fixture : FixtureRow)
deriving DecidableEq

namespace State

def putTables (s : State) (tables : Tables) : State :=
  { s with store := { s.store with tables } }

def putFixture (s : State) (f : FixtureLive) : State :=
  { s with store :=
    { s.store with data := { s.store.data with fixtures := s.store.data.fixtures.set f } } }

end State

section
variable (teamCode : String → Option String)

def step (s : State) : Op → Except Unit State
  | .ingest u =>
      let store := { s.store with data := ingest s.store.data u }
      let stale := Stale (s.store.data.fixture u.fixtureId) u
      .ok { s with store := if stale then store else store.saveSoon }
  | .ensureMarket info lockTime =>
      let t := s.putFixture (describe (s.store.data.fixture info.fixtureId) info lockTime)
      .ok { t with store := t.store.saveSoon }
  | .store op => (s.store.step teamCode op).elim (.error ()) fun store => .ok { s with store }
  | .restart => .ok { s with store := .booted s.store.tables }
  | .importFixture row =>
      let tables := s.store.tables
      .ok { s.putTables { tables with fixtures := tables.fixtures.set (importRow row) } with
        marked :=
          if row.proofStatus = .proven then (row.id, row.provenP1, row.provenP2) :: s.marked
          else s.marked }
  | .readFixture id =>
      (s.store.tables.fixtures.get id).elim (.error ()) fun row =>
        .ok { s with reads := row :: s.reads }
  | .projectReceipt onchain fixture =>
      let tables := s.store.tables
      if fixture.all (fun f => f ∈ s.reads ∧ f.id = onchain.fixtureId) = true ∧
          tables.receipts.get onchain.marketPda = none then
        .ok (s.putTables
          { tables with receipts := tables.receipts.set (projectReceipt onchain fixture) })
      else .error ()
  | .heal marketPda fixture =>
      let tables := s.store.tables
      match tables.receipts.get marketPda with
      | some r =>
          if fixture ∈ s.reads ∧ fixture.id = r.fixtureId then
            .ok (s.putTables { tables with receipts := tables.receipts.set (heal fixture r) })
          else .error ()
      | none => .error ()

def machine : Machine State Op Unit := ⟨step teamCode⟩

end

/-! ## Attested scores -/

section
variable {marked marked' : List (ℤ × Option ℤ × Option ℤ)} {id : ℤ} {p1 p2 : Option ℤ}

/-- Absent, or exactly what the row of the fixture held when it was marked. -/
def Attested (marked : List (ℤ × Option ℤ × Option ℤ)) (id : ℤ) (p1 p2 : Option ℤ) : Prop :=
  p1 = none ∧ p2 = none ∨ (id, p1, p2) ∈ marked

theorem Attested.mono (h : Attested marked id p1 p2) (hm : ∀ x ∈ marked, x ∈ marked') :
    Attested marked' id p1 p2 := Or.imp (fun h => h) (hm _) h

theorem Attested.absent : Attested marked id none none := .inl ⟨rfl, rfl⟩

theorem Attested.load (h : Attested marked id p1 p2) :
    Attested marked id ((loadScore p1 p2).map (·.p1)) ((loadScore p1 p2).map (·.p2)) := by
  cases p1 <;> cases p2 <;> first | exact h | exact .absent

def RowOk (marked : List (ℤ × Option ℤ × Option ℤ)) (r : FixtureRow) : Prop :=
  Attested marked r.id r.provenP1 r.provenP2

def ReceiptRowOk (marked : List (ℤ × Option ℤ × Option ℤ)) (r : ReceiptRow) : Prop :=
  Attested marked r.fixtureId r.provenP1 r.provenP2

/-- Only the score of a fixture marked proven is ever written. -/
def FixtureOk (marked : List (ℤ × Option ℤ × Option ℤ)) (f : FixtureLive) : Prop :=
  f.proofStatus = some .proven →
    Attested marked f.fixtureId (f.score.map (·.p1)) (f.score.map (·.p2))

def ReceiptOk (marked : List (ℤ × Option ℤ × Option ℤ)) (r : ProofReceipt) : Prop :=
  Attested marked r.matchId (r.provenScore.map (·.p1)) (r.provenScore.map (·.p2))

/-- The row of a fixture shows a score exactly when the fixture is marked proven. -/
theorem rowOk_fixtureRow (teamCode : String → Option String) {f : FixtureLive} :
    RowOk marked (fixtureRow teamCode f) ↔ FixtureOk marked f := by
  cases hf : f.proofStatus with
  | none => simp [RowOk, FixtureOk, fixtureRow, hf, Attested]
  | some status =>
      by_cases hp : status = .proven
      · simp [RowOk, FixtureOk, fixtureRow, hf, hp]
      · simp [RowOk, FixtureOk, fixtureRow, hf, hp, Attested]

theorem RowOk.load {r : FixtureRow} (h : RowOk marked r) : FixtureOk marked (loadFixture r) :=
  fun _ => Attested.load h

theorem ReceiptRowOk.load {r : ReceiptRow} (h : ReceiptRowOk marked r) :
    ReceiptOk marked (loadReceipt r) := Attested.load h

/-- The score that standings, bracket and listings show is an attested one. -/
theorem RowOk.shown {r : FixtureRow} (h : RowOk marked r) {score : Score}
    (hs : shownScore r = some score) : (r.id, some score.p1, some score.p2) ∈ marked := by
  unfold shownScore at hs
  split at hs
  · unfold RowOk at h
    cases h1 : r.provenP1 <;> cases h2 : r.provenP2 <;> rw [h1, h2] at hs <;> cases hs
    rw [h1, h2] at h
    exact h.resolve_left (by simp)
  · cases hs

theorem projectReceipt_ok {onchain : ReceiptRow} {fixture : Option FixtureRow}
    (h : ∀ f ∈ fixture, RowOk marked f ∧ f.id = onchain.fixtureId) :
    ReceiptRowOk marked (projectReceipt onchain fixture) := by
  cases fixture with
  | none => exact .absent
  | some f =>
      obtain ⟨hrow, hid⟩ := h f rfl
      unfold ReceiptRowOk projectReceipt projectedScore
      dsimp only
      split
      · exact hid ▸ hrow
      · exact .absent

theorem heal_ok {f : FixtureRow} {r : ReceiptRow} (hf : RowOk marked f) (hr : ReceiptRowOk marked r)
    (hid : f.id = r.fixtureId) : ReceiptRowOk marked (heal f r) := by
  unfold heal
  split
  · exact hid ▸ hf
  · exact hr

/-- What is written is attested. -/
def attested (marked : List (ℤ × Option ℤ × Option ℤ)) : Property where
  fixture := RowOk marked
  market _ := True
  receipt := ReceiptOk marked
  receiptRow := ReceiptRowOk marked

theorem rows_load {teamCode : String → Option String} {t : Tables}
    (h : (attested marked).Rows t) : (attested marked).Data teamCode (load t) := by
  refine ⟨?_, fun _ _ => trivial, ?_⟩
  · intro f hf
    obtain ⟨r, hr, rfl⟩ := List.mem_map.mp hf
    exact (rowOk_fixtureRow teamCode).mpr (h.fixtures r hr).load
  · intro f hf
    obtain ⟨r, hr, rfl⟩ := List.mem_map.mp hf
    exact (h.receipts r hr).load

theorem fixtureOk_fixture {teamCode : String → Option String} {d : StoreData}
    (h : (attested marked).Data teamCode d) (id : ℤ) : FixtureOk marked (d.fixture id) := by
  unfold StoreData.fixture
  cases hf : d.fixtures.get id with
  | none => nofun
  | some f => exact (rowOk_fixtureRow teamCode).mp (h.fixtures f (ObjectMap.get_eq_some.mp hf).1)

end

/-! ## Runs -/

structure State.Ok (teamCode : String → Option String) (s : State) : Prop where
  store : (attested s.marked).Holds teamCode s.store
  reads : ∀ r ∈ s.reads, RowOk s.marked r

/-- Each side that the update carries is the one already held. -/
def repeatsScore (held : Option Score) (u : PartialScore) : Bool :=
  held.any fun score => u.p1.all (· = score.p1) ∧ u.p2.all (· = score.p2)

/-- An update that counts, for a fixture the keeper holds as proven, repeats the
score it holds. -/
def Repeats (s : State) : Op → Prop
  | .ingest u =>
      let fx := s.store.data.fixture u.fixtureId
      fx.proofStatus = some .proven → ¬ Stale fx u → u.score.all (repeatsScore fx.score) = true
  | _ => True

instance (s : State) (op : Op) : Decidable (Repeats s op) := by
  cases op <;> simp only [Repeats] <;> infer_instance

section
variable {marked marked' : List (ℤ × Option ℤ × Option ℤ)} {teamCode : String → Option String}
  {s t : State}

theorem attested_le (hm : ∀ x ∈ marked, x ∈ marked') : (attested marked).Le (attested marked') :=
  ⟨fun _ h => h.mono hm, fun _ h => h, fun _ h => h.mono hm, fun _ h => h.mono hm⟩

theorem holds_booted {tables : Tables} (h : (attested marked).Rows tables) :
    (attested marked).Holds teamCode (.booted tables) where
  data := rows_load h
  rows := h
  flushing f hf := by cases hf

theorem mergeScore_of_repeats {held : Option Score} {u : PartialScore}
    (h : repeatsScore held u = true) : some (mergeScore held u) = held := by
  cases held with
  | none => cases h
  | some score =>
      obtain ⟨p1, p2⟩ := score
      obtain ⟨q1, q2⟩ := u
      cases q1 <;> cases q2 <;> simp_all [mergeScore, repeatsScore]

/-- An update keeps the score of a fixture that is marked proven. -/
theorem ingestFixture_ok {fx : FixtureLive} {u : ScoreUpdate} (h : FixtureOk marked fx)
    (hrep : fx.proofStatus = some .proven → u.score.all (repeatsScore fx.score) = true) :
    FixtureOk marked (ingestFixture fx u) := by
  intro hp
  rw [ingestFixture_proofStatus] at hp
  have hscore : (observe fx u).score = fx.score := by
    cases hu : u.score with
    | none => simp [observe, hu]
    | some score =>
        have hrep := hrep hp
        simp only [hu, Option.all_some] at hrep
        simp [observe, hu, mergeScore_of_repeats hrep]
  rw [ingestFixture_fixtureId, ingestFixture_score, hscore]
  exact h hp

theorem State.Ok.ingest (h : s.Ok teamCode) {u : ScoreUpdate} (hrep : Repeats s (.ingest u)) :
    (attested s.marked).Data teamCode (ingest s.store.data u) := by
  apply h.store.data.setFixture
  apply (rowOk_fixtureRow teamCode).mpr
  have hfx := fixtureOk_fixture h.store.data u.fixtureId
  split
  · exact hfx
  next hs => exact ingestFixture_ok hfx fun hp => hrep hp hs

/-- Describing a fixture leaves its score and its mark. -/
theorem State.Ok.describe (h : s.Ok teamCode) (info : FixtureInfo) (lockTime : ℤ) :
    FixtureOk s.marked (describe (s.store.data.fixture info.fixtureId) info lockTime) := by
  intro hp
  apply fixtureOk_fixture h.store.data info.fixtureId
  cases hs : (s.store.data.fixture info.fixtureId).proofStatus with
  | none => simp [Store.describe, hs] at hp
  | some status => simpa [Store.describe, hs] using hp

theorem State.Ok.setReceipt (h : s.Ok teamCode) {r : ReceiptRow}
    (hr : ReceiptRowOk s.marked r) :
    (s.putTables
      { s.store.tables with receipts := s.store.tables.receipts.set r }).Ok teamCode where
  store := ⟨h.store.data, h.store.rows.setReceipt hr, h.store.flushing⟩
  reads := h.reads

/-- An import marks what it writes. -/
theorem State.Ok.importFixture (h : s.Ok teamCode) {row : FixtureRow}
    (hstep : step teamCode s (.importFixture row) = .ok t) : t.Ok teamCode := by
  cases hstep
  have hm : ∀ x ∈ s.marked, x ∈ if row.proofStatus = .proven then
      (row.id, row.provenP1, row.provenP2) :: s.marked else s.marked := by
    intro x hx
    split
    · exact List.mem_cons_of_mem _ hx
    · exact hx
  have hstore := h.store.mono (attested_le hm)
  refine ⟨⟨hstore.data, hstore.rows.setFixture ?_, hstore.flushing⟩,
    fun r hr => (h.reads r hr).mono hm⟩
  show RowOk _ _
  unfold importRow
  split
  · exact .inr (by simp)
  · exact .absent

theorem State.Ok.step {op : Op} (h : s.Ok teamCode) (hrep : Repeats s op)
    (hstep : step teamCode s op = .ok t) : t.Ok teamCode := by
  cases op with
  | ingest u =>
      have hdata := h.ingest hrep
      cases hstep
      refine ⟨?_, h.reads⟩
      dsimp only
      split
      · exact ⟨hdata, h.store.rows, h.store.flushing⟩
      · exact ⟨hdata, h.store.rows, h.store.flushing⟩
  | ensureMarket info lockTime =>
      have hdata := h.store.data.setFixture
        ((rowOk_fixtureRow teamCode).mpr (h.describe info lockTime))
      cases hstep
      exact ⟨⟨hdata, h.store.rows, h.store.flushing⟩, h.reads⟩
  | store op =>
      simp only [ProvenScores.step] at hstep
      cases hop : s.store.step teamCode op with
      | none => simp [hop] at hstep
      | some p =>
          simp only [hop, Option.elim_some, Except.ok.injEq] at hstep
          subst hstep
          exact ⟨h.store.step (fun _ _ hr => hr) hop, h.reads⟩
  | restart =>
      cases hstep
      exact ⟨holds_booted h.store.rows, h.reads⟩
  | importFixture row => exact h.importFixture hstep
  | readFixture id =>
      simp only [ProvenScores.step] at hstep
      cases hg : s.store.tables.fixtures.get id with
      | none => simp [hg] at hstep
      | some row =>
          simp only [hg, Option.elim_some, Except.ok.injEq] at hstep
          subst hstep
          refine ⟨h.store, fun r hr => ?_⟩
          rcases List.mem_cons.mp hr with rfl | hr
          · exact h.store.rows.fixtures _ (ObjectMap.get_eq_some.mp hg).1
          · exact h.reads r hr
  | projectReceipt onchain fixture =>
      simp only [ProvenScores.step] at hstep
      split at hstep
      next hc =>
        cases hstep
        apply h.setReceipt
        apply projectReceipt_ok
        intro f hf
        have hread : f ∈ s.reads ∧ f.id = onchain.fixtureId := by
          simpa [Option.mem_def.mp hf] using hc.1
        exact ⟨h.reads f hread.1, hread.2⟩
      · cases hstep
  | heal marketPda fixture =>
      simp only [ProvenScores.step] at hstep
      split at hstep
      next r hr =>
        split at hstep
        next hc =>
          cases hstep
          apply h.setReceipt
          exact heal_ok (h.reads _ hc.1)
            (h.store.rows.receipts r (ObjectMap.get_eq_some.mp hr).1) hc.2
        · cases hstep
      · cases hstep

end

theorem start_ok (teamCode : String → Option String) : start.Ok teamCode where
  store := .empty
  reads r hr := by cases hr

/-- In every run whose feed repeats the proven scores, what rows and projected
receipts hold is absent or what the row of the fixture held when it was marked, and
so is every score that is shown. -/
theorem absent_is_absent (teamCode : String → Option String) (ops : List Op)
    (h : (machine teamCode).Along Repeats start ops) :
    let s := (machine teamCode).run start ops
    (∀ r ∈ s.store.tables.fixtures.values, Attested s.marked r.id r.provenP1 r.provenP2 ∧
        ∀ score, shownScore r = some score → (r.id, some score.p1, some score.p2) ∈ s.marked) ∧
      ∀ r ∈ s.store.tables.receipts.values,
        Attested s.marked r.fixtureId r.provenP1 r.provenP2 := by
  have hok : ((machine teamCode).run start ops).Ok teamCode :=
    h.preserves (fun s op t hs hrep hstep => hs.step hrep hstep) (start_ok teamCode)
  have htables := hok.store.rows
  refine ⟨fun r hr => ⟨htables.fixtures r hr, fun score hs => ?_⟩, htables.receipts⟩
  exact (htables.fixtures r hr).shown hs

/-- Proven at two goals to one. -/
def provenRow : FixtureRow :=
  { fixtureRow (fun _ => none) (freshFixture 7) with
    proofStatus := .proven, provenP1 := some 2, provenP2 := some 1 }

def goal (seq p1 : ℤ) : ScoreUpdate := ⟨7, seq, seq, none, some ⟨some p1, none⟩⟩

/-- Boot after the import, one update, and the flush it causes. -/
def importThen (u : ScoreUpdate) : List Op :=
  [.importFixture provenRow, .restart, .ingest u, .store .timerFires, .store .execute,
    .store (.resume 0)]

theorem absent_is_absent_repeated :
    let s := (machine fun _ => none).run start (importThen (goal 1 2))
    (s.store.tables.fixtures.get 7).bind shownScore = some ⟨2, 1⟩ ∧
      (7, some 2, some 1) ∈ s.marked := by
  have h := absent_is_absent (fun _ => none) (importThen (goal 1 2)) (by decide +kernel)
  refine ⟨by decide +kernel, ?_⟩
  obtain ⟨r, hr, hs⟩ : ∃ r ∈ ((machine fun _ => none).run start
      (importThen (goal 1 2))).store.tables.fixtures.values,
      r.id = 7 ∧ shownScore r = some ⟨2, 1⟩ := by decide +kernel
  exact hs.1 ▸ (h.1 r hr).2 _ hs.2

/-- The feed says three goals; nobody proved that. -/
theorem feed_score_written : ¬ ∀ teamCode ops,
    let s := (machine teamCode).run start ops
    ∀ r ∈ s.store.tables.fixtures.values, Attested s.marked r.id r.provenP1 r.provenP2 := by
  intro h
  have hbad := h (fun _ => none) (importThen (goal 1 3))
  revert hbad
  unfold Attested
  decide +kernel

end ProofBook.ProvenScores
