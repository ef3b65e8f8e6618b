import ProofBook.Mirror

/-!
# Passes over an evolving chain

The program runs and the leader syncs its markets again and again; every market is
created by one authority, for an indexed fixture. A pass may be refused by the table or
die half-way, and its listing comes in any order. A completed pass upserts the picks of
its listing and leaves all other rows, so it is fresh exactly if no row of a live 1X2
generation stands for a market that is no longer its fixture's pick.
-/
namespace ProofBook.Projection
open Addresses State BestPerKey KeyedTable DbSync Mirror
open Checked OracleWire OracleAdapter Totals Chain Program Runs Steps StepCases MarketRuns
open Instructions.Betting Instructions.Settlement

variable {D : Type}

/-- A pass that completed, with the markets it listed and the tables around it. -/
structure Pass (D : Type) where
  all : List (Market D)
  before : Db
  after : Db

structure State (D : Type) where
  world : World D
  db : Db
  passes : List (Pass D)

inductive Op (D : Type)
  | chain (i : Instruction D)
  | sync (all : List (Market D))
  /-- The process dies after some of the picks. -/
  | syncDies (all : List (Market D)) (picks : ℕ)

def dbAfter {α : Type} : EStateM.Result DbError Db α → Db
  | .ok _ db => db
  | .error _ db => db

/-- Markets are created by the keeper, for fixtures it has indexed. -/
def ByKeeper (keeper : Pubkey) (fixtures : List ℤ) : Instruction D → Prop
  | .initializeMarket ctx p => ctx.authority = keeper ∧ p.fixtureId.toInt ∈ fixtures
  | _ => True

instance (keeper : Pubkey) (fixtures : List ℤ) (i : Instruction D) :
    Decidable (ByKeeper keeper fixtures i) := by
  cases i <;> unfold ByKeeper <;> infer_instance

/-- Before the program was used, with no row. -/
structure Start (s : State D) : Prop where
  genesis : Genesis s.world
  rows : s.db.markets.rows = []
  passes : s.passes = []

variable (cfg : KeeperConfig)

/-- A row of a generation of the 1X2 product. -/
def Legacy (r : MarketRow) : Prop := r.data.marketType < comboMarketTypeMin

instance (r : MarketRow) : Decidable (Legacy r) := inferInstanceAs (Decidable (_ < _))

/-- The best-ranked market of an allowed type of its fixture, or of its fixture and
product; among equals the one listed first. -/
def IsBest (all : List (Market D)) (m : Market D) : Prop :=
  First bestKey marketRank (all.filter (·.marketType ∈ cfg.marketTypes)) m

/-- The projection after a pass is what the chain says. -/
structure Pass.Fresh (p : Pass D) : Prop where
  best : ∀ r ∈ p.after.markets.rows, ∃ m, IsBest cfg p.all m ∧ r.pda = marketPda m ∧
    r.data = marketData m
  single : ∀ r ∈ p.after.markets.rows, ∀ r' ∈ p.after.markets.rows, Legacy r → Legacy r' →
    r.data.fixtureId = r'.data.fixtureId → r = r'

/-- The rows of live 1X2 generations that a pass finds are still of the best markets. -/
def Pass.Keeps (p : Pass D) : Prop :=
  ∀ r ∈ p.before.markets.rows, live r = true → Legacy r →
    ∃ m, IsBest cfg p.all m ∧ r.pda = marketPda m

variable {cfg} {fits : MarketData → Bool} {keeper : Pubkey} {db : Db}

/-! ## Rows -/

theorem mem_pickBest {all : List (Market D)} {m : Market D} :
    m ∈ pickBest cfg all ↔ IsBest cfg all m :=
  mem_best_iff

instance (p : Pass D) : Decidable (p.Keeps cfg) :=
  decidable_of_iff (∀ r ∈ p.before.markets.rows, live r = true → Legacy r →
    ∃ m ∈ pickBest cfg p.all, r.pda = marketPda m) (by simp only [Pass.Keeps, mem_pickBest])

/-- A refused upsert writes nothing. -/
theorem upsertMarket_error {m : Market D} {e : DbError} {mid : Db}
    (h : upsertMarket fits m db = .error e mid) : mid = db := by
  unfold upsertMarket at h
  split_ifs at h
  · split at h
    · cases h
    · injection h with _ hdb
      exact hdb.symm
  · injection h with _ hdb
    exact hdb.symm

section Loop
variable {known : List ℤ} {prior : Markets} {m : Market D} {ms : List (Market D)}

theorem projectMarkets_cons_error {e : DbError} {mid : Db} (hm : m.fixtureId.toInt ∈ known)
    (hup : upsertMarket fits m db = .error e mid) :
    dbAfter (projectMarkets fits known prior (m :: ms) db) = db := by
  simp only [projectMarkets, hm, not_true_eq_false, if_false, bind, EStateM.bind, hup, dbAfter]
  exact upsertMarket_error hup

theorem projectMarkets_cons_written {mid : Db} (hm : m.fixtureId.toInt ∈ known)
    (hup : upsertMarket fits m db = .ok .unit mid) :
    dbAfter (projectMarkets fits known prior (m :: ms) db) =
      dbAfter (projectMarkets fits known prior ms (announce prior m mid)) := by
  simp only [projectMarkets, hm, not_true_eq_false, if_false, bind, EStateM.bind, hup, modify,
    modifyGet, MonadStateOf.modifyGet, EStateM.modifyGet]
  cases projectMarkets fits known prior ms (announce prior m mid) <;> rfl

/-- However a loop ends, a row was there before or is of a pick. -/
theorem projectMarkets_rows (known : List ℤ) (prior : Markets) (ms : List (Market D)) (db : Db) :
    (dbAfter (projectMarkets fits known prior ms db)).fixtures = db.fixtures ∧
    ∀ r ∈ (dbAfter (projectMarkets fits known prior ms db)).markets.rows,
      r ∈ db.markets.rows ∨ ∃ m ∈ ms, r.pda = marketPda m := by
  induction ms generalizing db with
  | nil => exact ⟨rfl, fun r hr => .inl hr⟩
  | cons m ms ih =>
    have htail : ∀ {r : MarketRow}, (∃ x ∈ ms, r.pda = marketPda x) →
        ∃ x ∈ m :: ms, r.pda = marketPda x := fun h =>
      h.imp fun x hx => ⟨List.mem_cons_of_mem _ hx.1, hx.2⟩
    by_cases hknown : m.fixtureId.toInt ∈ known
    · cases hup : upsertMarket fits m db with
      | error e mid =>
        rw [projectMarkets_cons_error hknown hup]
        exact ⟨rfl, fun r hr => .inl hr⟩
      | ok u mid =>
        rw [projectMarkets_cons_written hknown hup]
        obtain ⟨-, markets, hput, rfl⟩ := upsertMarket_ok hup
        refine ⟨(ih _).1, fun r hr => ?_⟩
        rcases (ih _).2 r hr with hr | hr
        · rcases (Table.mem_put hput).mp hr with rfl | ⟨hr, -⟩
          · exact .inr ⟨m, List.mem_cons_self, rfl⟩
          · exact .inl hr
        · exact .inr (htail hr)
    · rw [projectMarkets, if_pos hknown]
      exact ⟨(ih db).1, fun r hr => ((ih db).2 r hr).imp_right htail⟩

theorem syncMarkets_rows (db : Db) (all : List (Market D)) :
    (dbAfter (syncMarkets fits cfg all db)).fixtures = db.fixtures ∧
    ∀ r ∈ (dbAfter (syncMarkets fits cfg all db)).markets.rows,
      r ∈ db.markets.rows ∨ ∃ m ∈ pickBest cfg all, r.pda = marketPda m := by
  have hloop := @projectMarkets_rows D fits db.fixtures db.markets (pickBest cfg all) db
  cases hsync : syncMarkets fits cfg all db with
  | ok report db' =>
    obtain ⟨mid, hmid, rfl⟩ := syncMarkets_ok.mp hsync
    rw [hmid] at hloop
    exact ⟨hloop.1, fun r hr => hloop.2 r (List.mem_of_mem_filter hr)⟩
  | error e db' =>
    cases hmid : projectMarkets fits db.fixtures db.markets (pickBest cfg all) db with
    | ok report mid =>
      rw [syncMarkets_ok.mpr ⟨mid, hmid, rfl⟩] at hsync
      cases hsync
    | error e' mid =>
      have hsame : db' = mid := by
        simp only [syncMarkets, bind, EStateM.bind, get, getThe, MonadStateOf.get, EStateM.get,
          hmid] at hsync
        injection hsync with _ h
        exact h.symm
      rw [hmid] at hloop
      exact hsame ▸ hloop

end Loop

/-! ## What holds between passes -/

/-- Rows stand for markets on chain, which are the keeper's. -/
structure Invariant (cfg : KeeperConfig) (keeper : Pubkey) (world : World D) (db : Db) :
    Prop where
  wellFormed : WellFormed world
  keepers : ∀ k b, world.book? k = some b →
    b.market.authority = keeper ∧ b.market.fixtureId.toInt ∈ db.fixtures
  rows : ∀ r ∈ db.markets.rows, ∃ b, world.book? r.pda = some b ∧
    b.market.marketType ∈ cfg.marketTypes

theorem book_of_listed {world : World D} {all : List (Market D)} {m : Market D}
    (hw : WellFormed world) (hall : all.Perm (allMarkets world)) (hm : m ∈ all) :
    ∃ b, world.book? (marketPda m) = some b ∧ b.market = m := by
  obtain ⟨e, he, rfl⟩ := List.mem_map.mp (hall.mem_iff.mp hm)
  have hlookup : world.book? e.1 = some e.2 := AList.mem_lookup_iff.mpr he
  have hkey : e.1 = marketPda e.2.market := (hw.books e.1 e.2 hlookup).key
  exact ⟨e.2, hkey ▸ hlookup, rfl⟩

theorem listed_of_book {world : World D} {all : List (Market D)} {k : Pubkey} {b : Book D}
    (hall : all.Perm (allMarkets world)) (hb : world.book? k = some b) : b.market ∈ all :=
  hall.mem_iff.mpr (List.mem_map.mpr ⟨⟨k, b⟩, AList.mem_lookup_iff.mp hb, rfl⟩)

theorem Invariant.step [Inhabited D] {O : OracleProgram D} {world world' : World D}
    {i : Instruction D}
    (h : Invariant cfg keeper world db) (hi : ByKeeper keeper db.fixtures i)
    (hs : step O world i = .ok world') : Invariant cfg keeper world' db := by
  refine ⟨WellFormed.step h.wellFormed hs, fun k b hb => ?_, fun r hr => ?_⟩
  · cases hold : world.book? k with
    | some b₀ =>
      obtain ⟨b', x, y, hb', hstep, -⟩ := step_book h.wellFormed hs hold
      obtain rfl := Option.some.inj (hb'.symm.trans hb)
      rw [hstep.sameTerms.authority, hstep.sameTerms.fixtureId]
      exact h.keepers k b₀ hold
    | none =>
      obtain ⟨ctx, p, rfl, -, -, -, rfl, -⟩ := step_book_new hs hold hb
      exact hi
  · obtain ⟨b₀, hold, hallowed⟩ := h.rows r hr
    obtain ⟨b', x, y, hb', hstep, -⟩ := step_book h.wellFormed hs hold
    exact ⟨b', hb', by rwa [hstep.sameTerms.marketType]⟩

theorem Invariant.write {world : World D} {all : List (Market D)} {db' : Db}
    (h : Invariant cfg keeper world db) (hall : all.Perm (allMarkets world))
    (hfixtures : db'.fixtures = db.fixtures)
    (hrows : ∀ r ∈ db'.markets.rows,
      r ∈ db.markets.rows ∨ ∃ m ∈ pickBest cfg all, r.pda = marketPda m) :
    Invariant cfg keeper world db' := by
  refine ⟨h.wellFormed, fun k b hb => hfixtures ▸ h.keepers k b hb, fun r hr => ?_⟩
  rcases hrows r hr with hold | ⟨m, hm, hpda⟩
  · exact h.rows r hold
  · have hmem := ((pickBest_kept cfg all).top m hm).mem
    simp only [List.mem_filter, decide_eq_true_eq, Set.mem_ofPred_eq] at hmem
    obtain ⟨b, hb, rfl⟩ := book_of_listed h.wellFormed hall hmem.1
    exact ⟨b, hpda ▸ hb, hmem.2⟩

/-! ## One pass -/

theorem type_of_pda {r : MarketRow} {m : Market D} (h : r.pda = marketPda m) :
    r.data.marketType = m.marketType :=
  congrArg Prod.snd (slot_of_pda h)

theorem fixture_of_pda {r : MarketRow} {m : Market D} (h : r.pda = marketPda m) :
    r.data.fixtureId = m.fixtureId.toInt :=
  congrArg Prod.fst (slot_of_pda h)

theorem Invariant.picked {world : World D} {all : List (Market D)} {m : Market D}
    (h : Invariant cfg keeper world db) (hall : all.Perm (allMarkets world))
    (hm : IsBest cfg all m) : Picked cfg db all m := by
  have hpick := mem_pickBest.mpr hm
  have hmem := ((pickBest_kept cfg all).top m hpick).mem
  rw [Set.mem_ofPred_eq, List.mem_filter] at hmem
  obtain ⟨b, hb, rfl⟩ := book_of_listed h.wellFormed hall hmem.1
  exact ⟨hpick, (h.keepers _ b hb).2⟩

/-- One authority has one market of a product for a fixture. -/
theorem Invariant.product_picked {world : World D} {all : List (Market D)} {r : MarketRow}
    (h : Invariant cfg keeper world db) (hall : all.Perm (allMarkets world))
    (hr : r ∈ db.markets.rows) (hproduct : ¬ Legacy r) :
    ∃ m, Picked cfg db all m ∧ marketPda m = r.pda := by
  obtain ⟨b, hb, hallowed⟩ := h.rows r hr
  have hpda : r.pda = marketPda b.market := (h.wellFormed.books _ b hb).key
  have htype : comboMarketTypeMin ≤ b.market.marketType := by
    rw [← type_of_pda hpda]
    exact Nat.le_of_not_lt hproduct
  obtain ⟨x, hx, hkey⟩ := exists_picked (listed_of_book hall hb) hallowed (h.keepers _ b hb).2
  obtain ⟨bx, hbx, rfl⟩ := book_of_listed h.wellFormed hall hx.pickable.top.mem.1
  refine ⟨bx.market, hx, ?_⟩
  have hfixture := Int64.toInt_inj.mp (congrArg Prod.fst hkey)
  have hsame : bx.market.marketType = b.market.marketType := by
    have hsnd := congrArg Prod.snd hkey
    simp only [bestKey, htype, if_true] at hsnd
    split_ifs at hsnd
    exact Option.some.inj hsnd
  rw [hpda, marketPda, marketPda, (h.keepers _ bx hbx).1, (h.keepers _ b hb).1, hfixture, hsame]

theorem Invariant.fresh_of_keeps {world : World D} {p : Pass D} {report : SyncReport}
    (h : Invariant cfg keeper world p.before) (hall : p.all.Perm (allMarkets world))
    (hsync : syncMarkets fits cfg p.all p.before = .ok report p.after) (hkeeps : p.Keeps cfg) :
    p.Fresh cfg := by
  obtain ⟨hpicks, hrows⟩ := syncMarkets_find hsync
  have hrow : ∀ r ∈ p.after.markets.rows,
      ∃ m, Picked cfg p.before p.all m ∧ marketPda m = r.pda := by
    intro r hr
    by_contra hex
    have hnone : ∀ m, Picked cfg p.before p.all m → marketPda m ≠ r.pda :=
      fun m hm hpda => hex ⟨m, hm, hpda⟩
    have hfind := Table.find_eq_some.mpr ⟨hr, rfl⟩
    rw [hrows r.pda hnone, Option.filter_eq_some_iff, Table.find_eq_some] at hfind
    obtain ⟨⟨hr, -⟩, hlive⟩ := hfind
    by_cases hlegacy : Legacy r
    · obtain ⟨m, hm, hpda⟩ := hkeeps r hr hlive hlegacy
      exact hnone m (h.picked hall hm) hpda.symm
    · obtain ⟨m, hm, hpda⟩ := h.product_picked hall hr hlegacy
      exact hnone m hm hpda
  refine ⟨fun r hr => ?_, fun r hr r' hr' hlegacy hlegacy' hfixture => ?_⟩
  · obtain ⟨m, hm, hpda⟩ := hrow r hr
    have hfind := Table.find_eq_some.mpr ⟨hr, rfl⟩
    rw [← hpda, hpicks m hm, Option.filter_eq_some_iff] at hfind
    refine ⟨m, mem_pickBest.mp hm.1, hpda.symm, ?_⟩
    rw [← Option.some.inj hfind.1]
    rfl
  · obtain ⟨m, hm, hpda⟩ := hrow r hr
    obtain ⟨m', hm', hpda'⟩ := hrow r' hr'
    have htype : m.marketType < comboMarketTypeMin := type_of_pda hpda.symm ▸ hlegacy
    have htype' : m'.marketType < comboMarketTypeMin := type_of_pda hpda'.symm ▸ hlegacy'
    have hkey : bestKey m' = bestKey m := by
      rw [fixture_of_pda hpda.symm, fixture_of_pda hpda'.symm] at hfixture
      simp [bestKey, hfixture, htype.not_ge, htype'.not_ge]
    obtain rfl := hm.eq_of_key hm' hkey
    exact List.inj_on_of_nodup_map p.after.markets.primary hr hr' (hpda.symm.trans hpda')

theorem keeps_of_fresh {p : Pass D} {report : SyncReport}
    (hsync : syncMarkets fits cfg p.all p.before = .ok report p.after) (hfresh : p.Fresh cfg) :
    p.Keeps cfg := by
  obtain ⟨-, hrows⟩ := syncMarkets_find hsync
  intro r hr hlive hlegacy
  by_cases hpicked : ∃ m, Picked cfg p.before p.all m ∧ marketPda m = r.pda
  · obtain ⟨m, hm, hpda⟩ := hpicked
    exact ⟨m, mem_pickBest.mp hm.1, hpda.symm⟩
  · have hnone : ∀ m, Picked cfg p.before p.all m → marketPda m ≠ r.pda :=
      fun m hm hpda => hpicked ⟨m, hm, hpda⟩
    have hfind : p.after.markets.find r.pda = some r := by
      rw [hrows r.pda hnone, Table.find_eq_some.mpr ⟨hr, rfl⟩]
      simp [Option.filter, hlive]
    obtain ⟨m, hm, hpda, -⟩ := hfresh.best r (Table.find_eq_some.mp hfind).1
    exact ⟨m, hm, hpda⟩

/-! ## Runs -/

variable [Inhabited D] [DecidableEq D] (O : OracleProgram D) (fits : MarketData → Bool)
  (cfg : KeeperConfig) (keeper : Pubkey)

def next (s : State D) : Op D → Option (State D)
  | .chain i =>
      if ByKeeper keeper s.db.fixtures i then
        (step O s.world i).toOption.map fun world => { s with world }
      else none
  | .sync all =>
      if all.Perm (allMarkets s.world) then
        match syncMarkets fits cfg all s.db with
        | .ok _ db => some { s with db, passes := s.passes ++ [⟨all, s.db, db⟩] }
        | .error _ db => some { s with db }
      else none
  | .syncDies all picks =>
      if all.Perm (allMarkets s.world) then
        let loop := projectMarkets fits s.db.fixtures s.db.markets ((pickBest cfg all).take picks)
        some { s with db := dbAfter (loop s.db) }
      else none

def machine : Machine (State D) (Op D) Unit :=
  ⟨fun s op => (next O fits cfg keeper s op).elim (.error ()) .ok⟩

variable {O fits cfg keeper} {s s' : State D} {op : Op D}

/-- Completed passes were made on markets of the chain at the time. -/
structure RunOk (fits : MarketData → Bool) (cfg : KeeperConfig) (keeper : Pubkey)
    (s : State D) : Prop where
  now : Invariant cfg keeper s.world s.db
  passes : ∀ p ∈ s.passes, ∃ world report, Invariant cfg keeper world p.before ∧
    p.all.Perm (allMarkets world) ∧
    syncMarkets fits cfg p.all p.before = .ok report p.after

omit [Inhabited D] [DecidableEq D] in
theorem RunOk.start (h : Start s) : RunOk fits cfg keeper s where
  now := by
    refine ⟨Genesis.wellFormed h.genesis, fun k b hb => ?_, fun r hr => ?_⟩
    · simp [World.book?, h.genesis.books] at hb
    · simp [h.rows] at hr
  passes p hp := by simp [h.passes] at hp

theorem RunOk.next (h : RunOk fits cfg keeper s)
    (hs : Projection.next O fits cfg keeper s op = some s') : RunOk fits cfg keeper s' := by
  cases op with
  | chain i =>
    simp only [Projection.next] at hs
    split_ifs at hs with hi
    cases hstep : step O s.world i with
    | error e => simp [hstep, Except.toOption] at hs
    | ok world =>
      simp only [hstep, Except.toOption, Option.map_some, Option.some.injEq] at hs
      subst hs
      exact ⟨h.now.step hi hstep, h.passes⟩
  | sync all =>
    simp only [Projection.next] at hs
    split_ifs at hs with hall
    have hrows := @syncMarkets_rows D cfg fits s.db all
    cases hsync : syncMarkets fits cfg all s.db with
    | ok report db =>
      rw [hsync] at hs hrows
      obtain rfl := Option.some.inj hs
      refine ⟨h.now.write hall hrows.1 hrows.2, fun p hp => ?_⟩
      rcases List.mem_append.mp hp with hp | hp
      · exact h.passes p hp
      · obtain rfl := List.mem_singleton.mp hp
        exact ⟨s.world, report, h.now, hall, hsync⟩
    | error e db =>
      rw [hsync] at hs hrows
      obtain rfl := Option.some.inj hs
      exact ⟨h.now.write hall hrows.1 hrows.2, h.passes⟩
  | syncDies all picks =>
    simp only [Projection.next] at hs
    split_ifs at hs with hall
    obtain rfl := Option.some.inj hs
    have hloop := @projectMarkets_rows D fits s.db.fixtures s.db.markets
      ((pickBest cfg all).take picks) s.db
    refine ⟨h.now.write hall hloop.1 fun r hr => ?_, h.passes⟩
    rcases hloop.2 r hr with hold | ⟨m, hm, hpda⟩
    · exact .inl hold
    · exact .inr ⟨m, List.mem_of_mem_take hm, hpda⟩

theorem reachable_runOk (h : (machine O fits cfg keeper).Reachable Start s) :
    RunOk fits cfg keeper s := by
  apply h.invariant (P := RunOk fits cfg keeper) fun s h₀ => RunOk.start h₀
  intro s op s' hok hstep
  apply @RunOk.next D _ _ O fits cfg keeper s s' op hok
  simp only [machine, Option.elim] at hstep
  split at hstep
  · exact congrArg some (Except.ok.inj hstep) ▸ ‹_›
  · cases hstep

/-- Over any run, every completed pass is fresh exactly if none finds a row of a live
1X2 generation whose market is not its fixture's best any more. -/
theorem passes_fresh_iff (h : (machine O fits cfg keeper).Reachable Start s) :
    (∀ p ∈ s.passes, p.Fresh cfg) ↔ ∀ p ∈ s.passes, p.Keeps cfg := by
  have hok := reachable_runOk h
  constructor
  · intro hfresh p hp
    obtain ⟨world, report, -, -, hsync⟩ := hok.passes p hp
    exact keeps_of_fresh hsync (hfresh p hp)
  · intro hkeeps p hp
    obtain ⟨world, report, hinv, hall, hsync⟩ := hok.passes p hp
    exact hinv.fresh_of_keeps hall hsync (hkeeps p hp)

/-! ## A second generation -/

def generation (type : ℕ) (lockTime : Int64) : MarketParams :=
  ⟨7, type, [homeWin, awayWin], 500, lockTime, 50, .key 21⟩

def generationMarket (type : ℕ) (lockTime : Int64) : Market Unit :=
  newMarket acceptingOracle sampleContext (generation type lockTime)

def thirdGeneration : Pubkey := sampleContext.marketKey (generation 3 100)

/-- The third generation is projected, locked and cancelled, then the fourth is created. -/
def generationsRun : List (Op Unit) :=
  [.chain (.splInitializeMint (.key 1)),
    .chain (.initializeMarket sampleContext (generation 3 100)),
    .sync [generationMarket 3 100], .chain (.setClock 100),
    .chain (.lockMarket ⟨thirdGeneration, .key 12⟩), .chain (.setClock 200),
    .chain (.cancelMarket ⟨thirdGeneration, .key 12⟩),
    .chain (.initializeMarket sampleContext (generation 4 900)),
    .sync [withStatus (generationMarket 3 100) .cancelled, generationMarket 4 900]]

def generationsConfig : KeeperConfig := ⟨[3, 4]⟩

def generationsStart : State Unit := ⟨emptyWorld Unit, ⟨[7], default, [], []⟩, []⟩

def generationsState : State Unit :=
  (machine acceptingOracle (fun _ => true) generationsConfig (.key 20)).run generationsStart
    generationsRun

theorem generationsState_reachable :
    (machine acceptingOracle (fun _ => true) generationsConfig (.key 20)).Reachable Start
      generationsState :=
  ⟨_, generationsRun, ⟨emptyWorld_genesis, rfl, rfl⟩, rfl⟩

/-- What a row says of its market: fixture, generation and status. -/
def shown (r : MarketRow) : ℤ × ℕ × MarketStatus :=
  (r.data.fixtureId, r.data.marketType, r.data.status)

theorem generationsState_shown : generationsState.passes.map (fun p =>
      p.after.markets.rows.map shown) =
    [[(7, 3, .opened)], [(7, 4, .opened), (7, 3, .opened)]] := by
  decide +kernel

theorem generationsState_cancelled :
    (generationsState.world.book? thirdGeneration).map (·.market.status) = some .cancelled := by
  decide +kernel

/-- The second pass finds the third generation locked. -/
def lockedRun : List (Op Unit) :=
  generationsRun.take 5 ++ [.sync [withStatus (generationMarket 3 100) .locked]]

def lockedState : State Unit :=
  (machine acceptingOracle (fun _ => true) generationsConfig (.key 20)).run generationsStart
    lockedRun

theorem passes_fresh_iff_generations :
    lockedState.passes.map (fun p => p.after.markets.rows.map shown) =
        [[(7, 3, .opened)], [(7, 3, .locked)]] ∧
      (∀ p ∈ lockedState.passes, p.Fresh generationsConfig) ∧
      ¬ ∀ p ∈ generationsState.passes, p.Keeps generationsConfig := by
  have hlocked : (machine acceptingOracle (fun _ => true) generationsConfig (.key 20)).Reachable
      Start lockedState := ⟨_, lockedRun, ⟨emptyWorld_genesis, rfl, rfl⟩, rfl⟩
  exact ⟨by decide +kernel, (passes_fresh_iff hlocked).mpr (by decide +kernel), by decide +kernel⟩

/-- After the second pass two generations are shown, the cancelled one as open. -/
theorem generations_stale :
    (generationsState.world.book? thirdGeneration).map (·.market.status) = some .cancelled ∧
      generationsState.passes.map (fun p => p.after.markets.rows.map shown) =
        [[(7, 3, .opened)], [(7, 4, .opened), (7, 3, .opened)]] ∧
      ¬ ∀ s, (machine acceptingOracle (fun _ => true) generationsConfig (.key 20)).Reachable Start
        s → ∀ p ∈ s.passes, p.Fresh generationsConfig := by
  refine ⟨generationsState_cancelled, generationsState_shown, fun h => ?_⟩
  obtain ⟨p₁, ps, hpasses, -, hrest⟩ := List.map_eq_cons_iff.mp generationsState_shown
  obtain ⟨p₂, ps', rfl, hrows, -⟩ := List.map_eq_cons_iff.mp hrest
  have hfresh := h _ generationsState_reachable p₂ (hpasses ▸ by simp)
  obtain ⟨r, rs, hr, hshown, hrest⟩ := List.map_eq_cons_iff.mp hrows
  obtain ⟨r', rs', rfl, hshown', -⟩ := List.map_eq_cons_iff.mp hrest
  simp only [shown, Prod.mk.injEq] at hshown hshown'
  have hlegacy : Legacy r := by simp [Legacy, hshown.2.1, comboMarketTypeMin]
  have hlegacy' : Legacy r' := by simp [Legacy, hshown'.2.1, comboMarketTypeMin]
  have hsame := hfresh.single r (hr ▸ by simp) r' (hr ▸ by simp) hlegacy hlegacy'
    (hshown.1.trans hshown'.1.symm)
  rw [hsame, hshown'.2.1] at hshown
  exact absurd hshown.2.1 (by decide)

end ProofBook.Projection
