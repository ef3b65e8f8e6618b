import ProofBook.DbSync
import ProofBook.MarketRuns

/-!
# What strangers can do to the mirror

Anyone may create a market for any fixture and type. A sync picks the first
listed market of the top rank for each key, whoever created it, so two runs
agree on the rows of one set of markets exactly if every market that some listing
can make a pick is one the table takes, and no pick that another can displace
would change the table.
-/
namespace ProofBook.Mirror
open Addresses State BestPerKey KeyedTable DbSync
open Checked OracleWire OracleAdapter Totals Chain Program Steps StepCases MarketRuns
variable {D : Type} (fits : MarketData → Bool) (cfg : KeeperConfig) (db : Db)

/-- The market is one of the picks and its fixture is indexed. -/
def Picked (all : List (Market D)) (m : Market D) : Prop :=
  m ∈ pickBest cfg all ∧ m.fixtureId.toInt ∈ db.fixtures

/-- Some listing of the accounts makes the market a pick. -/
structure Pickable (all : List (Market D)) (m : Market D) : Prop where
  known : m.fixtureId.toInt ∈ db.fixtures
  top : Top bestKey marketRank {x | x ∈ all ∧ x.marketType ∈ cfg.marketTypes} m

/-- The columns take the values, and no other market's row has the fixture and
the type. -/
def Writable (m : Market D) : Prop :=
  fits (marketData m) = true ∧ db.markets.Free (marketPda m) (marketSlot m)

/-- Writing the market makes no difference: its row has its data already, or the
purge removes it. -/
def Unchanged (m : Market D) : Prop :=
  m.marketType ∈ deadGenerations ∨
    (db.markets.find (marketPda m)).map (·.data) = some (marketData m)

/-- The purge leaves the row. -/
def live (r : MarketRow) : Bool := !decide (r.data.marketType ∈ deadGenerations)

variable {fits cfg db}

theorem bestKey_of_slot {m x : Market D} (h : marketSlot m = marketSlot x) :
    bestKey m = bestKey x := by
  obtain ⟨hfixture, htype⟩ := Prod.mk.inj h
  simp [bestKey, hfixture, htype]

theorem slot_of_pda {r : MarketRow} {m : Market D} (h : r.pda = marketPda m) :
    r.slot = marketSlot m := by
  obtain ⟨fixtureId, hfixture, hpda⟩ := r.isPda
  rw [hpda, marketPda, Pubkey.market.injEq] at h
  obtain ⟨-, rfl, htype⟩ := h
  exact Prod.ext hfixture.symm htype

theorem marketSlot_of_pda {m x : Market D} (h : marketPda m = marketPda x) :
    marketSlot m = marketSlot x :=
  slot_of_pda (r := mirrorRow none m) h

@[simp] theorem mirrorRow_pda (before : Option MarketRow) (m : Market D) :
    (mirrorRow before m).pda = marketPda m := rfl

@[simp] theorem mirrorRow_slot (before : Option MarketRow) (m : Market D) :
    (mirrorRow before m).slot = marketSlot m := rfl

/-- Writing the data a row has changes nothing. -/
theorem mirrorRow_eq_iff {r : MarketRow} {m : Market D} (h : r.pda = marketPda m) :
    mirrorRow (some r) m = r ↔ r.data = marketData m := by
  cases r
  simp_all [mirrorRow, eq_comm]

theorem upsertMarket_ok {m : Market D} {db' : Db}
    (h : upsertMarket fits m db = .ok .unit db') :
    Writable fits db m ∧ ∃ markets,
      db.markets.put (mirrorRow (db.markets.find (marketPda m)) m) = some markets ∧
      db' = { db with markets } := by
  unfold upsertMarket at h
  split_ifs at h with hfits
  cases hput : db.markets.put (mirrorRow (db.markets.find (marketPda m)) m) with
  | none => simp [hput] at h
  | some markets =>
    have hfree := Table.put_isSome.mp (Option.isSome_of_eq_some hput)
    rw [hput] at h
    injection h with _ hdb
    exact ⟨⟨hfits, hfree⟩, markets, rfl, hdb.symm⟩

theorem upsertMarket_succeeds {m : Market D} (h : Writable fits db m) :
    ∃ db', upsertMarket fits m db = .ok .unit db' := by
  have hput := Table.put_isSome (r := mirrorRow (db.markets.find (marketPda m)) m) |>.mpr h.2
  obtain ⟨markets, hmarkets⟩ := Option.isSome_iff_exists.mp hput
  exact ⟨{ db with markets }, by simp [upsertMarket, h.1, hmarkets]⟩

/-- A pick of an indexed fixture is written, or the run stops at it. -/
theorem projectMarkets_cons_ok {known : List ℤ} {prior : Markets} {m : Market D}
    {ms : List (Market D)} (hm : m.fixtureId.toInt ∈ known) {report : SyncReport} {db' : Db} :
    projectMarkets fits known prior (m :: ms) db = .ok report db' ↔
      ∃ mid rest, upsertMarket fits m db = .ok .unit mid ∧
        projectMarkets fits known prior ms (announce prior m mid) = .ok rest db' ∧
        report = ⟨rest.markets + 1, rest.settled + if m.status = .settled then 1 else 0⟩ := by
  simp only [projectMarkets, hm, not_true_eq_false, if_false]
  cases hup : upsertMarket fits m db with
  | error e mid => simp [bind, EStateM.bind, hup]
  | ok u mid =>
    cases hrest : projectMarkets fits known prior ms (announce prior m mid) with
    | error e last => simp [bind, EStateM.bind, hup, hrest, modify, modifyGet,
        MonadStateOf.modifyGet, EStateM.modifyGet]
    | ok rest last => simp [bind, EStateM.bind, hup, hrest, modify, modifyGet,
        MonadStateOf.modifyGet, EStateM.modifyGet, pure, EStateM.pure, and_comm, eq_comm]

/-- The other picks find the constraint as it was before a write. -/
theorem free_put {markets markets' : Markets} {before : Option MarketRow} {m x : Market D}
    (hput : markets.put (mirrorRow before m) = some markets')
    (hslot : marketSlot x ≠ marketSlot m) :
    markets'.Free (marketPda x) (marketSlot x) ↔ markets.Free (marketPda x) (marketSlot x) := by
  constructor
  · intro h r hr hrx
    refine h r ((Table.mem_put hput).mpr (.inr ⟨hr, fun hpda => hslot ?_⟩)) hrx
    exact hrx.symm.trans (slot_of_pda hpda)
  · intro h r hr hrx
    rcases (Table.mem_put hput).mp hr with rfl | ⟨hr, -⟩
    · exact absurd hrx.symm hslot
    · exact h r hr hrx

theorem writable_upsert {m x : Market D} {mid : Db} (prior : Markets)
    (hup : upsertMarket fits m db = .ok .unit mid) (hslot : marketSlot x ≠ marketSlot m) :
    Writable fits (announce prior m mid) x ↔ Writable fits db x := by
  obtain ⟨-, markets, hput, rfl⟩ := upsertMarket_ok hup
  exact and_congr_right fun _ => free_put hput hslot

section Loop
variable {known : List ℤ} {prior : Markets} {ms : List (Market D)}

/-- Picks of different fixtures or types do not get in each other's way: the loop
ends exactly if the table as it was takes every one. -/
theorem projectMarkets_ok_iff (hslots : (ms.map marketSlot).Nodup) :
    (∃ report db', projectMarkets fits known prior ms db = .ok report db') ↔
      ∀ m ∈ ms, m.fixtureId.toInt ∈ known → Writable fits db m := by
  induction ms generalizing db with
  | nil => simp [projectMarkets, pure, EStateM.pure]
  | cons m ms ih =>
    obtain ⟨hm, hms⟩ := List.nodup_cons.mp hslots
    by_cases hknown : m.fixtureId.toInt ∈ known
    · have hother : ∀ x ∈ ms, marketSlot x ≠ marketSlot m := fun x hx hslot =>
        hm (hslot ▸ List.mem_map_of_mem hx)
      simp only [projectMarkets_cons_ok hknown, List.forall_mem_cons]
      constructor
      · rintro ⟨report, db', mid, rest, hup, hrest, -⟩
        refine ⟨fun _ => (upsertMarket_ok hup).1, fun x hx hx' => ?_⟩
        exact (writable_upsert prior hup (hother x hx)).mp ((ih hms).mp ⟨rest, db', hrest⟩ x hx hx')
      · rintro ⟨hwritable, hall⟩
        obtain ⟨mid, hup⟩ := upsertMarket_succeeds (hwritable hknown)
        have hrests : ∀ x ∈ ms, x.fixtureId.toInt ∈ known →
            Writable fits (announce prior m mid) x := fun x hx hx' =>
          (writable_upsert prior hup (hother x hx)).mpr (hall x hx hx')
        obtain ⟨rest, db', hrest⟩ := (ih hms).mpr hrests
        exact ⟨_, db', mid, rest, hup, hrest, rfl⟩
    · simp only [projectMarkets, hknown, not_false_eq_true, if_true, List.forall_mem_cons,
        false_imp_iff, true_and]
      exact ih hms

/-- The loop writes the rows of its picks, and no others. -/
theorem projectMarkets_find (hslots : (ms.map marketSlot).Nodup) {report : SyncReport} {db' : Db}
    (h : projectMarkets fits known prior ms db = .ok report db') :
    (∀ m ∈ ms, m.fixtureId.toInt ∈ known → db'.markets.find (marketPda m) =
      some (mirrorRow (db.markets.find (marketPda m)) m)) ∧
    ∀ k, (∀ m ∈ ms, m.fixtureId.toInt ∈ known → marketPda m ≠ k) →
      db'.markets.find k = db.markets.find k := by
  induction ms generalizing db report with
  | nil =>
    injection h with _ hdb
    simp [hdb]
  | cons m ms ih =>
    obtain ⟨hm, hms⟩ := List.nodup_cons.mp hslots
    by_cases hknown : m.fixtureId.toInt ∈ known
    · obtain ⟨mid, rest, hup, hrest, -⟩ := (projectMarkets_cons_ok hknown).mp h
      obtain ⟨-, markets, hput, rfl⟩ := upsertMarket_ok hup
      have hother : ∀ x ∈ ms, marketPda x ≠ marketPda m := fun x hx hpda =>
        hm (marketSlot_of_pda hpda ▸ List.mem_map_of_mem hx)
      obtain ⟨hpicks, hrows⟩ := ih hms hrest
      constructor
      · intro x hx hx'
        rcases List.mem_cons.mp hx with rfl | hx
        · rw [hrows _ fun y hy _ => hother y hy]
          exact Table.find_put_self hput
        · rw [hpicks x hx hx']
          exact congrArg (fun b => some (mirrorRow b x)) (Table.find_put_of_ne hput (hother x hx))
      · intro k hk
        rw [hrows k fun x hx => hk x (.tail _ hx)]
        exact Table.find_put_of_ne hput (hk m (.head _) hknown).symm
    · rw [projectMarkets, if_pos hknown] at h
      obtain ⟨hpicks, hrows⟩ := ih hms h
      refine ⟨fun x hx hx' => ?_, fun k hk => hrows k fun x hx => hk x (.tail _ hx)⟩
      rcases List.mem_cons.mp hx with rfl | hx
      · exact absurd hx' hknown
      · exact hpicks x hx hx'

end Loop

section Sync
variable {all : List (Market D)}

theorem pickBest_kept (cfg : KeeperConfig) (all : List (Market D)) :
    Kept bestKey marketRank (all.filter (·.marketType ∈ cfg.marketTypes)) (pickBest cfg all) :=
  best_kept _

theorem pickBest_slots : ((pickBest cfg all).map marketSlot).Nodup := by
  have hkeys := List.pairwise_map.mp (pickBest_kept cfg all).keys
  exact List.pairwise_map.mpr (hkeys.imp fun hkey hslot => hkey (bestKey_of_slot hslot))

theorem syncMarkets_ok {report : SyncReport} {db' : Db} :
    syncMarkets fits cfg all db = .ok report db' ↔
      ∃ mid, projectMarkets fits db.fixtures db.markets (pickBest cfg all) db = .ok report mid ∧
        db' = { mid with
          markets := mid.markets.deleteMany (·.data.marketType ∈ deadGenerations) } := by
  cases hloop : projectMarkets fits db.fixtures db.markets (pickBest cfg all) db with
  | error e mid => simp [syncMarkets, bind, EStateM.bind, get, getThe, MonadStateOf.get,
      EStateM.get, hloop]
  | ok r mid => simp [syncMarkets, purgeDead, bind, EStateM.bind, get, getThe, MonadStateOf.get,
      EStateM.get, hloop, modify, modifyGet, MonadStateOf.modifyGet, EStateM.modifyGet, pure,
      EStateM.pure, eq_comm]

/-- A run completes exactly if the table takes every pick. -/
theorem syncMarkets_ok_iff :
    (∃ report db', syncMarkets fits cfg all db = .ok report db') ↔
      ∀ m, Picked cfg db all m → Writable fits db m := by
  have hloop : (∃ report db', projectMarkets fits db.fixtures db.markets (pickBest cfg all) db =
      .ok report db') ↔ ∀ m ∈ pickBest cfg all, m.fixtureId.toInt ∈ db.fixtures →
        Writable fits db m := projectMarkets_ok_iff pickBest_slots
  simp only [syncMarkets_ok, Picked, and_imp, ← hloop]
  constructor
  · rintro ⟨report, -, mid, h, -⟩
    exact ⟨report, mid, h⟩
  · rintro ⟨report, mid, h⟩
    exact ⟨report, _, mid, h, rfl⟩

/-- The rows after a run: a pick's is written, the others stay, and the purge
takes the tombstoned generations. -/
theorem syncMarkets_find {report : SyncReport} {db' : Db}
    (h : syncMarkets fits cfg all db = .ok report db') :
    (∀ m, Picked cfg db all m → db'.markets.find (marketPda m) =
      (some (mirrorRow (db.markets.find (marketPda m)) m)).filter live) ∧
    ∀ k, (∀ m, Picked cfg db all m → marketPda m ≠ k) →
      db'.markets.find k = (db.markets.find k).filter live := by
  obtain ⟨mid, hloop, rfl⟩ := syncMarkets_ok.mp h
  obtain ⟨hpicks, hrows⟩ := projectMarkets_find pickBest_slots hloop
  constructor
  · rintro m ⟨hm, hknown⟩
    exact (Table.find_deleteMany ..).trans (congrArg (Option.filter live) (hpicks m hm hknown))
  · intro k hk
    exact (Table.find_deleteMany ..).trans
      (congrArg (Option.filter live) (hrows k fun m hm hknown => hk m ⟨hm, hknown⟩))

theorem Picked.pickable {m : Market D} (h : Picked cfg db all m) : Pickable cfg db all m := by
  refine ⟨h.2, ?_⟩
  have htop := (pickBest_kept cfg all).top m h.1
  simpa only [List.mem_filter, decide_eq_true_eq] using htop

/-- One pick a key. -/
theorem Picked.eq_of_key {m x : Market D} (hm : Picked cfg db all m) (hx : Picked cfg db all x)
    (hkey : bestKey x = bestKey m) : x = m :=
  List.inj_on_of_nodup_map (pickBest_kept cfg all).keys hx.1 hm.1 hkey

/-- Every key of an allowed market has a pick. -/
theorem exists_picked {m : Market D} (hm : m ∈ all) (hallowed : m.marketType ∈ cfg.marketTypes)
    (hknown : m.fixtureId.toInt ∈ db.fixtures) :
    ∃ x, Picked cfg db all x ∧ bestKey x = bestKey m := by
  obtain ⟨x, hx, hkey⟩ := (pickBest_kept cfg all).covers m (by simp [hm, hallowed])
  have hfixture : x.fixtureId.toInt = m.fixtureId.toInt := congrArg Prod.fst hkey
  exact ⟨x, ⟨hx, hfixture ▸ hknown⟩, hkey⟩

theorem Pickable.perm {m : Market D} {all' : List (Market D)} (h : Pickable cfg db all m)
    (hperm : all.Perm all') : Pickable cfg db all' m := by
  refine ⟨h.known, ?_⟩
  simpa only [← hperm.mem_iff] using h.top

/-- Listed first, a pickable market is the pick. -/
theorem Pickable.exists_picked {m : Market D} (h : Pickable cfg db all m) :
    ∃ L, L.Perm all ∧ Picked cfg db L m := by
  obtain ⟨before, after, rfl⟩ := List.append_of_mem h.top.mem.1
  refine ⟨m :: (before ++ after), List.perm_middle.symm, ?_, h.known⟩
  have hle : ∀ y ∈ (before ++ after).filter (·.marketType ∈ cfg.marketTypes),
      bestKey y = bestKey m → marketRank y ≤ marketRank m := by
    intro y hy hkey
    obtain ⟨hy, hallowed⟩ := List.mem_filter.mp hy
    refine h.top.le y ⟨?_, of_decide_eq_true hallowed⟩ hkey
    exact List.perm_middle.symm.subset (.tail _ hy)
  rw [pickBest, List.filter_cons_of_pos (by simpa using h.top.mem.2)]
  exact best_head hle

end Sync

theorem find_pda {k : Pubkey} {r : MarketRow} (h : db.markets.find k = some r) : r.pda = k :=
  (Table.find_eq_some.mp h).2

/-- A write shows after the purge exactly if it makes a difference. -/
theorem unchanged_iff {m : Market D} :
    (some (mirrorRow (db.markets.find (marketPda m)) m)).filter live =
      (db.markets.find (marketPda m)).filter live ↔ Unchanged db m := by
  have htype : ∀ r, db.markets.find (marketPda m) = some r → r.data.marketType = m.marketType :=
    fun r hr => congrArg Prod.snd (slot_of_pda (find_pda hr))
  have hmirror : ∀ before, (mirrorRow before m).data.marketType = m.marketType := fun _ => rfl
  unfold Unchanged
  cases hfind : db.markets.find (marketPda m) with
  | none => simp [Option.filter, live, hmirror]
  | some r =>
    have hrow := mirrorRow_eq_iff (find_pda hfind)
    by_cases hdead : m.marketType ∈ deadGenerations <;>
      simp [Option.filter, live, hmirror, htype r hfind, hdead, hrow]

/-- A pick of one run is a pick of another that lists it, or another market has
its key there. -/
theorem picked_or_displaced {L₁ L₂ : List (Market D)} {m : Market D} (h : Picked cfg db L₁ m)
    (hm : m ∈ L₂) :
    Picked cfg db L₂ m ∨ ∃ x, Picked cfg db L₂ x ∧ bestKey x = bestKey m ∧ x ≠ m := by
  obtain ⟨x, hx, hkey⟩ := exists_picked hm h.pickable.top.mem.2 h.2
  by_cases hxm : x = m
  · exact .inl (hxm ▸ hx)
  · exact .inr ⟨x, hx, hkey, hxm⟩

section Runs
variable (fits cfg db)

def Run (all : List (Market D)) (db' : Db) : Prop :=
  ∃ report, syncMarkets fits cfg all db = .ok report db'

variable {fits cfg db} {L₁ L₂ : List (Market D)} {db₁ db₂ : Db}

/-- Two runs leave the same row at an address if a pick of only one of them makes
no difference there. -/
theorem find_agree (h₁ : Run fits cfg db L₁ db₁) (h₂ : Run fits cfg db L₂ db₂) {k : Pubkey}
    (hsame : ∀ m x, Picked cfg db L₁ m → Picked cfg db L₂ x → marketPda m = marketPda x → m = x)
    (hleft : ∀ m, Picked cfg db L₁ m → marketPda m = k → Picked cfg db L₂ m ∨ Unchanged db m)
    (hright : ∀ m, Picked cfg db L₂ m → marketPda m = k → Picked cfg db L₁ m ∨ Unchanged db m) :
    db₁.markets.find k = db₂.markets.find k := by
  obtain ⟨_, h₁⟩ := h₁
  obtain ⟨_, h₂⟩ := h₂
  obtain ⟨hpicks₁, hrows₁⟩ := syncMarkets_find h₁
  obtain ⟨hpicks₂, hrows₂⟩ := syncMarkets_find h₂
  by_cases hk₁ : ∃ m, Picked cfg db L₁ m ∧ marketPda m = k <;>
    by_cases hk₂ : ∃ m, Picked cfg db L₂ m ∧ marketPda m = k
  · obtain ⟨m, hm, rfl⟩ := hk₁
    obtain ⟨x, hx, hxm⟩ := hk₂
    obtain rfl := hsame m x hm hx hxm.symm
    rw [hpicks₁ m hm, hpicks₂ m hx]
  · obtain ⟨m, hm, rfl⟩ := hk₁
    have hnot : ∀ x, Picked cfg db L₂ x → marketPda x ≠ marketPda m :=
      fun x hx hxm => hk₂ ⟨x, hx, hxm⟩
    rw [hpicks₁ m hm, hrows₂ _ hnot]
    exact unchanged_iff.mpr ((hleft m hm rfl).resolve_left fun h => hnot m h rfl)
  · obtain ⟨m, hm, rfl⟩ := hk₂
    have hnot : ∀ x, Picked cfg db L₁ x → marketPda x ≠ marketPda m :=
      fun x hx hxm => hk₁ ⟨x, hx, hxm⟩
    rw [hpicks₂ m hm, hrows₁ _ hnot]
    exact (unchanged_iff.mpr ((hright m hm rfl).resolve_left fun h => hnot m h rfl)).symm
  · rw [hrows₁ k fun m hm hmk => hk₁ ⟨m, hm, hmk⟩, hrows₂ k fun m hm hmk => hk₂ ⟨m, hm, hmk⟩]

/-- A pick that another run, agreeing on its row, does not make changes nothing. -/
theorem unchanged_of_agree (h₁ : Run fits cfg db L₁ db₁) (h₂ : Run fits cfg db L₂ db₂)
    {m : Market D} (hm : Picked cfg db L₁ m)
    (hnot : ∀ x, Picked cfg db L₂ x → marketPda x ≠ marketPda m)
    (hagree : db₁.markets.find (marketPda m) = db₂.markets.find (marketPda m)) :
    Unchanged db m := by
  obtain ⟨_, h₁⟩ := h₁
  obtain ⟨_, h₂⟩ := h₂
  rw [(syncMarkets_find h₁).1 m hm, (syncMarkets_find h₂).2 _ hnot] at hagree
  exact unchanged_iff.mp hagree

end Runs

section Isolation
variable (fits cfg db) (M N : List (Market D))

/-- In any order, a run over both sets completes, leaves the rows of `M` as a
run over `M` alone, which completes too, and leaves every row as it does in any
other order. -/
def Isolated : Prop :=
  ∀ L L' K : List (Market D), L.Perm (M ++ N) → L'.Perm (M ++ N) → K.Perm M →
    ∃ db₁ db₂ db₃, Run fits cfg db L db₁ ∧ Run fits cfg db L' db₂ ∧ Run fits cfg db K db₃ ∧
      (∀ k, db₁.markets.find k = db₂.markets.find k) ∧
      ∀ m ∈ M, db₁.markets.find (marketPda m) = db₃.markets.find (marketPda m)

/-- The table takes every market that some listing makes a pick, with strangers
or without, and one that another pick of its key can displace makes no
difference. -/
structure Robust : Prop where
  writable : ∀ m, Pickable cfg db (M ++ N) m ∨ Pickable cfg db M m → Writable fits db m
  unchanged : ∀ m x, Pickable cfg db (M ++ N) m ∨ Pickable cfg db M m →
    Pickable cfg db (M ++ N) x → bestKey x = bestKey m → x ≠ m → Unchanged db m

variable {fits cfg db M N}

theorem Pickable.mem_append {m : Market D}
    (h : Pickable cfg db (M ++ N) m ∨ Pickable cfg db M m) : m ∈ M ++ N :=
  h.elim (·.top.mem.1) fun h => List.mem_append_left N h.top.mem.1

/-- The best of `M` is the best of all if one of `M` is. -/
theorem Pickable.extend {m x : Market D} (hm : Pickable cfg db (M ++ N) m) (hmM : m ∈ M)
    (hx : Pickable cfg db M x) (hkey : bestKey x = bestKey m) : Pickable cfg db (M ++ N) x := by
  refine ⟨hx.known, ⟨List.mem_append_left N hx.top.mem.1, hx.top.mem.2⟩, fun y hy hyx => ?_⟩
  calc marketRank y ≤ marketRank m := hm.top.le y hy (hyx.trans hkey)
    _ ≤ marketRank x := hx.top.le m ⟨hmM, hm.top.mem.2⟩ hkey.symm

/-- A pick of one run is a pick of another that lists it, or makes no difference. -/
theorem Robust.picked_or_unchanged (h : Robust fits cfg db M N) {L₁ L₂ : List (Market D)}
    {m : Market D} (hm : Picked cfg db L₁ m) (hmem : m ∈ L₂)
    (hpick : Pickable cfg db (M ++ N) m ∨ Pickable cfg db M m)
    (hothers : ∀ x, Picked cfg db L₂ x → bestKey x = bestKey m → Pickable cfg db (M ++ N) x) :
    Picked cfg db L₂ m ∨ Unchanged db m := by
  refine (picked_or_displaced hm hmem).imp_right ?_
  rintro ⟨x, hx, hkey, hne⟩
  exact h.unchanged m x hpick (hothers x hx hkey) hkey hne

theorem Robust.isolated (h : Robust fits cfg db M N)
    (hdistinct : ((M ++ N).map marketPda).Nodup) : Isolated fits cfg db M N := by
  have hinj : ∀ m ∈ M ++ N, ∀ x ∈ M ++ N, marketPda m = marketPda x → m = x :=
    fun m hm x hx => List.inj_on_of_nodup_map hdistinct hm hx
  intro L L' K hL hL' hK
  have hall : ∀ {L m}, L.Perm (M ++ N) → Picked cfg db L m → Pickable cfg db (M ++ N) m :=
    fun hL hm => hm.pickable.perm hL
  have halone : ∀ {m}, Picked cfg db K m → Pickable cfg db M m := fun hm => hm.pickable.perm hK
  obtain ⟨r₁, db₁, h₁⟩ := syncMarkets_ok_iff.mpr fun m hm => h.writable m (.inl (hall hL hm))
  obtain ⟨r₂, db₂, h₂⟩ := syncMarkets_ok_iff.mpr fun m hm => h.writable m (.inl (hall hL' hm))
  obtain ⟨r₃, db₃, h₃⟩ := syncMarkets_ok_iff.mpr fun m hm => h.writable m (.inr (halone hm))
  have hother : ∀ {L₁ L₂}, L₁.Perm (M ++ N) → L₂.Perm (M ++ N) → ∀ m, Picked cfg db L₁ m →
      Picked cfg db L₂ m ∨ Unchanged db m := fun hL₁ hL₂ m hm =>
    h.picked_or_unchanged hm (hL₂.mem_iff.mpr (hall hL₁ hm).top.mem.1) (.inl (hall hL₁ hm))
      fun x hx _ => hall hL₂ hx
  refine ⟨db₁, db₂, db₃, ⟨r₁, h₁⟩, ⟨r₂, h₂⟩, ⟨r₃, h₃⟩, fun k => ?_, fun m₀ hm₀ => ?_⟩
  · refine find_agree ⟨r₁, h₁⟩ ⟨r₂, h₂⟩ (fun m x hm hx => ?_)
      (fun m hm _ => hother hL hL' m hm) (fun m hm _ => hother hL' hL m hm)
    exact hinj m (hall hL hm).top.mem.1 x (hall hL' hx).top.mem.1
  · refine find_agree ⟨r₁, h₁⟩ ⟨r₃, h₃⟩ (fun m x hm hx => ?_) (fun m hm hpda => ?_)
      (fun m hm hpda => ?_)
    · exact hinj m (hall hL hm).top.mem.1 x (Pickable.mem_append (.inr (halone hx)))
    · have hmM : m ∈ M := hinj m (hall hL hm).top.mem.1 m₀ (List.mem_append_left N hm₀) hpda ▸ hm₀
      exact h.picked_or_unchanged hm (hK.mem_iff.mpr hmM) (.inl (hall hL hm))
        fun x hx hkey => (hall hL hm).extend hmM (halone hx) hkey
    · have hmem := hL.mem_iff.mpr (Pickable.mem_append (.inr (halone hm)))
      exact h.picked_or_unchanged hm hmem (.inr (halone hm)) fun x hx _ => hall hL hx

theorem Isolated.robust (h : Isolated fits cfg db M N)
    (hdistinct : ((M ++ N).map marketPda).Nodup) : Robust fits cfg db M N := by
  refine ⟨fun m hm => ?_, fun m x hm hx hkey hne => ?_⟩
  · rcases hm with hm | hm
    · obtain ⟨L, hL, hpick⟩ := hm.exists_picked
      obtain ⟨db₁, -, -, ⟨r, hrun⟩, -⟩ := h L L M hL hL (.refl M)
      exact syncMarkets_ok_iff.mp ⟨r, db₁, hrun⟩ m hpick
    · obtain ⟨K, hK, hpick⟩ := hm.exists_picked
      obtain ⟨-, -, db₃, -, -, ⟨r, hrun⟩, -⟩ := h (M ++ N) (M ++ N) K (.refl _) (.refl _) hK
      exact syncMarkets_ok_iff.mp ⟨r, db₃, hrun⟩ m hpick
  · obtain ⟨L', hL', hxpick⟩ := hx.exists_picked
    have hnot : ∀ y, Picked cfg db L' y → marketPda y ≠ marketPda m := by
      intro y hy hpda
      obtain rfl := hxpick.eq_of_key hy ((bestKey_of_slot (marketSlot_of_pda hpda)).trans hkey.symm)
      exact hne (List.inj_on_of_nodup_map hdistinct hx.top.mem.1 (Pickable.mem_append hm) hpda)
    rcases hm with hm | hm
    · obtain ⟨L, hL, hpick⟩ := hm.exists_picked
      obtain ⟨db₁, db₂, -, h₁, h₂, -, hrows, -⟩ := h L L' M hL hL' (.refl M)
      exact unchanged_of_agree h₁ h₂ hpick hnot (hrows _)
    · obtain ⟨K, hK, hpick⟩ := hm.exists_picked
      obtain ⟨db₂, -, db₃, h₂, -, h₃, -, hrows⟩ := h L' L' K hL' hL' hK
      exact unchanged_of_agree h₃ h₂ hpick hnot (hrows m hm.top.mem.1).symm

/-- The accounts may be split in any way, by their creator in particular. -/
theorem mirror_isolated_iff (hdistinct : ((M ++ N).map marketPda).Nodup) :
    Isolated fits cfg db M N ↔ Robust fits cfg db M N :=
  ⟨fun h => h.robust hdistinct, fun h => h.isolated hdistinct⟩

end Isolation

/-! ## The accounts of a world -/

section Worlds
variable [Inhabited D] {O : OracleProgram D} {w : World D}

/-- `Chain.allMarkets`, up to the order: no creator is filtered out. -/
def allMarkets (w : World D) : List (Market D) := w.books.entries.map (·.2.market)

theorem allMarkets_distinct (hw : Reachable O w) : ((allMarkets w).map marketPda).Nodup := by
  have hkeys : (allMarkets w).map marketPda = w.books.keys := by
    rw [allMarkets, List.map_map, AList.keys, List.keys]
    refine List.map_congr_left fun e he => ?_
    exact ((reachable_wellFormed hw).books e.1 e.2 (AList.mem_lookup_iff.mpr he)).key.symm
  exact hkeys ▸ w.books.keys_nodup

variable (fits cfg db) in
/-- Whatever reachable world the keeper lists, and whoever the keeper is. -/
theorem reachable_isolated_iff (hw : Reachable O w) (keeper : Pubkey) :
    let own := (allMarkets w).filter fun m => m.authority = keeper
    let foreign := (allMarkets w).filter fun m => m.authority ≠ keeper
    Isolated fits cfg db own foreign ↔ Robust fits cfg db own foreign := by
  intro own foreign
  have hsplit : (own ++ foreign).Perm (allMarkets w) := by
    simpa [own, foreign] using List.filter_append_perm (fun m => decide (m.authority = keeper))
      (allMarkets w)
  have hdistinct := (hsplit.map marketPda).nodup_iff.mpr (allMarkets_distinct hw)
  exact ⟨fun h => h.robust hdistinct, fun h => h.isolated hdistinct⟩

end Worlds

/-- One account that outranks the rest of its key stops every sync, in any order,
while another market's row has its fixture and type. -/
theorem stranger_stops_sync {all : List (Market D)} {s : Market D} (hs : Pickable cfg db all s)
    (hbest : ∀ x, Pickable cfg db all x → bestKey x = bestKey s → x = s)
    (hrow : ¬ db.markets.Free (marketPda s) (marketSlot s)) {L : List (Market D)}
    (hL : L.Perm all) (db' : Db) : ¬ Run fits cfg db L db' := by
  rintro ⟨report, hrun⟩
  obtain ⟨x, hx, hkey⟩ := exists_picked (hL.mem_iff.mpr hs.top.mem.1) hs.top.mem.2 hs.known
  obtain rfl := hbest x (hx.pickable.perm hL) hkey
  exact hrow (syncMarkets_ok_iff.mp ⟨report, db', hrun⟩ x hx).2

/-! ## A catalogue market and a squatter -/

def catalogueMarket (authority : Pubkey) (status : MarketStatus) (pool : ℕ) : Market Unit :=
  ⟨authority, 7, 28, status, 2, unsetOutcome, 200, 100, 50, .key 9, .key 1, .key 31, .key 21, pool,
    0, 0, 0, 0, false, 0, (), 0, 0, .default, .default, [⟨homeWin, pool⟩, ⟨awayWin, 0⟩]⟩

def keeperMarket (status : MarketStatus) : Market Unit := catalogueMarket (.key 20) status 0

/-- Anyone can create it and stake one unit. -/
def squatter : Market Unit := catalogueMarket (.key 66) .opened 1

/-- The fixture is indexed and an earlier sync wrote the keeper's open market. -/
def mirrorDb : Db :=
  ⟨[7], ⟨[mirrorRow none (keeperMarket .opened)], List.nodup_singleton _, List.nodup_singleton _⟩,
    [], []⟩

def catalogueConfig : KeeperConfig := ⟨[28]⟩

theorem mem_pair {status : MarketStatus} {m : Market Unit}
    (h : m ∈ [keeperMarket status] ++ [squatter]) : m = keeperMarket status ∨ m = squatter := by
  simpa using h

/-- Once settled, the keeper's market outranks the squatter's. -/
theorem pickable_settled {m : Market Unit}
    (h : Pickable catalogueConfig mirrorDb ([keeperMarket .settled] ++ [squatter]) m) :
    m = keeperMarket .settled := by
  refine (mem_pair h.top.mem.1).resolve_right ?_
  rintro rfl
  exact absurd (h.top.le (keeperMarket .settled) ⟨by decide, by decide⟩ rfl) (by decide)

theorem mirror_isolated_iff_settled :
    Isolated (fun _ => true) catalogueConfig mirrorDb [keeperMarket .settled] [squatter] := by
  refine (mirror_isolated_iff (by decide)).mpr ⟨fun m hm => ?_, fun m x hm hx _ hne => ?_⟩
  · have hkeeper : m = keeperMarket .settled :=
      hm.elim pickable_settled fun h => List.mem_singleton.mp h.top.mem.1
    subst hkeeper
    exact ⟨rfl, by decide⟩
  · have hkeeper : m = keeperMarket .settled :=
      hm.elim pickable_settled fun h => List.mem_singleton.mp h.top.mem.1
    exact absurd ((pickable_settled hx).trans hkeeper.symm) hne

theorem pickable_squatter :
    Pickable catalogueConfig mirrorDb ([keeperMarket .opened] ++ [squatter]) squatter := by
  refine ⟨by decide, ⟨by decide, by decide⟩, fun y hy _ => ?_⟩
  rcases mem_pair hy.1 with rfl | rfl <;> decide

/-- A stranger's market of the same fixture and type, with a unit staked, makes
the sync violate the unique constraint. -/
theorem mirror_not_isolated :
    squatter.authority ≠ (keeperMarket .opened).authority ∧
      ((([keeperMarket .opened] ++ [squatter]).map marketPda).Nodup) ∧
      ¬ Isolated (fun _ => true) catalogueConfig mirrorDb [keeperMarket .opened] [squatter] := by
  refine ⟨by decide, by decide, fun h => ?_⟩
  exact absurd ((h.robust (by decide)).writable squatter (.inl pickable_squatter)).2 (by decide)

end ProofBook.Mirror
