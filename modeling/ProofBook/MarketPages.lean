import ProofBook.Lib.OffsetPaging
import ProofBook.Mirror
import ProofBook.Store

/-!
# The board, page by page

The site fetches the markets in pages of 200 and puts them together. Each page is a
query of its own, ordered by one column that many markets share.
-/
namespace ProofBook.MarketPages
open Addresses DbSync OffsetPaging
open Store (FixtureRow ProofStatus)
open ProofBook.State (MarketStatus)

/-- A row of `markets` with its fixture. -/
structure Listed where
  market : MarketRow
  fixture : FixtureRow
  joined : fixture.id = market.data.fixtureId

structure Board where
  rows : List Listed
  primary : (rows.map (·.market.pda)).Nodup

inductive SortBy
  | kickoff
  | kickoffDesc
  | pool
  | settledDesc
deriving DecidableEq

/-- The filter of a request; types are those of the comma-separated text. -/
structure MarketFilter where
  stage : Option String
  status : Option MarketStatus
  proofStatus : Option ProofStatus
  marketType : List ℕ
  fixtureId : Option ℤ
  sort : Option SortBy

/-! ## The service -/

structure MarketQuery extends MarketFilter where
  limit : ℕ
  offset : ℕ

/-- Whether a field is absent, empty or 0, or the value of the row. -/
def asks {A : Type} [DecidableEq A] (empty : A → Bool) (field : Option A) (value : A) : Bool :=
  match field with
  | some a => empty a || a == value
  | none => true

/-- The condition of the query. -/
def MarketFilter.selects (f : MarketFilter) (r : Listed) : Bool :=
  asks (fun _ => false) f.status r.market.data.status &&
    asks (· = 0) f.fixtureId r.market.data.fixtureId &&
    (f.marketType.isEmpty || f.marketType.contains r.market.data.marketType) &&
    asks (· = "") f.stage r.fixture.stage &&
    asks (fun _ => false) f.proofStatus r.fixture.proofStatus

/-- The column of the order, ascending; what descends is negated, and a descending null
comes first. -/
def orderBy (sort : SortBy) (r : Listed) : WithBot ℤ :=
  match sort with
  | .kickoff => r.fixture.kickoffTs
  | .kickoffDesc => (-r.fixture.kickoffTs : ℤ)
  | .pool => (-r.market.data.totalPool : ℤ)
  | .settledDesc => r.market.data.settledAt.map (-·)

structure Paginated where
  items : List Listed
  total : ℕ
  limit : ℕ
  offset : ℕ
  hasMore : Bool

def Board.select (b : Board) (f : MarketFilter) : List Listed := b.rows.filter f.selects

/-- The answer to a query when the database puts the rows in this order. -/
def listMarkets (b : Board) (order : List Listed) (q : MarketQuery) : Paginated :=
  let total := (b.select q.toMarketFilter).length
  let rows := (order.drop q.offset).take q.limit
  ⟨rows, total, q.limit, q.offset, decide (q.offset + rows.length < total)⟩

/-! ## The site -/

/-- The loop over the pages from an offset on, with what was fetched before. -/
def fetchPages (markets : ℕ → Paginated) (items : List Listed) (offset : ℕ) : List Listed :=
  let page := markets offset
  let fetched := items ++ page.items
  if page.hasMore = false ∨ page.items = [] then fetched
  else if 5000 < fetched.length then fetched
  else fetchPages markets fetched (offset + 200)
termination_by 5001 - items.length
decreasing_by
  rename_i hmore hlong
  have hpos := List.length_pos_iff.mpr (not_or.mp hmore).2
  simp only [fetched, page, List.length_append] at hlong hpos ⊢
  omega

/-- The pages put together; the database orders the rows anew for each query. -/
def allMarkets (b : Board) (orders : ℕ → List Listed) (f : MarketFilter) : List Listed :=
  fetchPages (fun offset => listMarkets b (orders offset) { f with limit := 200, offset }) [] 0

/-- The orders that the database may give the rows of each query. -/
def Answers (b : Board) (f : MarketFilter) (orders : ℕ → List Listed) : Prop :=
  ∀ offset, Orders (orderBy (f.sort.getD .kickoff)) (b.select f) (orders offset)

/-! ## The loop -/

variable {b : Board} {f : MarketFilter} {orders : ℕ → List Listed}

theorem Board.select_nodup (b : Board) (f : MarketFilter) : (b.select f).Nodup :=
  (List.Nodup.of_map _ b.primary).filter _

/-- The page at an offset. -/
def page (b : Board) (orders : ℕ → List Listed) (f : MarketFilter) (offset : ℕ) : Paginated :=
  listMarkets b (orders offset) { f with limit := 200, offset }

theorem page_items (k : ℕ) : pages orders 200 (k + 1) =
    pages orders 200 k ++ (page b orders f (200 * k)).items := pages_succ orders 200 k

theorem page_length (h : Answers b f orders) (k : ℕ) :
    (page b orders f (200 * k)).items.length = min 200 ((b.select f).length - 200 * k) := by
  simp only [page, listMarkets, List.length_take, List.length_drop, (h _).length_eq]

theorem page_hasMore (h : Answers b f orders) (k : ℕ) :
    (page b orders f (200 * k)).hasMore = decide (200 * (k + 1) < (b.select f).length) := by
  have hlen := page_length h k
  have hmore : (page b orders f (200 * k)).hasMore = decide
      (200 * k + (page b orders f (200 * k)).items.length < (b.select f).length) := rfl
  rw [hmore, hlen]
  congr 1
  apply propext
  omega

/-- The loop fetches the pages that are left, and ends. -/
theorem fetchPages_eq (h : Answers b f orders) (hn : (b.select f).length ≤ 5000) {k left : ℕ}
    (hleft : (b.select f).length ≤ 200 * (k + left + 1))
    (hmore : left ≠ 0 → 200 * (k + left) < (b.select f).length) :
    fetchPages (page b orders f) (pages orders 200 k) (200 * k) =
      pages orders 200 (k + left + 1) := by
  induction left generalizing k with
  | zero =>
      have hlast : (page b orders f (200 * k)).hasMore = false := by
        rw [page_hasMore h k]
        exact decide_eq_false (not_lt.mpr hleft)
      rw [fetchPages]
      rw [if_pos (Or.inl hlast), ← page_items, Nat.add_zero]
  | succ left ih =>
      have hlt := hmore (Nat.succ_ne_zero left)
      have hgoes : ¬ ((page b orders f (200 * k)).hasMore = false ∨
          (page b orders f (200 * k)).items = []) := by
        rw [page_hasMore h k, ← List.length_eq_zero_iff, page_length h k]
        simp only [decide_eq_false_iff_not]
        omega
      have hshort : ¬ 5000 < (pages orders 200 (k + 1)).length := by
        rw [pages_length h]
        omega
      rw [fetchPages]
      rw [if_neg hgoes, ← page_items, if_neg hshort, ← Nat.mul_succ]
      have hnext := @ih (k + 1) (by omega) (fun _ => by omega)
      rw [hnext]
      congr 1
      omega

theorem allMarkets_eq (h : Answers b f orders) (hn : (b.select f).length ≤ 5000) :
    allMarkets b orders f = pages orders 200 (((b.select f).length - 1) / 200 + 1) := by
  have hloop := @fetchPages_eq b f orders h hn 0 (((b.select f).length - 1) / 200)
    (by omega) (fun _ => by omega)
  rw [Nat.zero_add] at hloop
  exact hloop

/-- Whatever the database does with ties, the site gets the matching markets, each once,
if and only if no markets that tie are on both sides of the end of a page. -/
theorem all_markets_whole (b : Board) (f : MarketFilter) (hn : b.rows.length ≤ 5000) :
    (∀ orders, Answers b f orders → (allMarkets b orders f).Perm (b.select f)) ↔
      ∀ k, ∀ m ∈ b.select f,
        ¬ Straddles (orderBy (f.sort.getD .kickoff)) (b.select f) (200 * k) m := by
  have hselect : (b.select f).length ≤ 5000 := (List.length_filter_le _ _).trans hn
  have hcount : (b.select f).length ≤ 200 * (((b.select f).length - 1) / 200 + 1) := by omega
  rw [← pages_perm_iff (b.select_nodup f) (by omega) hcount]
  apply forall_congr'
  intro orders
  apply forall_congr'
  intro horders
  rw [allMarkets_eq horders hselect]

/-! ## Markets of one kickoff -/

/-- The market of the `i`th fixture; all fixtures kick off together. -/
def sameKickoff (i : ℕ) : Listed where
  market := mirrorRow none { Mirror.keeperMarket .opened with fixtureId := Int64.ofNat i }
  fixture := Store.fixtureRow (fun _ => none) (Store.freshFixture (Int64.ofNat i).toInt)
  joined := rfl

theorem sameKickoff_nodup {n : ℕ} (hn : n ≤ 5000) :
    (((List.range n).map sameKickoff).map (·.market.pda)).Nodup := by
  rw [List.map_map]
  apply List.Nodup.map_on _ List.nodup_range
  intro i hi j hj h
  have hid : Int64.ofNat i = Int64.ofNat j := by
    injection h
  have hint := congrArg Int64.toInt hid
  rw [List.mem_range] at hi hj
  rw [Int64.toInt_ofNat_of_lt (by omega), Int64.toInt_ofNat_of_lt (by omega)] at hint
  exact_mod_cast hint

def crowdedBoard (n : ℕ) (hn : n ≤ 5000) : Board :=
  ⟨(List.range n).map sameKickoff, sameKickoff_nodup hn⟩

def noFilter : MarketFilter := ⟨none, none, none, [], none, none⟩

theorem crowdedBoard_select {n : ℕ} (hn : n ≤ 5000) :
    (crowdedBoard n hn).select noFilter = (List.range n).map sameKickoff :=
  List.filter_eq_self.mpr fun _ _ => rfl

theorem orderBy_sameKickoff (i : ℕ) : orderBy .kickoff (sameKickoff i) = (0 : ℤ) := rfl

theorem sameKickoff_straddles {n j b : ℕ} :
    Straddles (orderBy .kickoff) ((List.range n).map sameKickoff) b (sameKickoff j) ↔
      0 < b ∧ b < n := by
  have hbefore :
      before (orderBy .kickoff) ((List.range n).map sameKickoff) (sameKickoff j) = 0 := by
    rw [before, List.countP_map, List.countP_eq_zero]
    intro i _
    simp [orderBy_sameKickoff]
  have hupTo : upTo (orderBy .kickoff) ((List.range n).map sameKickoff) (sameKickoff j) = n := by
    rw [upTo, List.countP_map]
    refine (List.countP_eq_length.mpr ?_).trans List.length_range
    intro i _
    simp [orderBy_sameKickoff]
  rw [Straddles, hbefore, hupTo]

/-- The `i`th fixture kicks off at time `i`. -/
def ownKickoff (i : ℕ) : Listed where
  market := (sameKickoff i).market
  fixture := { (sameKickoff i).fixture with kickoffTs := i }
  joined := rfl

theorem orderBy_ownKickoff (i : ℕ) : orderBy .kickoff (ownKickoff i) = ((i : ℤ) : WithBot ℤ) := rfl

def steadyBoard (n : ℕ) (hn : n ≤ 5000) : Board where
  rows := (List.range n).map ownKickoff
  primary := by
    have hnodup := sameKickoff_nodup hn
    rw [List.map_map] at hnodup ⊢
    exact hnodup

theorem steadyBoard_select {n : ℕ} (hn : n ≤ 5000) :
    (steadyBoard n hn).select noFilter = (List.range n).map ownKickoff :=
  List.filter_eq_self.mpr fun _ _ => rfl

theorem all_markets_whole_two :
    let b := steadyBoard 250 (by omega)
    (b.select noFilter).length = 250 ∧
      (allMarkets b (fun _ => b.rows) noFilter).Perm (b.select noFilter) := by
  intro b
  have hselect : b.select noFilter = (List.range 250).map ownKickoff := steadyBoard_select _
  have hrows : b.rows.length = 250 := by simp [b, steadyBoard]
  refine ⟨by rw [hselect, List.length_map, List.length_range], ?_⟩
  apply (all_markets_whole b noFilter (by omega)).mpr
  · intro k m _
    apply not_straddles_of_nodup
    rw [hselect, List.map_map]
    apply List.Nodup.map_on _ List.nodup_range
    intro i _ j _ h
    have hkeys : ((i : ℤ) : WithBot ℤ) = (j : ℤ) := h
    exact_mod_cast hkeys
  · intro offset
    constructor
    · rw [hselect]
      exact .refl _
    · apply List.pairwise_map.mpr
      apply List.pairwise_lt_range.imp
      intro i j h
      rw [noFilter, Option.getD_none, orderBy_ownKickoff, orderBy_ownKickoff]
      exact_mod_cast h.le

/-- With 201 of them the database can show one on both pages, and another on none. -/
theorem all_markets_repeats :
    let b := crowdedBoard 201 (by omega)
    b.rows.length ≤ 5000 ∧ ∃ orders, Answers b noFilter orders ∧
      ¬ (allMarkets b orders noFilter).Perm (b.select noFilter) := by
  intro b
  have hlen : (b.select noFilter).length = 201 := by
    rw [crowdedBoard_select, List.length_map, List.length_range]
  have hstraddles : Straddles (orderBy .kickoff) (b.select noFilter) (200 * (0 + 1))
      (sameKickoff 0) := by
    rw [crowdedBoard_select]
    exact sameKickoff_straddles.mpr (by omega)
  obtain ⟨orders, horders, hrepeats⟩ :=
    @Straddles.exists_repeats _ _ _ _ _ _ 200 2 0 (by omega) hstraddles (by omega)
  have hrows : b.rows.length = 201 := by simp [b, crowdedBoard]
  have hanswers : Answers b noFilter orders := horders
  refine ⟨by omega, orders, hanswers, fun hperm => hrepeats ?_⟩
  rw [allMarkets_eq hanswers (by omega), hlen] at hperm
  exact hperm.nodup_iff.mpr (b.select_nodup noFilter)

end ProofBook.MarketPages
