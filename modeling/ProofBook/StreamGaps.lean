import ProofBook.EventStream

/-!
# Gaps in the stream

A web client resumes from the id it received last, so it must have received every
earlier event of its types since the first one. It has, as long as no instance
broadcasts an event to it before an older one that its replay did not show, none
while it stands between its replay query and its registration, and a resuming
replay is neither cut off nor lost.
-/
namespace ProofBook.EventStream
open LogReader Runs

/-! ## The property -/

section
variable (cfg : Config)

/-- An event of a type the client gets and listens to. -/
def Subscribed (c : ℕ) (row : Row) : Prop := wants cfg c row = true ∧ listensTo cfg c row = true

instance (c : ℕ) (row : Row) : Decidable (Subscribed cfg c row) :=
  inferInstanceAs (Decidable (_ ∧ _))

/-- The ids of the events of a client's types. -/
def log (rows : List Row) (c id : ℕ) : Prop := ∃ row ∈ rows, row.id = id ∧ Subscribed cfg c row

/-- Of the events after the first it received, the client has all that are older
than the one it would resume from. -/
def NoGap (s : State) (c : ℕ) : Prop := Gapless (log cfg s.rows c) (s.clients c).reader

/-! ## The condition -/

/-- The frames on their way to the client, with the rows its replay is about to write. -/
def Conn.frames (q : Conn) : List Row :=
  match q.phase with
  | .queried result => q.wire ++ result
  | _ => q.wire

/-- The ids among the frames that the client hears. -/
def heard (q : Conn) : List ℕ := (q.frames.filter (listensTo cfg q.client ·)).map (·.id)

/-- The replay query has run, and the connection does not get broadcasts yet. -/
def Conn.between (q : Conn) : Bool :=
  match q.phase with
  | .queried _ | .replayed => true
  | _ => false

/-- A broadcast comes to the connection in order. -/
def InOrder (s : State) (n : ℕ) (row : Row) (q : Conn) : Prop :=
  (q.between = true → row.id ≤ q.mark) ∧
    (q.phase = .registered →
      (∀ row' ∈ s.rows, Subscribed cfg q.client row' → q.mark < row'.id → row'.id < row.id →
        row'.id ∈ s.sent n) ∧
      (((s.clients q.client).reader.feed (heard cfg q)).first = none → q.low ≤ row.id))

instance (s : State) (n : ℕ) (row : Row) (q : Conn) : Decidable (InOrder cfg s n row q) :=
  inferInstanceAs (Decidable (_ ∧ (_ → _ ∧ _)))

/-- The connections clients hold now. -/
def Held (s : State) (k : ℕ) (q : Conn) : Prop := (s.clients q.client).conn = some k

instance (s : State) (k : ℕ) (q : Conn) : Decidable (Held s k q) :=
  inferInstanceAs (Decidable (_ = _))

def Orderly (s : State) : Op → Prop
  | .dispatch n id true =>
      ∀ row ∈ s.rows, row.id = id → ∀ k < s.connected, (s.conns k).all (fun q =>
        decide (Held s k q → q.server = n → Subscribed cfg q.client row →
          InOrder cfg s n row q)) = true
  | .query k ok =>
      (s.conns k).all (fun q => decide (Held s k q → q.afterId.isSome →
        skippedHeard cfg s.rows q ok = [])) = true
  | _ => True

instance (s : State) (op : Op) : Decidable (Orderly cfg s op) := by
  unfold Orderly
  split <;> infer_instance

end

/-! ## Rows -/

/-- Ids are assigned in increasing order, from one on. -/
structure RowsOk (rows : List Row) : Prop where
  sorted : rows.Pairwise (·.id < ·.id)
  pos : ∀ row ∈ rows, 0 < row.id

section
variable {cfg : Config} {rows : List Row} {row : Row} {c i : ℕ}

theorem RowsOk.le_latest (h : RowsOk rows) (hrow : row ∈ rows) : row.id ≤ latest rows := by
  have hsorted := h.sorted
  unfold latest
  induction rows using List.reverseRecOn with
  | nil => cases hrow
  | append_singleton rows x ih =>
      rw [List.pairwise_append] at hsorted
      simp only [List.getLast?_append, List.getLast?_singleton, Option.some_or, Option.map_some,
        Option.getD_some]
      rcases List.mem_append.mp hrow with hrow | hrow
      · exact (hsorted.2.2 row hrow x (List.mem_singleton_self x)).le
      · rw [List.mem_singleton.mp hrow]

theorem RowsOk.eq_of_id {row' : Row} (h : RowsOk rows) (hrow : row ∈ rows) (hrow' : row' ∈ rows)
    (hid : row.id = row'.id) : row = row' := by
  have hnodup : (rows.map (·.id)).Nodup := List.pairwise_map.mpr (h.sorted.imp fun h => h.ne)
  exact List.inj_on_of_nodup_map hnodup hrow hrow' hid

theorem RowsOk.filter (h : RowsOk rows) (keep : Row → Bool) : RowsOk (rows.filter keep) :=
  ⟨h.sorted.filter keep, fun row hrow => h.pos row (List.mem_of_mem_filter hrow)⟩

theorem RowsOk.latest_le {rows' : List Row} (h : RowsOk rows) (hsub : ∀ a ∈ rows', a ∈ rows) :
    latest rows' ≤ latest rows := by
  conv_lhs => unfold latest
  cases hlast : rows'.getLast? with
  | none => exact Nat.zero_le _
  | some a => exact h.le_latest (hsub a (List.mem_of_getLast? hlast))

theorem latest_concat (rows : List Row) (row : Row) : latest (rows ++ [row]) = row.id := by
  simp [latest]

theorem RowsOk.insert (h : RowsOk rows) (hlt : latest rows < row.id) : RowsOk (rows ++ [row]) := by
  refine ⟨List.pairwise_append.mpr ⟨h.sorted, List.pairwise_singleton .., ?_⟩, ?_⟩
  · intro a ha b hb
    rw [List.mem_singleton.mp hb]
    exact (h.le_latest ha).trans_lt hlt
  · intro a ha
    rcases List.mem_append.mp ha with ha | ha
    · exact h.pos a ha
    · rw [List.mem_singleton.mp ha]
      exact (Nat.zero_le _).trans_lt hlt

theorem log_insert (hi : log cfg (rows ++ [row]) c i) : log cfg rows c i ∨ i = row.id := by
  obtain ⟨row', hrow', rfl, hsub⟩ := hi
  rcases List.mem_append.mp hrow' with hrow' | hrow'
  · exact .inl ⟨row', hrow', rfl, hsub⟩
  · rw [List.mem_singleton.mp hrow']
    exact .inr rfl

/-! ## Replays -/

variable {q : Conn}

theorem skipped_append_queryResult (cfg : Config) (rows : List Row) (q : Conn) (ok : Bool) :
    skipped cfg rows q ok ++ queryResult cfg rows q ok = matching cfg rows q := by
  cases ok with
  | true =>
      change List.take _ _ ++ replayRows cfg rows q = _
      rw [replayRows, List.take_reverse, List.reverse_reverse, List.take_append_drop]
  | false => exact List.append_nil _

theorem rowsOk_matching (h : RowsOk rows) (q : Conn) : RowsOk (matching cfg rows q) := h.filter _

theorem mem_matching_of_log (hi : log cfg rows q.client i) (ha : ∀ l, q.afterId = some l → l < i) :
    ∃ row ∈ matching cfg rows q, row.id = i ∧ Subscribed cfg q.client row := by
  obtain ⟨row, hrow, rfl, hsub⟩ := hi
  refine ⟨row, List.mem_filter.mpr ⟨hrow, ?_⟩, rfl, hsub⟩
  cases hq : q.afterId with
  | none => simp [hsub.1]
  | some l => simp [hsub.1, ha l hq]

theorem RowsOk.le_of_mem_matching (h : RowsOk rows) (hrow : row ∈ matching cfg rows q) :
    row.id ≤ latest rows :=
  h.le_latest (List.mem_of_mem_filter hrow)

theorem latest_lt {rows' : List Row} (h : ∀ a ∈ rows, ∀ b ∈ rows', a.id < b.id)
    (hrow : row ∈ rows') (hpos : 0 < row.id) : latest rows < row.id := by
  unfold latest
  cases hlast : rows.getLast? with
  | none => exact hpos
  | some a => exact h a (List.mem_of_getLast? hlast) row hrow

/-- What a replay query leaves to the reader: all events after `low`, in order. -/
structure ReplayOk (cfg : Config) (rows : List Row) (q : Conn) (low : ℕ) (result : List Row) :
    Prop where
  sorted : result.Pairwise (·.id < ·.id)
  low_lt : ∀ row ∈ result, low < row.id
  le_latest : ∀ row ∈ result, row.id ≤ latest rows
  complete : ∀ i, log cfg rows q.client i → low < i →
    ∃ row ∈ result, row.id = i ∧ Subscribed cfg q.client row

theorem mem_skippedHeard {ok : Bool} : row ∈ skippedHeard cfg rows q ok ↔
    row ∈ skipped cfg rows q ok ∧ listensTo cfg q.client row = true := List.mem_filter

theorem mem_of_skippedHeard {ok : Bool} (hrow : row ∈ skippedHeard cfg rows q ok) : row ∈ rows := by
  have hmatch : row ∈ matching cfg rows q := by
    rw [← skipped_append_queryResult cfg rows q ok]
    exact List.mem_append_left _ (mem_skippedHeard.mp hrow).1
  exact List.mem_of_mem_filter hmatch

theorem RowsOk.skippedHeard (h : RowsOk rows) (q : Conn) (ok : Bool) :
    RowsOk (skippedHeard cfg rows q ok) := by
  have hm : RowsOk (matching cfg rows q) := rowsOk_matching h q
  rw [← skipped_append_queryResult cfg rows q ok] at hm
  have hskipped : RowsOk (skipped cfg rows q ok) :=
    ⟨(List.pairwise_append.mp hm.sorted).1, fun a ha => hm.pos a (List.mem_append_left _ ha)⟩
  exact hskipped.filter _

theorem replayOk_query (h : RowsOk rows) {ok : Bool}
    (hok : q.afterId.isSome → skippedHeard cfg rows q ok = []) :
    ReplayOk cfg rows q (queryConn cfg rows q ok).low (queryResult cfg rows q ok) := by
  have hm : RowsOk (matching cfg rows q) := rowsOk_matching h q
  have hsplit := skipped_append_queryResult cfg rows q ok
  have hsorted := hm.sorted
  rw [← hsplit, List.pairwise_append] at hsorted
  have hres : ∀ row ∈ queryResult cfg rows q ok, row ∈ matching cfg rows q := fun row hrow =>
    hsplit ▸ List.mem_append_right _ hrow
  refine ⟨hsorted.2.1, fun row hrow => ?_, fun row hrow => h.le_of_mem_matching (hres row hrow),
    fun i hi hlt => ?_⟩
  · cases hq : q.afterId with
    | some l =>
        have hmatch := (List.mem_filter.mp (hres row hrow)).2
        simpa [queryConn, hq] using (Bool.and_eq_true_iff.mp hmatch).2
    | none =>
        simp only [queryConn, hq, Option.getD_none]
        exact latest_lt (fun a ha b hb => hsorted.2.2 a (mem_skippedHeard.mp ha).1 b hb) hrow
          (hm.pos row (hres row hrow))
  · have hafter : ∀ l, q.afterId = some l → l < i := fun l hl => by
      simpa [queryConn, hl] using hlt
    obtain ⟨row, hrow, rfl, hs⟩ := mem_matching_of_log hi hafter
    rw [← hsplit] at hrow
    refine ⟨row, (List.mem_append.mp hrow).resolve_left fun hskip => ?_, rfl, hs⟩
    have hskip : row ∈ skippedHeard cfg rows q ok := mem_skippedHeard.mpr ⟨hskip, hs.2⟩
    cases hq : q.afterId with
    | some l =>
        rw [hok (by rw [hq]; rfl)] at hskip
        cases hskip
    | none =>
        simp only [queryConn, hq, Option.getD_none] at hlt
        exact absurd hlt (not_lt.mpr ((h.skippedHeard q ok).le_latest hskip))

end

/-! ## The invariant -/

structure ReaderOk (rows : List Row) (r : Reader ℕ) : Prop where
  last : ∀ l, r.last = some l → l ∈ r.got ∧ l ≤ latest rows
  unset : r.last = none → r.first = none

/-- The connection a client holds: what waits in it is safe, and once its replay
query has run the client knows the log with what waits. -/
structure ConnOk (cfg : Config) (rows : List Row) (sent : ℕ → List ℕ) (r : Reader ℕ) (c : ℕ)
    (q : Conn) : Prop where
  client : q.client = c
  safe : Safe (log cfg rows c) r (heard cfg q)
  bound : ∀ i ∈ heard cfg q, i ≤ latest rows
  marks : q.mark ≤ latest rows ∧ q.low ≤ latest rows
  requested : q.phase = .requested → q.afterId = r.last ∧ q.wire = []
  knows : q.between = true ∨ q.phase = .registered →
    Knows (log cfg rows c) (fun j => j ≤ q.mark ∨ j ∈ sent q.server) q.low
      (r.feed (heard cfg q))
  quiet : q.between = true → ∀ j ∈ sent q.server, log cfg rows c j → j ≤ q.mark

structure ClientOk (cfg : Config) (rows : List Row) (sent : ℕ → List ℕ)
    (conns : ℕ → Option Conn) (c : ℕ) (x : Client) : Prop where
  gapless : Gapless (log cfg rows c) x.reader
  reader : ReaderOk rows x.reader
  conn : ∀ k, x.conn = some k → ∃ q, conns k = some q ∧ ConnOk cfg rows sent x.reader c q

structure Fit (cfg : Config) (s : State) : Prop where
  rows : RowsOk s.rows
  sent : ∀ n, ∀ i ∈ s.sent n, i ≤ latest s.rows
  known : ∀ k, s.connected ≤ k → s.conns k = none
  clients : ∀ c, ClientOk cfg s.rows s.sent s.conns c (s.clients c)

section
variable {cfg : Config} {s t : State}

theorem fit_start (cfg : Config) : Fit cfg start where
  rows := ⟨.nil, nofun⟩
  sent _ := nofun
  known _ _ := rfl
  clients _ := ⟨gapless_new, ⟨nofun, fun _ => rfl⟩, nofun⟩

/-- One connection is replaced, and whoever holds it is still served. -/
theorem Fit.setConn (h : Fit cfg s) {k : ℕ} {q q' : Conn} (hq : s.conns k = some q)
    (hok : ∀ c, Held s k q → ConnOk cfg s.rows s.sent (s.clients c).reader c q →
      ConnOk cfg s.rows s.sent (s.clients c).reader c q') : Fit cfg (s.setConn k q') := by
  refine ⟨h.rows, h.sent, fun j hj => ?_, fun c => ?_⟩
  · have hne : j ≠ k := by
      rintro rfl
      cases (h.known j hj).symm.trans hq
    exact (Function.update_of_ne hne _ _).trans (h.known j hj)
  · obtain ⟨hg, hr, hc⟩ := h.clients c
    refine ⟨hg, hr, fun j hj => ?_⟩
    obtain ⟨x, hx, hxok⟩ := hc j hj
    by_cases hjk : j = k
    · subst hjk
      obtain rfl : q = x := Option.some.inj (hq.symm.trans hx)
      have hheld : Held s j q := by
        rw [Held, hxok.client]
        exact hj
      exact ⟨q', Function.update_self .., hok c hheld hxok⟩
    · exact ⟨x, (Function.update_of_ne hjk _ _).trans hx, hxok⟩

theorem Fit.setClient (h : Fit cfg s) {c : ℕ} {x : Client}
    (hx : ClientOk cfg s.rows s.sent s.conns c x) : Fit cfg (s.setClient c x) := by
  refine ⟨h.rows, h.sent, h.known, fun c' => ?_⟩
  by_cases hc : c' = c
  · subst hc
    simpa [State.setClient] using hx
  · simpa [State.setClient, Function.update_of_ne hc] using h.clients c'

/-- A client and the connection it holds change together. -/
theorem Fit.serve (h : Fit cfg s) {c k : ℕ} {q q' : Conn} {x : Client} (hq : s.conns k = some q)
    (hclient : q.client = c) (hx : x.conn = some k)
    (hg : Gapless (log cfg s.rows c) x.reader) (hr : ReaderOk s.rows x.reader)
    (hok : ConnOk cfg s.rows s.sent x.reader c q') :
    Fit cfg ((s.setConn k q').setClient c x) := by
  refine ⟨h.rows, h.sent, fun j hj => ?_, fun c' => ?_⟩
  · have hne : j ≠ k := by
      rintro rfl
      cases (h.known j hj).symm.trans hq
    exact (Function.update_of_ne hne _ _).trans (h.known j hj)
  · by_cases hc : c' = c
    · subst hc
      simp only [State.setClient, Function.update_self]
      refine ⟨hg, hr, fun j hj => ?_⟩
      obtain rfl : k = j := Option.some.inj (hx.symm.trans hj)
      exact ⟨q', Function.update_self .., hok⟩
    · simp only [State.setClient, Function.update_of_ne hc]
      obtain ⟨hg, hr, hconn⟩ := h.clients c'
      refine ⟨hg, hr, fun j hj => ?_⟩
      obtain ⟨y, hy, hyok⟩ := hconn j hj
      have hne : j ≠ k := by
        rintro rfl
        obtain rfl : q = y := Option.some.inj (hq.symm.trans hy)
        exact hc (hyok.client.symm.trans hclient)
      exact ⟨y, (Function.update_of_ne hne _ _).trans hy, hyok⟩

/-! ## Insertions -/

theorem Fit.insert (h : Fit cfg s) {row : Row} (hlt : latest s.rows < row.id) :
    Fit cfg { s with rows := s.rows ++ [row] } := by
  have hle : latest s.rows ≤ latest (s.rows ++ [row]) := by
    rw [latest_concat]
    exact hlt.le
  refine ⟨h.rows.insert hlt, fun n i hi => (h.sent n i hi).trans hle, h.known, fun c => ?_⟩
  obtain ⟨hg, hr, hc⟩ := h.clients c
  have hlast : ∀ l, (s.clients c).reader.last = some l → l < row.id := fun l hl =>
    (hr.last l hl).2.trans_lt hlt
  refine ⟨hg.extend (fun i => log_insert) hlast, ⟨fun l hl => ?_, hr.unset⟩, fun k hk => ?_⟩
  · exact ⟨(hr.last l hl).1, (hr.last l hl).2.trans hle⟩
  · obtain ⟨q, hq, hok⟩ := hc k hk
    refine ⟨q, hq, hok.client, ?_, fun i hi => (hok.bound i hi).trans hle,
      ⟨hok.marks.1.trans hle, hok.marks.2.trans hle⟩, hok.requested, fun hp => ?_,
      fun hb j hj hlog => ?_⟩
    · exact hok.safe.extend (fun i => log_insert) hlast fun i hi => (hok.bound i hi).trans_lt hlt
    · refine (hok.knows hp).extend (fun i => log_insert) (hok.marks.2.trans_lt hlt) ?_
      rintro (hm | hs)
      · exact absurd (hm.trans hok.marks.1) (not_le.mpr hlt)
      · exact absurd (h.sent _ _ hs) (not_le.mpr hlt)
    · rcases log_insert hlog with hlog | rfl
      · exact hok.quiet hb j hj hlog
      · exact absurd (h.sent _ _ hj) (not_le.mpr hlt)

/-! ## Broadcasts -/

section
variable {q : Conn} {n : ℕ} {row : Row} {sent : ℕ → List ℕ} {r : Reader ℕ} {c i : ℕ}
  {rows : List Row}

theorem heard_push (cfg : Config) (row : Row) (hq : q.phase = .registered) :
    heard cfg { q with wire := q.wire ++ [row] } =
      if listensTo cfg q.client row then heard cfg q ++ [row.id] else heard cfg q := by
  simp only [heard, Conn.frames, hq, List.filter_append, List.map_append]
  split
  next hl => simp [hl]
  next hl => simp [hl]

/-- The log has no other event of this id. -/
theorem subscribed_of_log (h : RowsOk rows) (hrow : row ∈ rows) (hi : log cfg rows c row.id) :
    Subscribed cfg c row := by
  obtain ⟨row', hrow', hid, hsub⟩ := hi
  exact h.eq_of_id hrow' hrow hid ▸ hsub

theorem mem_sent_update {m : ℕ} :
    i ∈ Function.update sent n (row.id :: sent n) m ↔ i ∈ sent m ∨ m = n ∧ i = row.id := by
  by_cases hm : m = n
  · subst hm
    simp [or_comm]
  · simp [hm]

/-- The broadcast does not reach the connection, and it need not. -/
theorem ConnOk.unpushed (h : ConnOk cfg rows sent r c q)
    (hskip : q.server = n → log cfg rows c row.id →
      q.between = true ∧ row.id ≤ q.mark ∨ q.between = false ∧ q.phase ≠ .registered) :
    ConnOk cfg rows (Function.update sent n (row.id :: sent n)) r c q := by
  refine ⟨h.client, h.safe, h.bound, h.marks, h.requested, fun hp => ?_, fun hb j hj hlog => ?_⟩
  · refine (h.knows hp).of_seen fun j hlog _ hs => ?_
    rcases hs with hm | hs
    · exact .inl hm
    · rcases mem_sent_update.mp hs with hs | ⟨hn, rfl⟩
      · exact .inr hs
      · rcases hskip hn hlog with ⟨-, hle⟩ | ⟨hb, hr⟩
        · exact .inl hle
        · rcases hp with hp | hp
          · exact absurd hp (by rw [hb]; decide)
          · exact absurd hp hr
  · rcases mem_sent_update.mp hj with hj | ⟨hn, rfl⟩
    · exact h.quiet hb j hj hlog
    · rcases hskip hn hlog with ⟨-, hle⟩ | ⟨hb', -⟩
      · exact hle
      · exact absurd hb (by rw [hb']; decide)

/-- The broadcast reaches the connection in order. -/
theorem ConnOk.pushed (h : ConnOk cfg rows sent r c q) (hrows : RowsOk rows) (hrow : row ∈ rows)
    (hreg : q.phase = .registered) (hn : q.server = n)
    (horder : Subscribed cfg c row →
      (∀ row' ∈ rows, Subscribed cfg c row' → q.mark < row'.id → row'.id < row.id →
        row'.id ∈ sent n) ∧ ((r.feed (heard cfg q)).first = none → q.low ≤ row.id))
    (hwants : wants cfg c row = true) :
    ConnOk cfg rows (Function.update sent n (row.id :: sent n)) r c
      { q with wire := q.wire ++ [row] } := by
  obtain rfl := h.client
  have hk := h.knows (.inr hreg)
  have hheard := heard_push cfg row hreg
  have hbetween : ({ q with wire := q.wire ++ [row] } : Conn).between = false := by
    simp [Conn.between, hreg]
  have hquiet : ({ q with wire := q.wire ++ [row] } : Conn).between = true →
      ∀ j ∈ Function.update sent n (row.id :: sent n) q.server, log cfg rows q.client j →
        j ≤ q.mark :=
    fun hb => absurd hb (by rw [hbetween]; decide)
  have hreq : q.phase = .requested → q.afterId = r.last ∧ q.wire ++ [row] = [] :=
    fun hp => nomatch hreg.symm.trans hp
  by_cases hl : listensTo cfg q.client row = true
  · rw [if_pos hl] at hheard
    obtain ⟨hin, hfirst⟩ := horder ⟨hwants, hl⟩
    refine ⟨rfl, ?_, ?_, h.marks, hreq, fun _ => ?_, hquiet⟩
    · rw [hheard]
      refine h.safe.push hk fun j hj _ hlt => ?_
      obtain ⟨row', hrow', rfl, hsub⟩ := hj
      rcases le_or_gt row'.id q.mark with hle | hgt
      · exact .inl hle
      · exact .inr (hn ▸ hin row' hrow' hsub hgt hlt)
    · rw [hheard]
      intro i hi
      rcases List.mem_append.mp hi with hi | hi
      · exact h.bound i hi
      · rw [List.mem_singleton.mp hi]
        exact hrows.le_latest hrow
    · rw [hheard, Reader.feed_concat]
      refine (hk.push hfirst).of_seen fun j _ _ hs => ?_
      rcases hs with hm | hs
      · exact .inl (.inl hm)
      · rcases mem_sent_update.mp hs with hs | ⟨-, rfl⟩
        · exact .inl (.inr hs)
        · exact .inr rfl
  · rw [if_neg hl] at hheard
    refine ⟨rfl, hheard ▸ h.safe, hheard ▸ h.bound, h.marks, hreq, fun _ => ?_, hquiet⟩
    rw [hheard]
    refine hk.of_seen fun j hlog _ hs => ?_
    rcases hs with hm | hs
    · exact .inl hm
    · rcases mem_sent_update.mp hs with hs | ⟨-, rfl⟩
      · exact .inr hs
      · exact absurd (subscribed_of_log hrows hrow hlog).2 hl

end

theorem Fit.broadcast (h : Fit cfg s) {n : ℕ} {row : Row} (hrow : row ∈ s.rows)
    (horder : ∀ k q, s.conns k = some q → Held s k q → q.server = n →
      Subscribed cfg q.client row → InOrder cfg s n row q) :
    Fit cfg (broadcast cfg s n row) := by
  refine ⟨h.rows, fun m i hi => ?_, fun k hk => ?_, fun c => ?_⟩
  · rcases mem_sent_update.mp hi with hi | ⟨-, rfl⟩
    · exact h.sent m i hi
    · exact h.rows.le_latest hrow
  · simp [EventStream.broadcast, h.known k hk]
  · obtain ⟨hg, hr, hc⟩ := h.clients c
    refine ⟨hg, hr, fun k hk => ?_⟩
    obtain ⟨q, hq, hok⟩ := hc k hk
    refine ⟨pushFrame cfg n row q, by simp [EventStream.broadcast, hq], ?_⟩
    have hheld : Held s k q := by
      rw [Held, hok.client]
      exact hk
    have hin (hn : q.server = n) (hsub : Subscribed cfg c row) : InOrder cfg s n row q :=
      horder k q hq hheld hn (hok.client ▸ hsub)
    unfold pushFrame
    split
    next hpush =>
      obtain ⟨hn, hreg, hwants⟩ := hpush
      refine hok.pushed h.rows hrow hreg hn (fun hsub => ?_) (hok.client ▸ hwants)
      have hinq := (hin hn hsub).2 hreg
      rwa [hok.client] at hinq
    next hpush =>
      refine hok.unpushed fun hn hlog => ?_
      have hsub := subscribed_of_log h.rows hrow hlog
      cases hb : q.between with
      | true => exact .inl ⟨rfl, (hin hn hsub).1 hb⟩
      | false => exact .inr ⟨rfl, fun hreg => hpush ⟨hn, hreg, hok.client ▸ hsub.1⟩⟩

/-! ## Connections -/

section
variable {q : Conn} {sent : ℕ → List ℕ} {r : Reader ℕ} {c : ℕ} {rows : List Row}

/-- A replay query leaves all events after `low` to the connection. -/
theorem ConnOk.query (h : ConnOk cfg rows sent r c q) (hrows : RowsOk rows)
    (hsent : ∀ n, ∀ i ∈ sent n, i ≤ latest rows) (hr : ReaderOk rows r)
    (hreq : q.phase = .requested) {ok : Bool}
    (hok : q.afterId.isSome → skippedHeard cfg rows q ok = []) :
    ConnOk cfg rows sent r c (queryConn cfg rows q ok) := by
  obtain rfl := h.client
  obtain ⟨hafter, hwire⟩ := h.requested hreq
  have hreplay := replayOk_query hrows hok
  have hheard : heard cfg (queryConn cfg rows q ok) =
      ((queryResult cfg rows q ok).filter (listensTo cfg q.client ·)).map (·.id) := by
    simp [heard, Conn.frames, queryConn, hwire]
  have hmem : ∀ i ∈ heard cfg (queryConn cfg rows q ok),
      ∃ row ∈ queryResult cfg rows q ok, row.id = i := by
    intro i hi
    rw [hheard] at hi
    obtain ⟨row, hrow, rfl⟩ := List.mem_map.mp hi
    exact ⟨row, List.mem_of_mem_filter hrow, rfl⟩
  have hall : ∀ i, log cfg rows q.client i → (queryConn cfg rows q ok).low < i →
      i ∈ heard cfg (queryConn cfg rows q ok) := by
    intro i hi hlt
    obtain ⟨row, hrow, rfl, hs⟩ := hreplay.complete i hi hlt
    rw [hheard]
    exact List.mem_map_of_mem (List.mem_filter.mpr ⟨hrow, hs.2⟩)
  have hknows : Knows (log cfg rows q.client) (fun _ => False) (queryConn cfg rows q ok).low r := by
    cases hq : q.afterId with
    | some l =>
        have hlast : r.last = some l := hafter.symm.trans hq
        simp only [queryConn, hq, Option.getD_some]
        exact h.safe.gapless.knows hlast (hr.last l hlast).1
    | none => exact knows_of_first_none (hr.unset (hafter.symm.trans hq)) _
  obtain ⟨hsafe, hfed⟩ := hknows.replay h.safe.gapless
    (by
      rw [hheard]
      exact List.pairwise_map.mpr (hreplay.sorted.filter _))
    (fun i hi => by
      obtain ⟨row, hrow, rfl⟩ := hmem i hi
      exact hreplay.low_lt row hrow) hall
  refine ⟨rfl, hsafe, fun i hi => ?_, ⟨le_rfl, ?_⟩, nofun, fun _ => ?_,
    fun _ j hj _ => hsent _ j hj⟩
  · obtain ⟨row, hrow, rfl⟩ := hmem i hi
    exact hreplay.le_latest row hrow
  · cases hq : q.afterId with
    | some l =>
        simp only [queryConn, hq, Option.getD_some]
        exact (hr.last l (hafter.symm.trans hq)).2
    | none =>
        simp only [queryConn, hq, Option.getD_none]
        exact hrows.latest_le fun a ha => mem_of_skippedHeard ha
  · exact hfed.of_seen fun j hj hlt _ => hall j hj hlt

/-- Frames are written or given up, and no broadcast is missed. -/
theorem ConnOk.advance (h : ConnOk cfg rows sent r c q) {p : Phase} {w : List Row}
    (hpre : heard cfg { q with phase := p, wire := w } <+: heard cfg q) (hreq : p ≠ .requested)
    (hlive : ({ q with phase := p, wire := w } : Conn).between = true ∨ p = .registered →
      heard cfg { q with phase := p, wire := w } = heard cfg q ∧ q.between = true) :
    ConnOk cfg rows sent r c { q with phase := p, wire := w } := by
  refine ⟨h.client, h.safe.prefix hpre, fun i hi => h.bound i (hpre.subset hi), h.marks,
    fun hp => absurd hp hreq, fun hp => ?_, fun hb => h.quiet (hlive (.inl hb)).2⟩
  obtain ⟨heq, hb⟩ := hlive hp
  rw [heq]
  exact h.knows (.inl hb)

end

theorem Fit.connect (h : Fit cfg s) (c n : ℕ) :
    Fit cfg { (s.setConn s.connected
      ⟨c, n, (s.clients c).reader.last, .requested, [], 0, 0⟩).setClient c
        ⟨(s.clients c).reader, some s.connected⟩ with connected := s.connected + 1 } := by
  have hold {k : ℕ} {q : Conn} (hq : s.conns k = some q) : k ≠ s.connected := by
    rintro rfl
    cases (h.known _ le_rfl).symm.trans hq
  refine ⟨h.rows, h.sent, fun k hk => ?_, fun c' => ?_⟩
  · have hne : k ≠ s.connected := fun he => absurd hk (not_le.mpr (he ▸ Nat.lt_succ_self k))
    exact (Function.update_of_ne hne _ _).trans (h.known k ((Nat.le_succ _).trans hk))
  · obtain ⟨hg, hr, hconn⟩ := h.clients c'
    by_cases hc : c' = c
    · subst hc
      simp only [State.setClient, Function.update_self]
      refine ⟨hg, hr, fun k hk => ?_⟩
      obtain rfl : s.connected = k := Option.some.inj hk
      exact ⟨_, Function.update_self .., rfl, hg.safe_nil, nofun, ⟨Nat.zero_le _, Nat.zero_le _⟩,
        fun _ => ⟨rfl, rfl⟩, nofun, nofun⟩
    · simp only [State.setClient, Function.update_of_ne hc]
      refine ⟨hg, hr, fun k hk => ?_⟩
      obtain ⟨q, hq, hok⟩ := hconn k hk
      exact ⟨q, (Function.update_of_ne (hold hq) _ _).trans hq, hok⟩

theorem Fit.query (h : Fit cfg s) {k : ℕ} {q : Conn} (hq : s.conns k = some q)
    (hreq : q.phase = .requested) {ok : Bool}
    (hok : Held s k q → q.afterId.isSome → skippedHeard cfg s.rows q ok = []) :
    Fit cfg (s.setConn k (queryConn cfg s.rows q ok)) :=
  h.setConn hq fun c hheld hc => hc.query h.rows h.sent (h.clients c).reader hreq (hok hheld)

theorem Fit.replay (h : Fit cfg s) {k : ℕ} {q : Conn} (hq : s.conns k = some q)
    {result : List Row} (hp : q.phase = .queried result) :
    Fit cfg (s.setConn k { q with phase := .replayed, wire := q.wire ++ result }) := by
  refine h.setConn hq fun c _ hc => ?_
  have hheard : heard cfg { q with phase := .replayed, wire := q.wire ++ result } =
      heard cfg q := by
    simp [heard, Conn.frames, hp]
  have hb : q.between = true := by simp [Conn.between, hp]
  exact hc.advance (hheard ▸ List.prefix_rfl) (by decide) fun _ => ⟨hheard, hb⟩

theorem Fit.addClient (h : Fit cfg s) {k : ℕ} {q : Conn} (hq : s.conns k = some q)
    (hp : q.phase = .replayed) : Fit cfg (s.setConn k { q with phase := .registered }) := by
  refine h.setConn hq fun c _ hc => ?_
  have hheard : heard cfg { q with phase := .registered } = heard cfg q := by
    simp [heard, Conn.frames, hp]
  have hb : q.between = true := by simp [Conn.between, hp]
  exact hc.advance (hheard ▸ List.prefix_rfl) (by decide) fun _ => ⟨hheard, hb⟩

theorem wire_prefix_frames (q : Conn) : q.wire <+: q.frames := by
  unfold Conn.frames
  split
  · exact List.prefix_append ..
  · exact List.prefix_rfl

theorem Fit.close (h : Fit cfg s) {k : ℕ} {q : Conn} (hq : s.conns k = some q) :
    Fit cfg (s.setConn k { q with phase := .closed }) := by
  refine h.setConn hq fun c _ hc => ?_
  have hpre : heard cfg { q with phase := .closed } <+: heard cfg q :=
    ((wire_prefix_frames q).filter _).map _
  exact hc.advance hpre (by decide) fun hp => hp.elim nofun nofun

theorem Fit.drop (h : Fit cfg s) (c : ℕ) : Fit cfg (s.setClient c ⟨(s.clients c).reader, none⟩) :=
  h.setClient ⟨(h.clients c).gapless, (h.clients c).reader, nofun⟩

/-! ## Frames -/

theorem frames_cons {q : Conn} {row : Row} {wire : List Row} (hw : q.wire = row :: wire) :
    q.frames = row :: ({ q with wire } : Conn).frames := by
  simp only [Conn.frames, hw]
  split <;> rfl

theorem heard_cons (cfg : Config) {q : Conn} {row : Row} {wire : List Row}
    (hw : q.wire = row :: wire) :
    heard cfg q = if listensTo cfg q.client row then row.id :: heard cfg { q with wire }
      else heard cfg { q with wire } := by
  rw [heard, frames_cons hw]
  split
  next hl => simp [heard, hl]
  next hl => simp [heard, hl]

section
variable {q : Conn} {sent : ℕ → List ℕ} {r : Reader ℕ} {c : ℕ} {rows : List Row} {row : Row}
  {wire : List Row}

theorem ReaderOk.hear (hr : ReaderOk rows r) (hrow : listensTo cfg c row → row.id ≤ latest rows) :
    ReaderOk rows (hear cfg c r row) := by
  unfold EventStream.hear
  split
  next hl =>
    refine ⟨fun l hlast => ?_, nofun⟩
    injection hlast with hlast
    exact hlast ▸ ⟨List.mem_cons_self, hrow hl⟩
  next => exact hr

/-- The client receives the next frame. -/
theorem ConnOk.receive (h : ConnOk cfg rows sent r c q) (hw : q.wire = row :: wire) :
    ConnOk cfg rows sent (hear cfg c r row) c { q with wire } ∧
      (listensTo cfg c row → row.id ≤ latest rows) := by
  obtain rfl := h.client
  have hreq : q.phase ≠ .requested := fun hp => by
    cases hw.symm.trans (h.requested hp).2
  have hheard := heard_cons cfg hw
  unfold hear
  split
  next hl =>
    rw [if_pos hl] at hheard
    have hmem : row.id ∈ heard cfg q := hheard ▸ List.mem_cons_self
    refine ⟨⟨rfl, ?_, fun i hi => h.bound i (hheard ▸ List.mem_cons_of_mem _ hi), h.marks,
      fun hp => absurd hp hreq, fun hp => ?_, h.quiet⟩, fun _ => h.bound _ hmem⟩
    · exact (hheard ▸ h.safe).take
    · have hknows := h.knows hp
      rwa [hheard, Reader.feed_cons] at hknows
  next hl =>
    rw [if_neg hl] at hheard
    refine ⟨⟨rfl, hheard ▸ h.safe, hheard ▸ h.bound, h.marks, fun hp => absurd hp hreq,
      fun hp => ?_, h.quiet⟩, fun hl' => absurd hl' hl⟩
    exact hheard ▸ h.knows hp

end

theorem Fit.receive (h : Fit cfg s) {c k : ℕ} {q : Conn} {row : Row} {wire : List Row}
    (hk : (s.clients c).conn = some k) (hq : s.conns k = some q) (hw : q.wire = row :: wire) :
    Fit cfg ((s.setConn k { q with wire }).setClient c
      ⟨hear cfg c (s.clients c).reader row, some k⟩) := by
  obtain ⟨-, hr, hconn⟩ := h.clients c
  obtain ⟨q', hq', hok⟩ := hconn k hk
  obtain rfl : q = q' := Option.some.inj (hq.symm.trans hq')
  obtain ⟨hok', hle⟩ := hok.receive hw
  exact h.serve hq hok.client rfl hok'.safe.gapless (hr.hear hle) hok'

/-! ## Runs -/

theorem Fit.dispatch (h : Fit cfg s) {n id : ℕ} (ho : Orderly cfg s (.dispatch n id true))
    (ht : (s.rows.find? (·.id = id)).map (EventStream.broadcast cfg s n) = some t) : Fit cfg t := by
  obtain ⟨row, hrow, rfl⟩ := Option.map_eq_some_iff.mp ht
  have hmem : row ∈ s.rows := List.mem_of_find?_eq_some hrow
  have hid : row.id = id := by simpa using List.find?_some hrow
  refine h.broadcast hmem fun k q hq => ?_
  have hlt : k < s.connected := by
    refine lt_of_not_ge fun hle => ?_
    cases (h.known k hle).symm.trans hq
  have hall := ho row hmem hid k hlt
  rw [hq] at hall
  exact of_decide_eq_true hall

theorem Fit.next (h : Fit cfg s) {op : Op} (ho : Orderly cfg s op)
    (hs : next cfg s op = some t) : Fit cfg t := by
  cases op with
  | insert row =>
      simp only [EventStream.next] at hs
      split at hs
      next hlt =>
        injection hs with hs
        exact hs ▸ h.insert hlt
      · cases hs
  | notify id =>
      simp only [EventStream.next] at hs
      split at hs
      · injection hs with hs
        exact hs ▸ ⟨h.rows, h.sent, h.known, h.clients⟩
      · cases hs
  | listen n up =>
      injection hs with hs
      exact hs ▸ ⟨h.rows, h.sent, h.known, h.clients⟩
  | dispatch n id found =>
      simp only [EventStream.next] at hs
      split at hs
      next =>
        have h' : Fit cfg { s with
            dispatching := Function.update s.dispatching n ((s.dispatching n).erase id) } :=
          ⟨h.rows, h.sent, h.known, h.clients⟩
        cases found with
        | true => exact h'.dispatch ho hs
        | false =>
            injection hs with hs
            exact hs ▸ h'
      next => cases hs
  | connect c n =>
      simp only [EventStream.next] at hs
      split at hs
      · injection hs with hs
        exact hs ▸ h.connect c n
      · cases hs
  | query k ok =>
      simp only [EventStream.next, Option.bind_eq_bind, Option.bind_eq_some_iff] at hs
      obtain ⟨q, hq, hs⟩ := hs
      split at hs
      next hreq =>
        injection hs with hs
        simp only [Orderly, hq] at ho
        exact hs ▸ h.query hq hreq (of_decide_eq_true ho)
      · cases hs
  | replay k =>
      simp only [EventStream.next, Option.bind_eq_bind, Option.bind_eq_some_iff] at hs
      obtain ⟨q, hq, hs⟩ := hs
      split at hs
      next hp =>
        injection hs with hs
        exact hs ▸ h.replay hq hp
      next => cases hs
  | addClient k =>
      simp only [EventStream.next, Option.bind_eq_bind, Option.bind_eq_some_iff] at hs
      obtain ⟨q, hq, hs⟩ := hs
      split at hs
      next hp =>
        injection hs with hs
        exact hs ▸ h.addClient hq hp
      · cases hs
  | receive c =>
      simp only [EventStream.next, Option.bind_eq_bind, Option.bind_eq_some_iff] at hs
      obtain ⟨k, hk, q, hq, hs⟩ := hs
      split at hs
      next hw =>
        injection hs with hs
        exact hs ▸ h.receive hk hq hw
      · cases hs
  | close k =>
      simp only [EventStream.next, Option.bind_eq_bind, Option.bind_eq_some_iff] at hs
      obtain ⟨q, hq, hs⟩ := hs
      injection hs with hs
      exact hs ▸ h.close hq
  | drop c =>
      injection hs with hs
      exact hs ▸ h.drop c

theorem step_eq_ok {op : Op} : (machine cfg).step s op = .ok t ↔ next cfg s op = some t := by
  cases h : next cfg s op <;> simp [machine, h]

/-- Along an orderly run what every client has fits what it was sent. -/
theorem Fit.run (h : Fit cfg s) {ops : List Op} (ha : (machine cfg).Along (Orderly cfg) s ops) :
    Fit cfg ((machine cfg).run s ops) :=
  ha.preserves (fun _ _ _ hs ho hstep => hs.next ho (step_eq_ok.mp hstep)) h

end

/-- Along an orderly run no client ever has a gap before the id it would resume from. -/
theorem stream_has_no_gap (cfg : Config) {ops : List Op}
    (ha : (machine cfg).Along (Orderly cfg) start ops) (c : ℕ) :
    NoGap cfg ((machine cfg).run start ops) c :=
  (((fit_start cfg).run ha).clients c).gapless

/-- The web client asks for all types and has listeners for four. -/
def webConfig : Config := ⟨fun _ => [], fun _ => ["score", "market", "receipt", "log"]⟩

/-- The keeper emits an event, and instance 0 broadcasts it. -/
def emitted (row : Row) : List Op := [.insert row, .notify row.id, .dispatch 0 row.id true]

def resumedRun : List Op :=
  .listen 0 true :: emitted ⟨1, "score"⟩ ++
    [.connect 0 0, .query 0 true, .replay 0, .addClient 0, .receive 0] ++
    emitted ⟨2, "receipt"⟩ ++ [.receive 0, .drop 0, .close 0] ++ emitted ⟨3, "market"⟩ ++
    [.connect 0 0, .query 1 true, .replay 1, .addClient 1, .receive 0]

theorem stream_has_no_gap_resumed :
    (((machine webConfig).run start resumedRun).clients 0).reader = ⟨some 1, some 3, [3, 2, 1]⟩ ∧
      NoGap webConfig ((machine webConfig).run start resumedRun) 0 :=
  ⟨by decide +kernel, stream_has_no_gap webConfig (by decide +kernel) 0⟩

/-- Event 2 is inserted and broadcast after the replay query and before the client is added. -/
def missedRun : List Op :=
  .listen 0 true :: emitted ⟨1, "score"⟩ ++ [.connect 0 0, .query 0 true] ++
    emitted ⟨2, "score"⟩ ++ [.replay 0, .addClient 0, .receive 0] ++ emitted ⟨3, "score"⟩ ++
    [.receive 0]

/-- Event 3 moves the resume point past event 2, which no reconnect replays then. -/
theorem event_skipped :
    ¬ ∀ ops c, NoGap webConfig ((machine webConfig).run start ops) c := by
  intro h
  have hgot : 2 ∈ (((machine webConfig).run start missedRun).clients 0).reader.got :=
    h missedRun 0 1 3 2 (by decide +kernel) (by decide +kernel)
      ⟨⟨2, "score"⟩, by decide +kernel, rfl, by decide +kernel⟩ (by decide) (by decide)
  exact absurd hgot (by decide +kernel)

end ProofBook.EventStream
