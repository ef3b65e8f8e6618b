import ProofBook.Ingest

/-!
# Deliveries of the feed

Records of any fixtures are delivered in any order, with duplicates and replays. A
record with status 100 is never stale: it is taken whatever its sequence number, and
the numbers before it no longer count. Both settlers hear of the first one only.
-/
namespace ProofBook.Feed
open Store Objects

/-- The store, and the calls of `onFinalised`, each made to both settlers. -/
structure State where
  store : StoreData
  calls : List (ℤ × ℤ)

/-- Whether a delivery makes the call. -/
def Triggers (d : StoreData) (u : ScoreUpdate) : Prop :=
  ¬ Stale (d.fixture u.fixtureId) u ∧ Finalises (d.fixture u.fixtureId) u

instance (d : StoreData) (u : ScoreUpdate) : Decidable (Triggers d u) :=
  inferInstanceAs (Decidable (_ ∧ _))

def deliver (s : State) (u : ScoreUpdate) : State where
  store := ingest s.store u
  calls := if Triggers s.store u then s.calls ++ [(u.fixtureId, u.seq)] else s.calls

def run (s : State) (us : List ScoreUpdate) : State := us.foldl deliver s

def State.callsFor (s : State) (id : ℤ) : List (ℤ × ℤ) := s.calls.filter fun c => c.1 = id

/-- Nothing of the fixture has been heard. -/
structure Unheard (s : State) (id : ℤ) : Prop where
  lastSeq : (s.store.fixture id).lastSeq = none
  finalisedSeq : (s.store.fixture id).finalisedSeq = none
  calls : s.callsFor id = []

/-! ## What is stale -/

abbrev IsFinal (u : ScoreUpdate) : Prop := u.statusId = some finalStatus

def ofFixture (id : ℤ) (us : List ScoreUpdate) : List ScoreUpdate :=
  us.filter fun u => u.fixtureId = id

/-- The records from the last final one on; all of them when there is none. -/
def sinceFinal (us : List ScoreUpdate) : List ScoreUpdate :=
  us.foldl (fun vs u => if IsFinal u then [u] else vs ++ [u]) []

def seqs (us : List ScoreUpdate) : List ℤ := us.map (·.seq)

/-- Stale after the records delivered so far. -/
def Outdated (us : List ScoreUpdate) (u : ScoreUpdate) : Prop :=
  ¬ IsFinal u ∧ ∃ n ∈ seqs (sinceFinal us), u.seq ≤ n

instance (us : List ScoreUpdate) (u : ScoreUpdate) : Decidable (Outdated us u) :=
  inferInstanceAs (Decidable (_ ∧ _))

def acceptedFrom : List ScoreUpdate → List ScoreUpdate → List ScoreUpdate
  | _, [] => []
  | before, u :: us =>
      if Outdated before u then acceptedFrom (before ++ [u]) us
      else u :: acceptedFrom (before ++ [u]) us

/-- What is left of a delivery without the records that are stale when delivered. -/
def accepted (us : List ScoreUpdate) : List ScoreUpdate := acceptedFrom [] us

variable {us vs : List ScoreUpdate} {u : ScoreUpdate} {id : ℤ} {d : StoreData} {s : State}
  {fx : FixtureLive}

theorem sinceFinal_concat : sinceFinal (us ++ [u]) =
    if IsFinal u then [u] else sinceFinal us ++ [u] := by
  simp [sinceFinal, List.foldl_append]

theorem max_concat (ns : List ℤ) (n : ℤ) :
    (ns ++ [n]).max? = some ((ns.max?).elim n (max · n)) := by
  induction ns with
  | nil => rfl
  | cons m ns ih =>
      rw [List.cons_append, List.max?_cons, ih, List.max?_cons]
      cases ns.max? <;> simp [max_assoc]

theorem exists_le_iff (ns : List ℤ) (n : ℤ) :
    (∃ m ∈ ns, n ≤ m) ↔ ns.max?.any (n ≤ ·) = true := by
  induction ns with
  | nil => simp
  | cons m ns ih =>
      rw [List.exists_mem_cons_iff, ih, List.max?_cons]
      cases ns.max? <;> simp

/-! ## One fixture -/

def take (fx : FixtureLive) (u : ScoreUpdate) : FixtureLive :=
  if Stale fx u then fx else ingestFixture fx u

theorem ingestFixture_lastSeq : (ingestFixture fx u).lastSeq = some u.seq := by
  unfold ingestFixture
  split <;> rfl

theorem ingestFixture_finalisedSeq : (ingestFixture fx u).finalisedSeq =
    if Finalises fx u then some u.seq else fx.finalisedSeq := by
  unfold ingestFixture
  split <;> rfl

theorem stale_iff (h : fx.lastSeq = (seqs (sinceFinal us)).max?) :
    Stale fx u ↔ Outdated us u := by
  rw [Stale, Outdated, h, exists_le_iff, and_comm]

theorem take_lastSeq (h : fx.lastSeq = (seqs (sinceFinal us)).max?) :
    (take fx u).lastSeq = (seqs (sinceFinal (us ++ [u]))).max? := by
  rw [take, sinceFinal_concat]
  by_cases hfinal : IsFinal u
  · rw [if_neg (fun hstale => hstale.2 hfinal), if_pos hfinal, ingestFixture_lastSeq]
    rfl
  · rw [if_neg hfinal, seqs, List.map_append, List.map_singleton, max_concat]
    rw [seqs] at h
    rw [← h]
    split_ifs with hstale
    · cases hlast : fx.lastSeq with
      | none => simp [Stale, hlast] at hstale
      | some n =>
          have hle : u.seq ≤ n := by simpa [Stale, hlast, hfinal] using hstale
          simp [hle]
    · rw [ingestFixture_lastSeq]
      cases hlast : fx.lastSeq with
      | none => rfl
      | some n =>
          have hlt : n < u.seq := by simpa [Stale, hlast, hfinal] using hstale
          simp [hlt.le]

/-- The stale records change nothing. -/
theorem foldl_take (h : fx.lastSeq = (seqs (sinceFinal us)).max?) :
    vs.foldl take fx = (acceptedFrom us vs).foldl ingestFixture fx := by
  induction vs generalizing fx us with
  | nil => rfl
  | cons v vs ih =>
      rw [List.foldl_cons, ih (take_lastSeq h), acceptedFrom, take]
      by_cases hstale : Outdated us v
      · rw [if_pos ((stale_iff h).mpr hstale), if_pos hstale]
      · rw [if_neg (mt (stale_iff h).mp hstale), if_neg hstale, List.foldl_cons]

theorem foldl_lastSeq (h : fx.lastSeq = (seqs (sinceFinal us)).max?) :
    (vs.foldl take fx).lastSeq = (seqs (sinceFinal (us ++ vs))).max? := by
  induction vs generalizing fx us with
  | nil => rw [List.append_nil, List.foldl_nil, h]
  | cons v vs ih => rw [List.foldl_cons, ih (take_lastSeq h), List.append_assoc]; rfl

/-! ## The store -/

theorem ingest_fixture : (ingest d u).fixture id =
    if u.fixtureId = id then take (d.fixture id) u else d.fixture id := by
  have hkey : FixtureLive.fixtureId (take (d.fixture u.fixtureId) u) = u.fixtureId := by
    rw [take]
    split_ifs
    · exact d.fixture_fixtureId _
    · exact (ingestFixture_fixtureId _ _).trans (d.fixture_fixtureId _)
  have hset : (ingest d u).fixtures = d.fixtures.set (take (d.fixture u.fixtureId) u) := rfl
  rw [StoreData.fixture, hset]
  split_ifs with hid
  · subst hid
    have hget := ObjectMap.get_set_self d.fixtures (take (d.fixture u.fixtureId) u)
    rw [hkey] at hget
    rw [hget]
    rfl
  · rw [ObjectMap.get_set_of_ne (by rw [hkey]; exact Ne.symm hid)]
    rfl

theorem run_cons : run s (u :: us) = run (deliver s u) us := rfl

theorem run_fixture : (run s us).store.fixture id =
    (ofFixture id us).foldl take (s.store.fixture id) := by
  induction us generalizing s with
  | nil => rfl
  | cons u us ih =>
      rw [run_cons, ih, deliver, ingest_fixture, ofFixture, ofFixture, List.filter_cons]
      by_cases hid : u.fixtureId = id
      · simp [hid]
      · simp [hid]

/-! ## Calls of the settlers -/

theorem take_finalisedSeq : (take fx u).finalisedSeq =
    if Finalises fx u then some u.seq else fx.finalisedSeq := by
  rw [take]
  by_cases hstale : Stale fx u
  · rw [if_pos hstale, if_neg fun h => hstale.2 h.1]
  · rw [if_neg hstale, ingestFixture_finalisedSeq]

theorem triggers_iff : Triggers d u ↔ Finalises (d.fixture u.fixtureId) u :=
  and_iff_right_of_imp fun h hstale => hstale.2 h.1

theorem deliver_callsFor : (deliver s u).callsFor id = s.callsFor id ++
    if u.fixtureId = id ∧ Finalises (s.store.fixture id) u then [(id, u.seq)] else [] := by
  by_cases hid : u.fixtureId = id
  · subst hid
    by_cases h : Finalises (s.store.fixture u.fixtureId) u
    · simp [deliver, triggers_iff, h, State.callsFor]
    · simp [deliver, triggers_iff, h, State.callsFor]
  · by_cases h : Triggers s.store u
    · simp [deliver, h, hid, State.callsFor]
    · simp [deliver, h, hid, State.callsFor]

/-- The settlers hear of the first final record. -/
theorem run_callsFor : (run s us).callsFor id = s.callsFor id ++
    if (s.store.fixture id).finalisedSeq = none then
      (((ofFixture id us).find? fun u => IsFinal u).map fun u => (id, u.seq)).toList
    else [] := by
  induction us generalizing s with
  | nil => simp [run, ofFixture]
  | cons u us ih =>
      have hstore : (deliver s u).store.fixture id =
          if u.fixtureId = id then take (s.store.fixture id) u else s.store.fixture id :=
        ingest_fixture
      have hcons : ofFixture id (u :: us) =
          if u.fixtureId = id then u :: ofFixture id us else ofFixture id us := by
        simp [ofFixture, List.filter_cons]
      rw [run_cons, ih, deliver_callsFor, hstore, hcons]
      by_cases hid : u.fixtureId = id
      · by_cases hfinal : IsFinal u
        · by_cases hnone : (s.store.fixture id).finalisedSeq = none
          · have hfirst : (u :: ofFixture id us).find? (fun u => IsFinal u) = some u :=
              List.find?_cons_of_pos (decide_eq_true hfinal)
            simp [hid, Finalises, hfinal, hnone, take_finalisedSeq, hfirst]
          · simp [hid, Finalises, hfinal, hnone, take_finalisedSeq]
        · simp [hid, Finalises, hfinal, take_finalisedSeq]
      · simp [hid]

/-! ## Every delivery -/

/-- No final record is below a record delivered before it. -/
def FinalsInOrder (us : List ScoreUpdate) : Prop :=
  ∀ before u, before ++ [u] <+: us → IsFinal u → ∀ n ∈ seqs before, n ≤ u.seq

theorem max_sinceFinal (h : FinalsInOrder us) :
    (seqs (sinceFinal us)).max? = (seqs us).max? := by
  induction us using List.reverseRecOn with
  | nil => rfl
  | append_singleton us u ih =>
      have hbefore : FinalsInOrder us := fun before v hpre =>
        h before v (hpre.trans (List.prefix_append us [u]))
      have hsplit : ∀ vs : List ScoreUpdate, seqs (vs ++ [u]) = seqs vs ++ [u.seq] :=
        fun vs => List.map_append
      rw [sinceFinal_concat, hsplit us, max_concat]
      split_ifs with hfinal
      · have hmax := h us u (List.prefix_refl _) hfinal
        cases hlast : (seqs us).max? with
        | none => rfl
        | some n => simp [seqs, hmax n (List.max?_mem hlast)]
      · rw [hsplit, max_concat, ih hbefore]

/-- The feed of a fixture after any delivery. -/
structure Monotone (s : State) (id : ℤ) (us : List ScoreUpdate) : Prop where
  newest : ((run s us).store.fixture id).lastSeq = (seqs (sinceFinal (ofFixture id us))).max?
  highest : FinalsInOrder (ofFixture id us) →
    ((run s us).store.fixture id).lastSeq = (seqs (ofFixture id us)).max?
  stale : ∀ u, u.fixtureId = id → Outdated (ofFixture id us) u →
    (run s (us ++ [u])).store.fixture id = (run s us).store.fixture id
  settled : ∀ vs, accepted (ofFixture id vs) = accepted (ofFixture id us) →
    (run s vs).store.fixture id = (run s us).store.fixture id
  once : ((run s us).callsFor id).length =
    if ∃ u ∈ us, u.fixtureId = id ∧ IsFinal u then 1 else 0

/-- A record that is not final and not above those since the last final one changes
nothing, and settlement is triggered once. -/
theorem feed_monotone (h : Unheard s id) (us : List ScoreUpdate) : Monotone s id us := by
  have hstart : (s.store.fixture id).lastSeq = (seqs (sinceFinal [])).max? := h.lastSeq
  have hnewest : ((run s us).store.fixture id).lastSeq =
      (seqs (sinceFinal (ofFixture id us))).max? := by
    rw [run_fixture, foldl_lastSeq hstart, List.nil_append]
  refine ⟨hnewest, fun horder => hnewest.trans (max_sinceFinal horder), fun u hid hu => ?_,
    fun vs hvs => ?_, ?_⟩
  · rw [run, List.foldl_append, List.foldl_cons, List.foldl_nil, ← run, deliver, ingest_fixture,
      if_pos hid, take, if_pos ((stale_iff hnewest).mpr hu)]
  · rw [run_fixture, run_fixture, foldl_take hstart, foldl_take hstart]
    exact congrArg (List.foldl ingestFixture (s.store.fixture id)) hvs
  · rw [run_callsFor, h.calls, h.finalisedSeq]
    cases hfind : (ofFixture id us).find? fun u => IsFinal u with
    | none =>
        rw [List.find?_eq_none] at hfind
        have hnone : ¬ ∃ u ∈ us, u.fixtureId = id ∧ IsFinal u := by
          intro hex
          obtain ⟨u, hu, hid, hfinal⟩ := hex
          exact hfind u (List.mem_filter.mpr ⟨hu, decide_eq_true hid⟩) (decide_eq_true hfinal)
        simp [hnone]
    | some u =>
        have hmem := List.mem_filter.mp (List.mem_of_find?_eq_some hfind)
        have hfinal := List.find?_some hfind
        have hsome : ∃ u ∈ us, u.fixtureId = id ∧ IsFinal u :=
          ⟨u, hmem.1, of_decide_eq_true hmem.2, of_decide_eq_true hfinal⟩
        simp [hsome]

/-- A goal, and a final record with a lower number and an older time. -/
def goal : ScoreUpdate := ⟨7, 10, 1000, some 4, some ⟨some 1, none⟩⟩

def lateFinal : ScoreUpdate := ⟨7, 5, 900, some 100, some ⟨some 0, none⟩⟩

theorem lateFinal_monotone : Monotone ⟨.empty, []⟩ 7 [goal, lateFinal] :=
  feed_monotone ⟨rfl, rfl, rfl⟩ [goal, lateFinal]

/-- The late record lowers the number and takes over status, time and score. -/
theorem lateFinal_lowers :
    let after := fun us => (run ⟨.empty, []⟩ us).store.fixture 7
    lateFinal.seq ≤ goal.seq ∧
      (after [goal, lateFinal]).lastSeq ≠ (seqs [goal, lateFinal]).max? ∧
      (after [goal, lateFinal]).statusId ≠ (after [goal]).statusId ∧
      (after [goal, lateFinal]).lastTs ≠ (after [goal]).lastTs ∧
      (after [goal, lateFinal]).score ≠ (after [goal]).score ∧
      (after [goal, lateFinal]).statusId ≠ (after [lateFinal, goal]).statusId := by
  decide

end ProofBook.Feed
