import ProofBook.Standings

/-!
# Group tables are a recount

Each row of a group is a recount of its team's proven fixtures, the rows are sorted, and
the sums over a group balance: each score is counted once for either side.
-/
namespace ProofBook.Standings
open Components Objects

variable {C : Type} (teams : C → TeamDetails)

/-! ## Recounts -/

/-- A row for a list of scores, the team's own goals first. -/
def tally (code : C) (results : List (ℤ × ℤ)) : Row C where
  team := teamRef teams code
  played := results.length
  won := results.countP fun r => decide (r.2 < r.1)
  drawn := results.countP fun r => decide (r.1 = r.2)
  lost := results.countP fun r => decide (r.1 < r.2)
  gf := (results.map Prod.fst).sum
  ga := (results.map Prod.snd).sum
  gd := (results.map Prod.fst).sum - (results.map Prod.snd).sum
  points := 3 * results.countP (fun r => decide (r.2 < r.1)) +
    results.countP fun r => decide (r.1 = r.2)

/-- A row before the goal difference is filled in. -/
def rawRow (code : C) (results : List (ℤ × ℤ)) : Row C := { tally teams code results with gd := 0 }

variable {teams} {code : C}

theorem emptyRow_eq (code : C) : emptyRow teams code = rawRow teams code [] := rfl

theorem rawRow_code (code : C) (rs : List (ℤ × ℤ)) : (rawRow teams code rs).team.code = code := rfl

theorem tally_perm {rs rs' : List (ℤ × ℤ)} (h : rs.Perm rs') :
    tally teams code rs = tally teams code rs' := by
  simp only [tally, h.length_eq, h.countP_eq, (h.map _).sum_eq]

theorem rawRow_result (code : C) (rs : List (ℤ × ℤ)) (scored conceded : ℤ) :
    (rawRow teams code rs).result scored conceded =
      rawRow teams code (rs ++ [(scored, conceded)]) := by
  rcases lt_trichotomy scored conceded with h | h | h
  · have hwon : ¬ conceded < scored := by omega
    have hdrawn : ¬ scored = conceded := by omega
    simp [Row.result, rawRow, tally, h, hwon, hdrawn]
  · subst h
    simp [Row.result, rawRow, tally, add_assoc]
  · have hlost : ¬ scored < conceded := by omega
    have hdrawn : ¬ scored = conceded := by omega
    simp [Row.result, rawRow, tally, h, hlost, hdrawn]
    ring

theorem countP_eq_sum (p : ℤ × ℤ → Prop) [DecidablePred p] (rs : List (ℤ × ℤ)) :
    (rs.countP (fun s => decide (p s)) : ℤ) = (rs.map fun s => if p s then 1 else 0).sum := by
  induction rs with
  | nil => rfl
  | cons s rs ih =>
      rw [List.map_cons, List.sum_cons, ← ih, List.countP_cons, add_comm]
      simp

theorem tally_won (code : C) (rs : List (ℤ × ℤ)) :
    (tally teams code rs).won = (rs.map fun s => if s.2 < s.1 then 1 else 0).sum :=
  countP_eq_sum (fun s => s.2 < s.1) rs

theorem tally_lost (code : C) (rs : List (ℤ × ℤ)) :
    (tally teams code rs).lost = (rs.map fun s => if s.1 < s.2 then 1 else 0).sum :=
  countP_eq_sum (fun s => s.1 < s.2) rs

theorem tally_gd (code : C) (rs : List (ℤ × ℤ)) :
    (tally teams code rs).gd = (rs.map fun s => s.1 - s.2).sum := by
  induction rs with
  | nil => rfl
  | cons s rs ih =>
      rw [List.map_cons, List.sum_cons, ← ih]
      simp only [tally, List.map_cons, List.sum_cons]
      ring

theorem tally_points (code : C) (rs : List (ℤ × ℤ)) : (tally teams code rs).points =
    (rs.map fun s => 3 * (if s.2 < s.1 then 1 else 0) + if s.1 = s.2 then 1 else 0).sum := by
  rw [List.sum_map_add, List.sum_map_mul_left, ← countP_eq_sum, ← countP_eq_sum]
  rfl

variable [LinearOrder C] {games games' : List (Game C)} {rows : Rows C} {S : C → Prop}
  {results : C → List (ℤ × ℤ)} {m : Game C}

/-- The counting scores of a team, its own goals first. -/
def resultsOf (games : List (Game C)) (code : C) : List (ℤ × ℤ) :=
  games.filterMap fun m => m.score.bind fun score =>
    if m.home = code then some score
    else if m.away = code then some score.swap
    else none

/-- The row of a team, from the proven fixtures with both scores. -/
def recount (teams : C → TeamDetails) (games : List (Game C)) (code : C) : Row C :=
  tally teams code (resultsOf games code)

/-! ## The rows of a group -/

/-- The rows are those of some codes, with the results counted so far. -/
def RowsAre (teams : C → TeamDetails) (rows : Rows C) (S : C → Prop)
    (results : C → List (ℤ × ℤ)) : Prop :=
  ∀ code r, rows.get code = some r ↔ S code ∧ r = rawRow teams code (results code)

theorem get_set (rows : Rows C) (r : Row C) (code : C) :
    (rows.set r).get code = if code = r.team.code then some r else rows.get code := by
  split_ifs with hcode
  · rw [hcode]
    exact ObjectMap.get_set_self rows r
  · exact ObjectMap.get_set_of_ne hcode

theorem RowsAre.get (h : RowsAre teams rows S results) (hcode : S code) :
    rows.get code = some (rawRow teams code (results code)) :=
  (h code _).mpr ⟨hcode, rfl⟩

theorem RowsAre.rowFor (h : RowsAre teams rows S fun _ => []) (code : C) :
    RowsAre teams (rowFor teams rows code) (fun c => S c ∨ code = c) fun _ => [] := by
  intro c r
  by_cases hcode : S code
  · rw [Standings.rowFor, h.get hcode]
    simp only [Option.isSome_some, if_true, h c r]
    constructor
    · exact fun hr => ⟨.inl hr.1, hr.2⟩
    · rintro ⟨hc | rfl, hr⟩
      · exact ⟨hc, hr⟩
      · exact ⟨hcode, hr⟩
  · have hnone : rows.get code = none := by
      rw [Option.eq_none_iff_forall_ne_some]
      exact fun r hr => hcode ((h code r).mp hr).1
    simp only [Standings.rowFor, hnone, Option.isSome_none, Bool.false_eq_true, if_false, get_set,
      emptyRow_eq, rawRow_code]
    by_cases hc : c = code
    · subst hc
      simp [eq_comm]
    · simp [hc, Ne.symm hc, h c r]

theorem RowsAre.gameRows (h : RowsAre teams rows S fun _ => []) (games : List (Game C)) :
    RowsAre teams (games.foldl (Standings.gameRows teams) rows) (fun c => S c ∨ Appears games c)
      fun _ => [] := by
  induction games generalizing rows S with
  | nil => simpa [Appears] using h
  | cons m games ih =>
      have hrest := ih ((h.rowFor m.home).rowFor m.away)
      intro c r
      rw [List.foldl_cons]
      refine (hrest c r).trans (and_congr_left fun _ => ?_)
      simp [Appears, or_assoc]

theorem RowsAre.changeRow (h : RowsAre teams rows S results) (hcode : S code)
    (scored conceded : ℤ) :
    RowsAre teams (changeRow teams rows code (·.result scored conceded)) S
      (Function.update results code (results code ++ [(scored, conceded)])) := by
  have hrow : Standings.changeRow teams rows code (·.result scored conceded) =
      rows.set (rawRow teams code (results code ++ [(scored, conceded)])) := by
    rw [Standings.changeRow, h.get hcode, Option.getD_some, rawRow_result]
  intro c r
  rw [hrow, get_set, rawRow_code]
  by_cases hc : c = code
  · subst hc
    simp [hcode, eq_comm]
  · rw [if_neg hc, h c r, Function.update_of_ne hc]

theorem resultsOf_cons (m : Game C) (games : List (Game C)) (code : C) :
    resultsOf (m :: games) code = resultsOf [m] code ++ resultsOf games code := by
  rw [resultsOf, ← List.singleton_append, List.filterMap_append]
  rfl

theorem RowsAre.countGame (h : RowsAre teams rows S results) (hne : m.home ≠ m.away)
    (hhome : S m.home) (haway : S m.away) :
    RowsAre teams (countGame teams rows m) S fun c => results c ++ resultsOf [m] c := by
  rw [Standings.countGame]
  cases hscore : m.score with
  | none => simpa [resultsOf, hscore] using h
  | some score =>
      obtain ⟨p1, p2⟩ := score
      have hboth := (h.changeRow hhome p1 p2).changeRow haway p2 p1
      convert hboth using 1
      funext c
      by_cases hc : c = m.away
      · subst hc
        simp [resultsOf, hscore, hne, Function.update_of_ne hne.symm]
      · rw [Function.update_of_ne hc]
        by_cases hc' : c = m.home
        · subst hc'
          simp [resultsOf, hscore]
        · rw [Function.update_of_ne hc']
          simp [resultsOf, hscore, Ne.symm hc, Ne.symm hc']

theorem RowsAre.countGames (h : RowsAre teams rows S results)
    (hne : ∀ m ∈ games, m.home ≠ m.away) (hS : ∀ m ∈ games, S m.home ∧ S m.away) :
    RowsAre teams (games.foldl (Standings.countGame teams) rows) S
      fun c => results c ++ resultsOf games c := by
  induction games generalizing rows results with
  | nil => simpa [resultsOf] using h
  | cons m games ih =>
      obtain ⟨hm, hne⟩ := List.forall_mem_cons.mp hne
      obtain ⟨⟨hhome, haway⟩, hS⟩ := List.forall_mem_cons.mp hS
      have hrest := ih (h.countGame hm hhome haway) hne hS
      simpa [resultsOf_cons m games] using hrest

/-- After both loops the rows are those of the teams that appear, with all their
results counted. -/
theorem groupRows_are (hne : ∀ m ∈ games, m.home ≠ m.away) :
    RowsAre teams (groupRows teams games) (Appears games) (resultsOf games) := by
  have hempty : RowsAre teams (.empty : Rows C) (fun _ => False) fun _ => [] := by
    intro c r
    simp [ObjectMap.empty, ObjectMap.get]
  have hcreated := hempty.gameRows games
  simp only [false_or] at hcreated
  have hcounted := hcreated.countGames hne fun m hm => ⟨⟨m, hm, .inl rfl⟩, ⟨m, hm, .inr rfl⟩⟩
  exact hcounted

/-- A component of who played whom. -/
abbrev IsGroup (games : List (Game C)) (codes : List C) : Prop :=
  IsComponent (Plays games) codes ∧ ∀ code ∈ codes, Appears games code

variable {codes : List C}

omit [LinearOrder C] in
theorem IsGroup.mem_iff (h : IsGroup games codes) (hm : m ∈ games) :
    m.home ∈ codes ↔ m.away ∈ codes := by
  constructor
  · intro hhome
    exact (h.1.mem m.home hhome m.away).mpr (.single ⟨m, hm, .inl ⟨rfl, rfl⟩⟩)
  · intro haway
    exact (h.1.mem m.away haway m.home).mpr (.single ⟨m, hm, .inr ⟨rfl, rfl⟩⟩)

theorem mem_groupGames : m ∈ groupGames games codes ↔
    m ∈ games ∧ m.home ∈ codes ∧ m.away ∈ codes := by
  simp [groupGames]

theorem IsGroup.appears (h : IsGroup games codes) (code : C) :
    Appears (groupGames games codes) code ↔ code ∈ codes := by
  constructor
  · rintro ⟨m, hm, rfl | rfl⟩
    · exact (mem_groupGames.mp hm).2.1
    · exact (mem_groupGames.mp hm).2.2
  · intro hcode
    obtain ⟨m, hm, hside⟩ := h.2 code hcode
    refine ⟨m, mem_groupGames.mpr ⟨hm, ?_⟩, hside⟩
    rw [h.mem_iff hm, and_self]
    rcases hside with rfl | rfl
    · exact (h.mem_iff hm).mp hcode
    · exact hcode

/-- A team plays only within its group. -/
theorem IsGroup.resultsOf (h : IsGroup games codes) (hcode : code ∈ codes) :
    resultsOf (groupGames games codes) code = resultsOf games code := by
  rw [Standings.resultsOf, groupGames, List.filterMap_filter]
  apply List.filterMap_congr
  intro m hm
  by_cases hin : m.home ∈ codes
  · simp [hin, (h.mem_iff hm).mp hin]
  · have hhome : m.home ≠ code := fun heq => hin (heq ▸ hcode)
    have haway : m.away ≠ code := fun heq => hin ((h.mem_iff hm).mpr (heq ▸ hcode))
    cases m.score <;> simp [hin, hhome, haway]

/-- The rows of a group, in some order. -/
theorem groupRows_perm (hne : ∀ m ∈ games, m.home ≠ m.away) (h : IsGroup games codes) :
    ((groupRows teams (groupGames games codes)).values.map fun r =>
      { r with gd := r.gf - r.ga }).Perm (codes.map (recount teams games)) := by
  have hrows : RowsAre teams (groupRows teams (groupGames games codes))
      (Appears (groupGames games codes)) (Standings.resultsOf (groupGames games codes)) :=
    groupRows_are fun m hm => hne m (mem_groupGames.mp hm).1
  have hperm : (groupRows teams (groupGames games codes)).values.Perm
      (codes.map fun c => rawRow teams c (Standings.resultsOf games c)) := by
    rw [List.perm_ext_iff_of_nodup (List.Nodup.of_map _ (groupRows teams _).nodup)
      (h.1.nodup.map fun _ _ heq => congrArg (fun r : Row C => r.team.code) heq)]
    intro r
    rw [List.mem_map]
    constructor
    · intro hr
      obtain ⟨hcode, hval⟩ := (hrows _ r).mp (ObjectMap.get_of_mem hr)
      have hcode := (h.appears _).mp hcode
      exact ⟨_, hcode, by rw [← h.resultsOf hcode, ← hval]⟩
    · rintro ⟨c, hc, rfl⟩
      have hget := hrows.get ((h.appears c).mpr hc)
      rw [h.resultsOf hc] at hget
      exact (ObjectMap.get_eq_some.mp hget).1
  have hfilled := hperm.map fun r => { r with gd := r.gf - r.ga }
  rwa [List.map_map] at hfilled

/-! ## Sorted tables -/

/-- What is assumed of the locale's comparison of codes: a total order. -/
structure LocaleOrder (localeCompare : C → C → ℤ) : Prop where
  trans : ∀ a b c, localeCompare a b ≤ 0 → localeCompare b c ≤ 0 → localeCompare a c ≤ 0
  total : ∀ a b, localeCompare a b ≤ 0 ∨ localeCompare b a ≤ 0
  antisymm : ∀ a b, localeCompare a b ≤ 0 → localeCompare b a ≤ 0 → a = b

variable {localeCompare : C → C → ℤ}

omit [LinearOrder C] in
theorem rowBefore_iff {x y : Row C} : rowBefore localeCompare x y ↔
    y.points < x.points ∨ y.points = x.points ∧ (y.gd < x.gd ∨ y.gd = x.gd ∧
      (y.gf < x.gf ∨ y.gf = x.gf ∧ localeCompare x.team.code y.team.code ≤ 0)) := by
  rw [rowBefore, compareRows, decide_eq_true_eq]
  split_ifs <;> omega

omit [LinearOrder C] in
theorem rowBefore_trans (h : LocaleOrder localeCompare) (x y z : Row C) :
    rowBefore localeCompare x y → rowBefore localeCompare y z → rowBefore localeCompare x z := by
  have htrans := h.trans x.team.code y.team.code z.team.code
  simp only [rowBefore_iff]
  omega

omit [LinearOrder C] in
theorem rowBefore_total (h : LocaleOrder localeCompare) (x y : Row C) :
    rowBefore localeCompare x y || rowBefore localeCompare y x := by
  have htotal := h.total x.team.code y.team.code
  simp only [Bool.or_eq_true, rowBefore_iff]
  omega

omit [LinearOrder C] in
theorem rowBefore_code (h : LocaleOrder localeCompare) {x y : Row C}
    (hxy : rowBefore localeCompare x y) (hyx : rowBefore localeCompare y x) :
    x.team.code = y.team.code := by
  rw [rowBefore_iff] at hxy hyx
  apply h.antisymm <;> omega

/-- The table of a group. -/
def tableOf (teams : C → TeamDetails) (localeCompare : C → C → ℤ) (games : List (Game C))
    (codes : List C) : List (Row C) :=
  (codes.map (recount teams games)).mergeSort (rowBefore localeCompare)

theorem recount_code (code : C) : (recount teams games code).team.code = code := rfl

theorem tableOf_perm :
    (tableOf teams localeCompare games codes).Perm (codes.map (recount teams games)) :=
  List.mergeSort_perm _ _

theorem tableOf_codes :
    ((tableOf teams localeCompare games codes).map fun r => r.team.code).Perm codes := by
  have hid : (codes.map (recount teams games)).map (fun r => r.team.code) = codes := by
    simp [Function.comp_def, recount_code]
  have h := (List.mergeSort_perm (codes.map (recount teams games))
    (rowBefore localeCompare)).map fun r => r.team.code
  rwa [hid] at h

theorem groupView_rows (hlocale : LocaleOrder localeCompare)
    (hne : ∀ m ∈ games, m.home ≠ m.away) (h : IsGroup games codes) (i : ℕ) :
    (groupView teams localeCompare games i codes).rows =
      tableOf teams localeCompare games codes := by
  have hrows : ((groupRows teams (groupGames games codes)).values.map fun r =>
      { r with gd := r.gf - r.ga }).Perm (codes.map (recount teams games)) :=
    groupRows_perm hne h
  apply mergeSort_eq_of_perm (rowBefore_trans hlocale) (rowBefore_total hlocale) hrows
  intro x hx y hy hxy hyx
  obtain ⟨c, -, rfl⟩ := List.mem_map.mp (hrows.mem_iff.mp hx)
  obtain ⟨d, -, rfl⟩ := List.mem_map.mp (hrows.mem_iff.mp hy)
  exact congrArg (recount teams games) (rowBefore_code hlocale hxy hyx)

/-! ## Balance -/

/-- The counting scores within a group. -/
def scoresIn (games : List (Game C)) (codes : List C) : List (ℤ × ℤ) :=
  (groupGames games codes).filterMap Game.score

/-- Each score is counted once for either side. -/
theorem sum_results (weight : ℤ × ℤ → ℤ) (hnodup : codes.Nodup)
    (hin : ∀ m ∈ games, m.home ∈ codes ∧ m.away ∈ codes) (hne : ∀ m ∈ games, m.home ≠ m.away) :
    (codes.map fun c => ((resultsOf games c).map weight).sum).sum =
      ((games.filterMap Game.score).map fun s => weight s + weight s.swap).sum := by
  induction games with
  | nil => simp [resultsOf]
  | cons m games ih =>
      obtain ⟨⟨hhome, haway⟩, hin⟩ := List.forall_mem_cons.mp hin
      obtain ⟨hm, hne⟩ := List.forall_mem_cons.mp hne
      have hone : (codes.map fun c => ((resultsOf [m] c).map weight).sum).sum =
          ((m.score.toList).map fun s => weight s + weight s.swap).sum := by
        cases hscore : m.score with
        | none => simp [resultsOf, hscore]
        | some s =>
            have hpoint : ∀ c, ((resultsOf [m] c).map weight).sum =
                (if c = m.home then weight s else 0) + if c = m.away then weight s.swap else 0 := by
              intro c
              by_cases hc : c = m.home
              · subst hc
                simp [resultsOf, hscore, hm]
              · by_cases hc' : c = m.away
                · subst hc'
                  simp [resultsOf, hscore, hm, hc]
                · simp [resultsOf, hscore, Ne.symm hc, Ne.symm hc', hc, hc']
            simp only [hpoint, List.sum_map_add, List.sum_map_ite_eq,
              List.count_eq_one_of_mem hnodup hhome, List.count_eq_one_of_mem hnodup haway]
            simp
      simp only [resultsOf_cons m games, List.map_append, List.sum_append, List.sum_map_add,
        hone, ih hin hne]
      cases hscore : m.score with
      | none => simp [hscore]
      | some s =>
          simp [hscore]
          ring

/-- A column that adds up a weight of the scores, over a whole group. -/
theorem sum_column (weight : ℤ × ℤ → ℤ) (column : Row C → ℤ)
    (hcolumn : ∀ code rs, column (tally teams code rs) = (rs.map weight).sum)
    (hne : ∀ m ∈ games, m.home ≠ m.away) (h : IsGroup games codes) :
    ((tableOf teams localeCompare games codes).map column).sum =
      ((scoresIn games codes).map fun s => weight s + weight s.swap).sum := by
  have hrows : (codes.map fun c => column (recount teams games c)) =
      codes.map fun c => ((resultsOf (groupGames games codes) c).map weight).sum := by
    apply List.map_congr_left
    intro c hc
    rw [recount, hcolumn, h.resultsOf hc]
  rw [(tableOf_perm.map column).sum_eq, List.map_map, Function.comp_def, hrows, scoresIn]
  apply sum_results weight h.1.nodup
  · exact fun m hm => (mem_groupGames.mp hm).2
  · exact fun m hm => hne m (mem_groupGames.mp hm).1

theorem table_goals (hne : ∀ m ∈ games, m.home ≠ m.away) (h : IsGroup games codes) :
    ((tableOf teams localeCompare games codes).map (·.gf)).sum =
      ((tableOf teams localeCompare games codes).map (·.ga)).sum := by
  rw [sum_column Prod.fst _ (fun _ _ => rfl) hne h, sum_column Prod.snd _ (fun _ _ => rfl) hne h]
  simp [add_comm]

theorem table_differences (hne : ∀ m ∈ games, m.home ≠ m.away) (h : IsGroup games codes) :
    ((tableOf teams localeCompare games codes).map (·.gd)).sum = 0 := by
  rw [sum_column _ _ tally_gd hne h]
  simp

theorem table_wins (hne : ∀ m ∈ games, m.home ≠ m.away) (h : IsGroup games codes) :
    ((tableOf teams localeCompare games codes).map (·.won)).sum =
      ((tableOf teams localeCompare games codes).map (·.lost)).sum := by
  rw [sum_column _ _ tally_won hne h, sum_column _ _ tally_lost hne h]
  simp [add_comm]

theorem table_points (hne : ∀ m ∈ games, m.home ≠ m.away) (h : IsGroup games codes) :
    ((tableOf teams localeCompare games codes).map (·.points)).sum =
      3 * (scoresIn games codes).countP (fun s => decide (s.1 ≠ s.2)) +
        2 * (scoresIn games codes).countP (fun s => decide (s.1 = s.2)) := by
  rw [sum_column _ _ tally_points hne h, countP_eq_sum, countP_eq_sum, ← List.sum_map_mul_left,
    ← List.sum_map_mul_left, ← List.sum_map_add]
  congr 2
  funext s
  rcases lt_trichotomy s.1 s.2 with hs | hs | hs
  · simp [hs, hs.ne, hs.ne', hs.not_gt]
  · simp [hs]
  · simp [hs, hs.ne, hs.ne', hs.not_gt]

end ProofBook.Standings
