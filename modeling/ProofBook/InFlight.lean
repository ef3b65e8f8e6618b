import ProofBook.SettledReceipts
import ProofBook.Mirror

/-!
# One attempt in flight

Calls of `settleFixture` interleave at their awaits, and what they await comes back as
anything. The mark of a market is looked up before the market is read and set after, and
an attempt that is over removes the mark, also another's.
-/
namespace ProofBook.InFlight
open Addresses Catalogue Settlers Runs
open ProofBook.State (Market)
open SettledReceipts (emptyState goalsConfig)
open ComboRule (comboMarket)

variable {D : Type}

/-! ## Interleaved calls -/

inductive Op (D : Type)
  | settleFixture (fixtureId : Int64) (seq : ℤ)
  /-- What a walk awaits comes back; `now` is in milliseconds. -/
  | returns (i : ℕ) (now : ℤ) (r : Reply D)
  /-- The delay before the next try is over. -/
  | wakes (i : ℕ)

section
variable (cfg : Config D)

/-- A new walk, up to its first await. -/
def settleFixture (s : State D) (fixtureId : Int64) (seq : ℤ) : State D :=
  { s.setWalk s.launched (walkOn cfg s.inFlight fixtureId seq cfg.defs) with
    launched := s.launched + 1 }

def next (s : State D) : Op D → Option (State D)
  | .settleFixture fixtureId seq => some (settleFixture cfg s fixtureId seq)
  | .returns i now r => do
      let v ← s.walks i
      some (resumeWalk cfg s i v now r)
  | .wakes i => do
      let v ← s.walks i
      match v.stop with
      | .sleeping n => some (tryAttempt cfg s i v (n + 1))
      | _ => none

def machine : Machine (State D) (Op D) Unit := ⟨fun s op => (next cfg s op).elim (.error ()) .ok⟩

/-- Within the attempt of a market. -/
def attempting : WalkStop D → Bool
  | .read => false
  | _ => true

/-- Call `i` runs an attempt of this market. -/
def Runs (s : State D) (key : Pubkey) (i : ℕ) : Prop :=
  ∃ v, s.walks i = some v ∧ v.pda cfg = key ∧ attempting v.stop = true

instance (s : State D) (key : Pubkey) (i : ℕ) : Decidable (Runs cfg s key i) :=
  inferInstanceAs (Decidable (∃ v ∈ s.walks i, v.pda cfg = key ∧ attempting v.stop = true))

structure AtMostOne (s : State D) : Prop where
  one : ∀ key i j, Runs cfg s key i → Runs cfg s key j → i = j
  marked : ∀ key, s.inFlight key = true ↔ ∃ i, Runs cfg s key i

/-- No call runs and no market is marked. -/
structure Idle (s : State D) : Prop where
  walks : ∀ i, s.walks i = none
  inFlight : ∀ key, s.inFlight key = false

/-- The market exists and is not resolved. -/
def Due : Reply D → Prop
  | .market (some m) => m.status.terminal = false
  | _ => False

instance (r : Reply D) : Decidable (Due r) := by
  unfold Due
  split <;> infer_instance

/-- A market that a walk finds due is not marked. -/
def Unmarked (s : State D) : Op D → Prop
  | .returns i _ r =>
      Due r → ∀ v ∈ s.walks i, attempting v.stop = false → s.inFlight (v.pda cfg) = false
  | _ => True

instance (s : State D) (op : Op D) : Decidable (Unmarked cfg s op) := by
  cases op <;> unfold Unmarked <;> infer_instance

end

variable {cfg : Config D} {s t : State D} {i : ℕ} {v : Walk D} {r : Reply D}

/-! ## One step -/

/-- Only walk `i` and the marks change. -/
structure Moved (s : State D) (i : ℕ) (w : Option (Walk D)) (inFlight : Pubkey → Bool)
    (t : State D) : Prop where
  walks : t.walks = Function.update s.walks i w
  inFlight : t.inFlight = inFlight
  launched : s.launched ≤ t.launched

/-- What a step of walk `i` does. -/
inductive Turn (cfg : Config D) (s : State D) (i : ℕ) (v : Walk D) (r : Reply D) (t : State D) :
    Prop
  | goesOn {w : Walk D} (attempts : attempting v.stop = true)
      (moved : Moved s i (some w) s.inFlight t) (pda : w.pda cfg = v.pda cfg)
      (still : attempting w.stop = true)
  | ends {w : Option (Walk D)} (attempts : attempting v.stop = true)
      (reads : ∀ u ∈ w, attempting u.stop = false)
      (moved : Moved s i w (Function.update s.inFlight (v.pda cfg) false) t)
  | passes {w : Option (Walk D)} (reading : attempting v.stop = false) (due : ¬ Due r)
      (reads : ∀ u ∈ w, attempting u.stop = false) (moved : Moved s i w s.inFlight t)
  | begins {w : Walk D} (reading : attempting v.stop = false) (due : Due r)
      (moved : Moved s i (some w) (Function.update s.inFlight (v.pda cfg) true) t)
      (pda : w.pda cfg = v.pda cfg) (attempts : attempting w.stop = true)
  | skips {w : Option (Walk D)} (reading : attempting v.stop = false) (due : Due r)
      (reads : ∀ u ∈ w, attempting u.stop = false)
      (moved : Moved s i w (Function.update s.inFlight (v.pda cfg) false) t)

theorem attempting_eq_false {stop : WalkStop D} : attempting stop = false ↔ stop = .read := by
  cases stop <;> simp [attempting]

theorem walkOn_reads {inFlight : Pubkey → Bool} {fixtureId : Int64} {seq : ℤ}
    {rest : List MarketTypeDef} :
    ∀ u ∈ walkOn cfg inFlight fixtureId seq rest, attempting u.stop = false := by
  intro u hu
  exact attempting_eq_false.mpr (walkOn_read hu).1

theorem Turn.await {stop : WalkStop D} (h : attempting v.stop = true)
    (hstop : attempting stop = true) :
    Turn cfg s i v r (s.setWalk i (some { v with stop, reply := none })) :=
  .goesOn h ⟨rfl, rfl, le_rfl⟩ rfl hstop

theorem Turn.finish (h : attempting v.stop = true) : Turn cfg s i v r (finishAttempt cfg s i v) :=
  .ends h walkOn_reads ⟨rfl, rfl, le_rfl⟩

theorem Turn.catch (h : attempting v.stop = true) (n : ℕ) (e : Keeper.Failure) :
    Turn cfg s i v r (catchAttempt cfg s i v n e) := by
  unfold catchAttempt
  split_ifs
  · exact .finish h
  · exact .await h rfl

theorem Turn.try (h : attempting v.stop = true) (n : ℕ) :
    Turn cfg s i v r (tryAttempt cfg s i v n) := by
  unfold tryAttempt
  split_ifs
  · exact .await h rfl
  · exact .finish h

theorem Turn.claim (h : attempting v.stop = true) {now : ℤ} {n : ℕ} {onchain : Market D}
    {val : StatValidationV3 D} :
    Turn cfg s i v r (claimOutcome cfg s i v now n onchain val) := by
  unfold claimOutcome
  split
  · exact .catch h n _
  · dsimp only
    split_ifs
    · exact .catch h n _
    · exact .finish h
    · exact .catch h n _
    · exact .await h rfl
    · exact .await h rfl

/-- The mark is set only where the read market is due. -/
theorem Turn.read (h : v.stop = .read) (now : ℤ) :
    Turn cfg s i v r (resumeWalk cfg s i v now r) := by
  have hreading := attempting_eq_false.mpr h
  unfold resumeWalk
  dsimp only
  rw [h]
  dsimp only
  split
  next m =>
    split_ifs with hsettled hcancelled
    · exact .passes hreading (by simp [Due, hsettled, State.MarketStatus.terminal]) walkOn_reads
        ⟨rfl, rfl, le_rfl⟩
    · exact .passes hreading (by simp [Due, hcancelled, State.MarketStatus.terminal]) walkOn_reads
        ⟨rfl, rfl, le_rfl⟩
    · have hdue : Due (.market (some m)) := by
        unfold Due State.MarketStatus.terminal
        cases hm : m.status <;> simp_all
      unfold tryAttempt
      split_ifs
      · exact .begins hreading hdue ⟨rfl, rfl, le_rfl⟩ rfl rfl
      · refine .skips hreading hdue walkOn_reads ⟨rfl, ?_, le_rfl⟩
        exact Function.update_idem _ _ _
  next hr =>
    refine .passes hreading ?_ walkOn_reads ⟨rfl, rfl, le_rfl⟩
    cases r with
    | market onchain =>
        cases onchain with
        | none => exact id
        | some m => exact absurd rfl (hr m)
    | built b => exact id
    | validation val => exact id
    | sent signature => exact id
    | thrown e => exact id

theorem resumeWalk_turn (hv : s.walks i = some v) (now : ℤ) :
    Turn cfg s i v r (resumeWalk cfg s i v now r) := by
  cases h : attempting v.stop with
  | false => exact .read (attempting_eq_false.mp h) now
  | true =>
      unfold resumeWalk
      dsimp only
      cases hstop : v.stop with
      | read =>
          rw [hstop] at h
          cases h
      | fetch n =>
          dsimp only
          split
          · split_ifs
            · exact .finish h
            · exact .await h rfl
          · exact .finish h
          · exact .catch h n _
      | proof n onchain =>
          dsimp only
          split
          · exact .claim h
          · exact .catch h n _
      | lock n claimed b =>
          dsimp only
          split
          · exact .await h rfl
          · exact .catch h n _
      | settle n claimed b =>
          dsimp only
          split
          · exact .await h rfl
          · exact .catch h n _
      | refetch n claimed b settleTx =>
          dsimp only
          split
          · exact .ends h walkOn_reads ⟨rfl, rfl, le_rfl⟩
          · exact .catch h n _
      | sleeping n =>
          refine .goesOn h ⟨?_, rfl, le_rfl⟩ rfl h
          rw [← hv, Function.update_eq_self]

/-! ## Who runs -/

theorem runs_iff {key : Pubkey} (hv : s.walks i = some v) :
    Runs cfg s key i ↔ v.pda cfg = key ∧ attempting v.stop = true := by
  unfold Runs
  rw [hv]
  simp

theorem Moved.runs_self {w : Option (Walk D)} {inFlight : Pubkey → Bool}
    (h : Moved s i w inFlight t) {key : Pubkey} :
    Runs cfg t key i ↔ ∃ u ∈ w, u.pda cfg = key ∧ attempting u.stop = true := by
  unfold Runs
  rw [h.walks, Function.update_self]
  rfl

theorem Moved.runs_other {w : Option (Walk D)} {inFlight : Pubkey → Bool}
    (h : Moved s i w inFlight t) {key : Pubkey} {j : ℕ} (hj : j ≠ i) :
    Runs cfg t key j ↔ Runs cfg s key j := by
  unfold Runs
  rw [h.walks, Function.update_of_ne hj]

theorem not_runs {key : Pubkey} {w : Option (Walk D)} (hw : s.walks i = w)
    (reads : ∀ u ∈ w, attempting u.stop = false) : ¬ Runs cfg s key i := by
  intro ⟨u, hu, _, hattempts⟩
  rw [reads u (hw ▸ hu)] at hattempts
  cases hattempts

/-- The same calls run and the same markets are marked. -/
theorem AtMostOne.same (h : AtMostOne cfg s)
    (hruns : ∀ key j, Runs cfg t key j ↔ Runs cfg s key j) (hmarks : t.inFlight = s.inFlight) :
    AtMostOne cfg t where
  one key j k hj hk := h.one key j k ((hruns key j).mp hj) ((hruns key k).mp hk)
  marked key := by
    rw [hmarks, h.marked key]
    exact exists_congr fun j => (hruns key j).symm

/-- A call that goes on reading does not count. -/
theorem Moved.runs_same {w : Option (Walk D)} {inFlight : Pubkey → Bool}
    (h : Moved s i w inFlight t) (hold : ∀ u ∈ s.walks i, attempting u.stop = false)
    (hnew : ∀ u ∈ w, attempting u.stop = false) (key : Pubkey) (j : ℕ) :
    Runs cfg t key j ↔ Runs cfg s key j := by
  by_cases hj : j = i
  · subst hj
    have hwalks : t.walks j = w := by rw [h.walks, Function.update_self]
    exact iff_of_false (not_runs hwalks hnew) (not_runs rfl hold)
  · exact h.runs_other hj

theorem AtMostOne.goesOn {w : Walk D} (h : AtMostOne cfg s) (hv : s.walks i = some v)
    (attempts : attempting v.stop = true) (moved : Moved s i (some w) s.inFlight t)
    (pda : w.pda cfg = v.pda cfg) (still : attempting w.stop = true) : AtMostOne cfg t := by
  apply h.same _ moved.inFlight
  intro key j
  by_cases hj : j = i
  · subst hj
    rw [moved.runs_self, runs_iff hv]
    simp [pda, attempts, still]
  · exact moved.runs_other hj

theorem AtMostOne.ends {w : Option (Walk D)} (h : AtMostOne cfg s) (hv : s.walks i = some v)
    (attempts : attempting v.stop = true) (reads : ∀ u ∈ w, attempting u.stop = false)
    (moved : Moved s i w (Function.update s.inFlight (v.pda cfg) false) t) : AtMostOne cfg t := by
  have hruns : ∀ key j, Runs cfg t key j ↔ Runs cfg s key j ∧ j ≠ i := by
    intro key j
    by_cases hj : j = i
    · subst hj
      have hwalks : t.walks j = w := by rw [moved.walks, Function.update_self]
      simp [not_runs hwalks reads]
    · rw [moved.runs_other hj]
      simp [hj]
  have hrun : Runs cfg s (v.pda cfg) i := (runs_iff hv).mpr ⟨rfl, attempts⟩
  constructor
  · intro key j k hj hk
    exact h.one key j k ((hruns key j).mp hj).1 ((hruns key k).mp hk).1
  · intro key
    rw [moved.inFlight]
    by_cases hkey : key = v.pda cfg
    · subst hkey
      rw [Function.update_self]
      simp only [Bool.false_eq_true, false_iff, not_exists]
      intro j hj
      obtain ⟨hj, hne⟩ := (hruns _ j).mp hj
      exact hne (h.one _ j i hj hrun)
    · rw [Function.update_of_ne hkey, h.marked key]
      apply exists_congr
      intro j
      rw [hruns]
      refine ⟨fun hj => ⟨hj, ?_⟩, And.left⟩
      rintro rfl
      exact hkey ((runs_iff hv).mp hj).1.symm

/-- An attempt begins; where the market was marked, another one runs. -/
theorem AtMostOne.begins {w : Walk D} (h : AtMostOne cfg s) (hv : s.walks i = some v)
    (reading : attempting v.stop = false)
    (moved : Moved s i (some w) (Function.update s.inFlight (v.pda cfg) true) t)
    (pda : w.pda cfg = v.pda cfg) (attempts : attempting w.stop = true) :
    AtMostOne cfg t ↔ s.inFlight (v.pda cfg) = false := by
  have hidle : ∀ key, ¬ Runs cfg s key i := by
    intro key hrun
    rw [runs_iff hv, reading] at hrun
    cases hrun.2
  have hself : ∀ key, Runs cfg t key i ↔ v.pda cfg = key := by
    intro key
    rw [moved.runs_self]
    simp [pda, attempts]
  constructor
  · intro ht
    by_contra hmark
    rw [Bool.not_eq_false, h.marked] at hmark
    obtain ⟨j, hj⟩ := hmark
    have hne : j ≠ i := fun hji => hidle _ (hji ▸ hj)
    exact hne (ht.one _ j i ((moved.runs_other hne).mpr hj) ((hself _).mpr rfl))
  · intro hmark
    have hfree : ∀ j, ¬ Runs cfg s (v.pda cfg) j := by
      intro j hj
      rw [(h.marked _).mpr ⟨j, hj⟩] at hmark
      cases hmark
    constructor
    · intro key j k hj hk
      by_cases hji : j = i <;> by_cases hki : k = i
      · rw [hji, hki]
      · subst hji
        rw [hself] at hj
        rw [moved.runs_other hki, ← hj] at hk
        exact absurd hk (hfree k)
      · subst hki
        rw [hself] at hk
        rw [moved.runs_other hji, ← hk] at hj
        exact absurd hj (hfree j)
      · exact h.one key j k ((moved.runs_other hji).mp hj) ((moved.runs_other hki).mp hk)
    · intro key
      rw [moved.inFlight]
      by_cases hkey : key = v.pda cfg
      · rw [hkey, Function.update_self]
        exact iff_of_true rfl ⟨i, (hself _).mpr rfl⟩
      · rw [Function.update_of_ne hkey, h.marked key]
        apply exists_congr
        intro j
        by_cases hj : j = i
        · rw [hj]
          exact iff_of_false (hidle key) fun hrun => hkey ((hself key).mp hrun).symm
        · exact (moved.runs_other hj).symm

/-- An attempt without a try removes the mark it has set, also one that was there. -/
theorem AtMostOne.skips {w : Option (Walk D)} (h : AtMostOne cfg s) (hv : s.walks i = some v)
    (reading : attempting v.stop = false) (reads : ∀ u ∈ w, attempting u.stop = false)
    (moved : Moved s i w (Function.update s.inFlight (v.pda cfg) false) t) :
    AtMostOne cfg t ↔ s.inFlight (v.pda cfg) = false := by
  have hold : ∀ u ∈ s.walks i, attempting u.stop = false := by
    intro u hu
    rw [hv] at hu
    cases hu
    exact reading
  have hruns := @Moved.runs_same _ cfg _ _ _ _ _ moved hold reads
  constructor
  · intro ht
    by_contra hmark
    rw [Bool.not_eq_false, h.marked] at hmark
    obtain ⟨j, hj⟩ := hmark
    have hgone : t.inFlight (v.pda cfg) = true := (ht.marked _).mpr ⟨j, (hruns _ j).mpr hj⟩
    rw [moved.inFlight, Function.update_self] at hgone
    cases hgone
  · intro hmark
    apply h.same hruns
    rw [moved.inFlight, ← hmark, Function.update_eq_self]

/-! ## Runs -/

/-- The calls that were not made yet. -/
def Fresh (s : State D) : Prop := ∀ i, s.launched ≤ i → s.walks i = none

theorem Fresh.moved {w : Option (Walk D)} {inFlight : Pubkey → Bool} (h : Fresh s)
    (moved : Moved s i w inFlight t) (hi : i < t.launched) : Fresh t := by
  intro j hj
  have hne : j ≠ i := by omega
  rw [moved.walks, Function.update_of_ne hne, h j (moved.launched.trans hj)]

theorem Fresh.lt (h : Fresh s) (hv : s.walks i = some v) : i < s.launched := by
  by_contra hi
  rw [h i (not_lt.mp hi)] at hv
  cases hv

theorem Turn.fresh (h : Turn cfg s i v r t) (hv : s.walks i = some v) (hs : Fresh s) :
    Fresh t := by
  cases h with
  | goesOn _ moved | ends _ _ moved | passes _ _ _ moved | begins _ _ moved | skips _ _ _ moved =>
      exact hs.moved moved ((hs.lt hv).trans_le moved.launched)

/-- A turn keeps the property exactly where a due market is not marked. -/
theorem Turn.atMostOne_iff (h : Turn cfg s i v r t) (hv : s.walks i = some v)
    (hs : AtMostOne cfg s) :
    AtMostOne cfg t ↔
      (Due r → attempting v.stop = false → s.inFlight (v.pda cfg) = false) := by
  cases h with
  | goesOn attempts moved pda still =>
      simp [hs.goesOn hv attempts moved pda still, attempts]
  | ends attempts reads moved => simp [hs.ends hv attempts reads moved, attempts]
  | passes reading due reads moved =>
      have hold : ∀ u ∈ s.walks i, attempting u.stop = false := by
        intro u hu
        rw [hv] at hu
        cases hu
        exact reading
      simp [hs.same (moved.runs_same hold reads) moved.inFlight, due]
  | begins reading due moved pda attempts =>
      rw [hs.begins hv reading moved pda attempts]
      simp [due, reading]
  | skips reading due reads moved =>
      rw [hs.skips hv reading reads moved]
      simp [due, reading]

theorem settleFixture_keeps (hs : AtMostOne cfg s) (hf : Fresh s) (fixtureId : Int64) (seq : ℤ) :
    AtMostOne cfg (settleFixture cfg s fixtureId seq) ∧
      Fresh (settleFixture cfg s fixtureId seq) := by
  have moved : Moved s s.launched (walkOn cfg s.inFlight fixtureId seq cfg.defs) s.inFlight
      (settleFixture cfg s fixtureId seq) := ⟨rfl, rfl, Nat.le_succ _⟩
  have hold : ∀ u ∈ s.walks s.launched, attempting u.stop = false := by
    rw [hf s.launched le_rfl]
    simp
  exact ⟨hs.same (moved.runs_same hold walkOn_reads) rfl, hf.moved moved (Nat.lt_succ_self _)⟩

/-- One step keeps the property exactly where it meets the condition. -/
theorem next_iff {op : Op D} (h : next cfg s op = some t) (hs : AtMostOne cfg s) (hf : Fresh s) :
    (Unmarked cfg s op ↔ AtMostOne cfg t) ∧ Fresh t := by
  cases op with
  | settleFixture fixtureId seq =>
      injection h with h
      obtain ⟨ht, hfresh⟩ := @settleFixture_keeps _ cfg _ hs hf fixtureId seq
      rw [h] at ht hfresh
      exact ⟨iff_of_true trivial ht, hfresh⟩
  | returns i now r =>
      simp only [next, Option.bind_eq_bind, Option.bind_eq_some_iff] at h
      obtain ⟨v, hv, h⟩ := h
      injection h with h
      have hturn : Turn cfg s i v r t := h ▸ resumeWalk_turn hv now
      refine ⟨?_, hturn.fresh hv hf⟩
      rw [hturn.atMostOne_iff hv hs, Unmarked, hv]
      simp
  | wakes i =>
      simp only [next, Option.bind_eq_bind, Option.bind_eq_some_iff] at h
      obtain ⟨v, hv, h⟩ := h
      split at h
      next n hstop =>
        injection h with h
        have hattempts : attempting v.stop = true := by rw [hstop]; rfl
        have hturn : Turn cfg s i v (.market none) t := h ▸ .try hattempts (n + 1)
        refine ⟨iff_of_true trivial ?_, hturn.fresh hv hf⟩
        rw [hturn.atMostOne_iff hv hs]
        exact fun hdue => hdue.elim
      · cases h

theorem Idle.atMostOne (h : Idle s) : AtMostOne cfg s ∧ Fresh s := by
  have hruns : ∀ key i, ¬ Runs cfg s key i := by
    intro key i hrun
    exact not_runs (h.walks i) (by simp) hrun
  refine ⟨⟨fun key i j hi => absurd hi (hruns key i), fun key => ?_⟩, fun i _ => h.walks i⟩
  rw [h.inFlight]
  simp [hruns]

theorem apply_iff {op : Op D} (hs : AtMostOne cfg s) (hf : Fresh s) :
    (Unmarked cfg s op ↔ AtMostOne cfg ((machine cfg).apply s op)) ∧
      Fresh ((machine cfg).apply s op) := by
  cases h : next cfg s op with
  | some t =>
      have happly : (machine cfg).apply s op = t :=
        Machine.apply_of_ok (by simp only [machine, h, Option.elim_some])
      rw [happly]
      exact next_iff h hs hf
  | none =>
      have happly : (machine cfg).apply s op = s :=
        Machine.apply_of_error (e := ()) (by simp only [machine, h, Option.elim_none])
      rw [happly]
      refine ⟨iff_of_true ?_ hs, hf⟩
      cases op with
      | settleFixture fixtureId seq => trivial
      | wakes i => trivial
      | returns i now r =>
          have hv : s.walks i = none := by
            cases hv : s.walks i with
            | none => rfl
            | some v => simp [next, hv] at h
          intro _ v hvs
          rw [hv] at hvs
          cases hvs

/-- Along a run the calls exclude each other, and the marks say which run, exactly where
no walk finds a due market marked. -/
theorem settle_fixture_excludes (cfg : Config D) {s : State D} (h : Idle s) (ops : List (Op D)) :
    (machine cfg).Along (Unmarked cfg) s ops ↔
      (machine cfg).Along (fun s op => AtMostOne cfg ((machine cfg).apply s op)) s ops := by
  obtain ⟨hs, hf⟩ := @Idle.atMostOne _ cfg _ h
  clear h
  induction ops generalizing s with
  | nil => exact Iff.rfl
  | cons op ops ih =>
      obtain ⟨hop, hfresh⟩ := @apply_iff _ cfg _ op hs hf
      constructor
      · intro ⟨hunmarked, hops⟩
        have ht := hop.mp hunmarked
        exact ⟨ht, (ih ht hfresh).mp hops⟩
      · intro ⟨ht, hops⟩
        exact ⟨hop.mpr ht, (ih ht hfresh).mpr hops⟩

/-! ## Two calls for one fixture -/

theorem emptyState_idle : Idle emptyState := ⟨fun _ => rfl, fun _ => rfl⟩

/-- What both calls read. -/
def lockedMarket : Reply Unit :=
  .market (some { Mirror.keeperMarket .locked with marketType := 16 })

/-- The second call reads the market while the first attempts it. -/
def raceOps : List (Op Unit) :=
  [.settleFixture 7 1, .settleFixture 7 2, .returns 0 0 lockedMarket, .returns 1 0 lockedMarket]

/-- The second call reads it once the first is over. -/
def turnsOps : List (Op Unit) :=
  [.settleFixture 7 1, .settleFixture 7 2, .returns 0 0 lockedMarket, .returns 0 0 (.market none),
    .returns 1 0 lockedMarket]

theorem settle_fixture_excludes_turns :
    (machine goalsConfig).Along
      (fun s op => AtMostOne goalsConfig ((machine goalsConfig).apply s op)) emptyState turnsOps :=
  (settle_fixture_excludes goalsConfig emptyState_idle turnsOps).mp (by decide)

/-- Two attempts of one market run, and the first to end removes the mark of the other. -/
theorem settle_fixture_races :
    let s := (machine goalsConfig).run emptyState raceOps
    let t := (machine goalsConfig).apply s (.returns 0 0 (.market none))
    Idle emptyState ∧ ¬ AtMostOne goalsConfig s ∧ ¬ AtMostOne goalsConfig t ∧
      Runs goalsConfig s comboMarket 0 ∧ Runs goalsConfig s comboMarket 1 ∧
      Runs goalsConfig t comboMarket 1 ∧ t.inFlight comboMarket = false := by
  intro s t
  have hruns : Runs goalsConfig s comboMarket 0 ∧ Runs goalsConfig s comboMarket 1 := by decide
  have hgone : Runs goalsConfig t comboMarket 1 ∧ t.inFlight comboMarket = false := by decide
  refine ⟨emptyState_idle, fun h => ?_, fun h => ?_, hruns.1, hruns.2, hgone⟩
  · exact absurd (h.one _ 0 1 hruns.1 hruns.2) (by decide)
  · have hmark := (h.marked comboMarket).mpr ⟨1, hgone.1⟩
    rw [hgone.2] at hmark
    cases hmark

end ProofBook.InFlight
