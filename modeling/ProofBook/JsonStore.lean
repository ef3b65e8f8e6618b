import ProofBook.Lib.Runs
import ProofBook.Lib.Checked

/-!
# The file store under crashes

In a replay the keeper's state is one JSON file. A save is put off by a timer and
then written to a second file that takes the place of the first. The process may
die at any moment, in the middle of a write as well; what a write left unfinished
does not parse.
-/
namespace ProofBook.JsonStore
open Checked Runs

variable {S : Type}

/-! ## The process and the disk -/

/-- The text of some data, or a part of one. -/
inductive Contents (S : Type)
  | whole (data : S)
  | torn

structure Disk (S : Type) where
  file : Option (Contents S)
  tmp : Option (Contents S)

/-- What a save still has to do. -/
inductive Saving
  | write
  | rename
deriving DecidableEq

structure Store (S : Type) where
  data : S
  dirty : Bool
  timer : Bool
  saving : Option Saving

structure State (S : Type) where
  disk : Disk S
  store : Option (Store S)

/-- A file that is not there or does not parse counts as empty. -/
def load (empty : S) : Option (Contents S) → S
  | some (.whole data) => data
  | _ => empty

inductive Op (S : Type)
  | boot
  | mutate (change : S → S)
  | saveSoon
  | timer
  | flush
  | write
  | rename
  | crash (midWrite : Bool)

/-- A save is synchronous: until it is done, only a crash comes between. -/
def idle (s : State S) : Except String (Store S) := do
  let st ← demand s.store "not running"
  require (st.saving = none) "saving"
  pure st

def saveAt (s : State S) (stage : Saving) : Except String (Store S) := do
  let st ← demand s.store "not running"
  require (st.saving = some stage) "not saving"
  pure st

def step (empty : S) (s : State S) : Op S → Except String (State S)
  | .boot => do
      require (s.store.isNone = true) "running"
      pure { s with store := some ⟨load empty s.disk.file, false, false, none⟩ }
  | .mutate change => do
      let st ← idle s
      pure { s with store := some { st with data := change st.data } }
  | .saveSoon => do
      let st ← idle s
      pure { s with store := some { st with dirty := true, timer := true } }
  | .timer => do
      let st ← idle s
      require (st.timer = true) "no timer"
      if st.dirty then
        pure { s with
          store := some { st with timer := false, dirty := false, saving := some .write } }
      else pure { s with store := some { st with timer := false } }
  | .flush => do
      let st ← idle s
      pure { s with store := some { st with timer := false, saving := some .write } }
  | .write => do
      let st ← saveAt s .write
      pure
        { disk := { s.disk with tmp := some (.whole st.data) }
          store := some { st with saving := some .rename } }
  | .rename => do
      let st ← saveAt s .rename
      pure { disk := ⟨s.disk.tmp, none⟩, store := some { st with saving := none } }
  | .crash midWrite => do
      let st ← demand s.store "not running"
      if midWrite ∧ st.saving = some .write then
        pure { disk := { s.disk with tmp := some .torn }, store := none }
      else pure { s with store := none }

def machine (empty : S) : Machine (State S) (Op S) String := ⟨step empty⟩

/-! ## What a step does -/

variable {empty : S} {s t : State S} {op : Op S}

/-- A save that was asked for and is not done. -/
def Pending (s : State S) : Prop := ∃ st, s.store = some st ∧ (st.timer = true ∨ st.saving ≠ none)

/-- A set timer finds the store dirty and not saving, and a written file holds the
data. -/
structure Fits (disk : Disk S) (st : Store S) : Prop where
  timer : st.timer = true → st.dirty = true ∧ st.saving = none
  written : st.saving = some .rename → disk.tmp = some (.whole st.data)

def Ok (s : State S) : Prop := ∀ st, s.store = some st → Fits s.disk st

@[simp] theorem idle_ok {st : Store S} :
    idle s = .ok st ↔ s.store = some st ∧ st.saving = none := by
  simp only [idle, bind_eq_ok, demand_eq_ok, require_eq_ok, pure_eq_ok]
  constructor
  · rintro ⟨_, hst, _, hsaving, rfl⟩
    exact ⟨hst, hsaving⟩
  · rintro ⟨hst, hsaving⟩
    exact ⟨st, hst, .unit, hsaving, rfl⟩

@[simp] theorem saveAt_ok {stage : Saving} {st : Store S} :
    saveAt s stage = .ok st ↔ s.store = some st ∧ st.saving = some stage := by
  simp only [saveAt, bind_eq_ok, demand_eq_ok, require_eq_ok, pure_eq_ok]
  constructor
  · rintro ⟨_, hst, _, hsaving, rfl⟩
    exact ⟨hst, hsaving⟩
  · rintro ⟨hst, hsaving⟩
    exact ⟨st, hst, .unit, hsaving, rfl⟩

/-- What a step can do, with the guards it passed. -/
inductive Effect (empty : S) (s : State S) : Op S → State S → Prop
  | boot (hdown : s.store = none) :
      Effect empty s .boot { s with store := some ⟨load empty s.disk.file, false, false, none⟩ }
  | mutate {st : Store S} {change : S → S} (hst : s.store = some st) (hidle : st.saving = none) :
      Effect empty s (.mutate change) { s with store := some { st with data := change st.data } }
  | saveSoon {st : Store S} (hst : s.store = some st) (hidle : st.saving = none) :
      Effect empty s .saveSoon { s with store := some { st with dirty := true, timer := true } }
  | timer {st : Store S} (hst : s.store = some st) (hidle : st.saving = none)
      (htimer : st.timer = true) (hdirty : st.dirty = true) : Effect empty s .timer
        { s with store := some { st with timer := false, dirty := false, saving := some .write } }
  | timerClean {st : Store S} (hst : s.store = some st) (htimer : st.timer = true)
      (hclean : st.dirty = false) :
      Effect empty s .timer { s with store := some { st with timer := false } }
  | flush {st : Store S} (hst : s.store = some st) (hidle : st.saving = none) :
      Effect empty s .flush
        { s with store := some { st with timer := false, saving := some .write } }
  | write {st : Store S} (hst : s.store = some st) (hsaving : st.saving = some .write) :
      Effect empty s .write
        { disk := { s.disk with tmp := some (.whole st.data) }
          store := some { st with saving := some .rename } }
  | rename {st : Store S} (hst : s.store = some st) (hsaving : st.saving = some .rename) :
      Effect empty s .rename
        { disk := ⟨s.disk.tmp, none⟩, store := some { st with saving := none } }
  | crash {st : Store S} {midWrite : Bool} {tmp : Option (Contents S)} (hst : s.store = some st) :
      Effect empty s (.crash midWrite) { disk := { s.disk with tmp := tmp }, store := none }

theorem step_effect (h : (machine empty).step s op = .ok t) : Effect empty s op t := by
  cases op with
  | boot =>
      simp only [machine, step, bind_eq_ok, require_eq_ok, pure_eq_ok] at h
      obtain ⟨_, hdown, rfl⟩ := h
      exact .boot (by simpa using hdown)
  | mutate change =>
      simp only [machine, step, bind_eq_ok, idle_ok, pure_eq_ok] at h
      obtain ⟨st, ⟨hst, hidle⟩, rfl⟩ := h
      exact .mutate hst hidle
  | saveSoon =>
      simp only [machine, step, bind_eq_ok, idle_ok, pure_eq_ok] at h
      obtain ⟨st, ⟨hst, hidle⟩, rfl⟩ := h
      exact .saveSoon hst hidle
  | timer =>
      simp only [machine, step, bind_eq_ok, idle_ok, require_eq_ok] at h
      obtain ⟨st, ⟨hst, hidle⟩, _, htimer, h⟩ := h
      split_ifs at h with hdirty
      · obtain rfl := Except.ok.inj h
        exact .timer hst hidle htimer hdirty
      · obtain rfl := Except.ok.inj h
        exact .timerClean hst htimer (by simpa using hdirty)
  | flush =>
      simp only [machine, step, bind_eq_ok, idle_ok, pure_eq_ok] at h
      obtain ⟨st, ⟨hst, hidle⟩, rfl⟩ := h
      exact .flush hst hidle
  | write =>
      simp only [machine, step, bind_eq_ok, saveAt_ok, pure_eq_ok] at h
      obtain ⟨st, ⟨hst, hsaving⟩, rfl⟩ := h
      exact .write hst hsaving
  | rename =>
      simp only [machine, step, bind_eq_ok, saveAt_ok, pure_eq_ok] at h
      obtain ⟨st, ⟨hst, hsaving⟩, rfl⟩ := h
      exact .rename hst hsaving
  | crash midWrite =>
      simp only [machine, step, bind_eq_ok, demand_eq_ok] at h
      obtain ⟨st, hst, h⟩ := h
      split_ifs at h
      · obtain rfl := Except.ok.inj h
        exact .crash hst
      · obtain rfl := Except.ok.inj h
        exact .crash hst

theorem Ok.step (h : Ok s) (hs : (machine empty).step s op = .ok t) : Ok t := by
  intro st' hst'
  cases step_effect hs with
  | boot hdown =>
      obtain rfl := Option.some.inj hst'
      exact ⟨by simp, by simp⟩
  | mutate hst hidle =>
      obtain rfl := Option.some.inj hst'
      exact ⟨(h _ hst).timer, by simp [hidle]⟩
  | saveSoon hst hidle =>
      obtain rfl := Option.some.inj hst'
      exact ⟨fun _ => ⟨rfl, hidle⟩, by simp [hidle]⟩
  | timer | flush =>
      obtain rfl := Option.some.inj hst'
      exact ⟨by simp, by simp⟩
  | timerClean hst htimer hclean =>
      have := ((h _ hst).timer htimer).1
      simp [hclean] at this
  | write hst hsaving =>
      obtain rfl := Option.some.inj hst'
      have hquiet := (h _ hst).timer
      exact ⟨fun htimer => by simpa [hsaving] using hquiet htimer, fun _ => rfl⟩
  | rename hst hsaving =>
      obtain rfl := Option.some.inj hst'
      have hquiet := (h _ hst).timer
      exact ⟨fun htimer => by simpa [hsaving] using hquiet htimer, by simp⟩
  | crash => cases hst'

/-- Only a rename changes the file, and to the data of that moment. -/
theorem file_step (h : Ok s) (hs : (machine empty).step s op = .ok t) :
    t.disk.file = s.disk.file ∨
      ∃ st, s.store = some st ∧ t.disk.file = some (.whole st.data) := by
  cases step_effect hs with
  | rename hst hsaving => exact .inr ⟨_, hst, (h _ hst).written hsaving⟩
  | _ => exact .inl rfl

/-- What was asked for stays pending until it is on disk or the process dies. -/
theorem pending_step (h : Ok s) (hp : Pending s) (hs : (machine empty).step s op = .ok t) :
    Pending t ∨ (∃ st, s.store = some st ∧ t.disk.file = some (.whole st.data)) ∨
      ∃ midWrite, op = .crash midWrite := by
  obtain ⟨st, hst, hp⟩ := hp
  cases step_effect hs with
  | boot hdown => cases hst.symm.trans hdown
  | mutate hst' hidle =>
      obtain rfl := Option.some.inj (hst.symm.trans hst')
      exact .inl ⟨_, rfl, hp⟩
  | saveSoon => exact .inl ⟨_, rfl, .inl rfl⟩
  | timerClean hst' htimer hclean =>
      rw [((h _ hst').timer htimer).1] at hclean
      cases hclean
  | timer | flush | write => exact .inl ⟨_, rfl, .inr (by simp)⟩
  | rename hst' hsaving => exact .inr (.inl ⟨_, hst', (h _ hst').written hsaving⟩)
  | @crash _ midWrite => exact .inr (.inr ⟨midWrite, rfl⟩)

/-! ## Runs -/

variable {s₀ : State S}

theorem run_ok (h : Ok s) (ops : List (Op S)) : Ok ((machine empty).run s ops) :=
  Machine.run_preserves (fun _ _ _ => Ok.step) h ops

theorem ok_of_down (h : s.store = none) : Ok s := by
  intro st hst
  cases h.symm.trans hst

/-- At the end of a run the file holds the data as it stood at some moment of it. -/
def Holds (empty : S) (s : State S) (ops : List (Op S)) : Prop :=
  ∃ ops₁ ops₂ st, ops = ops₁ ++ ops₂ ∧ ((machine empty).run s ops₁).store = some st ∧
    ((machine empty).run s ops).disk.file = some (.whole st.data)

theorem run_concat (s : State S) (ops : List (Op S)) (op : Op S) :
    (machine empty).run s (ops ++ [op]) =
      (machine empty).apply ((machine empty).run s ops) op := by
  rw [Machine.run_append]
  rfl

theorem Holds.next {ops : List (Op S)} (hok : Ok s) (h : Holds empty s ops) (op : Op S) :
    Holds empty s (ops ++ [op]) := by
  obtain ⟨ops₁, ops₂, st, rfl, hst, hfile⟩ := h
  unfold Holds
  rw [run_concat]
  rcases (machine empty).apply_cases ((machine empty).run s (ops₁ ++ ops₂)) op with hs | ⟨-, hs⟩
  · rcases file_step (run_ok hok _) hs with hsame | ⟨st', hst', hfile'⟩
    · exact ⟨ops₁, ops₂ ++ [op], st, by simp, hst, hsame.trans hfile⟩
    · exact ⟨ops₁ ++ ops₂, [op], st', rfl, hst', hfile'⟩
  · exact ⟨ops₁, ops₂ ++ [op], st, by simp, hst, by rw [hs, hfile]⟩

/-- The file is the one the run began with or a snapshot of the run. -/
theorem run_file (hok : Ok s) (ops : List (Op S)) :
    ((machine empty).run s ops).disk.file = s.disk.file ∨ Holds empty s ops := by
  induction ops using List.reverseRecOn with
  | nil => exact .inl rfl
  | append_singleton ops op ih =>
      rcases ih with hsame | hholds
      · unfold Holds
        rw [run_concat]
        rcases (machine empty).apply_cases ((machine empty).run s ops) op with hs | ⟨-, hs⟩
        · rcases file_step (run_ok hok _) hs with hfile | ⟨st, hst, hfile⟩
          · exact .inl (hfile.trans hsame)
          · exact .inr ⟨ops, [op], st, rfl, hst, hfile⟩
        · exact .inl (by rw [hs, hsame])
      · exact .inr (hholds.next hok op)

/-- A pending save reaches the disk, stays pending, or is lost to a crash. -/
theorem run_pending (hok : Ok s) (hp : Pending s) (ops : List (Op S)) :
    Holds empty s ops ∨ Pending ((machine empty).run s ops) ∨
      ∃ ops₁ midWrite ops₂, ops = ops₁ ++ .crash midWrite :: ops₂ ∧
        Pending ((machine empty).run s ops₁) := by
  induction ops using List.reverseRecOn with
  | nil => exact .inr (.inl hp)
  | append_singleton ops op ih =>
      rcases ih with hholds | hpending | ⟨ops₁, midWrite, ops₂, rfl, hpending⟩
      · exact .inl (hholds.next hok op)
      · unfold Holds
        rw [run_concat]
        rcases (machine empty).apply_cases ((machine empty).run s ops) op with hs | ⟨-, hs⟩
        · rcases pending_step (run_ok hok _) hpending hs with h | ⟨st, hst, hfile⟩ | ⟨midWrite, rfl⟩
          · exact .inr (.inl h)
          · exact .inl ⟨ops, [op], st, rfl, hst, hfile⟩
          · exact .inr (.inr ⟨ops, midWrite, [], rfl, hpending⟩)
        · exact .inr (.inl (hs.symm ▸ hpending))
      · exact .inr (.inr ⟨ops₁, midWrite, ops₂ ++ [op], by simp, hpending⟩)

/-! ## The callbacks finish a save -/

/-- The timer's callback and the rest of a save. -/
def IsCallback : Op S → Prop
  | .timer | .write | .rename => True
  | _ => False

/-- The callbacks alone bring the data as it is to the disk. -/
def Finishes (empty : S) (s : State S) : Prop :=
  ∃ ops st₀ st, (∀ op ∈ ops, IsCallback op) ∧ s.store = some st₀ ∧
    ((machine empty).run s ops).store = some st ∧ st.data = st₀.data ∧
    ((machine empty).run s ops).disk.file = some (.whole st.data) ∧
    ¬ Pending ((machine empty).run s ops)

theorem Finishes.callback {st st' : Store S} (op : Op S) (hcb : IsCallback op)
    (hst : s.store = some st) (hs : (machine empty).step s op = .ok t) (hst' : t.store = some st')
    (hdata : st'.data = st.data) (h : Finishes empty t) : Finishes empty s := by
  obtain ⟨ops, st₀, last, hops, hst₀, hlast, hkept, hfile, hdone⟩ := h
  obtain rfl := Option.some.inj (hst'.symm.trans hst₀)
  refine ⟨op :: ops, st, last, List.forall_mem_cons.mpr ⟨hcb, hops⟩, hst, ?_⟩
  rw [Machine.run_cons, Machine.apply_of_ok hs]
  exact ⟨hlast, hkept.trans hdata, hfile, hdone⟩

theorem rename_finishes {st : Store S} (hok : Ok s) (hst : s.store = some st)
    (hsaving : st.saving = some .rename) : Finishes empty s := by
  have hfits := hok st hst
  have hs : (machine empty).step s .rename =
      .ok { disk := ⟨s.disk.tmp, none⟩, store := some { st with saving := none } } := by
    simp only [machine, step, bind_eq_ok, saveAt_ok, pure_eq_ok]
    exact ⟨st, ⟨hst, hsaving⟩, rfl⟩
  have hquiet : st.timer = false := by
    have := hfits.timer
    simpa [hsaving] using this
  refine ⟨[.rename], st, { st with saving := none }, by simp [IsCallback], hst, ?_⟩
  rw [Machine.run_cons, Machine.apply_of_ok hs, Machine.run_nil]
  refine ⟨rfl, rfl, hfits.written hsaving, ?_⟩
  rintro ⟨st', hst', hp⟩
  obtain rfl := Option.some.inj hst'
  simp [hquiet] at hp

theorem write_finishes {st : Store S} (hok : Ok s) (hst : s.store = some st)
    (hsaving : st.saving = some .write) : Finishes empty s := by
  have hs : (machine empty).step s .write = .ok
      { disk := { s.disk with tmp := some (.whole st.data) }
        store := some { st with saving := some .rename } } := by
    simp only [machine, step, bind_eq_ok, saveAt_ok, pure_eq_ok]
    exact ⟨st, ⟨hst, hsaving⟩, rfl⟩
  exact .callback .write trivial hst hs rfl rfl (rename_finishes (hok.step hs) rfl rfl)

theorem pending_finishes (hok : Ok s) (hp : Pending s) : Finishes empty s := by
  obtain ⟨st, hst, hp⟩ := hp
  cases hsaving : st.saving with
  | none =>
      have htimer : st.timer = true := by simpa [hsaving] using hp
      have hdirty := ((hok st hst).timer htimer).1
      have hs : (machine empty).step s .timer = .ok { s with
          store := some { st with timer := false, dirty := false, saving := some .write } } := by
        simp only [machine, step, bind_eq_ok, idle_ok, require_eq_ok]
        exact ⟨st, ⟨hst, hsaving⟩, .unit, htimer, by rw [if_pos hdirty]; rfl⟩
      exact .callback .timer trivial hst hs rfl rfl (write_finishes (hok.step hs) rfl rfl)
  | some stage =>
      cases stage with
      | write => exact write_finishes hok hst hsaving
      | rename => exact rename_finishes hok hst hsaving

/-- Whatever is changed, saved, flushed, killed and started again: the file is
whole, the one of the start or the data of a later moment. What a save was asked
for reaches the disk unless the process dies while it is pending, and until then
the timer's callback is all it needs. -/
theorem saves_survive_crashes (empty : S) (h₀ : s₀.store = none) (ops : List (Op S)) :
    (((machine empty).run s₀ ops).disk.file = s₀.disk.file ∨ Holds empty s₀ ops) ∧
    (Pending ((machine empty).run s₀ ops) → Finishes empty ((machine empty).run s₀ ops)) ∧
    ∀ t, (machine empty).step ((machine empty).run s₀ ops) .saveSoon = .ok t →
      ∀ later : List (Op S), Holds empty t later ∨ Pending ((machine empty).run t later) ∨
        ∃ before midWrite after, later = before ++ .crash midWrite :: after ∧
          Pending ((machine empty).run t before) := by
  have hok : Ok ((machine empty).run s₀ ops) := run_ok (ok_of_down h₀) ops
  refine ⟨run_file (ok_of_down h₀) ops, pending_finishes hok, fun t hs later => ?_⟩
  have hpending : Pending t := by
    cases step_effect hs with
    | saveSoon => exact ⟨_, rfl, .inl rfl⟩
  exact run_pending (hok.step hs) hpending later

/-- A first save, and a process killed in the middle of writing the second. -/
def killedRun : List (Op ℕ) :=
  [.boot, .mutate (· + 1), .saveSoon, .timer, .write, .rename, .mutate (· + 1), .saveSoon, .timer,
    .crash true, .boot]

def emptyDisk : State ℕ := ⟨⟨none, none⟩, none⟩

theorem saves_survive_crashes_killed : Holds 0 emptyDisk killedRun ∧
    ((machine 0).run emptyDisk killedRun).store.map (·.data) = some 1 := by
  refine ⟨?_, by decide⟩
  have hfile : ((machine 0).run emptyDisk killedRun).disk.file.isSome = true := by decide
  rcases (saves_survive_crashes 0 (show emptyDisk.store = none from rfl) killedRun).1 with h | h
  · rw [h] at hfile
    cases hfile
  · exact h

end ProofBook.JsonStore
