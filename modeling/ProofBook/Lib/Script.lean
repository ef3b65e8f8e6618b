import ProofBook.Lib.Runs

/-!
# Scripts against a machine that others use too

A script awaits one call at a time. Before each call anybody may have operated the
machine, the operations of a call all take effect or none, and the caller may see a
timeout whether they did or not. A script can be killed at any call. What it does to
the machine is a run of its own operations and those of the others.
-/
namespace ProofBook.Scripts
open Runs

universe u v w
variable {S : Type u} {I : Type v} {E : Type w} {α β : Type}

/-- What becomes of a call: it is answered, or takes effect without an answer, or is
dropped. A failure to answer may look transient or not. A refusal with an error that
looks transient is one whose answer was lost. -/
inductive Reply
  | answered
  | lost (transient : Bool)
  | dropped (transient : Bool)
deriving DecidableEq

/-- What the others do before a call, and what becomes of the call. -/
structure Beat (I : Type v) where
  others : List I
  reply : Reply
deriving DecidableEq

/-- The machine and what the script will meet; when the beats run out it is killed. -/
structure Net (S : Type u) (I : Type v) where
  state : S
  beats : List (Beat I)

/-- Why a call failed; only a failure that does not look transient is a refusal. -/
inductive Fault (E : Type w)
  | refused (e : E)
  | unanswered (transient : Bool)
  | killed

def Script (S : Type u) (I : Type v) (E : Type w) (α : Type) : Type max u v w :=
  Net S I → Except (Fault E) α × Net S I

namespace Script

instance : Monad (Script S I E) where
  pure a net := (.ok a, net)
  bind x f net :=
    match x net with
    | (.ok a, net') => f a net'
    | (.error e, net') => (.error e, net')

def throw (e : Fault E) : Script S I E α := fun net => (.error e, net)

/-- Nothing goes on in a script that was killed. -/
def rescue (x : Script S I E α) (f : Fault E → Script S I E α) : Script S I E α := fun net =>
  match x net with
  | (.error .killed, net') => (.error .killed, net')
  | (.error e, net') => f e net'
  | (.ok a, net') => (.ok a, net')

def forEach {ι : Type v} (f : ι → Script S I E Unit) : List ι → Script S I E Unit
  | [] => pure ()
  | a :: as => do
      f a
      forEach f as

end Script

variable (M : Machine S I E)

/-- All the operations, one after the other, or none. -/
def commit (s : S) : List I → Except E S
  | [] => .ok s
  | i :: is =>
      match M.step s i with
      | .ok t => commit t is
      | .error e => .error e

/-- A call that reaches the machine, or not, and what its caller is told. -/
def land (s : S) (is : List I) : Reply → Except (Fault E) Unit × S
  | .answered =>
      match commit M s is with
      | .ok t => (.ok (), t)
      | .error e => (.error (.refused e), s)
  | .lost transient =>
      match commit M s is with
      | .ok t => (.error (.unanswered transient), t)
      | .error _ => (.error (.unanswered transient), s)
  | .dropped transient => (.error (.unanswered transient), s)

/-- A read has no effect, so that its answer is lost or it is dropped is the same. -/
def look (s : S) (f : S → α) : Reply → Except (Fault E) α
  | .answered => .ok (f s)
  | .lost transient | .dropped transient => .error (.unanswered transient)

def send (is : List I) : Script S I E Unit := fun net =>
  match net.beats with
  | [] => (.error .killed, net)
  | beat :: beats =>
      let landed := land M (M.run net.state beat.others) is beat.reply
      (landed.1, ⟨landed.2, beats⟩)

def read (f : S → α) : Script S I E α := fun net =>
  match net.beats with
  | [] => (.error .killed, net)
  | beat :: beats =>
      let s := M.run net.state beat.others
      (look s f beat.reply, ⟨s, beats⟩)

/-! ## What a script does is a run -/

variable {M}

theorem commit_run {s t : S} {is : List I} (h : commit M s is = .ok t) : M.run s is = t := by
  induction is generalizing s with
  | nil => exact Except.ok.inj h
  | cons i is ih =>
      rw [commit] at h
      cases hs : M.step s i with
      | ok s₁ =>
          rw [hs] at h
          rw [Machine.run_cons, Machine.apply_of_ok hs]
          exact ih h
      | error e =>
          rw [hs] at h
          cases h

theorem land_cases (s : S) (is : List I) (reply : Reply) :
    ((land M s is reply).2 = s ∧ ∃ e, (land M s is reply).1 = .error e) ∨
      commit M s is = .ok (land M s is reply).2 := by
  cases hcommit : commit M s is with
  | ok t =>
      cases reply with
      | answered => exact .inr (by rw [land, hcommit])
      | lost _ => exact .inr (by rw [land, hcommit])
      | dropped _ => exact .inl ⟨rfl, _, rfl⟩
  | error e =>
      cases reply with
      | answered => exact .inl (by rw [land, hcommit]; exact ⟨rfl, _, rfl⟩)
      | lost _ => exact .inl (by rw [land, hcommit]; exact ⟨rfl, _, rfl⟩)
      | dropped _ => exact .inl ⟨rfl, _, rfl⟩

/-- What the others do satisfies the condition. -/
def Net.Only (C : I → Prop) (net : Net S I) : Prop :=
  ∀ beat ∈ net.beats, ∀ i ∈ beat.others, C i

/-- From one moment of a script to a later one, by operations that satisfy the condition. -/
structure Did (M : Machine S I E) (C : I → Prop) (net net' : Net S I) : Prop where
  beats : ∀ beat ∈ net'.beats, beat ∈ net.beats
  run : ∃ is, (∀ i ∈ is, C i) ∧ net'.state = M.run net.state is

variable {C : I → Prop} {net net' net'' : Net S I}

theorem Did.refl (net : Net S I) : Did M C net net := ⟨fun _ h => h, [], by simp, rfl⟩

theorem Did.trans (h : Did M C net net') (h' : Did M C net' net'') : Did M C net net'' := by
  obtain ⟨is, his, hs⟩ := h.run
  obtain ⟨js, hjs, ht⟩ := h'.run
  refine ⟨fun beat hb => h.beats beat (h'.beats beat hb), is ++ js, ?_, ?_⟩
  · exact fun i hi => (List.mem_append.mp hi).elim (his i) (hjs i)
  · rw [ht, hs, Machine.run_append]

theorem Did.only (h : Did M C net net') (hnet : net.Only C) : net'.Only C :=
  fun beat hb => hnet beat (h.beats beat hb)

/-- What a run preserves, a script preserves. -/
theorem Did.preserves {P : S → Prop} (h : Did M C net net') (hs : P net.state)
    (hstep : ∀ s i t, C i → P s → M.step s i = .ok t → P t) : P net'.state := by
  obtain ⟨is, his, ht⟩ := h.run
  have halong : M.Along (fun _ => C) net.state is := Machine.along_iff.mpr fun js i ks hi =>
    his i (hi ▸ List.mem_append_right _ List.mem_cons_self)
  rw [ht]
  exact halong.preserves (fun s i t hs hi => hstep s i t hi hs) hs

theorem Did.reachable {Init : S → Prop} (h : Did M C net net')
    (hs : M.Reachable Init net.state) : M.Reachable Init net'.state := by
  obtain ⟨is, -, ht⟩ := h.run
  rw [ht]
  exact hs.run is

/-- The script's own operations all satisfy the condition. -/
def Performs (M : Machine S I E) (C : I → Prop) (x : Script S I E α) : Prop :=
  ∀ net, net.Only C → Did M C net (x net).2

theorem Performs.did {x : Script S I E α} (h : Performs M (fun _ => True) x)
    (net : Net S I) : Did M (fun _ => True) net (x net).2 :=
  h net fun _ _ _ _ => trivial

theorem bind_ok {x : Script S I E α} {f : α → Script S I E β} {a : α}
    (h : x net = (.ok a, net')) : (x >>= f) net = f a net' := by
  change (match x net with
    | (.ok a, net') => f a net'
    | (.error e, net') => (.error e, net') : Except (Fault E) β × Net S I) = _
  rw [h]

theorem bind_error {x : Script S I E α} {f : α → Script S I E β} {e : Fault E}
    (h : x net = (.error e, net')) : (x >>= f) net = (.error e, net') := by
  change (match x net with
    | (.ok a, net') => f a net'
    | (.error e, net') => (.error e, net') : Except (Fault E) β × Net S I) = _
  rw [h]

theorem Performs.pure (a : α) : Performs M C (pure a : Script S I E α) := fun net _ => .refl net

theorem Performs.throw (e : Fault E) : Performs M C (.throw e : Script S I E α) :=
  fun net _ => .refl net

theorem Did.bind {x : Script S I E α} {f : α → Script S I E β} (hdid : Did M C net (x net).2)
    (hf : ∀ a net', x net = (.ok a, net') → Did M C net' (f a net').2) :
    Did M C net ((x >>= f) net).2 := by
  cases hres : x net with
  | mk r net' =>
      rw [hres] at hdid
      cases r with
      | ok a =>
          rw [bind_ok hres]
          exact hdid.trans (hf a net' hres)
      | error e =>
          rw [bind_error hres]
          exact hdid

theorem Performs.bind {x : Script S I E α} {f : α → Script S I E β} (hx : Performs M C x)
    (hf : ∀ a, Performs M C (f a)) : Performs M C (x >>= f) := fun net hnet =>
  (hx net hnet).bind fun a net' hres => hf a net' (by
    have hdid := hx net hnet
    rw [hres] at hdid
    exact hdid.only hnet)

theorem Did.rescue {x : Script S I E α} {f : Fault E → Script S I E α}
    (hdid : Did M C net (x net).2) (hf : ∀ e, Performs M C (f e)) (hnet : net.Only C) :
    Did M C net (x.rescue f net).2 := by
  unfold Script.rescue
  cases hres : x net with
  | mk r net' =>
      rw [hres] at hdid
      cases r with
      | ok a => exact hdid
      | error e =>
          cases e with
          | killed => exact hdid
          | refused e => exact hdid.trans (hf _ net' (hdid.only hnet))
          | unanswered _ => exact hdid.trans (hf _ net' (hdid.only hnet))

theorem Performs.rescue {x : Script S I E α} {f : Fault E → Script S I E α}
    (hx : Performs M C x) (hf : ∀ e, Performs M C (f e)) : Performs M C (x.rescue f) :=
  fun net hnet => (hx net hnet).rescue hf hnet

theorem Performs.forEach {ι : Type v} {f : ι → Script S I E Unit} {as : List ι}
    (h : ∀ a ∈ as, Performs M C (f a)) : Performs M C (Script.forEach f as) := by
  induction as with
  | nil => exact .pure ()
  | cons a as ih =>
      exact .bind (h a List.mem_cons_self) fun _ => ih fun a ha => h a (List.mem_cons_of_mem _ ha)

/-- The others act first; then the call takes effect as a whole, or fails without any. -/
theorem send_cases (is : List I) (hnet : net.Only C) :
    ∃ mid, Did M C net mid ∧ (send M is net).2.beats = mid.beats ∧
      (((send M is net).2.state = mid.state ∧ ∃ e, (send M is net).1 = .error e) ∨
        commit M mid.state is = .ok (send M is net).2.state) := by
  unfold Scripts.send
  cases hbeats : net.beats with
  | nil => exact ⟨net, .refl net, rfl, .inl ⟨rfl, _, rfl⟩⟩
  | cons beat beats =>
      refine ⟨⟨M.run net.state beat.others, beats⟩, ⟨fun b hb => ?_, beat.others,
        hnet beat (hbeats ▸ List.mem_cons_self), rfl⟩, rfl, land_cases _ _ _⟩
      rw [hbeats]
      exact List.mem_cons_of_mem _ hb

theorem send_ok {is : List I} {u : Unit} (hnet : net.Only C)
    (h : send M is net = (.ok u, net')) :
    ∃ mid, Did M C net mid ∧ net'.Only C ∧ commit M mid.state is = .ok net'.state := by
  obtain ⟨mid, hmid, hbeats, hcases⟩ := send_cases (M := M) is hnet
  rw [h] at hbeats hcases
  rcases hcases with ⟨-, e, he⟩ | hcommit
  · cases he
  · exact ⟨mid, hmid, fun beat hb => hmid.only hnet beat (hbeats ▸ hb), hcommit⟩

theorem commit_single {s t : S} {i : I} (h : commit M s [i] = .ok t) : M.step s i = .ok t := by
  rw [commit] at h
  cases hs : M.step s i with
  | ok s' =>
      rw [hs] at h
      exact h
  | error e =>
      rw [hs] at h
      cases h

theorem Performs.send {is : List I} (h : ∀ i ∈ is, C i) : Performs M C (send M is) := by
  intro net hnet
  obtain ⟨mid, hmid, hbeats, hcases⟩ := send_cases (M := M) is hnet
  refine hmid.trans ⟨fun b hb => hbeats ▸ hb, ?_⟩
  rcases hcases with ⟨hnone, -⟩ | hcommit
  · exact ⟨[], by simp, hnone⟩
  · exact ⟨is, h, (commit_run hcommit).symm⟩

theorem Performs.read {f : S → α} : Performs M C (read M f) := by
  intro net hnet
  unfold Scripts.read
  cases hbeats : net.beats with
  | nil => exact .refl net
  | cons beat beats =>
      exact ⟨fun b hb => hbeats ▸ List.mem_cons_of_mem _ hb, beat.others,
        hnet beat (hbeats ▸ List.mem_cons_self), rfl⟩

theorem read_ok {f : S → α} {a : α} (h : read M f net = (.ok a, net')) : a = f net'.state := by
  unfold Scripts.read at h
  cases hbeats : net.beats with
  | nil =>
      rw [hbeats] at h
      cases h
  | cons beat beats =>
      rw [hbeats] at h
      cases hreply : beat.reply with
      | answered =>
          simp only [hreply, look, Prod.mk.injEq, Except.ok.injEq] at h
          rw [← h.2, ← h.1]
      | lost _ => simp [hreply, look] at h
      | dropped _ => simp [hreply, look] at h

end ProofBook.Scripts
