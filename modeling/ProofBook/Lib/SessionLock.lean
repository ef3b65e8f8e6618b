import Mathlib

/-!
# A lock held by a session

A database server keeps one lock for a key. A session that asks for it gets it
when it is free or already its own, and keeps it until the server ends the
session; the client at the other end may not know that yet.
-/
namespace ProofBook.SessionLock

universe u

structure Server (σ : Type u) where
  opened : List σ
  ended : List σ
  holder : Option σ

namespace Server
variable {σ : Type u} [DecidableEq σ]

def empty : Server σ := ⟨[], [], none⟩

def Live (d : Server σ) (s : σ) : Prop := s ∈ d.opened ∧ s ∉ d.ended

instance (d : Server σ) (s : σ) : Decidable (d.Live s) :=
  inferInstanceAs (Decidable (_ ∧ _))

def connect (d : Server σ) (s : σ) : Server σ := { d with opened := s :: d.opened }

/-- The lock is granted when it is free, and again to its holder. -/
def tryLock (d : Server σ) (s : σ) : Bool × Server σ :=
  match d.holder with
  | none => (true, { d with holder := some s })
  | some t => (t = s, d)

/-- The lock of an ended session is free. -/
def endSession (d : Server σ) (s : σ) : Server σ :=
  { d with
    ended := s :: d.ended
    holder := if d.holder = some s then none else d.holder }

/-- The session was granted the lock: as long as it lives, it holds it. -/
def Granted (d : Server σ) (s : σ) : Prop := s ∈ d.opened ∧ (d.Live s → d.holder = some s)

variable {d : Server σ} {s t : σ}

@[simp] theorem tryLock_opened : (d.tryLock s).2.opened = d.opened := by
  unfold tryLock
  split <;> rfl

@[simp] theorem tryLock_ended : (d.tryLock s).2.ended = d.ended := by
  unfold tryLock
  split <;> rfl

omit [DecidableEq σ] in
theorem Granted.connect (h : d.Granted s) : (d.connect t).Granted s :=
  ⟨List.mem_cons_of_mem _ h.1, fun hl => h.2 ⟨h.1, hl.2⟩⟩

theorem Granted.endSession (h : d.Granted s) : (d.endSession t).Granted s := by
  refine ⟨h.1, fun hl => ?_⟩
  obtain ⟨ho, he⟩ := hl
  simp only [Server.endSession, List.mem_cons, not_or] at he
  have hs := h.2 ⟨ho, he.2⟩
  simp [Server.endSession, hs, he.1]

theorem Granted.tryLock (h : d.Granted s) : (d.tryLock t).2.Granted s := by
  refine ⟨by simpa using h.1, fun hl => ?_⟩
  have hs := h.2 (by simpa [Live] using hl)
  simp [Server.tryLock, hs]

/-- A positive answer. -/
theorem tryLock_granted (ho : s ∈ d.opened) (h : (d.tryLock s).1 = true) :
    (d.tryLock s).2.Granted s := by
  refine ⟨by simpa using ho, fun _ => ?_⟩
  cases hd : d.holder with
  | none => simp [tryLock, hd]
  | some t =>
      simp only [tryLock, hd, decide_eq_true_eq] at h
      simp [tryLock, hd, h]

omit [DecidableEq σ] in
/-- Two sessions that were granted the lock are the same while both live. -/
theorem Granted.unique (hs : d.Granted s) (ht : d.Granted t) (hls : d.Live s) (hlt : d.Live t) :
    s = t :=
  Option.some.inj ((hs.2 hls).symm.trans (ht.2 hlt))

end Server
end ProofBook.SessionLock
