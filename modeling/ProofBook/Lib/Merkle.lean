import Mathlib

/-!
# Merkle commitments

A scheme hashes leaves and combines siblings. A digest sits at a depth and an
index under a root when the root unfolds to it. With a collision-free scheme
the root of a tree commits to the leaves of that tree and to nothing else, and
in a perfect tree each position holds one leaf.
-/
namespace ProofBook.Merkle

universe u v

structure Scheme (B : Type u) (D : Type v) where
  leaf : B → D
  node : D → D → D

variable {B : Type u} {D : Type v}

structure Scheme.CollisionFree (S : Scheme B D) : Prop where
  leaf : Function.Injective S.leaf
  node : ∀ {a b c d}, S.node a b = S.node c d → a = c ∧ b = d
  separate : ∀ b l r, S.leaf b ≠ S.node l r

/-- The digest at a depth and an index below a root. -/
inductive At (S : Scheme B D) (root : D) : ℕ → ℕ → D → Prop
  | root : At S root 0 0 root
  | left {d i : ℕ} {l r : D} (h : At S root d i (S.node l r)) : At S root (d + 1) (2 * i) l
  | right {d i : ℕ} {l r : D} (h : At S root d i (S.node l r)) : At S root (d + 1) (2 * i + 1) r

/-- A leaf of the Merkle term that a digest stands for. -/
def Commits (S : Scheme B D) (root : D) (b : B) : Prop := ∃ d i, At S root d i (S.leaf b)

variable {S : Scheme B D} {root x l r : D} {d i : ℕ} {b : B}

theorem Commits.self (S : Scheme B D) (b : B) : Commits S (S.leaf b) b := ⟨0, 0, .root⟩

/-- A child of a digest, by the parity of its index. -/
theorem At.child (h : At S root d (i / 2) (S.node l r)) :
    At S root (d + 1) i (if i % 2 = 0 then l else r) := by
  split_ifs with hi
  · have := At.left h
    rwa [show 2 * (i / 2) = i by omega] at this
  · have := At.right h
    rwa [show 2 * (i / 2) + 1 = i by omega] at this

/-! ## Trees -/

inductive Tree (B : Type u)
  | leaf (b : B)
  | node (l r : Tree B)

namespace Tree

def digest (S : Scheme B D) : Tree B → D
  | leaf b => S.leaf b
  | node l r => S.node (l.digest S) (r.digest S)

def leaves : Tree B → List B
  | leaf b => [b]
  | node l r => l.leaves ++ r.leaves

end Tree

/-- Under the root of a tree there are only roots of its subtrees. -/
theorem At.subtree (hS : S.CollisionFree) {t : Tree B} (h : At S (t.digest S) d i x) :
    ∃ s : Tree B, s.digest S = x ∧ s.leaves ⊆ t.leaves := by
  induction h with
  | root => exact ⟨t, rfl, List.Subset.refl _⟩
  | left h ih =>
      obtain ⟨s, hs, hsub⟩ := ih
      cases s with
      | leaf b => exact absurd hs (hS.separate b _ _)
      | node a c => exact ⟨a, (hS.node hs).1, fun b hb => hsub (List.mem_append_left _ hb)⟩
  | right h ih =>
      obtain ⟨s, hs, hsub⟩ := ih
      cases s with
      | leaf b => exact absurd hs (hS.separate b _ _)
      | node a c => exact ⟨c, (hS.node hs).2, fun b hb => hsub (List.mem_append_right _ hb)⟩

/-- The root of a tree commits to its leaves only. -/
theorem Commits.mem_leaves (hS : S.CollisionFree) {t : Tree B} (h : Commits S (t.digest S) b) :
    b ∈ t.leaves := by
  obtain ⟨d, i, h⟩ := h
  obtain ⟨s, hs, hsub⟩ := h.subtree hS
  cases s with
  | leaf c =>
      obtain rfl := hS.leaf hs
      exact hsub (List.mem_singleton_self _)
  | node a c => exact absurd hs.symm (hS.separate b _ _)

/-! ## Perfect trees -/

/-- The digest over the `2 ^ height` leaves from `i * 2 ^ height` on. -/
def perfect (S : Scheme B D) (leaves : ℕ → B) : ℕ → ℕ → D
  | 0, i => S.leaf (leaves i)
  | height + 1, i => S.node (perfect S leaves height (2 * i)) (perfect S leaves height (2 * i + 1))

variable {leaves : ℕ → B} {height : ℕ}

/-- What sits below the root of a perfect tree, and how deep. -/
theorem At.perfect (hS : S.CollisionFree) (h : At S (perfect S leaves height 0) d i x) :
    d ≤ height ∧ x = Merkle.perfect S leaves (height - d) i := by
  induction h with
  | root => exact ⟨Nat.zero_le _, rfl⟩
  | @left d i l r h ih =>
      obtain ⟨hd, hx⟩ := ih
      cases hk : height - d with
      | zero =>
          rw [hk] at hx
          exact absurd hx.symm (hS.separate _ _ _)
      | succ k =>
          rw [hk] at hx
          refine ⟨by omega, ?_⟩
          rw [show height - (d + 1) = k by omega]
          exact (hS.node hx).1
  | @right d i l r h ih =>
      obtain ⟨hd, hx⟩ := ih
      cases hk : height - d with
      | zero =>
          rw [hk] at hx
          exact absurd hx.symm (hS.separate _ _ _)
      | succ k =>
          rw [hk] at hx
          refine ⟨by omega, ?_⟩
          rw [show height - (d + 1) = k by omega]
          exact (hS.node hx).2

/-- A leaf below the root of a perfect tree is the leaf of its index. -/
theorem At.perfect_leaf (hS : S.CollisionFree)
    (h : At S (Merkle.perfect S leaves height 0) d i (S.leaf b)) : b = leaves i := by
  obtain ⟨-, hx⟩ := h.perfect hS
  cases hk : height - d with
  | zero =>
      rw [hk] at hx
      exact hS.leaf hx
  | succ k =>
      rw [hk] at hx
      exact absurd hx (hS.separate _ _ _)

end ProofBook.Merkle
