import Mathlib

/-!
# Connected components by a stack search

A search marks a vertex when it pushes it and collects it when it pops it. Started
from each vertex that is not marked yet, over a symmetric adjacency, it collects the
connected components, each once. The components with each one sorted do not depend on
the order of the vertices or of the adjacency lists.
-/
namespace ProofBook.Components
open Relation

variable {V : Type*} [DecidableEq V]

/-- Marks and pushes the vertices that are not marked. -/
def push : List V → List V → List V → List V × List V
  | seen, stack, [] => (seen, stack)
  | seen, stack, n :: ns =>
      if n ∈ seen then push seen stack ns else push (n :: seen) (n :: stack) ns

/-- Pops until the stack is empty. -/
def explore (next : V → List V) : ℕ → List V → List V → List V → List V × List V
  | _, seen, [], comp => (seen, comp)
  | 0, seen, _ :: _, comp => (seen, comp)
  | fuel + 1, seen, cur :: stack, comp =>
      let marked := push seen stack (next cur)
      explore next fuel marked.1 marked.2 (comp ++ [cur])

def componentsFrom (next : V → List V) (fuel : ℕ) : List V → List V → List (List V)
  | _, [] => []
  | seen, code :: codes =>
      if code ∈ seen then componentsFrom next fuel seen codes
      else
        let found := explore next fuel (code :: seen) [code] []
        found.2 :: componentsFrom next fuel found.1 codes

/-- The search from every vertex in order; it pops no more often than there are
vertices. -/
def components (next : V → List V) (vertices : List V) : List (List V) :=
  componentsFrom next vertices.length [] vertices

/-! ## One push -/

variable {next : V → List V} {seen stack ns comp vertices : List V} {v : V}

theorem mem_push_seen : v ∈ (push seen stack ns).1 ↔ v ∈ seen ∨ v ∈ ns := by
  induction ns generalizing seen stack with
  | nil => simp [push]
  | cons n ns ih =>
      rw [push]
      split_ifs with hn
      · rw [ih, List.mem_cons]
        constructor
        · rintro (h | h)
          · exact .inl h
          · exact .inr (.inr h)
        · rintro (h | rfl | h)
          · exact .inl h
          · exact .inl hn
          · exact .inr h
      · rw [ih, List.mem_cons, List.mem_cons, or_left_comm, or_assoc]

theorem mem_push_stack :
    v ∈ (push seen stack ns).2 ↔ v ∈ stack ∨ v ∈ ns ∧ v ∉ seen := by
  induction ns generalizing seen stack with
  | nil => simp [push]
  | cons n ns ih =>
      rw [push]
      split_ifs with hn
      · rw [ih, List.mem_cons]
        constructor
        · rintro (h | ⟨h, hs⟩)
          · exact .inl h
          · exact .inr ⟨.inr h, hs⟩
        · rintro (h | ⟨rfl | h, hs⟩)
          · exact .inl h
          · exact absurd hn hs
          · exact .inr ⟨h, hs⟩
      · rw [ih, List.mem_cons, List.mem_cons, List.mem_cons]
        constructor
        · rintro ((rfl | h) | ⟨h, hs⟩)
          · exact .inr ⟨.inl rfl, hn⟩
          · exact .inl h
          · exact .inr ⟨.inr h, fun hv => hs (.inr hv)⟩
        · rintro (h | ⟨rfl | h, hs⟩)
          · exact .inl (.inr h)
          · exact .inl (.inl rfl)
          · by_cases hv : v = n
            · exact .inl (.inl hv)
            · exact .inr ⟨h, fun hmem => hmem.elim hv hs⟩

theorem push_nodup (h : stack.Nodup) (hsub : stack ⊆ seen) : (push seen stack ns).2.Nodup := by
  induction ns generalizing seen stack with
  | nil => exact h
  | cons n ns ih =>
      rw [push]
      split_ifs with hn
      · exact ih h hsub
      · apply ih
        · exact List.nodup_cons.mpr ⟨fun hmem => hn (hsub hmem), h⟩
        · exact List.cons_subset_cons _ hsub

/-! ## One search -/

/-- The adjacency of the lists. -/
def Adjacent (next : V → List V) (a b : V) : Prop := b ∈ next a

/-- Reachability along an adjacency. -/
abbrev Reach (R : V → V → Prop) : V → V → Prop := ReflTransGen R

/-- An adjacency over the vertices that goes both ways. -/
structure Symmetric (next : V → List V) (vertices : List V) : Prop where
  nodup : vertices.Nodup
  sub : ∀ a ∈ vertices, next a ⊆ vertices
  symm : ∀ {a b}, b ∈ next a → a ∈ next b

/-- What a search from `code` has done so far, when `old` was marked before it. -/
structure Searching (next : V → List V) (vertices old : List V) (code : V)
    (seen stack comp : List V) : Prop where
  seen_iff : ∀ v, v ∈ seen ↔ v ∈ old ∨ v ∈ comp ∨ v ∈ stack
  compNodup : comp.Nodup
  stackNodup : stack.Nodup
  apart : comp.Disjoint stack
  fresh : ∀ v, v ∈ comp ∨ v ∈ stack → v ∉ old ∧ v ∈ vertices ∧ Reach (Adjacent next) code v
  started : code ∈ comp ∨ code ∈ stack
  closed : ∀ v ∈ comp, ∀ n ∈ next v, n ∈ seen

variable {old : List V} {code cur : V}

omit [DecidableEq V] in
theorem Searching.start (hnew : code ∉ old) (hcode : code ∈ vertices) :
    Searching next vertices old code (code :: old) [code] [] where
  seen_iff v := by simp [or_comm]
  compNodup := List.nodup_nil
  stackNodup := List.nodup_singleton _
  apart := List.disjoint_nil_left _
  fresh v hv := by
    obtain rfl := List.mem_singleton.mp (hv.resolve_left List.not_mem_nil)
    exact ⟨hnew, hcode, .refl⟩
  started := .inr List.mem_cons_self
  closed _ hv := absurd hv List.not_mem_nil

theorem Searching.pop (hsymm : Symmetric next vertices)
    (h : Searching next vertices old code seen (cur :: stack) comp) :
    Searching next vertices old code (push seen stack (next cur)).1 (push seen stack (next cur)).2
      (comp ++ [cur]) := by
  have hcur := h.fresh cur (.inr List.mem_cons_self)
  have hstack := List.nodup_cons.mp h.stackNodup
  have hnew : ∀ v, v ∈ (push seen stack (next cur)).2 → v ∈ stack ∨ v ∈ next cur ∧ v ∉ seen :=
    fun v hv => mem_push_stack.mp hv
  refine ⟨fun v => ?_, ?_, ?_, ?_, ?_, ?_, ?_⟩
  · rw [mem_push_seen, mem_push_stack, h.seen_iff, List.mem_append, List.mem_singleton,
      List.mem_cons]
    by_cases hv : v ∈ seen
    · have := (h.seen_iff v).mp hv
      rw [List.mem_cons] at this
      tauto
    · have hnot : ¬ (v ∈ old ∨ v ∈ comp ∨ v = cur ∨ v ∈ stack) := by
        rw [← List.mem_cons, ← h.seen_iff]
        exact hv
      tauto
  · rw [List.nodup_append']
    refine ⟨h.compNodup, List.nodup_singleton _, ?_⟩
    rw [List.disjoint_singleton]
    exact fun hmem => h.apart hmem List.mem_cons_self
  · apply push_nodup hstack.2
    exact fun v hv => (h.seen_iff v).mpr (.inr (.inr (List.mem_cons_of_mem _ hv)))
  · intro v hcomp hpushed
    rw [List.mem_append, List.mem_singleton] at hcomp
    rcases hnew v hpushed with hv | ⟨-, hv⟩
    · rcases hcomp with hcomp | rfl
      · exact h.apart hcomp (List.mem_cons_of_mem _ hv)
      · exact hstack.1 hv
    · apply hv
      rw [h.seen_iff]
      rcases hcomp with hcomp | rfl
      · exact .inr (.inl hcomp)
      · exact .inr (.inr List.mem_cons_self)
  · intro v hv
    rw [List.mem_append, List.mem_singleton] at hv
    rcases hv with (hv | rfl) | hv
    · exact h.fresh v (.inl hv)
    · exact hcur
    · rcases hnew v hv with hv | ⟨hv, hunseen⟩
      · exact h.fresh v (.inr (List.mem_cons_of_mem _ hv))
      · exact ⟨fun hold => hunseen ((h.seen_iff v).mpr (.inl hold)), hsymm.sub cur hcur.2.1 hv,
          hcur.2.2.tail hv⟩
  · rw [List.mem_append, List.mem_singleton]
    rcases h.started with hc | hc
    · exact .inl (.inl hc)
    · rcases List.mem_cons.mp hc with rfl | hc
      · exact .inl (.inr rfl)
      · exact .inr (mem_push_stack.mpr (.inl hc))
  · intro v hv n hn
    rw [mem_push_seen]
    rcases List.mem_append.mp hv with hv | hv
    · exact .inl (h.closed v hv n hn)
    · rw [List.mem_singleton.mp hv] at hn
      exact .inr hn

/-- A component: the vertices reachable from any of its own. -/
structure IsComponent (R : V → V → Prop) (comp : List V) : Prop where
  nonempty : comp ≠ []
  nodup : comp.Nodup
  mem : ∀ a ∈ comp, ∀ b, b ∈ comp ↔ Reach R a b

omit [DecidableEq V] in
/-- With the stack empty everything reachable has been collected. -/
theorem Searching.component (hsymm : Symmetric next vertices)
    (hold : ∀ a ∈ old, ∀ b ∈ next a, b ∈ old)
    (h : Searching next vertices old code seen [] comp) : IsComponent (Adjacent next) comp := by
  have hcode : code ∈ comp := h.started.resolve_right List.not_mem_nil
  have hstep : ∀ {a b}, a ∈ comp → b ∈ next a → b ∈ comp := by
    intro a b ha hb
    rcases (h.seen_iff b).mp (h.closed a ha b hb) with hmem | hmem | hmem
    · exact absurd (hold b hmem a (hsymm.symm hb)) (h.fresh a (.inl ha)).1
    · exact hmem
    · exact absurd hmem List.not_mem_nil
  have hback : ∀ {a b}, Reach (Adjacent next) a b → Reach (Adjacent next) b a := by
    intro a b hab
    induction hab with
    | refl => exact .refl
    | tail _ hbc ih => exact ih.head (hsymm.symm hbc)
  refine ⟨List.ne_nil_of_mem hcode, h.compNodup, fun a ha b => ⟨fun hb => ?_, fun hab => ?_⟩⟩
  · exact (hback (h.fresh a (.inl ha)).2.2).trans (h.fresh b (.inl hb)).2.2
  · induction hab with
    | refl => exact ha
    | tail _ hbc ih => exact hstep ih hbc

theorem explore_searching (hsymm : Symmetric next vertices) {fuel : ℕ}
    (h : Searching next vertices old code seen stack comp)
    (hfuel : vertices.length ≤ comp.length + fuel) :
    ∃ seen' comp', explore next fuel seen stack comp = (seen', comp') ∧
      Searching next vertices old code seen' [] comp' := by
  induction fuel generalizing seen stack comp with
  | zero =>
      cases stack with
      | nil => exact ⟨seen, comp, rfl, h⟩
      | cons cur stack =>
          have hnodup : (comp ++ [cur]).Nodup := by
            rw [List.nodup_append']
            refine ⟨h.compNodup, List.nodup_singleton _, ?_⟩
            rw [List.disjoint_singleton]
            exact fun hmem => h.apart hmem List.mem_cons_self
          have hsub : comp ++ [cur] ⊆ vertices := by
            intro v hv
            rcases List.mem_append.mp hv with hv | hv
            · exact (h.fresh v (.inl hv)).2.1
            · rw [List.mem_singleton.mp hv]
              exact (h.fresh cur (.inr List.mem_cons_self)).2.1
          have hlen := (hnodup.subperm hsub).length_le
          rw [List.length_append, List.length_singleton] at hlen
          omega
  | succ fuel ih =>
      cases stack with
      | nil => exact ⟨seen, comp, rfl, h⟩
      | cons cur stack =>
          apply ih (h.pop hsymm)
          rw [List.length_append, List.length_singleton]
          omega

/-! ## All searches -/

/-- Components that partition what is not marked. -/
structure Partitions (next : V → List V) (vertices old codes : List V) (comps : List (List V)) :
    Prop where
  component : ∀ comp ∈ comps, IsComponent (Adjacent next) comp
  nodup : comps.flatten.Nodup
  fresh : ∀ v ∈ comps.flatten, v ∉ old ∧ v ∈ vertices
  covers : ∀ v ∈ codes, v ∈ old ∨ v ∈ comps.flatten

theorem componentsFrom_partitions (hsymm : Symmetric next vertices) {fuel : ℕ}
    (hfuel : vertices.length ≤ fuel) {codes : List V} (hcodes : codes ⊆ vertices)
    (hold : ∀ a ∈ old, ∀ b ∈ next a, b ∈ old) :
    Partitions next vertices old codes (componentsFrom next fuel old codes) := by
  induction codes generalizing old with
  | nil =>
      exact ⟨fun _ h => absurd h List.not_mem_nil, List.nodup_nil,
        fun _ h => absurd h List.not_mem_nil, fun _ h => absurd h List.not_mem_nil⟩
  | cons code codes ih =>
      obtain ⟨hcode, hcodes⟩ := List.cons_subset.mp hcodes
      rw [componentsFrom]
      split_ifs with hmem
      · have hrest := ih hcodes hold
        refine ⟨hrest.component, hrest.nodup, hrest.fresh, fun v hv => ?_⟩
        rcases List.mem_cons.mp hv with rfl | hv
        · exact .inl hmem
        · exact hrest.covers v hv
      · obtain ⟨seen', comp, hexplore, hdone⟩ : ∃ seen' comp,
            explore next fuel (code :: old) [code] [] = (seen', comp) ∧
              Searching next vertices old code seen' [] comp :=
          explore_searching hsymm (Searching.start hmem hcode) (by simpa using hfuel)
        have hcomp := hdone.component hsymm hold
        have hseen : ∀ v, v ∈ seen' ↔ v ∈ old ∨ v ∈ comp := by
          intro v
          rw [hdone.seen_iff]
          simp
        have hclosed : ∀ a ∈ seen', ∀ b ∈ next a, b ∈ seen' := by
          intro a ha b hb
          rw [hseen] at ha ⊢
          rcases ha with ha | ha
          · exact .inl (hold a ha b hb)
          · exact .inr ((hcomp.mem a ha b).mpr (.single hb))
        have hrest := ih hcodes hclosed
        simp only [hexplore]
        refine ⟨List.forall_mem_cons.mpr ⟨hcomp, hrest.component⟩, ?_, fun v hv => ?_,
          fun v hv => ?_⟩
        · rw [List.flatten_cons, List.nodup_append']
          refine ⟨hcomp.nodup, hrest.nodup, fun v hv hflat => (hrest.fresh v hflat).1 ?_⟩
          exact (hseen v).mpr (.inr hv)
        · rw [List.flatten_cons, List.mem_append] at hv
          rcases hv with hv | hv
          · obtain ⟨hnew, hvertex, -⟩ := hdone.fresh v (.inl hv)
            exact ⟨hnew, hvertex⟩
          · obtain ⟨hunseen, hvertex⟩ := hrest.fresh v hv
            exact ⟨fun hvold => hunseen ((hseen v).mpr (.inl hvold)), hvertex⟩
        · rw [List.flatten_cons, List.mem_append]
          rcases List.mem_cons.mp hv with rfl | hv
          · exact .inr (.inl (hdone.started.resolve_right List.not_mem_nil))
          · rcases hrest.covers v hv with hv | hv
            · rcases (hseen v).mp hv with hv | hv
              · exact .inl hv
              · exact .inr (.inl hv)
            · exact .inr (.inr hv)

/-- The components of an adjacency, with every vertex in exactly one. -/
structure Decomposes (R : V → V → Prop) (S : V → Prop) (comps : List (List V)) : Prop where
  component : ∀ comp ∈ comps, IsComponent R comp
  nodup : comps.flatten.Nodup
  mem : ∀ v, v ∈ comps.flatten ↔ S v

theorem components_decomposes (hsymm : Symmetric next vertices) :
    Decomposes (Adjacent next) (· ∈ vertices) (components next vertices) := by
  have h : Partitions next vertices [] vertices (components next vertices) :=
    componentsFrom_partitions hsymm le_rfl (List.Subset.refl _)
      fun _ hmem => absurd hmem List.not_mem_nil
  refine ⟨h.component, h.nodup, fun v => ⟨fun hv => (h.fresh v hv).2, fun hv => ?_⟩⟩
  exact (h.covers v hv).resolve_left List.not_mem_nil

/-! ## Sorted components -/

variable {R : V → V → Prop} {S : V → Prop} {comps comps' : List (List V)}

omit [DecidableEq V] in
/-- Equal lists up to order are equal once sorted by an order. -/
theorem mergeSort_eq_of_perm {le : V → V → Bool} (htrans : ∀ a b c, le a b → le b c → le a c)
    (htotal : ∀ a b, le a b || le b a) {l₁ l₂ : List V} (h : l₁.Perm l₂)
    (hanti : ∀ a ∈ l₁, ∀ b ∈ l₁, le a b → le b a → a = b) :
    l₁.mergeSort le = l₂.mergeSort le := by
  apply List.Perm.eq_of_pairwise _ (List.pairwise_mergeSort htrans htotal l₁)
    (List.pairwise_mergeSort htrans htotal l₂)
  · exact (l₁.mergeSort_perm le).trans (h.trans (l₂.mergeSort_perm le).symm)
  · intro a b ha hb
    exact hanti a (List.mem_mergeSort.mp ha) b (h.mem_iff.mpr (List.mem_mergeSort.mp hb))

/-- A list in increasing order. -/
def sort [LinearOrder V] (l : List V) : List V := l.mergeSort fun a b => decide (a ≤ b)

omit [DecidableEq V] in
theorem sort_perm [LinearOrder V] (l : List V) : (sort l).Perm l := List.mergeSort_perm ..

omit [DecidableEq V] in
theorem sort_eq_of_perm [LinearOrder V] {l₁ l₂ : List V} (h : l₁.Perm l₂) : sort l₁ = sort l₂ := by
  apply mergeSort_eq_of_perm _ _ h
  · intro a _ b _ hab hba
    exact le_antisymm (of_decide_eq_true hab) (of_decide_eq_true hba)
  · intro a b c hab hbc
    exact decide_eq_true ((of_decide_eq_true hab).trans (of_decide_eq_true hbc))
  · intro a b
    simpa using le_total a b

omit [DecidableEq V] in
theorem IsComponent.perm {comp comp' : List V} (h : IsComponent R comp) (hp : comp'.Perm comp) :
    IsComponent R comp' := by
  refine ⟨?_, hp.nodup_iff.mpr h.nodup, fun a ha b => ?_⟩
  · rintro rfl
    exact h.nonempty hp.nil_eq.symm
  · rw [hp.mem_iff]
    exact h.mem a (hp.mem_iff.mp ha) b

omit [DecidableEq V] in
theorem Decomposes.sorted [LinearOrder V] (h : Decomposes R S comps) :
    Decomposes R S (comps.map sort) := by
  have hflat : (comps.map sort).flatten.Perm comps.flatten := by
    clear h
    induction comps with
    | nil => exact .nil
    | cons comp comps ih => exact (sort_perm comp).append ih
  refine ⟨?_, hflat.nodup_iff.mpr h.nodup, fun v => hflat.mem_iff.trans (h.mem v)⟩
  exact List.forall_mem_map.mpr fun comp hcomp => (h.component comp hcomp).perm (sort_perm comp)

omit [DecidableEq V] in
theorem Decomposes.perm (h : Decomposes R S comps) (hp : comps'.Perm comps) :
    Decomposes R S comps' :=
  ⟨fun comp hcomp => h.component comp (hp.mem_iff.mp hcomp),
    hp.flatten.nodup_iff.mpr h.nodup, fun v => hp.flatten.mem_iff.trans (h.mem v)⟩

omit [DecidableEq V] in
/-- Two components that share a vertex are one. -/
theorem Decomposes.eq_of_mem (h : Decomposes R S comps) {comp comp' : List V}
    (hcomp : comp ∈ comps) (hcomp' : comp' ∈ comps) (hv : v ∈ comp) (hv' : v ∈ comp') :
    comp = comp' := by
  by_contra hne
  have hdisjoint := (List.nodup_flatten.mp h.nodup).2
  have hsymm : Std.Symm (List.Disjoint : List V → List V → Prop) := ⟨fun _ _ hab => hab.symm⟩
  exact hdisjoint.forall hcomp hcomp' hne hv hv'

omit [DecidableEq V] in
theorem Decomposes.nodup_comps (h : Decomposes R S comps) : comps.Nodup := by
  refine (List.nodup_flatten.mp h.nodup).2.imp_of_mem fun {comp comp'} hcomp _ hdisjoint => ?_
  rintro rfl
  obtain ⟨v, hv⟩ := List.exists_mem_of_ne_nil _ (h.component comp hcomp).nonempty
  exact hdisjoint hv hv

omit [DecidableEq V] in
theorem Decomposes.mem_of_sorted [LinearOrder V] (h : Decomposes R S comps)
    (h' : Decomposes R S comps') (hs : ∀ comp ∈ comps, sort comp = comp)
    (hs' : ∀ comp ∈ comps', sort comp = comp) {comp : List V} (hcomp : comp ∈ comps) :
    comp ∈ comps' := by
  obtain ⟨v, hv⟩ := List.exists_mem_of_ne_nil _ (h.component comp hcomp).nonempty
  have hflat : v ∈ comps'.flatten :=
    (h'.mem v).mpr ((h.mem v).mp (List.mem_flatten_of_mem hcomp hv))
  obtain ⟨comp', hcomp', hv'⟩ := List.mem_flatten.mp hflat
  have hc := h.component comp hcomp
  have hc' := h'.component comp' hcomp'
  have hp : comp.Perm comp' := by
    rw [List.perm_ext_iff_of_nodup hc.nodup hc'.nodup]
    intro b
    rw [hc.mem v hv, hc'.mem v hv']
  rw [← hs comp hcomp, sort_eq_of_perm hp, hs' comp' hcomp']
  exact hcomp'

omit [DecidableEq V] in
/-- Sorted components are unique up to their order. -/
theorem Decomposes.unique [LinearOrder V] (h : Decomposes R S comps)
    (h' : Decomposes R S comps') (hs : ∀ comp ∈ comps, sort comp = comp)
    (hs' : ∀ comp ∈ comps', sort comp = comp) : comps.Perm comps' := by
  rw [List.perm_ext_iff_of_nodup h.nodup_comps h'.nodup_comps]
  exact fun comp => ⟨h.mem_of_sorted h' hs hs', h'.mem_of_sorted h hs' hs⟩

end ProofBook.Components
