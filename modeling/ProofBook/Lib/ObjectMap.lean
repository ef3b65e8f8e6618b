import Mathlib

/-!
# Objects used as maps

A map keeps its values in the order their keys were first set; setting a key
again replaces the value in place. Each value carries its own key.
-/
namespace ProofBook.Objects

universe u v

structure ObjectMap {κ : Type u} {ν : Type v} (key : ν → κ) where
  values : List ν
  nodup : (values.map key).Nodup
deriving DecidableEq

namespace ObjectMap
variable {κ : Type u} {ν : Type v} {key : ν → κ}

def empty : ObjectMap key := ⟨[], List.nodup_nil⟩

instance : Inhabited (ObjectMap key) := ⟨empty⟩

variable [DecidableEq κ]

def get (m : ObjectMap key) (k : κ) : Option ν := m.values.find? (key · = k)

theorem get_eq_some {m : ObjectMap key} {k : κ} {v : ν} :
    m.get k = some v ↔ v ∈ m.values ∧ key v = k := by
  constructor
  · intro h
    exact ⟨List.mem_of_find?_eq_some h, by simpa using List.find?_some h⟩
  · rintro ⟨hv, rfl⟩
    cases h : m.get (key v) with
    | none => exact absurd (List.find?_eq_none.mp h v hv) (by simp)
    | some w =>
        have hw : w ∈ m.values := List.mem_of_find?_eq_some h
        have hkey : key w = key v := by simpa using List.find?_some h
        rw [List.inj_on_of_nodup_map m.nodup hw hv hkey]

theorem get_key {m : ObjectMap key} {k : κ} {v : ν} (h : m.get k = some v) : key v = k :=
  (get_eq_some.mp h).2

theorem get_of_mem {m : ObjectMap key} {v : ν} (h : v ∈ m.values) : m.get (key v) = some v :=
  get_eq_some.mpr ⟨h, rfl⟩

def set (m : ObjectMap key) (v : ν) : ObjectMap key :=
  if h : key v ∈ m.values.map key then
    { values := m.values.map fun w => if key w = key v then v else w
      nodup := by
        have hkeys : (m.values.map fun w => if key w = key v then v else w).map key =
            m.values.map key := by
          rw [List.map_map]
          refine List.map_congr_left fun w _ => ?_
          simp only [Function.comp_apply]
          split
          next hw => exact hw.symm
          · rfl
        rw [hkeys]
        exact m.nodup }
  else
    { values := m.values ++ [v]
      nodup := by
        rw [List.map_append, List.nodup_append]
        refine ⟨m.nodup, by simp, ?_⟩
        rintro a ha b hb rfl
        simp only [List.map_cons, List.map_nil, List.mem_singleton] at hb
        exact h (hb ▸ ha) }

theorem mem_set {m : ObjectMap key} {v w : ν} :
    w ∈ (m.set v).values ↔ w = v ∨ w ∈ m.values ∧ key w ≠ key v := by
  unfold set
  split
  next h =>
    simp only [List.mem_map]
    constructor
    · rintro ⟨x, hx, rfl⟩
      split
      · exact .inl rfl
      next hne => exact .inr ⟨hx, hne⟩
    · rintro (rfl | ⟨hw, hne⟩)
      · obtain ⟨x, hx, hkey⟩ := List.mem_map.mp h
        exact ⟨x, hx, by rw [if_pos hkey]⟩
      · exact ⟨w, hw, by rw [if_neg hne]⟩
  next h =>
    simp only [List.mem_append, List.mem_singleton]
    constructor
    · rintro (hw | rfl)
      · exact .inr ⟨hw, fun he => h (he ▸ List.mem_map_of_mem hw)⟩
      · exact .inl rfl
    · rintro (rfl | ⟨hw, -⟩)
      · exact .inr rfl
      · exact .inl hw

@[simp] theorem get_set_self (m : ObjectMap key) (v : ν) : (m.set v).get (key v) = some v :=
  get_eq_some.mpr ⟨mem_set.mpr (.inl rfl), rfl⟩

theorem get_set_of_ne {m : ObjectMap key} {v : ν} {k : κ} (h : k ≠ key v) :
    (m.set v).get k = m.get k := by
  ext w
  simp only [get_eq_some, mem_set]
  constructor
  · rintro ⟨rfl | ⟨hw, -⟩, rfl⟩
    · exact absurd rfl h
    · exact ⟨hw, rfl⟩
  · rintro ⟨hw, rfl⟩
    exact ⟨.inr ⟨hw, h⟩, rfl⟩

def filter (m : ObjectMap key) (keep : ν → Bool) : ObjectMap key where
  values := m.values.filter keep
  nodup := m.nodup.sublist (List.filter_sublist.map key)

theorem get_filter {m : ObjectMap key} {keep : ν → Bool} {k : κ} {v : ν} :
    (m.filter keep).get k = some v ↔ m.get k = some v ∧ keep v = true := by
  simp only [get_eq_some, filter, List.mem_filter]
  tauto

/-- Replace each value by one with the same key. -/
def map {μ : Type v} {key' : μ → κ} (m : ObjectMap key) (f : ν → μ)
    (hf : ∀ v, key' (f v) = key v) : ObjectMap key' where
  values := m.values.map f
  nodup := by simpa [Function.comp_def, hf] using m.nodup

end ObjectMap
end ProofBook.Objects
