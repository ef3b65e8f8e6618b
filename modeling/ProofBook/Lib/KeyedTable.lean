import Mathlib

/-!
# Tables with a primary key and a unique constraint

A table is a list of rows whose order means nothing. Both constraints are part
of it, so a write that would break the unique one is refused; the write of a row
whose primary key is taken replaces that row.
-/
namespace ProofBook.KeyedTable

structure Table {ρ κ υ : Type} (pk : ρ → κ) (uk : ρ → υ) where
  rows : List ρ
  primary : (rows.map pk).Nodup
  unique : (rows.map uk).Nodup

namespace Table
variable {ρ κ υ : Type} {pk : ρ → κ} {uk : ρ → υ}

instance : Inhabited (Table pk uk) := ⟨⟨[], by simp, by simp⟩⟩

variable [DecidableEq κ]

def find (t : Table pk uk) (k : κ) : Option ρ := t.rows.find? (pk · = k)

theorem find_eq_some {t : Table pk uk} {k : κ} {r : ρ} :
    t.find k = some r ↔ r ∈ t.rows ∧ pk r = k := by
  constructor
  · intro h
    exact ⟨List.mem_of_find?_eq_some h, by simpa using List.find?_some h⟩
  · rintro ⟨hr, rfl⟩
    cases h : t.find (pk r) with
    | none => exact absurd (List.find?_eq_none.mp h r hr) (by simp)
    | some s =>
      have hs : s ∈ t.rows := List.mem_of_find?_eq_some h
      have hkey : pk s = pk r := by simpa using List.find?_some h
      rw [List.inj_on_of_nodup_map t.primary hs hr hkey]

/-- No row of another primary key has the unique value. -/
def Free (t : Table pk uk) (k : κ) (u : υ) : Prop := ∀ r ∈ t.rows, uk r = u → pk r = k

instance [DecidableEq υ] (t : Table pk uk) (k : κ) (u : υ) : Decidable (t.Free k u) :=
  inferInstanceAs (Decidable (∀ r ∈ t.rows, uk r = u → pk r = k))

/-- Insert the row, or replace the one under its primary key. -/
def put [DecidableEq υ] (t : Table pk uk) (r : ρ) : Option (Table pk uk) :=
  if h : t.Free (pk r) (uk r) then
    some {
      rows := r :: t.rows.filter (pk · ≠ pk r)
      primary := by
        refine List.nodup_cons.mpr ⟨?_, t.primary.sublist (List.filter_sublist.map pk)⟩
        simp
      unique := by
        refine List.nodup_cons.mpr ⟨fun hmem => ?_,
          t.unique.sublist (List.filter_sublist.map uk)⟩
        obtain ⟨s, hs, hu⟩ := List.mem_map.mp hmem
        obtain ⟨hs, hne⟩ := List.mem_filter.mp hs
        exact absurd (h s hs hu) (by simpa using hne) }
  else none

/-- Delete every row that meets the condition. -/
def deleteMany (t : Table pk uk) (doomed : ρ → Bool) : Table pk uk where
  rows := t.rows.filter (!doomed ·)
  primary := t.primary.sublist (List.filter_sublist.map pk)
  unique := t.unique.sublist (List.filter_sublist.map uk)

/-- Change every row that meets the condition, but neither of its keys. -/
def updateMany (t : Table pk uk) (chosen : ρ → Bool) (f : ρ → ρ) (hpk : ∀ r, pk (f r) = pk r)
    (huk : ∀ r, uk (f r) = uk r) : Table pk uk where
  rows := t.rows.map fun r => if chosen r then f r else r
  primary := by
    have : (t.rows.map fun r => if chosen r then f r else r).map pk = t.rows.map pk := by
      rw [List.map_map]
      exact List.map_congr_left fun r _ => by simp only [Function.comp_apply]; split <;> simp [hpk]
    exact this ▸ t.primary
  unique := by
    have : (t.rows.map fun r => if chosen r then f r else r).map uk = t.rows.map uk := by
      rw [List.map_map]
      exact List.map_congr_left fun r _ => by simp only [Function.comp_apply]; split <;> simp [huk]
    exact this ▸ t.unique

variable [DecidableEq υ]

theorem put_isSome {t : Table pk uk} {r : ρ} :
    (t.put r).isSome = true ↔ t.Free (pk r) (uk r) := by
  unfold put
  split <;> simp [*]

theorem put_rows {t t' : Table pk uk} {r : ρ} (h : t.put r = some t') :
    t'.rows = r :: t.rows.filter (pk · ≠ pk r) := by
  unfold put at h
  split at h
  · exact (Option.some.inj h) ▸ rfl
  · simp at h

theorem mem_put {t t' : Table pk uk} {r s : ρ} (h : t.put r = some t') :
    s ∈ t'.rows ↔ s = r ∨ s ∈ t.rows ∧ pk s ≠ pk r := by
  simp [put_rows h]

theorem find_put_self {t t' : Table pk uk} {r : ρ} (h : t.put r = some t') :
    t'.find (pk r) = some r :=
  find_eq_some.mpr ⟨(mem_put h).mpr (.inl rfl), rfl⟩

theorem find_put_of_ne {t t' : Table pk uk} {r : ρ} {k : κ} (h : t.put r = some t')
    (hk : k ≠ pk r) : t'.find k = t.find k := by
  ext s
  simp only [find_eq_some, mem_put h]
  constructor
  · rintro ⟨rfl | ⟨hs, -⟩, rfl⟩
    · exact absurd rfl hk
    · exact ⟨hs, rfl⟩
  · rintro ⟨hs, rfl⟩
    exact ⟨.inr ⟨hs, hk⟩, rfl⟩

omit [DecidableEq υ] in
theorem find_deleteMany (t : Table pk uk) (doomed : ρ → Bool) (k : κ) :
    (t.deleteMany doomed).find k = (t.find k).filter (!doomed ·) := by
  ext s
  simp only [find_eq_some, Option.filter_eq_some_iff, deleteMany, List.mem_filter]
  tauto

omit [DecidableEq υ] in
theorem find_updateMany (t : Table pk uk) (chosen : ρ → Bool) (f : ρ → ρ)
    (hpk : ∀ r, pk (f r) = pk r) (huk : ∀ r, uk (f r) = uk r) (k : κ) :
    (t.updateMany chosen f hpk huk).find k =
      (t.find k).map fun r => if chosen r then f r else r := by
  have hkey : ∀ r, pk (if chosen r then f r else r) = pk r := by
    intro r
    split
    · exact hpk r
    · rfl
  ext s
  simp only [find_eq_some, Option.map_eq_some_iff, updateMany, List.mem_map]
  constructor
  · rintro ⟨⟨r, hr, rfl⟩, hk⟩
    exact ⟨r, ⟨hr, (hkey r).symm.trans hk⟩, rfl⟩
  · rintro ⟨r, ⟨hr, hk⟩, rfl⟩
    exact ⟨⟨r, hr, rfl⟩, (hkey r).trans hk⟩

end Table

end ProofBook.KeyedTable
