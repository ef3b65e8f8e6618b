import Mathlib

/-!
# The best candidate of each key

Candidates are read in order into a map that keeps, for each key, the first
candidate of the highest rank: a candidate takes the place of another only if
it ranks strictly higher. Which candidates can be kept does not depend on the
order; which of them is kept does, as soon as two of one key share the top rank.
-/
namespace ProofBook.BestPerKey
variable {α κ : Type} [DecidableEq κ] (key : α → κ) (rank : α → ℕ)

/-- The map is a list with one candidate for each key, in the order the keys
came in; replacing a candidate does not move its key. -/
def keep (x : α) : List α → List α
  | [] => [x]
  | y :: ys =>
      if key y = key x then (if rank y < rank x then x :: ys else y :: ys)
      else y :: keep x ys

def best (xs : List α) : List α := xs.foldl (fun kept x => keep key rank x kept) []

/-- A candidate that some listing of `s` can make the kept one of its key. -/
structure Top (s : Set α) (x : α) : Prop where
  mem : x ∈ s
  le : ∀ y ∈ s, key y = key x → rank y ≤ rank x

/-- What the map holds after the candidates `xs`. -/
structure Kept (xs kept : List α) : Prop where
  keys : (kept.map key).Nodup
  top : ∀ z ∈ kept, Top key rank {x | x ∈ xs} z
  covers : ∀ x ∈ xs, ∃ z ∈ kept, key z = key x

variable {key rank}

/-- Reading a candidate adds it or nothing. -/
theorem keep_eq_or_mem {x z : α} {kept : List α} (h : z ∈ keep key rank x kept) :
    z = x ∨ z ∈ kept := by
  induction kept with
  | nil => simp_all [keep]
  | cons y ys ih =>
    unfold keep at h
    split_ifs at h with hkey hrank
    · exact (List.mem_cons.mp h).imp_right (.tail _)
    · exact .inr h
    · rcases List.mem_cons.mp h with rfl | hz
      · exact .inr (.head _)
      · exact (ih hz).imp_right (.tail _)

theorem keep_keys {x : α} {kept : List α} (h : (kept.map key).Nodup) :
    ((keep key rank x kept).map key).Nodup := by
  induction kept with
  | nil => simp [keep]
  | cons y ys ih =>
    obtain ⟨hy, hys⟩ := List.nodup_cons.mp h
    unfold keep
    split_ifs with hkey hrank
    · exact List.nodup_cons.mpr ⟨hkey ▸ hy, hys⟩
    · exact h
    · refine List.nodup_cons.mpr ⟨fun hmem => ?_, ih hys⟩
      obtain ⟨z, hz, hzy⟩ := List.mem_map.mp hmem
      rcases keep_eq_or_mem hz with rfl | hzys
      · exact hkey hzy.symm
      · exact hy (hzy ▸ List.mem_map_of_mem hzys)

variable (key rank) in
/-- After a candidate is read, its key holds it or one that ranks as high. -/
theorem keep_covers (x : α) (kept : List α) :
    ∃ z ∈ keep key rank x kept, key z = key x ∧ rank x ≤ rank z := by
  induction kept with
  | nil => exact ⟨x, by simp [keep]⟩
  | cons y ys ih =>
    unfold keep
    split_ifs with hkey hrank
    · exact ⟨x, by simp⟩
    · exact ⟨y, by simp, hkey, by omega⟩
    · obtain ⟨z, hz, h⟩ := ih
      exact ⟨z, .tail _ hz, h⟩

/-- Only a better candidate of the same key drives one out. -/
theorem keep_mem {x z : α} {kept : List α} (hz : z ∈ kept)
    (h : key x = key z → rank x ≤ rank z) : z ∈ keep key rank x kept := by
  induction kept with
  | nil => simp at hz
  | cons y ys ih =>
    unfold keep
    rcases List.mem_cons.mp hz with rfl | hz
    · split_ifs with hkey hrank
      · exact absurd (h hkey.symm) (by omega)
      · exact .head _
      · exact .head _
    · split_ifs
      · exact .tail _ hz
      · exact .tail _ hz
      · exact .tail _ (ih hz)

variable (key rank) in
/-- What drives a candidate out keeps its key and ranks higher. -/
theorem keep_key_covers (x : α) {z : α} {kept : List α} (hz : z ∈ kept) :
    ∃ w ∈ keep key rank x kept, key w = key z ∧ rank z ≤ rank w := by
  by_cases hdriven : key x = key z ∧ rank z < rank x
  · obtain ⟨w, hw, hwx, hrank⟩ := keep_covers key rank x kept
    exact ⟨w, hw, hwx.trans hdriven.1, hdriven.2.le.trans hrank⟩
  · refine ⟨z, keep_mem hz fun hkey => ?_, rfl, le_rfl⟩
    by_contra hrank
    exact hdriven ⟨hkey, by omega⟩

theorem Kept.step {xs kept : List α} (h : Kept key rank xs kept) (x : α) :
    Kept key rank (xs ++ [x]) (keep key rank x kept) := by
  have hkeys : ((keep key rank x kept).map key).Nodup := keep_keys h.keys
  refine ⟨hkeys, fun z hz => ⟨?_, fun y hy hyz => ?_⟩, fun y hy => ?_⟩
  · rcases keep_eq_or_mem hz with rfl | hz
    · simp
    · exact List.mem_append_left _ (h.top z hz).mem
  · rcases List.mem_append.mp hy with hy | hy
    · obtain ⟨w, hw, hwy⟩ := h.covers y hy
      obtain ⟨v, hv, hvw, hrank⟩ := keep_key_covers key rank x hw
      have hvz : v = z := List.inj_on_of_nodup_map hkeys hv hz (hvw.trans (hwy.trans hyz))
      exact hvz ▸ ((h.top w hw).le y hy hwy.symm).trans hrank
    · obtain rfl := List.mem_singleton.mp hy
      obtain ⟨v, hv, hvy, hrank⟩ := keep_covers key rank y kept
      exact List.inj_on_of_nodup_map hkeys hv hz (hvy.trans hyz) ▸ hrank
  · rcases List.mem_append.mp hy with hy | hy
    · obtain ⟨w, hw, hwy⟩ := h.covers y hy
      obtain ⟨v, hv, hvw, -⟩ := keep_key_covers key rank x hw
      exact ⟨v, hv, hvw.trans hwy⟩
    · obtain rfl := List.mem_singleton.mp hy
      obtain ⟨v, hv, hvy, -⟩ := keep_covers key rank y kept
      exact ⟨v, hv, hvy⟩

theorem best_kept (xs : List α) : Kept key rank xs (best key rank xs) := by
  induction xs using List.reverseRecOn with
  | nil => exact ⟨by simp [best], by simp [best], by simp⟩
  | append_singleton xs x ih =>
    rw [best, List.foldl_append]
    exact ih.step x

theorem foldl_keep_mem {x : α} {ys kept : List α} (hx : x ∈ kept)
    (h : ∀ y ∈ ys, key y = key x → rank y ≤ rank x) :
    x ∈ ys.foldl (fun kept y => keep key rank y kept) kept := by
  induction ys generalizing kept with
  | nil => exact hx
  | cons y ys ih =>
    exact ih (keep_mem hx (h y (.head _))) fun z hz => h z (.tail _ hz)

/-- The first candidate of the top rank is the one kept. -/
theorem best_head {x : α} {xs : List α} (h : ∀ y ∈ xs, key y = key x → rank y ≤ rank x) :
    x ∈ best key rank (x :: xs) :=
  show x ∈ xs.foldl (fun kept y => keep key rank y kept) [x] from
    foldl_keep_mem (.head _) h

variable (key rank) in
/-- The candidate that stands first among those of the top rank of its key. -/
def First (xs : List α) (x : α) : Prop :=
  ∃ before after, xs = before ++ x :: after ∧
    (∀ y ∈ before, key y = key x → rank y < rank x) ∧
    ∀ y ∈ after, key y = key x → rank y ≤ rank x

theorem First.mem_best {x : α} {xs : List α} (h : First key rank xs x) : x ∈ best key rank xs := by
  obtain ⟨before, after, rfl, hbefore, hafter⟩ := h
  have hread : x ∈ keep key rank x (best key rank before) := by
    obtain ⟨z, hz, hkey, hrank⟩ := keep_covers key rank x (best key rank before)
    rcases keep_eq_or_mem hz with rfl | hkept
    · exact hz
    · have hlt := hbefore z ((best_kept before).top z hkept).mem hkey
      omega
  rw [best, List.foldl_append, List.foldl_cons]
  exact foldl_keep_mem hread hafter

theorem best_first {x : α} {xs : List α} (h : x ∈ best key rank xs) : First key rank xs x := by
  induction xs using List.reverseRecOn with
  | nil => simp [best] at h
  | append_singleton xs y ih =>
    have hkept : Kept key rank xs (best key rank xs) := best_kept xs
    have hkeys := (best_kept (xs ++ [y]) : Kept key rank _ _).keys
    rw [best, List.foldl_append, List.foldl_cons, List.foldl_nil, ← best] at h hkeys
    -- no other candidate of the key is kept
    have hone : ∀ z ∈ keep key rank y (best key rank xs), key z = key x → z = x := fun z hz hkey =>
      List.inj_on_of_nodup_map hkeys hz h hkey
    by_cases hold : x ∈ best key rank xs
    · obtain ⟨before, after, hsplit, hbefore, hafter⟩ := ih hold
      refine ⟨before, after ++ [y], by simp [hsplit], hbefore, fun z hz hkey => ?_⟩
      rcases List.mem_append.mp hz with hz | hz
      · exact hafter z hz hkey
      · obtain rfl := List.mem_singleton.mp hz
        obtain ⟨w, hw, hwkey, hrank⟩ := keep_covers key rank z (best key rank xs)
        exact hone w hw (hwkey.trans hkey) ▸ hrank
    · obtain rfl := (keep_eq_or_mem h).resolve_right hold
      refine ⟨xs, [], rfl, fun z hz hkey => ?_, fun z hz => absurd hz List.not_mem_nil⟩
      obtain ⟨w, hw, hwkey⟩ := hkept.covers z hz
      have hle := (hkept.top w hw).le z hz hwkey.symm
      by_contra hlt
      refine hold (hone w (keep_mem hw fun _ => by omega) (hwkey.trans hkey) ▸ hw)

theorem mem_best_iff {x : α} {xs : List α} : x ∈ best key rank xs ↔ First key rank xs x :=
  ⟨best_first, First.mem_best⟩

/-! ## Candidates behind a map -/

theorem keep_map {β : Type} (f : β → α) (x : β) (kept : List β) :
    keep key rank (f x) (kept.map f) = (keep (key ∘ f) (rank ∘ f) x kept).map f := by
  induction kept with
  | nil => rfl
  | cons y kept ih =>
    simp only [List.map_cons, keep, Function.comp_apply, ih]
    split_ifs <;> rfl

/-- The best images are the images of the best. -/
theorem best_map {β : Type} (f : β → α) (xs : List β) :
    best key rank (xs.map f) = (best (key ∘ f) (rank ∘ f) xs).map f := by
  induction xs using List.reverseRecOn with
  | nil => rfl
  | append_singleton xs x ih =>
    simp only [best] at ih
    simp only [best, List.map_append, List.map_singleton, List.foldl_append, List.foldl_cons,
      List.foldl_nil, ih, keep_map]

end ProofBook.BestPerKey
