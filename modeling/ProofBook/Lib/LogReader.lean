import Mathlib

/-!
# Reading a log by id

A reader is fed ids of a log and remembers the first, the last and all of them;
it resumes from the last one. It is gapless when it has every id of the log
between these two. Ids that wait to be fed are safe when the reader stays gapless
however many of them it is fed.
-/
namespace ProofBook.LogReader

universe u

structure Reader (ι : Type u) where
  first : Option ι
  last : Option ι
  got : List ι
deriving DecidableEq

namespace Reader
variable {ι : Type u}

def new : Reader ι := ⟨none, none, []⟩

def take (r : Reader ι) (i : ι) : Reader ι := ⟨some (r.first.getD i), some i, i :: r.got⟩

def feed (r : Reader ι) (is : List ι) : Reader ι := is.foldl take r

@[simp] theorem feed_nil (r : Reader ι) : r.feed [] = r := rfl

@[simp] theorem feed_cons (r : Reader ι) (i : ι) (is : List ι) :
    r.feed (i :: is) = (r.take i).feed is := rfl

@[simp] theorem feed_concat (r : Reader ι) (is : List ι) (i : ι) :
    r.feed (is ++ [i]) = (r.feed is).take i := by
  simp [feed]

theorem last_feed {r : Reader ι} {is : List ι} {l : ι} (h : (r.feed is).last = some l) :
    l ∈ is ∨ r.last = some l := by
  induction is generalizing r with
  | nil => exact .inr h
  | cons i is ih =>
      rcases ih h with hl | hl
      · exact .inl (List.mem_cons_of_mem _ hl)
      · injection hl with hl
        exact .inl (hl ▸ List.mem_cons_self)

theorem first_take {r : Reader ι} {i f : ι} (h : (r.take i).first = some f) :
    r.first = some f ∨ r.first = none ∧ f = i := by
  injection h with h
  cases hr : r.first with
  | none =>
      rw [hr] at h
      exact .inr ⟨rfl, h.symm⟩
  | some f' =>
      rw [hr] at h
      exact .inl (congrArg some h)

end Reader

variable {ι : Type u} [LinearOrder ι] {log seen : ι → Prop} {low : ι} {r : Reader ι}
  {is : List ι} {i : ι}

/-- Every id of the log after the first and before the last was fed. -/
def Gapless (log : ι → Prop) (r : Reader ι) : Prop :=
  ∀ f l i, r.first = some f → r.last = some l → log i → f < i → i < l → i ∈ r.got

def Safe (log : ι → Prop) (r : Reader ι) (is : List ι) : Prop :=
  ∀ js, js <+: is → Gapless log (r.feed js)

/-- The reader has what the log holds up to `low` after its first id, and of the
rest what was seen. -/
structure Knows (log seen : ι → Prop) (low : ι) (r : Reader ι) : Prop where
  below : ∀ f i, r.first = some f → log i → f < i → i ≤ low → i ∈ r.got
  above : ∀ i, log i → low < i → seen i → i ∈ r.got

theorem gapless_new : Gapless log (Reader.new : Reader ι) := nofun

theorem Safe.gapless (h : Safe log r is) : Gapless log r := h [] (List.nil_prefix)

theorem Gapless.safe_nil (h : Gapless log r) : Safe log r [] := by
  intro js hjs
  rw [List.prefix_nil.mp hjs]
  exact h

/-- The reader is fed the first id that waits. -/
theorem Safe.take (h : Safe log r (i :: is)) : Safe log (r.take i) is :=
  fun js hjs => h (i :: js) (List.cons_prefix_cons.mpr ⟨rfl, hjs⟩)

/-- An id may wait behind the others once all of the log before it was seen. -/
theorem Safe.push (h : Safe log r is) (hk : Knows log seen low (r.feed is))
    (hseen : ∀ j, log j → low < j → j < i → seen j) : Safe log r (is ++ [i]) := by
  intro js hjs
  rcases List.prefix_concat_iff.mp hjs with rfl | hjs
  · rw [Reader.feed_concat]
    intro f l j hf hl hj hfj hjl
    injection hl with hl
    subst hl
    refine List.mem_cons_of_mem _ ?_
    rcases Reader.first_take hf with hf | ⟨-, rfl⟩
    · rcases le_or_gt j low with hle | hlt
      · exact hk.below f j hf hj hfj hle
      · exact hk.above j hj hlt (hseen j hj hlt hjl)
    · exact absurd (hfj.trans hjl) (lt_irrefl _)
  · exact h js hjs

theorem Knows.push (hk : Knows log seen low r) (hfirst : r.first = none → low ≤ i) :
    Knows log (fun j => seen j ∨ j = i) low (r.take i) where
  below f j hf hj hfj hle := by
    rcases Reader.first_take hf with hf | ⟨hnone, rfl⟩
    · exact List.mem_cons_of_mem _ (hk.below f j hf hj hfj hle)
    · exact absurd (hfj.trans_le hle) (not_lt.mpr (hfirst hnone))
  above j hj hlt hs := by
    rcases hs with hs | rfl
    · exact List.mem_cons_of_mem _ (hk.above j hj hlt hs)
    · exact List.mem_cons_self

theorem Knows.of_seen {seen' : ι → Prop} (hk : Knows log seen low r)
    (h : ∀ j, log j → low < j → seen' j → seen j) : Knows log seen' low r :=
  ⟨hk.below, fun j hj hlt hs => hk.above j hj hlt (h j hj hlt hs)⟩

/-- A new reader knows all it should. -/
theorem knows_of_first_none (h : r.first = none) (low : ι) : Knows log (fun _ => False) low r :=
  ⟨fun _ _ hf => (nomatch h.symm.trans hf), fun _ _ _ hs => hs.elim⟩

/-- A gapless reader that resumes from its last id knows the log up to there. -/
theorem Gapless.knows (h : Gapless log r) (hlast : r.last = some low) (hgot : low ∈ r.got) :
    Knows log (fun _ => False) low r := by
  refine ⟨fun f i hf hi hfi hle => ?_, fun _ _ _ hs => hs.elim⟩
  rcases hle.lt_or_eq with hlt | rfl
  · exact h f low i hf hlast hi hfi hlt
  · exact hgot

/-- A replay of all that the log holds after `low`, in order. -/
theorem Knows.replay (hk : Knows log (fun _ => False) low r) (hg : Gapless log r)
    (hsorted : is.Pairwise (· < ·)) (hlow : ∀ i ∈ is, low < i)
    (hall : ∀ i, log i → low < i → i ∈ is) :
    Safe log r is ∧ Knows log (· ∈ is) low (r.feed is) := by
  have hbefore (js : List ι) (hjs : js <+: is) :
      Safe log r js ∧ Knows log (· ∈ js) low (r.feed js) := by
    induction js using List.reverseRecOn with
    | nil => exact ⟨hg.safe_nil, hk.of_seen fun _ _ _ hs => nomatch hs⟩
    | append_singleton js i ih =>
        obtain ⟨hsafe, hknows⟩ := ih ((List.prefix_append js [i]).trans hjs)
        obtain ⟨ks, rfl⟩ := hjs
        have hseen : ∀ j, log j → low < j → j < i → j ∈ js := by
          intro j hj hlt hji
          rw [List.append_assoc, List.pairwise_append] at hsorted
          have hmem := hall j hj hlt
          rw [List.append_assoc] at hmem
          refine (List.mem_append.mp hmem).resolve_right fun hmem => ?_
          rcases List.mem_cons.mp hmem with rfl | hmem
          · exact lt_irrefl _ hji
          · exact lt_asymm hji ((List.pairwise_cons.mp hsorted.2.1).1 j hmem)
        have hi : i ∈ js ++ [i] ++ ks := by simp
        refine ⟨hsafe.push hknows hseen, ?_⟩
        rw [Reader.feed_concat]
        refine (hknows.push fun _ => (hlow i hi).le).of_seen fun j _ _ hs => ?_
        simpa using hs
  exact hbefore is List.prefix_rfl

/-- Fewer ids wait than before. -/
theorem Safe.prefix {js : List ι} (h : Safe log r is) (hjs : js <+: is) : Safe log r js :=
  fun ks hks => h ks (hks.trans hjs)

section
variable {log' : ι → Prop} {m : ι}

/-- The log grows by an id after all that were fed. -/
theorem Gapless.extend (h : Gapless log r) (hlog : ∀ i, log' i → log i ∨ i = m)
    (hlast : ∀ l, r.last = some l → l < m) : Gapless log' r := by
  intro f l i hf hl hi hfi hil
  rcases hlog i hi with hi | rfl
  · exact h f l i hf hl hi hfi hil
  · exact absurd (hlast l hl) (lt_asymm hil)

theorem Safe.extend (h : Safe log r is) (hlog : ∀ i, log' i → log i ∨ i = m)
    (hlast : ∀ l, r.last = some l → l < m) (his : ∀ i ∈ is, i < m) : Safe log' r is := by
  intro js hjs
  refine (h js hjs).extend hlog fun l hl => ?_
  rcases Reader.last_feed hl with hl | hl
  · exact his l (hjs.subset hl)
  · exact hlast l hl

theorem Knows.extend (hk : Knows log seen low r) (hlog : ∀ i, log' i → log i ∨ i = m)
    (hlow : low < m) (hm : ¬ seen m) : Knows log' seen low r where
  below f i hf hi hfi hle := by
    rcases hlog i hi with hi | rfl
    · exact hk.below f i hf hi hfi hle
    · exact absurd hlow (not_lt.mpr hle)
  above i hi hlt hs := by
    rcases hlog i hi with hi | rfl
    · exact hk.above i hi hlt hs
    · exact absurd hs hm

end

end ProofBook.LogReader
