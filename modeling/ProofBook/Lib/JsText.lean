import Mathlib

/-!
# White space of JavaScript

`trim` and `\s` take the same characters for white space.
-/
namespace ProofBook.JsText

def isSpace (c : Char) : Bool :=
  [9, 10, 11, 12, 13, 0x20, 0xA0, 0x1680, 0x2028, 0x2029, 0x202F, 0x205F, 0x3000, 0xFEFF].contains
      c.toNat ||
    (0x2000 ≤ c.toNat && c.toNat ≤ 0x200A)

def trimEnd (s : List Char) : List Char := s.rdropWhile isSpace

def trim (s : List Char) : List Char := trimEnd (s.dropWhile isSpace)

/-- `s.replace(/\s+/g, "")` -/
def stripSpaces (s : List Char) : List Char := s.filter (¬ isSpace ·)

variable {s white : List Char} {c : Char}

theorem trim_append_left (h : ∀ c ∈ white, isSpace c = true) (s : List Char) :
    trim (white ++ s) = trim s := by
  rw [trim, List.dropWhile_append_of_pos h, trim]

/-- Up to a character that is no white space nothing is cut. -/
theorem trimEnd_append (s : List Char) (hc : isSpace c = false) (t : List Char) :
    trimEnd (s ++ c :: t) = s ++ c :: trimEnd t := by
  have hrev : (s ++ c :: t).reverse = t.reverse ++ c :: s.reverse := by simp
  have hkeep : (c :: s.reverse).dropWhile isSpace = c :: s.reverse := by
    rw [List.dropWhile_cons_of_neg (by rw [hc]; exact Bool.false_ne_true)]
  rw [trimEnd, List.rdropWhile, hrev, List.dropWhile_append, hkeep, trimEnd, List.rdropWhile]
  split_ifs with hempty
  · rw [List.isEmpty_iff.mp hempty]
    simp
  · simp

theorem trim_cons (hc : isSpace c = false) (s : List Char) : trim (c :: s) = c :: trimEnd s := by
  rw [trim, List.dropWhile_cons_of_neg (by rw [hc]; exact Bool.false_ne_true)]
  exact trimEnd_append [] hc s

theorem trim_between {d : Char} (hc : isSpace c = false) (hd : isSpace d = false)
    (s t : List Char) : trim (c :: s ++ d :: t) = c :: s ++ d :: trimEnd t := by
  rw [List.cons_append, trim_cons hc, trimEnd_append s hd, List.cons_append]

theorem trimEnd_eq_nil (h : ∀ c ∈ s, isSpace c = true) : trimEnd s = [] :=
  List.rdropWhile_eq_nil_iff.mpr h

theorem stripSpaces_of_spaces (h : ∀ c ∈ s, isSpace c = true) : stripSpaces s = [] := by
  rw [stripSpaces, List.filter_eq_nil_iff]
  intro c hc
  simp [h c hc]

theorem stripSpaces_append (s t : List Char) :
    stripSpaces (s ++ t) = stripSpaces s ++ stripSpaces t := List.filter_append ..

theorem stripSpaces_of_none (h : ∀ c ∈ s, isSpace c = false) : stripSpaces s = s := by
  rw [stripSpaces, List.filter_eq_self]
  intro c hc
  simp [h c hc]

/-- What `trim` cuts off is white space. -/
theorem trim_split (s : List Char) : ∃ lead tail, s = lead ++ trim s ++ tail ∧
    (∀ c ∈ lead, isSpace c = true) ∧ ∀ c ∈ tail, isSpace c = true := by
  refine ⟨s.takeWhile isSpace, (s.dropWhile isSpace).rtakeWhile isSpace, ?_, fun c hc => ?_,
    fun c hc => ?_⟩
  · rw [List.append_assoc, trim, trimEnd, List.rdropWhile_append_rtakeWhile,
      List.takeWhile_append_dropWhile]
  · exact List.mem_takeWhile_imp hc
  · exact List.mem_rtakeWhile_imp hc

theorem stripSpaces_trim (s : List Char) : stripSpaces (trim s) = stripSpaces s := by
  obtain ⟨lead, tail, hs, hlead, htail⟩ := trim_split s
  conv_rhs => rw [hs]
  rw [stripSpaces_append, stripSpaces_append, stripSpaces_of_spaces hlead,
    stripSpaces_of_spaces htail, List.nil_append, List.append_nil]

theorem mem_stripSpaces : c ∈ stripSpaces s ↔ c ∈ s ∧ isSpace c = false := by
  simp [stripSpaces]

theorem mem_of_trim (h : c ∈ trim s) : c ∈ s := by
  obtain ⟨lead, tail, hs, -⟩ := trim_split s
  rw [hs]
  exact List.mem_append_left _ (List.mem_append_right _ h)

theorem mem_trim (h : c ∈ s) (hc : isSpace c = false) : c ∈ trim s := by
  have hmem : c ∈ stripSpaces (trim s) := by
    rw [stripSpaces_trim]
    exact mem_stripSpaces.mpr ⟨h, hc⟩
  exact (mem_stripSpaces.mp hmem).1

end ProofBook.JsText
