import Mathlib

/-!
# Byte layouts with a bound

A layout serialises values and carries a bound on the length: the space reserved for
it. The bound holds of the values that keep the capacities of their vectors. Records,
options, tagged choices and vectors are built from layouts of their parts.
-/
namespace ProofBook.Lib

universe u v

structure Layout (α : Type u) where
  encode : α → List UInt8
  initSpace : ℕ
  /-- The vectors inside are within their capacities. -/
  Ok : α → Prop
  fits : ∀ a, Ok a → (encode a).length ≤ initSpace

namespace Layout
variable {α : Type u} {β : Type v}

/-- Values that all take the same number of bytes. -/
def fixed (n : ℕ) (encode : α → List UInt8) (h : ∀ a, (encode a).length = n) : Layout α where
  encode := encode
  initSpace := n
  Ok _ := True
  fits a _ := (h a).le

/-- An enumeration without data: one byte. -/
def tag (f : α → UInt8) : Layout α := fixed 1 (fun a => [f a]) fun _ => rfl

def field (f : α → β) (l : Layout β) : Layout α where
  encode a := l.encode (f a)
  initSpace := l.initSpace
  Ok a := l.Ok (f a)
  fits a h := l.fits (f a) h

theorem flatMap_length_le (ls : List (Layout α)) {a : α} (h : ∀ l ∈ ls, l.Ok a) :
    (ls.flatMap fun l => l.encode a).length ≤ (ls.map initSpace).sum := by
  induction ls with
  | nil => simp
  | cons l ls ih =>
      have hl := l.fits a (h l List.mem_cons_self)
      have hrest := ih fun l hl => h l (List.mem_cons_of_mem _ hl)
      simp only [List.flatMap_cons, List.length_append, List.map_cons, List.sum_cons]
      omega

/-- Field after field. -/
def record (ls : List (Layout α)) : Layout α where
  encode a := ls.flatMap fun l => l.encode a
  initSpace := (ls.map initSpace).sum
  Ok a := ∀ l ∈ ls, l.Ok a
  fits _ h := flatMap_length_le ls h

/-- A byte that says which, then the value. -/
def option (l : Layout α) : Layout (Option α) where
  encode
    | none => [0]
    | some a => 1 :: l.encode a
  initSpace := 1 + l.initSpace
  Ok o := ∀ a ∈ o, l.Ok a
  fits o h := by
    cases o with
    | none => simp
    | some a =>
        have ha := l.fits a (h a rfl)
        rw [List.length_cons]
        omega

/-- An enumeration of two shapes; space is reserved for the larger. -/
def choice (l : Layout α) (r : Layout β) : Layout (α ⊕ β) where
  encode
    | .inl a => 0 :: l.encode a
    | .inr b => 1 :: r.encode b
  initSpace := 1 + max l.initSpace r.initSpace
  Ok
    | .inl a => l.Ok a
    | .inr b => r.Ok b
  fits s h := by
    cases s with
    | inl a =>
        have ha := l.fits a h
        rw [List.length_cons]
        omega
    | inr b =>
        have hb := r.fits b h
        rw [List.length_cons]
        omega

theorem elements_length_le (l : Layout α) {as : List α} (h : ∀ a ∈ as, l.Ok a) :
    (as.flatMap l.encode).length ≤ as.length * l.initSpace := by
  induction as with
  | nil => simp
  | cons a as ih =>
      have ha := l.fits a (h a List.mem_cons_self)
      have hrest := ih fun a ha => h a (List.mem_cons_of_mem _ ha)
      simp only [List.flatMap_cons, List.length_append, List.length_cons, Nat.add_mul, Nat.one_mul]
      omega

/-- The number of elements, then the elements; at most `cap` of them. -/
def vec (count : Layout ℕ) (cap : ℕ) (l : Layout α) : Layout (List α) where
  encode as := count.encode as.length ++ as.flatMap l.encode
  initSpace := count.initSpace + cap * l.initSpace
  Ok as := count.Ok as.length ∧ as.length ≤ cap ∧ ∀ a ∈ as, l.Ok a
  fits as h := by
    obtain ⟨hcount, hcap, hok⟩ := h
    have hbytes := count.fits as.length hcount
    have helements := l.elements_length_le hok
    have hle := Nat.mul_le_mul_right l.initSpace hcap
    rw [List.length_append]
    omega

section
variable (l : Layout α) (r : Layout β) (f : α → β)

@[simp] theorem fixed_initSpace {n : ℕ} {encode : α → List UInt8}
    {h : ∀ a, (encode a).length = n} : (fixed n encode h).initSpace = n := rfl
@[simp] theorem tag_initSpace {f : α → UInt8} : (tag f).initSpace = 1 := rfl
@[simp] theorem field_initSpace : (r.field f).initSpace = r.initSpace := rfl
@[simp] theorem record_initSpace (ls : List (Layout α)) :
    (record ls).initSpace = (ls.map initSpace).sum := rfl
@[simp] theorem option_initSpace : l.option.initSpace = 1 + l.initSpace := rfl
@[simp] theorem choice_initSpace :
    (l.choice r).initSpace = 1 + max l.initSpace r.initSpace := rfl
@[simp] theorem vec_initSpace (count : Layout ℕ) (cap : ℕ) :
    (vec count cap l).initSpace = count.initSpace + cap * l.initSpace := rfl

@[simp] theorem fixed_ok {n : ℕ} {encode : α → List UInt8} {h : ∀ a, (encode a).length = n}
    {a : α} : (fixed n encode h).Ok a := trivial
@[simp] theorem tag_ok {f : α → UInt8} {a : α} : (tag f).Ok a := trivial
@[simp] theorem field_ok {a : α} : (r.field f).Ok a ↔ r.Ok (f a) := .rfl
@[simp] theorem record_ok {ls : List (Layout α)} {a : α} :
    (record ls).Ok a ↔ ∀ l ∈ ls, l.Ok a := .rfl
@[simp] theorem option_ok {o : Option α} : l.option.Ok o ↔ ∀ a ∈ o, l.Ok a := .rfl
@[simp] theorem choice_inl_ok {a : α} : (l.choice r).Ok (.inl a) ↔ l.Ok a := .rfl
@[simp] theorem choice_inr_ok {b : β} : (l.choice r).Ok (.inr b) ↔ r.Ok b := .rfl
@[simp] theorem vec_ok {count : Layout ℕ} {cap : ℕ} {as : List α} : (vec count cap l).Ok as ↔
    count.Ok as.length ∧ as.length ≤ cap ∧ ∀ a ∈ as, l.Ok a := .rfl

end

end Layout

end ProofBook.Lib
