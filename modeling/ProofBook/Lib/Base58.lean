import Mathlib

/-!
# Bytes in base 58

The bytes are the digits of a number in base 256, written in base 58; each leading zero
byte is written as one leading zero digit.
-/
namespace ProofBook.Base58

/-! ## Changing the base -/

def isZero (d : ℕ) : Bool := d == 0

/-- Digits in base `b`, most significant first, in base `b'`. -/
def recode (b b' : ℕ) (ds : List ℕ) : List ℕ :=
  ds.takeWhile isZero ++ (Nat.digits b' (Nat.ofDigits b (ds.dropWhile isZero).reverse)).reverse

variable {b b' : ℕ} {ds : List ℕ}

theorem head_dropWhile (h : ds.dropWhile isZero ≠ []) : (ds.dropWhile isZero).head h ≠ 0 := by
  intro hzero
  have hfalse := List.head_dropWhile_not isZero h
  rw [hzero] at hfalse
  exact Bool.false_ne_true hfalse.symm

/-- The digits of a number have no leading zeros. -/
theorem digits_leading {b n d : ℕ} {l : List ℕ} (h : (Nat.digits b n).reverse = d :: l) :
    d ≠ 0 := by
  have hdigits : Nat.digits b n = l.reverse ++ [d] := by
    rw [← List.reverse_reverse (Nat.digits b n), h, List.reverse_cons]
  have hn : n ≠ 0 := by
    rintro rfl
    rw [Nat.digits_zero] at h
    cases h
  have hlast := Nat.getLast_digit_ne_zero b hn
  simpa only [hdigits, List.getLast_append_singleton] using hlast

theorem recode_lt (hb' : 1 < b') {d : ℕ} (hd : d ∈ recode b b' ds) : d < b' := by
  rcases List.mem_append.mp hd with hd | hd
  · have hzero := List.mem_takeWhile_imp hd
    rw [eq_of_beq hzero]
    omega
  · exact Nat.digits_lt_base hb' (List.mem_reverse.mp hd)

/-- The leading zeros are those of the digits before. -/
theorem takeWhile_recode : (recode b b' ds).takeWhile isZero = ds.takeWhile isZero := by
  rw [recode, List.takeWhile_append_of_pos fun d hd => List.mem_takeWhile_imp hd]
  cases h : (Nat.digits b' (Nat.ofDigits b (ds.dropWhile isZero).reverse)).reverse with
  | nil => rw [List.takeWhile_nil, List.append_nil]
  | cons d l =>
      have hd : ¬ isZero d = true := fun hzero => digits_leading h (eq_of_beq hzero)
      rw [List.takeWhile_cons_of_neg hd, List.append_nil]

theorem dropWhile_recode : (recode b b' ds).dropWhile isZero =
    (Nat.digits b' (Nat.ofDigits b (ds.dropWhile isZero).reverse)).reverse := by
  rw [recode, List.dropWhile_append_of_pos fun d hd => List.mem_takeWhile_imp hd]
  cases h : (Nat.digits b' (Nat.ofDigits b (ds.dropWhile isZero).reverse)).reverse with
  | nil => rfl
  | cons d l =>
      have hd : ¬ isZero d = true := fun hzero => digits_leading h (eq_of_beq hzero)
      rw [List.dropWhile_cons_of_neg hd]

/-- Back to the first base. -/
theorem recode_recode (hb : 1 < b) (hds : ∀ d ∈ ds, d < b) :
    recode b' b (recode b b' ds) = ds := by
  have hrest : Nat.digits b (Nat.ofDigits b (ds.dropWhile isZero).reverse) =
      (ds.dropWhile isZero).reverse := by
    apply Nat.digits_ofDigits b hb
    · intro d hd
      exact hds d ((List.dropWhile_suffix _).subset (List.mem_reverse.mp hd))
    · intro hne
      rw [List.getLast_reverse]
      exact head_dropWhile _
  rw [recode, takeWhile_recode, dropWhile_recode, List.reverse_reverse, Nat.ofDigits_digits, hrest,
    List.reverse_reverse, List.takeWhile_append_dropWhile]

/-! ## The alphabet -/

def alphabet : List Char := "123456789ABCDEFGHJKLMNPQRSTUVWXYZabcdefghijkmnopqrstuvwxyz".toList

def symbol (d : ℕ) : Char := alphabet.getD d '1'

def digit? (c : Char) : Option ℕ := if c ∈ alphabet then some (alphabet.idxOf c) else none

def encode (bytes : List UInt8) : List Char :=
  (recode 256 58 (bytes.map UInt8.toNat)).map symbol

def decode (text : List Char) : Option (List UInt8) :=
  (text.mapM digit?).map fun ds => (recode 58 256 ds).map UInt8.ofNat

theorem digit?_symbol {d : ℕ} (hd : d < 58) : digit? (symbol d) = some d := by
  have hall : ∀ d ∈ List.range 58, digit? (symbol d) = some d := by decide
  exact hall d (List.mem_range.mpr hd)

theorem mapM_digit? {ds : List ℕ} (hds : ∀ d ∈ ds, d < 58) :
    (ds.map symbol).mapM digit? = some ds := by
  induction ds with
  | nil => rfl
  | cons d ds ih =>
      obtain ⟨hd, hds⟩ := List.forall_mem_cons.mp hds
      rw [List.map_cons, List.mapM_cons, digit?_symbol hd, ih hds]
      rfl

theorem decode_encode (bytes : List UInt8) : decode (encode bytes) = some bytes := by
  have hlt : ∀ d ∈ bytes.map UInt8.toNat, d < 256 := by
    intro d hd
    obtain ⟨byte, -, rfl⟩ := List.mem_map.mp hd
    exact byte.toNat_lt
  have hbyte : UInt8.ofNat ∘ UInt8.toNat = id := funext fun byte => UInt8.ofNat_toNat
  rw [decode, encode, mapM_digit? fun d hd => recode_lt (by decide) hd, Option.map_some,
    recode_recode (by decide) hlt, List.map_map, hbyte, List.map_id]

theorem mem_alphabet {text : List Char} {ds : List ℕ} (h : text.mapM digit? = some ds) :
    ∀ c ∈ text, c ∈ alphabet := by
  induction text generalizing ds with
  | nil => exact fun c hc => absurd hc List.not_mem_nil
  | cons c text ih =>
      rw [List.mapM_cons] at h
      simp only [Option.bind_eq_bind, Option.bind_eq_some_iff] at h
      obtain ⟨d, hd, rest, hrest, -⟩ := h
      rw [List.forall_mem_cons]
      constructor
      · unfold digit? at hd
        split_ifs at hd with hc
        exact hc
      · exact ih hrest

/-- What is read has no other characters. -/
theorem decode_alphabet {text : List Char} {bytes : List UInt8} (h : decode text = some bytes) :
    ∀ c ∈ text, c ∈ alphabet := by
  obtain ⟨ds, hds, -⟩ := Option.map_eq_some_iff.mp h
  exact mem_alphabet hds

end ProofBook.Base58
