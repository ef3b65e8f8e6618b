import ProofBook.Lib.Binary64

/-!
# JSON texts

What `JSON.parse` reads. Numbers are double-precision ones, strings are UTF-16 code
units, and of a key that occurs more than once the last value counts. The parser recurses
on fuel; twice the length of the text is enough.
-/
namespace ProofBook.Json
open Binary64

/-! ## Values -/

/-- The UTF-16 code units of a character. -/
def units (c : Char) : List UInt16 :=
  if c.toNat < 0x10000 then [.ofNat c.toNat]
  else
    let n := c.toNat - 0x10000
    [.ofNat (0xD800 + n / 0x400), .ofNat (0xDC00 + n % 0x400)]

def utf16 (text : List Char) : List UInt16 := text.flatMap units

inductive Value
  | null
  | bool (b : Bool)
  | number (n : Number)
  | string (s : List UInt16)
  | array (items : List Value)
  | object (fields : List (List UInt16 × Value))

/-- A property; only objects have any. -/
def Value.get (v : Value) (key : String) : Option Value :=
  match v with
  | .object fields => (fields.reverse.find? (·.1 = utf16 key.toList)).map (·.2)
  | _ => none

/-! ## The parser -/

def isWhite (c : Char) : Bool := c == ' ' || c == '\t' || c == '\n' || c == '\r'

def natOf (digits : List Char) : ℕ := Nat.ofDigitChars 10 digits 0

/-- Digits, at least one. -/
def parseDigits (s : List Char) : Option (List Char × List Char) :=
  let digits := s.takeWhile Char.isDigit
  if digits = [] then none else some (digits, s.dropWhile Char.isDigit)

def parseFraction (s : List Char) : Option (List Char × List Char) :=
  match s with
  | '.' :: s => parseDigits s
  | s => some ([], s)

def parseSigned (s : List Char) : Option (ℤ × List Char) :=
  match s with
  | '-' :: s => (parseDigits s).map fun r => (-natOf r.1, r.2)
  | '+' :: s => (parseDigits s).map fun r => (natOf r.1, r.2)
  | s => (parseDigits s).map fun r => (natOf r.1, r.2)

def parseExponent (s : List Char) : Option (ℤ × List Char) :=
  match s with
  | 'e' :: s => parseSigned s
  | 'E' :: s => parseSigned s
  | s => some (0, s)

/-- A number without its sign; it has no leading zeros. -/
def parseUnsigned (s : List Char) : Option (ℚ × List Char) := do
  let (whole, s) ← parseDigits s
  if whole.head? = some '0' ∧ 1 < whole.length then none else
    let (fraction, s) ← parseFraction s
    let (exponent, s) ← parseExponent s
    some (natOf (whole ++ fraction) * 10 ^ (exponent - fraction.length), s)

def parseNumber (s : List Char) : Option (Number × List Char) :=
  match s with
  | '-' :: s => (parseUnsigned s).map fun r => (round (-r.1), r.2)
  | s => (parseUnsigned s).map fun r => (round r.1, r.2)

def hexDigit (c : Char) : Option ℕ :=
  if c.isDigit then some (c.toNat - 48)
  else if 'a' ≤ c ∧ c ≤ 'f' then some (c.toNat - 87)
  else if 'A' ≤ c ∧ c ≤ 'F' then some (c.toNat - 55)
  else none

/-- The unit that a character after a backslash stands for. -/
def escaped (c : Char) : Option UInt16 :=
  match c with
  | '"' => some 34
  | '\\' => some 92
  | '/' => some 47
  | 'b' => some 8
  | 'f' => some 12
  | 'n' => some 10
  | 'r' => some 13
  | 't' => some 9
  | _ => none

def hexUnit (a b c d : Char) : Option UInt16 := do
  let high := (← hexDigit a) * 16 + (← hexDigit b)
  let low := (← hexDigit c) * 16 + (← hexDigit d)
  some (.ofNat (high * 256 + low))

/-- A string after its opening quote. -/
def parseString : List Char → Option (List UInt16 × List Char)
  | '"' :: s => some ([], s)
  | '\\' :: 'u' :: a :: b :: c :: d :: s => do
      let unit ← hexUnit a b c d
      let (rest, s) ← parseString s
      some (unit :: rest, s)
  | '\\' :: c :: s => do
      let unit ← escaped c
      let (rest, s) ← parseString s
      some (unit :: rest, s)
  | c :: s =>
      if c = '\\' ∨ c.toNat < 0x20 then none
      else (parseString s).map fun r => (units c ++ r.1, r.2)
  | [] => none

def literal (text : String) (v : Value) (s : List Char) : Option (Value × List Char) :=
  if text.toList <+: s then some (v, s.drop text.length) else none

section
variable (value : List Char → Option (Value × List Char))
  (items : List Char → Option (List Value × List Char))
  (fields : List Char → Option (List (List UInt16 × Value) × List Char))

def valueWith (s : List Char) : Option (Value × List Char) :=
  match s.dropWhile isWhite with
  | '[' :: s =>
      match s.dropWhile isWhite with
      | ']' :: s => some (.array [], s)
      | _ => (items s).map fun r => (.array r.1, r.2)
  | '{' :: s =>
      match s.dropWhile isWhite with
      | '}' :: s => some (.object [], s)
      | _ => (fields s).map fun r => (.object r.1, r.2)
  | '"' :: s => (parseString s).map fun r => (.string r.1, r.2)
  | 'n' :: s => literal "ull" .null s
  | 't' :: s => literal "rue" (.bool true) s
  | 'f' :: s => literal "alse" (.bool false) s
  | s => (parseNumber s).map fun r => (.number r.1, r.2)

/-- The items of an array up to its end. -/
def itemsWith (s : List Char) : Option (List Value × List Char) := do
  let (v, s) ← value s
  match s.dropWhile isWhite with
  | ',' :: s => (items s).map fun r => (v :: r.1, r.2)
  | ']' :: s => some ([v], s)
  | _ => none

/-- The fields of an object up to its end. -/
def fieldsWith (s : List Char) : Option (List (List UInt16 × Value) × List Char) :=
  match s.dropWhile isWhite with
  | '"' :: s => do
      let (key, s) ← parseString s
      match s.dropWhile isWhite with
      | ':' :: s => do
          let (v, s) ← value s
          match s.dropWhile isWhite with
          | ',' :: s => (fields s).map fun r => ((key, v) :: r.1, r.2)
          | '}' :: s => some ([(key, v)], s)
          | _ => none
      | _ => none
  | _ => none

end

mutual

def parseValue : ℕ → List Char → Option (Value × List Char)
  | 0, _ => none
  | n + 1, s => valueWith (parseItems n) (parseFields n) s

def parseItems : ℕ → List Char → Option (List Value × List Char)
  | 0, _ => none
  | n + 1, s => itemsWith (parseValue n) (parseItems n) s

def parseFields : ℕ → List Char → Option (List (List UInt16 × Value) × List Char)
  | 0, _ => none
  | n + 1, s => fieldsWith (parseValue n) (parseFields n) s

end

/-- `JSON.parse`; nothing where it throws. -/
def parse (text : List Char) : Option Value :=
  match parseValue (2 * text.length + 1) text with
  | some (v, s) => if s.all isWhite then some v else none
  | none => none

/-! ## What a parser takes -/

/-- What is left after characters of a kind. -/
def Takes (kind : Char → Bool) (s rest : List Char) : Prop :=
  ∃ used, s = used ++ rest ∧ ∀ c ∈ used, kind c = true

variable {kind : Char → Bool} {s s' rest : List Char}

theorem Takes.refl (s : List Char) : Takes kind s s := ⟨[], rfl, by simp⟩

theorem Takes.trans (h : Takes kind s s') (h' : Takes kind s' rest) : Takes kind s rest := by
  obtain ⟨used, rfl, hused⟩ := h
  obtain ⟨used', rfl, hused'⟩ := h'
  refine ⟨used ++ used', by rw [List.append_assoc], fun c hc => ?_⟩
  rcases List.mem_append.mp hc with hc | hc
  · exact hused c hc
  · exact hused' c hc

theorem Takes.cons {c : Char} (hc : kind c = true) (h : Takes kind s rest) :
    Takes kind (c :: s) rest := Takes.trans ⟨[c], rfl, by simpa using hc⟩ h

theorem Takes.length_le (h : Takes kind s rest) : rest.length ≤ s.length := by
  obtain ⟨used, rfl, -⟩ := h
  simp

/-- A character of a number. -/
def numeric (c : Char) : Bool := c.isDigit || ['+', '-', '.', 'e', 'E'].contains c

theorem parseDigits_takes {r : List Char × List Char} (h : parseDigits s = some r) :
    Takes numeric s r.2 ∧ r.2.length < s.length := by
  unfold parseDigits at h
  dsimp only at h
  split_ifs at h with hnil
  cases h
  have hsplit := List.takeWhile_append_dropWhile (p := Char.isDigit) (l := s)
  refine ⟨⟨s.takeWhile Char.isDigit, hsplit.symm, fun c hc => ?_⟩, ?_⟩
  · rw [numeric, List.mem_takeWhile_imp hc, Bool.true_or]
  · have hlen := congrArg List.length hsplit
    rw [List.length_append] at hlen
    have hpos := List.length_pos_iff.mpr hnil
    dsimp only
    omega

theorem parseFraction_takes {r : List Char × List Char} (h : parseFraction s = some r) :
    Takes numeric s r.2 := by
  unfold parseFraction at h
  split at h
  · exact .cons rfl (parseDigits_takes h).1
  · cases h
    exact .refl _

theorem parseSigned_takes {r : ℤ × List Char} (h : parseSigned s = some r) :
    Takes numeric s r.2 := by
  unfold parseSigned at h
  split at h
  · obtain ⟨ds, hds, rfl⟩ := Option.map_eq_some_iff.mp h
    exact .cons rfl (parseDigits_takes hds).1
  · obtain ⟨ds, hds, rfl⟩ := Option.map_eq_some_iff.mp h
    exact .cons rfl (parseDigits_takes hds).1
  · obtain ⟨ds, hds, rfl⟩ := Option.map_eq_some_iff.mp h
    exact (parseDigits_takes hds).1

theorem parseExponent_takes {r : ℤ × List Char} (h : parseExponent s = some r) :
    Takes numeric s r.2 := by
  unfold parseExponent at h
  split at h
  · exact .cons rfl (parseSigned_takes h)
  · exact .cons rfl (parseSigned_takes h)
  · cases h
    exact .refl _

theorem parseUnsigned_takes {r : ℚ × List Char} (h : parseUnsigned s = some r) :
    Takes numeric s r.2 ∧ r.2.length < s.length := by
  unfold parseUnsigned at h
  simp only [Option.bind_eq_bind, Option.bind_eq_some_iff] at h
  obtain ⟨whole, hwhole, h⟩ := h
  obtain ⟨htakes, hlt⟩ := parseDigits_takes hwhole
  split_ifs at h
  simp only [Option.bind_eq_some_iff] at h
  obtain ⟨fraction, hfraction, exponent, hexponent, h⟩ := h
  cases h
  have hrest := (parseFraction_takes hfraction).trans (parseExponent_takes hexponent)
  exact ⟨htakes.trans hrest, hrest.length_le.trans_lt hlt⟩

theorem parseNumber_takes {r : Number × List Char} (h : parseNumber s = some r) :
    Takes numeric s r.2 ∧ r.2.length < s.length := by
  unfold parseNumber at h
  split at h
  · obtain ⟨q, hq, rfl⟩ := Option.map_eq_some_iff.mp h
    obtain ⟨htakes, hlt⟩ := parseUnsigned_takes hq
    exact ⟨.cons rfl htakes, hlt.trans (Nat.lt_succ_self _)⟩
  · obtain ⟨q, hq, rfl⟩ := Option.map_eq_some_iff.mp h
    exact parseUnsigned_takes hq

theorem parseString_shorter {r : List UInt16 × List Char} (h : parseString s = some r) :
    r.2.length < s.length := by
  fun_induction parseString s generalizing r with
  | case1 s =>
      cases h
      exact Nat.lt_succ_self _
  | case2 a b c d s ih =>
      simp only [Option.bind_eq_bind, Option.bind_eq_some_iff] at h
      obtain ⟨unit, -, r', hr', h⟩ := h
      cases h
      have hlt := ih hr'
      simp only [List.length_cons]
      omega
  | case3 c s hc ih =>
      simp only [Option.bind_eq_bind, Option.bind_eq_some_iff] at h
      obtain ⟨unit, -, r', hr', h⟩ := h
      cases h
      have hlt := ih hr'
      simp only [List.length_cons]
      omega
  | case4 c s => cases h
  | case5 c s _ _ _ _ ih =>
      obtain ⟨r', hr', rfl⟩ := Option.map_eq_some_iff.mp h
      exact (ih hr').trans (Nat.lt_succ_self _)
  | case6 => cases h

theorem literal_le {text : String} {v : Value} {r : Value × List Char}
    (h : literal text v s = some r) : r.2.length ≤ s.length := by
  unfold literal at h
  split_ifs at h
  cases h
  simp

theorem length_dropWhile_white (s : List Char) : (s.dropWhile isWhite).length ≤ s.length :=
  List.length_dropWhile_le _ _

/-- White space before a character. -/
theorem length_of_white {c : Char} {l : List Char} (h : s.dropWhile isWhite = c :: l) :
    l.length < s.length := by
  have hle := length_dropWhile_white s
  rw [h] at hle
  exact hle

/-- A parser takes at least one character. -/
def Shorter {A : Type} (p : List Char → Option (A × List Char)) : Prop :=
  ∀ s r, p s = some r → r.2.length < s.length

section
variable {value : List Char → Option (Value × List Char)}
  {items : List Char → Option (List Value × List Char)}
  {fields : List Char → Option (List (List UInt16 × Value) × List Char)}

theorem valueWith_shorter (hitems : Shorter items) (hfields : Shorter fields) :
    Shorter (valueWith items fields) := by
  intro s r h
  unfold valueWith at h
  split at h
  next l hs =>
    split at h
    next l' hl' =>
      cases h
      exact (length_of_white hl').trans (length_of_white hs)
    · obtain ⟨r', hr', rfl⟩ := Option.map_eq_some_iff.mp h
      exact (hitems _ _ hr').trans (length_of_white hs)
  next l hs =>
    split at h
    next l' hl' =>
      cases h
      exact (length_of_white hl').trans (length_of_white hs)
    · obtain ⟨r', hr', rfl⟩ := Option.map_eq_some_iff.mp h
      exact (hfields _ _ hr').trans (length_of_white hs)
  next l hs =>
    obtain ⟨r', hr', rfl⟩ := Option.map_eq_some_iff.mp h
    exact (parseString_shorter hr').trans (length_of_white hs)
  next l hs => exact (literal_le h).trans_lt (length_of_white hs)
  next l hs => exact (literal_le h).trans_lt (length_of_white hs)
  next l hs => exact (literal_le h).trans_lt (length_of_white hs)
  · obtain ⟨r', hr', rfl⟩ := Option.map_eq_some_iff.mp h
    exact (parseNumber_takes hr').2.trans_le (length_dropWhile_white s)

theorem itemsWith_shorter (hvalue : Shorter value) (hitems : Shorter items) :
    Shorter (itemsWith value items) := by
  intro s r h
  simp only [itemsWith, Option.bind_eq_bind, Option.bind_eq_some_iff] at h
  obtain ⟨v, hv, h⟩ := h
  split at h
  next l hl =>
    obtain ⟨r', hr', rfl⟩ := Option.map_eq_some_iff.mp h
    exact (hitems _ _ hr').trans ((length_of_white hl).trans (hvalue _ _ hv))
  next l hl =>
    cases h
    exact (length_of_white hl).trans (hvalue _ _ hv)
  · cases h

theorem fieldsWith_shorter (hvalue : Shorter value) (hfields : Shorter fields) :
    Shorter (fieldsWith value fields) := by
  intro s r h
  unfold fieldsWith at h
  split at h
  next l hs =>
    simp only [Option.bind_eq_bind, Option.bind_eq_some_iff] at h
    obtain ⟨key, hkey, h⟩ := h
    have hlkey := (parseString_shorter hkey).trans (length_of_white hs)
    split at h
    next l' hl' =>
      simp only [Option.bind_eq_some_iff] at h
      obtain ⟨v, hv, h⟩ := h
      have hlv := (hvalue _ _ hv).trans ((length_of_white hl').trans hlkey)
      split at h
      next l'' hl'' =>
        obtain ⟨r', hr', rfl⟩ := Option.map_eq_some_iff.mp h
        exact (hfields _ _ hr').trans ((length_of_white hl'').trans hlv)
      next l'' hl'' =>
        cases h
        exact (length_of_white hl'').trans hlv
      · cases h
    · cases h
  · cases h

end

theorem parse_shorter (n : ℕ) :
    Shorter (parseValue n) ∧ Shorter (parseItems n) ∧ Shorter (parseFields n) := by
  induction n with
  | zero =>
      refine ⟨?_, ?_, ?_⟩ <;> intro s r h <;> cases h
  | succ n ih =>
      obtain ⟨hvalue, hitems, hfields⟩ := ih
      exact ⟨valueWith_shorter hitems hfields, itemsWith_shorter hvalue hitems,
        fieldsWith_shorter hvalue hfields⟩

/-! ## Enough fuel -/

section
variable {value value' : List Char → Option (Value × List Char)}
  {items items' : List Char → Option (List Value × List Char)}
  {fields fields' : List Char → Option (List (List UInt16 × Value) × List Char)}

theorem valueWith_congr (hitems : ∀ l : List Char, l.length < s.length → items l = items' l)
    (hfields : ∀ l : List Char, l.length < s.length → fields l = fields' l) :
    valueWith items fields s = valueWith items' fields' s := by
  unfold valueWith
  split
  next l hs => rw [hitems l (length_of_white hs)]
  next l hs => rw [hfields l (length_of_white hs)]
  all_goals rfl

theorem itemsWith_congr (hshorter : Shorter value) (hvalue : value s = value' s)
    (hitems : ∀ l : List Char, l.length + 1 < s.length → items l = items' l) :
    itemsWith value items s = itemsWith value' items' s := by
  unfold itemsWith
  rw [← hvalue]
  cases hv : value s with
  | none => rfl
  | some r =>
      have hlt := hshorter _ _ hv
      simp only [Option.bind_eq_bind, Option.bind_some]
      split
      next l hl =>
        have hl := length_of_white hl
        rw [hitems l (by omega)]
      all_goals rfl

theorem fieldsWith_congr (hshorter : Shorter value)
    (hvalue : ∀ l : List Char, l.length + 1 < s.length → value l = value' l)
    (hfields : ∀ l : List Char, l.length + 1 < s.length → fields l = fields' l) :
    fieldsWith value fields s = fieldsWith value' fields' s := by
  unfold fieldsWith
  split
  next l hs =>
    have hlen := length_of_white hs
    cases hkey : parseString l with
    | none => rfl
    | some r =>
        have hrlen := parseString_shorter hkey
        simp only [Option.bind_eq_bind, Option.bind_some]
        split
        next l' hl' =>
          have hlen' := length_of_white hl'
          rw [← hvalue l' (by omega)]
          cases hv : value l' with
          | none => rfl
          | some r' =>
              have hlt := hshorter _ _ hv
              simp only [Option.bind_some]
              split
              next l'' hl'' =>
                have hlen'' := length_of_white hl''
                rw [hfields l'' (by omega)]
              all_goals rfl
        all_goals rfl
  all_goals rfl

end

theorem parse_fuel (n : ℕ) :
    (∀ s, 2 * s.length + 1 ≤ n → parseValue n s = parseValue (n + 1) s) ∧
      (∀ s, 2 * s.length + 2 ≤ n → parseItems n s = parseItems (n + 1) s) ∧
      ∀ s, 2 * s.length + 2 ≤ n → parseFields n s = parseFields (n + 1) s := by
  induction n with
  | zero => exact ⟨fun _ h => by omega, fun _ h => by omega, fun _ h => by omega⟩
  | succ n ih =>
      obtain ⟨ihValue, ihItems, ihFields⟩ := ih
      have hshorter := (parse_shorter n).1
      refine ⟨fun s hn => ?_, fun s hn => ?_, fun s hn => ?_⟩
      · exact valueWith_congr (fun l hl => ihItems l (by omega)) fun l hl => ihFields l (by omega)
      · exact itemsWith_congr hshorter (ihValue s (by omega)) fun l hl => ihItems l (by omega)
      · exact fieldsWith_congr hshorter (fun l hl => ihValue l (by omega))
          fun l hl => ihFields l (by omega)

/-- More fuel does not change what is read. -/
theorem parseValue_eq {n : ℕ} (hn : 2 * s.length + 1 ≤ n) :
    parseValue n s = parseValue (2 * s.length + 1) s := by
  induction n, hn using Nat.le_induction with
  | base => rfl
  | succ n hn ih => rw [← ih, (parse_fuel n).1 s hn]

/-! ## Arrays of numbers -/

def Value.isNumber : Value → Bool
  | .number _ => true
  | _ => false

/-- A character of an array of numbers, its brackets apart. -/
def listing (c : Char) : Bool := numeric c || isWhite c || c == ','

theorem Takes.mono {kind' : Char → Bool} (h : Takes kind s rest)
    (hkind : ∀ c, kind c = true → kind' c = true) : Takes kind' s rest := by
  obtain ⟨used, hs, hused⟩ := h
  exact ⟨used, hs, fun c hc => hkind c (hused c hc)⟩

theorem takes_white (s : List Char) : Takes listing s (s.dropWhile isWhite) := by
  refine ⟨s.takeWhile isWhite, List.takeWhile_append_dropWhile.symm, fun c hc => ?_⟩
  rw [listing, List.mem_takeWhile_imp hc, Bool.or_true, Bool.true_or]

theorem literal_value {text : String} {v : Value} {r : Value × List Char}
    (h : literal text v s = some r) : r.1 = v := by
  unfold literal at h
  split_ifs at h
  cases h
  rfl

theorem valueWith_number {items : List Char → Option (List Value × List Char)}
    {fields : List Char → Option (List (List UInt16 × Value) × List Char)} {r : Value × List Char}
    (h : valueWith items fields s = some r) (hr : r.1.isNumber = true) : Takes listing s r.2 := by
  unfold valueWith at h
  split at h
  · split at h
    · cases h
      cases hr
    · obtain ⟨_, -, rfl⟩ := Option.map_eq_some_iff.mp h
      cases hr
  · split at h
    · cases h
      cases hr
    · obtain ⟨_, -, rfl⟩ := Option.map_eq_some_iff.mp h
      cases hr
  · obtain ⟨_, -, rfl⟩ := Option.map_eq_some_iff.mp h
    cases hr
  · rw [literal_value h] at hr
    cases hr
  · rw [literal_value h] at hr
    cases hr
  · rw [literal_value h] at hr
    cases hr
  · obtain ⟨r', hr', rfl⟩ := Option.map_eq_some_iff.mp h
    apply (takes_white s).trans
    exact (parseNumber_takes hr').1.mono fun c hc => by rw [listing, hc, Bool.true_or, Bool.true_or]

/-- Up to the end of an array of numbers there is no other bracket. -/
theorem parseItems_numbers {n : ℕ} {r : List Value × List Char} (h : parseItems n s = some r)
    (hr : ∀ v ∈ r.1, v.isNumber = true) : Takes listing s (']' :: r.2) := by
  induction n generalizing s r with
  | zero => cases h
  | succ n ih =>
      rw [parseItems] at h
      simp only [itemsWith, Option.bind_eq_bind, Option.bind_eq_some_iff] at h
      obtain ⟨v, hv, h⟩ := h
      have htakes (hnumber : v.1.isNumber = true) : Takes listing s (v.2.dropWhile isWhite) := by
        cases n with
        | zero => cases hv
        | succ n => exact (valueWith_number hv hnumber).trans (takes_white _)
      split at h
      next l hl =>
        obtain ⟨r', hr', rfl⟩ := Option.map_eq_some_iff.mp h
        obtain ⟨hnumber, hrest⟩ := List.forall_mem_cons.mp hr
        rw [hl] at htakes
        exact (htakes hnumber).trans (.cons rfl (@ih _ r' hr' hrest))
      next l hl =>
        cases h
        rw [hl] at htakes
        exact htakes (hr _ (List.mem_singleton_self _))
      · cases h

theorem listing_ne {c : Char} (h : listing c = true) : c ≠ '[' ∧ c ≠ ']' := by
  constructor <;> rintro rfl <;> exact absurd h (by decide)

theorem valueWith_array {items : List Char → Option (List Value × List Char)}
    {fields : List Char → Option (List (List UInt16 × Value) × List Char)} {vs : List Value}
    (h : valueWith items fields s = some (.array vs, rest)) :
    ∃ l, s.dropWhile isWhite = '[' :: l ∧
      (vs = [] ∧ l.dropWhile isWhite = ']' :: rest ∨ items l = some (vs, rest)) := by
  unfold valueWith at h
  split at h
  next l hl =>
    refine ⟨l, hl, ?_⟩
    split at h
    next l' hl' =>
      cases h
      exact .inl ⟨rfl, hl'⟩
    · obtain ⟨r, hr, heq⟩ := Option.map_eq_some_iff.mp h
      cases heq
      exact .inr hr
  · split at h
    · cases h
    · obtain ⟨_, -, heq⟩ := Option.map_eq_some_iff.mp h
      cases heq
  · obtain ⟨_, -, heq⟩ := Option.map_eq_some_iff.mp h
    cases heq
  · cases literal_value h
  · cases literal_value h
  · cases literal_value h
  · obtain ⟨_, -, heq⟩ := Option.map_eq_some_iff.mp h
    cases heq

/-- The text of an array of numbers. -/
theorem parse_numbers {text : List Char} {items : List Value} (h : parse text = some (.array items))
    (hitems : ∀ v ∈ items, v.isNumber = true) :
    ∃ before inner after, text = before ++ '[' :: inner ++ ']' :: after ∧
      (∀ c ∈ before, isWhite c = true) ∧ (∀ c ∈ inner, listing c = true) ∧
        ∀ c ∈ after, isWhite c = true := by
  unfold parse at h
  split at h
  next v rest hv =>
    split_ifs at h with hrest
    cases h
    have hsplit := List.takeWhile_append_dropWhile (p := isWhite) (l := text)
    rw [parseValue] at hv
    obtain ⟨l, hl, harray⟩ := valueWith_array hv
    rw [hl] at hsplit
    obtain ⟨inner, rfl, hinner⟩ : Takes listing l (']' :: rest) := by
      rcases harray with ⟨-, hl'⟩ | hr
      · rw [← hl']
        exact takes_white l
      · exact parseItems_numbers hr hitems
    refine ⟨text.takeWhile isWhite, inner, rest, ?_, fun c hc => List.mem_takeWhile_imp hc, hinner,
      List.all_eq_true.mp hrest⟩
    rw [List.append_assoc, List.cons_append]
    exact hsplit.symm
  · cases h

/-! ## Texts of natural numbers -/

/-- The items of a list and the end of it. -/
def itemsText : List ℕ → List Char
  | [] => [']']
  | [n] => Nat.toDigits 10 n ++ [']']
  | n :: ns => Nat.toDigits 10 n ++ ',' :: itemsText ns

def naturals (ns : List ℕ) : List Value := ns.map fun n : ℕ => .number (.int n)

def listText (ns : List ℕ) : List Char := '[' :: itemsText ns

theorem isDigit_toDigits {n : ℕ} {c : Char} (hc : c ∈ Nat.toDigits 10 n) : c.isDigit = true :=
  Nat.isDigit_of_mem_toDigits (by decide) (by decide) hc

theorem toDigits_head (n : ℕ) : ∃ d ds, Nat.toDigits 10 n = d :: ds ∧ d.isDigit = true := by
  obtain ⟨d, ds, hds⟩ := List.exists_cons_of_ne_nil (@Nat.toDigits_ne_nil n 10)
  have hmem : d ∈ Nat.toDigits 10 n := by
    rw [hds]
    exact List.mem_cons_self
  exact ⟨d, ds, hds, isDigit_toDigits hmem⟩

theorem dropWhile_digit {d : Char} (hd : d.isDigit = true) (s : List Char) :
    (d :: s).dropWhile isWhite = d :: s := by
  apply List.dropWhile_cons_of_neg
  intro h
  simp only [isWhite, Bool.or_eq_true, beq_iff_eq] at h
  rcases h with ((rfl | rfl) | rfl) | rfl <;> exact absurd hd (by decide)

theorem toDigits_leading {n : ℕ} (hn : 0 < n) : (Nat.toDigits 10 n).head? ≠ some '0' := by
  induction n using Nat.strongRecOn with
  | ind n ih =>
      rw [Nat.toDigits_eq_if (by decide)]
      split_ifs with hlt
      · interval_cases n <;> decide
      · rw [List.head?_append_of_ne_nil _ Nat.toDigits_ne_nil]
        exact ih _ (by omega) (by omega)

/-- What follows an item. -/
def endsItem (c : Char) : Prop := c = ',' ∨ c = ']'

variable {c : Char}

theorem parseDigits_toDigits (n : ℕ) (hc : endsItem c) (s : List Char) :
    parseDigits (Nat.toDigits 10 n ++ c :: s) = some (Nat.toDigits 10 n, c :: s) := by
  have hdigits (d : Char) (hd : d ∈ Nat.toDigits 10 n) : d.isDigit = true := isDigit_toDigits hd
  have hstop : ¬ c.isDigit = true := by rcases hc with rfl | rfl <;> decide
  rw [parseDigits, List.takeWhile_append_of_pos hdigits, List.dropWhile_append_of_pos hdigits,
    List.takeWhile_cons_of_neg hstop, List.dropWhile_cons_of_neg hstop, List.append_nil]
  exact if_neg Nat.toDigits_ne_nil

theorem parseUnsigned_toDigits (n : ℕ) (hc : endsItem c) (s : List Char) :
    parseUnsigned (Nat.toDigits 10 n ++ c :: s) = some ((n : ℚ), c :: s) := by
  have hleading : ¬ ((Nat.toDigits 10 n).head? = some '0' ∧ 1 < (Nat.toDigits 10 n).length) := by
    rintro ⟨hhead, hlen⟩
    rcases Nat.eq_zero_or_pos n with rfl | hn
    · exact absurd hlen (by decide)
    · exact toDigits_leading hn hhead
  have hfraction : parseFraction (c :: s) = some ([], c :: s) := by
    rcases hc with rfl | rfl <;> rfl
  have hexponent : parseExponent (c :: s) = some (0, c :: s) := by
    rcases hc with rfl | rfl <;> rfl
  simp only [parseUnsigned, parseDigits_toDigits n hc s, Option.bind_eq_bind, Option.bind_some,
    if_neg hleading, hfraction, hexponent, List.append_nil, natOf, Nat.ofDigitChars_ten_toDigits]
  simp

theorem parseNumber_toDigits {n : ℕ} (hn : n ≤ 2 ^ 53) (hc : endsItem c) (s : List Char) :
    parseNumber (Nat.toDigits 10 n ++ c :: s) = some (.int n, c :: s) := by
  have hround : Binary64.round (n : ℚ) = .int n := @round_intCast n (by exact_mod_cast hn)
  unfold parseNumber
  split
  next l hl =>
    obtain ⟨d, ds, hds, hdigit⟩ := toDigits_head n
    rw [hds, List.cons_append, List.cons.injEq] at hl
    rw [hl.1] at hdigit
    exact absurd hdigit (by decide)
  · rw [parseUnsigned_toDigits n hc, Option.map_some, hround]

theorem valueWith_toDigits {items : List Char → Option (List Value × List Char)}
    {fields : List Char → Option (List (List UInt16 × Value) × List Char)} {n : ℕ}
    (hn : n ≤ 2 ^ 53) (hc : endsItem c) (s : List Char) :
    valueWith items fields (Nat.toDigits 10 n ++ c :: s) = some (.number (.int n), c :: s) := by
  have hnumber := parseNumber_toDigits hn hc s
  obtain ⟨d, ds, hds, hdigit⟩ := toDigits_head n
  rw [hds, List.cons_append] at hnumber ⊢
  rw [valueWith, dropWhile_digit hdigit]
  split
  case h_7 => rw [hnumber, Option.map_some]
  all_goals
    next hl =>
      rw [List.cons.injEq] at hl
      rw [hl.1] at hdigit
      exact absurd hdigit (by decide)

theorem parseItems_itemsText {n : ℕ} {ns : List ℕ} (hns : ∀ m ∈ n :: ns, m ≤ 2 ^ 53) {fuel : ℕ}
    (hfuel : ns.length + 2 ≤ fuel) :
    parseItems fuel (itemsText (n :: ns)) =
      some (naturals (n :: ns), []) := by
  induction ns generalizing n fuel with
  | nil =>
      obtain ⟨fuel, rfl⟩ := Nat.exists_eq_add_of_le' hfuel
      have hvalue : parseValue (fuel + 1) (Nat.toDigits 10 n ++ [']']) =
          some (.number (.int n), [']']) := valueWith_toDigits (by simpa using hns) (.inr rfl) []
      rw [List.length_nil, Nat.zero_add, parseItems, itemsText, itemsWith, hvalue]
      rfl
  | cons m ns ih =>
      obtain ⟨hn, hns⟩ := List.forall_mem_cons.mp hns
      obtain ⟨fuel, rfl⟩ := Nat.exists_eq_add_of_le' (show 2 ≤ fuel by omega)
      rw [List.length_cons] at hfuel
      have hvalue : parseValue (fuel + 1) (Nat.toDigits 10 n ++ ',' :: itemsText (m :: ns)) =
          some (.number (.int n), ',' :: itemsText (m :: ns)) := valueWith_toDigits hn (.inl rfl) _
      have hrest := @ih m hns (fuel + 1) (by omega)
      have hcomma : (',' :: itemsText (m :: ns)).dropWhile isWhite = ',' :: itemsText (m :: ns) :=
        rfl
      rw [parseItems, itemsText, itemsWith, hvalue]
      · simp only [Option.bind_eq_bind, Option.bind_some, hcomma, hrest, Option.map_some,
          naturals, List.map_cons]
      · exact List.cons_ne_nil _ _

theorem itemsText_head (n : ℕ) (ns : List ℕ) :
    ∃ d ds, itemsText (n :: ns) = d :: ds ∧ d.isDigit = true := by
  obtain ⟨d, ds, hds, hdigit⟩ := toDigits_head n
  cases ns with
  | nil => exact ⟨d, ds ++ [']'], by rw [itemsText, hds, List.cons_append], hdigit⟩
  | cons m ns =>
      refine ⟨d, ds ++ ',' :: itemsText (m :: ns), ?_, hdigit⟩
      rw [itemsText, hds, List.cons_append]
      exact List.cons_ne_nil _ _

theorem itemsText_last (ns : List ℕ) : (itemsText ns).getLast? = some ']' := by
  induction ns with
  | nil => rfl
  | cons n ns ih =>
      cases ns with
      | nil => rw [itemsText, List.getLast?_concat]
      | cons m ns =>
          rw [itemsText, List.getLast?_append, List.getLast?_cons, ih]
          · rfl
          · exact List.cons_ne_nil _ _

/-- Natural numbers that are exact are read as written. -/
theorem parse_listText {ns : List ℕ} (hns : ∀ n ∈ ns, n ≤ 2 ^ 53) :
    parse (listText ns) = some (.array (naturals ns)) := by
  cases ns with
  | nil => rfl
  | cons n ns =>
      obtain ⟨d, ds, hds, hdigit⟩ := itemsText_head n ns
      have hvalue (fuel : ℕ) (hfuel : ns.length + 2 ≤ fuel) :
          parseValue (fuel + 1) (listText (n :: ns)) = some (.array (naturals (n :: ns)), []) := by
        rw [parseValue, listText, valueWith, List.dropWhile_cons_of_neg (by decide)]
        simp only [hds, dropWhile_digit hdigit]
        split
        next hl =>
          rw [List.cons.injEq] at hl
          rw [hl.1] at hdigit
          exact absurd hdigit (by decide)
        · rw [← hds, parseItems_itemsText hns hfuel, Option.map_some]
      have hfuel : 2 * (listText (n :: ns)).length + 1 ≤
          2 * (listText (n :: ns)).length + ns.length + 2 + 1 := by omega
      rw [parse, ← parseValue_eq hfuel, hvalue _ (by omega)]
      rfl

end ProofBook.Json
