import ProofBook.Lib.Base58
import ProofBook.Lib.JsText
import ProofBook.Lib.Json

/-!
# Loading a secret key

The text of a secret key comes from an environment variable, as an array of bytes or in
base 58, with whatever a platform puts around it.
-/
namespace ProofBook.Keys
open Binary64 Json JsText

/-! ## Reading a key -/

/-- What the library for base 58 does. -/
structure Bs58 where
  encode : List UInt8 → List Char
  decode : List Char → Option (List UInt8)
  encode_nil : encode [] = []
  decode_encode : ∀ bytes, decode (encode bytes) = some bytes
  decode_alphabet : ∀ text bytes, decode text = some bytes → ∀ c ∈ text, c ∈ Base58.alphabet

inductive KeyError
  | unclosed
  | invalidJson
  | notNumbers
  | notBase58
  | wrongLength (n : ℕ)
  | notKeypair
deriving DecidableEq

def KeyError.message (label : String) (jsonMessage : String) : KeyError → String
  | .unclosed => label ++ ": starts with \"[\" but has no closing \"]\"."
  | .invalidJson =>
      label ++ ": looks like a byte array but is not valid JSON (" ++ jsonMessage ++ ")."
  | .notNumbers => label ++ ": expected an array of numbers."
  | .notBase58 =>
      label ++ ": not a JSON byte array (starts with \"[\") and not valid base58."
  | .wrongLength n =>
      label ++ ": expected 64 bytes, got " ++ toString n ++ ". " ++
        "A Solana secret key is 64 bytes — 32 is a seed or a PUBLIC key, not a secret key."
  | .notKeypair => label ++ ": 64 bytes, but not a valid Solana keypair."

inductive Quote
  | double
  | single

def Quote.char : Quote → Char
  | .double => '"'
  | .single => Char.ofNat 39

def quoted (v : List Char) (q : Quote) : Bool :=
  v.head? == some q.char && v.getLast? == some q.char

def unquote (v : List Char) : List Char :=
  if quoted v .double || quoted v .single then trim (v.drop 1).dropLast else v

/-- Up to the first closing bracket. -/
def firstArray (v : List Char) : Option (List Char) :=
  if ']' ∈ v then some (v.take (v.idxOf ']' + 1)) else none

/-- The conversion to an element of a `Uint8Array`. -/
def toUint8 : Number → UInt8
  | .finite q => .ofInt (if 0 ≤ q then ⌊q⌋ else ⌈q⌉)
  | .nan | .inf _ => 0

def number? : Value → Option Number
  | .number n => some n
  | _ => none

def numbers? : Value → Option (List Number)
  | .array items => items.mapM number?
  | _ => none

def readArray (v : List Char) : Except KeyError (List UInt8) :=
  match firstArray v with
  | none => .error .unclosed
  | some arr =>
      match parse arr with
      | none => .error .invalidJson
      | some parsed =>
          match numbers? parsed with
          | none => .error .notNumbers
          | some ns => .ok (ns.map toUint8)

section
variable (bs58 : Bs58) (isKeypair : List UInt8 → Bool)

def readBytes (v : List Char) : Except KeyError (List UInt8) :=
  if v.head? = some '[' then readArray v
  else
    match bs58.decode (stripSpaces v) with
    | none => .error .notBase58
    | some bytes => .ok bytes

/-- The bytes of the keypair; `isKeypair` is what `Keypair.fromSecretKey` accepts. -/
def keypairFromSecret (raw : List Char) : Except KeyError (List UInt8) := do
  let bytes ← readBytes bs58 (unquote (trim raw))
  if bytes.length ≠ 64 then .error (.wrongLength bytes.length)
  else if isKeypair bytes then .ok bytes
  else .error .notKeypair

end

/-! ## Keys and noise -/

inductive Form
  | array
  | base58

/-- White space and escapes of line breaks. -/
inductive Escapes : List Char → Prop
  | nil : Escapes []
  | white {c : Char} {s : List Char} : isSpace c = true → Escapes s → Escapes (c :: s)
  | escape {s : List Char} : Escapes s → Escapes ('\\' :: 'n' :: s)

/-- What is around a key, in the order of the text. -/
structure Noise where
  lead : List Char
  quote : Option Quote
  inner : List Char
  after : List Char
  outside : List Char

namespace Noise
variable (noise : Noise)

def mark : List Char := (noise.quote.map Quote.char).toList

def wrap (x : List Char) : List Char :=
  noise.lead ++ noise.mark ++ noise.inner ++ x ++ noise.after ++ noise.mark ++ noise.outside

/-- The noise that is to be ignored. -/
structure Documented (form : Form) : Prop where
  lead : ∀ c ∈ noise.lead, isSpace c = true
  inner : ∀ c ∈ noise.inner, isSpace c = true
  after : form = .base58 → Escapes noise.after
  outside : form = .base58 → Escapes noise.outside

/-- The noise that is ignored. -/
def Plain : Form → Prop
  | .array => ∀ q ∈ noise.quote, ∀ c ∈ (trimEnd noise.outside).getLast?, c = q.char
  | .base58 => ∀ c ∈ noise.after ++ noise.outside, isSpace c = true

end Noise

/-- An array of numbers, with no white space around it. -/
structure ArrayText (x : List Char) (ns : List Number) : Prop where
  head : x.head? = some '['
  last : x.getLast? = some ']'
  parses : parse x = some (.array (ns.map .number))

def byteNumber (byte : UInt8) : Number := .int byte.toNat

/-- A text for the bytes; in base 58 white space may be anywhere. -/
def Bs58.Encodes (bs58 : Bs58) (x : List Char) (key : List UInt8) : Form → Prop
  | .array => ArrayText x (key.map byteNumber)
  | .base58 => bs58.decode (stripSpaces x) = some key

/-- The payload is these bytes. -/
def Bs58.Carries (bs58 : Bs58) (raw : List Char) (key : List UInt8) : Prop :=
  ∃ (form : Form) (noise : Noise) (x : List Char),
    noise.Documented form ∧ bs58.Encodes x key form ∧ raw = noise.wrap x

/-- The payload is numbers that are not all bytes and become those of a keypair. -/
def Wraps (isKeypair : List UInt8 → Bool) (raw : List Char) : Prop :=
  ∃ (noise : Noise) (x : List Char) (ns : List Number),
    noise.Documented .array ∧ noise.Plain .array ∧ ArrayText x ns ∧ raw = noise.wrap x ∧
      ns.length = 64 ∧ (∃ n ∈ ns, ∀ byte, n ≠ byteNumber byte) ∧
        isKeypair (ns.map toUint8) = true

/-! ## Numbers of an array -/

theorem toUint8_int (n : ℕ) : toUint8 (.int n) = .ofNat n := by
  have hcast : (0 : ℚ) ≤ ((n : ℤ) : ℚ) := by exact_mod_cast n.zero_le
  have hmod : ((n : ℤ) % 2 ^ 8).toNat = n % 2 ^ 8 := by omega
  rw [Number.int, toUint8, if_pos hcast, Int.floor_intCast, UInt8.ofInt, hmod, UInt8.ofNat_mod_size]

theorem toUint8_byteNumber (byte : UInt8) : toUint8 (byteNumber byte) = byte := by
  rw [byteNumber, toUint8_int, UInt8.ofNat_toNat]

theorem map_toUint8 (key : List UInt8) : (key.map byteNumber).map toUint8 = key := by
  have hid : toUint8 ∘ byteNumber = id := funext toUint8_byteNumber
  rw [List.map_map, hid, List.map_id]

theorem numbers?_map (ns : List Number) : numbers? (.array (ns.map .number)) = some ns := by
  have hpure : number? ∘ Value.number = pure := rfl
  rw [numbers?, List.mapM_map, hpure, List.mapM_pure, List.map_id']
  rfl

theorem mapM_number? {vs : List Value} {ns : List Number} (h : vs.mapM number? = some ns) :
    vs = ns.map .number := by
  induction vs generalizing ns with
  | nil =>
      cases h
      rfl
  | cons v vs ih =>
      rw [List.mapM_cons] at h
      simp only [Option.bind_eq_bind, Option.bind_eq_some_iff] at h
      obtain ⟨n, hn, rest, hrest, h⟩ := h
      cases h
      cases v with
      | number m =>
          cases hn
          rw [List.map_cons, ih hrest]
      | _ => cases hn

theorem numbers?_some {v : Value} {ns : List Number} (h : numbers? v = some ns) :
    v = .array (ns.map .number) := by
  cases v with
  | array vs => rw [mapM_number? h]
  | _ => cases h

/-! ## Brackets -/

theorem firstArray_append {inner : List Char} (h : ∀ c ∈ inner, c ≠ ']') (t : List Char) :
    firstArray ('[' :: inner ++ ']' :: t) = some ('[' :: inner ++ [']']) := by
  have hnot : ']' ∉ '[' :: inner := by
    intro hmem
    rcases List.mem_cons.mp hmem with heq | hmem
    · exact absurd heq (by decide)
    · exact h _ hmem rfl
  rw [firstArray, if_pos (List.mem_append_right _ List.mem_cons_self),
    List.idxOf_append_of_notMem hnot, List.idxOf_cons_self, Nat.add_zero,
    List.take_length_add_append]
  rfl

/-- The closing bracket of an array of numbers is its only one. -/
theorem ArrayText.split {x : List Char} {ns : List Number} (h : ArrayText x ns) :
    ∃ inner, x = '[' :: inner ++ [']'] ∧ ∀ c ∈ inner, c ≠ '[' ∧ c ≠ ']' := by
  obtain ⟨before, inner, after, rfl, hbefore, hinner, hafter⟩ := parse_numbers h.parses (by
    intro v hv
    obtain ⟨n, -, rfl⟩ := List.mem_map.mp hv
    rfl)
  have hhead := h.head
  have hlast := h.last
  have hnil : before = [] := by
    cases before with
    | nil => rfl
    | cons c before =>
        cases hhead
        exact absurd (hbefore '[' List.mem_cons_self) (by decide)
  have hnil' : after = [] := by
    rcases List.eq_nil_or_concat after with hafter' | ⟨l, c, rfl⟩
    · exact hafter'
    · rw [List.concat_eq_append] at hlast hafter
      rw [← List.cons_append, ← List.append_assoc, List.getLast?_concat] at hlast
      cases hlast
      exact absurd (hafter ']' (List.mem_append_right _ (List.mem_singleton_self _))) (by decide)
  subst hnil hnil'
  exact ⟨inner, rfl, fun c hc => listing_ne (hinner c hc)⟩

/-! ## Where the payload is -/

section
variable (q : Quote)

theorem Quote.not_space : isSpace q.char = false := by cases q <;> decide

theorem Quote.not_bracket : q.char ≠ '[' := by cases q <;> decide

theorem Quote.not_alphabet : q.char ∉ Base58.alphabet := by cases q <;> decide

end

theorem getLast?_quote {q : Char} {l : List Char} (h : ∀ c ∈ l.getLast?, c = q)
    (s : List Char) : (s ++ q :: l).getLast? = some q := by
  rw [List.getLast?_append, List.getLast?_cons]
  cases hl : l.getLast? with
  | none => rfl
  | some c => rw [h c hl]; rfl

theorem unquote_quoted {q : Quote} {l : List Char} (hl : ∀ c ∈ l.getLast?, c = q.char)
    (s : List Char) :
    unquote (q.char :: s ++ q.char :: l) = trim (s ++ (q.char :: l).dropLast) := by
  have hquoted : quoted (q.char :: s ++ q.char :: l) q = true := by
    rw [quoted, getLast?_quote hl]
    simp
  rw [unquote, if_pos, List.cons_append, List.drop_one, List.tail_cons,
    List.dropLast_append_of_ne_nil (List.cons_ne_nil _ _)]
  cases q with
  | double => rw [hquoted, Bool.true_or]
  | single => rw [hquoted, Bool.or_true]

/-- Without the same quote at both ends nothing is removed. -/
theorem unquote_other {v : List Char} (h : ∀ q, quoted v q = false) : unquote v = v := by
  rw [unquote, h, h, Bool.or_self, if_neg Bool.false_ne_true]

theorem quoted_cases {v : List Char} {q : Quote} (h : quoted v q = true) :
    v = [q.char] ∨ ∃ s, v = q.char :: s ++ [q.char] := by
  rw [quoted, Bool.and_eq_true, beq_iff_eq, beq_iff_eq] at h
  obtain ⟨hhead, hlast⟩ := h
  obtain ⟨v, rfl⟩ := List.head?_eq_some_iff.mp hhead
  rcases List.eq_nil_or_concat v with rfl | ⟨s, d, rfl⟩
  · exact .inl rfl
  · rw [List.concat_eq_append, ← List.cons_append, List.getLast?_concat] at hlast
    rw [Option.some.injEq] at hlast
    exact .inr ⟨s, by rw [List.concat_eq_append, List.cons_append, hlast]⟩

theorem unquote_cases (v : List Char) : unquote v = v ∨ ∃ q : Quote,
    v = [q.char] ∧ unquote v = [] ∨ ∃ s, v = q.char :: s ++ [q.char] ∧ unquote v = trim s := by
  by_cases hnone : ∀ q, quoted v q = false
  · exact .inl (unquote_other hnone)
  · push Not at hnone
    obtain ⟨q, hquoted⟩ := hnone
    refine .inr ⟨q, ?_⟩
    rcases quoted_cases (Bool.eq_true_of_not_eq_false hquoted) with rfl | ⟨s, rfl⟩
    · refine .inl ⟨rfl, ?_⟩
      cases q <;> rfl
    · refine .inr ⟨s, rfl, ?_⟩
      rw [@unquote_quoted q [] (by simp), List.dropLast_singleton, List.append_nil]

theorem mem_of_unquote {v : List Char} {c : Char} (h : c ∈ unquote v) : c ∈ v := by
  rcases unquote_cases v with hv | ⟨q, ⟨-, hv⟩ | ⟨s, hs, hv⟩⟩
  · rwa [hv] at h
  · rw [hv] at h
    exact absurd h List.not_mem_nil
  · rw [hv] at h
    rw [hs]
    exact List.mem_append_left _ (List.mem_cons_of_mem _ (mem_of_trim h))

theorem mem_unquote {v : List Char} {c : Char} (h : c ∈ v) (hspace : isSpace c = false)
    (hc : ∀ q : Quote, c ≠ q.char) : c ∈ unquote v := by
  rcases unquote_cases v with hv | ⟨q, ⟨hs, -⟩ | ⟨s, hs, hv⟩⟩
  · rwa [hv]
  · rw [hs] at h
    exact absurd (List.mem_singleton.mp h) (hc q)
  · rw [hs] at h
    rw [hv]
    have hmem : c ∈ s := by simpa [hc q] using h
    exact mem_trim hmem hspace

namespace Noise
variable {noise : Noise} {form : Form} {x : List Char}

/-- After an array there may be anything. -/
theorem documented_array (hlead : ∀ c ∈ noise.lead, isSpace c = true)
    (hinner : ∀ c ∈ noise.inner, isSpace c = true) : noise.Documented .array where
  lead := hlead
  inner := hinner
  after h := by cases h
  outside h := by cases h

/-- Without quotes. -/
theorem Documented.trim_wrap (h : noise.Documented form) (hquote : noise.quote = none) :
    trim (noise.wrap x) = trim (x ++ (noise.after ++ noise.outside)) := by
  rw [wrap, mark, hquote]
  simp only [Option.map_none, Option.toList_none, List.append_nil, List.append_assoc]
  rw [trim_append_left h.lead, trim_append_left h.inner]

/-- In quotes. -/
theorem Documented.trim_wrap_quoted (h : noise.Documented form) {q : Quote}
    (hquote : noise.quote = some q) : trim (noise.wrap x) =
      q.char :: (noise.inner ++ (x ++ noise.after)) ++ q.char :: trimEnd noise.outside := by
  have hwrap : noise.wrap x = noise.lead ++
      (q.char :: (noise.inner ++ (x ++ noise.after)) ++ q.char :: noise.outside) := by
    simp [wrap, mark, hquote]
  rw [hwrap, trim_append_left h.lead, trim_between q.not_space q.not_space]

/-- An array comes first in the payload. -/
theorem payload_array (h : noise.Documented .array) (hplain : noise.Plain .array)
    (inner : List Char) : ∃ t,
      unquote (trim (noise.wrap ('[' :: inner ++ [']']))) = '[' :: inner ++ ']' :: t := by
  cases hquote : noise.quote with
  | none =>
      have htrim : trim (noise.wrap ('[' :: inner ++ [']'])) =
          '[' :: inner ++ ']' :: trimEnd (noise.after ++ noise.outside) := by
        rw [h.trim_wrap hquote, List.append_assoc, List.singleton_append]
        exact trim_between (by decide) (by decide) _ _
      refine ⟨trimEnd (noise.after ++ noise.outside), ?_⟩
      rw [htrim]
      apply unquote_other
      intro q
      cases q <;> rfl
  | some q =>
      rw [h.trim_wrap_quoted hquote, unquote_quoted (hplain q hquote), List.append_assoc,
        trim_append_left h.inner, List.append_assoc, List.append_assoc, List.singleton_append,
        trim_between (by decide) (by decide)]
      exact ⟨_, rfl⟩

/-- Other text after the quotes, so that they stay. -/
theorem payload_mismatch (h : noise.Documented form) {q : Quote} {c : Char}
    (hquote : noise.quote = some q) (hc : (trimEnd noise.outside).getLast? = some c)
    (hne : c ≠ q.char) : ∃ t, unquote (trim (noise.wrap x)) = q.char :: t := by
  rw [h.trim_wrap_quoted hquote, unquote_other]
  · exact ⟨_, rfl⟩
  · intro q'
    rw [quoted, List.getLast?_append, List.getLast?_cons, hc, Bool.and_eq_false_iff]
    by_cases hq : q.char = q'.char
    · exact .inr (by simpa [← hq] using hne)
    · exact .inl (by simpa using hq)

end Noise

/-! ## What is read -/

section
variable {bs58 : Bs58} {isKeypair : List UInt8 → Bool} {noise : Noise} {x : List Char}

theorem keypairFromSecret_ok {raw : List Char} {key : List UInt8} :
    keypairFromSecret bs58 isKeypair raw = .ok key ↔
      readBytes bs58 (unquote (trim raw)) = .ok key ∧ key.length = 64 ∧ isKeypair key = true := by
  rw [keypairFromSecret]
  cases readBytes bs58 (unquote (trim raw)) with
  | error e => simp [bind, Except.bind]
  | ok bytes =>
      simp only [bind, Except.bind, Except.ok.injEq]
      constructor
      · intro h
        split_ifs at h with hlen hkey
        cases h
        exact ⟨rfl, not_not.mp hlen, hkey⟩
      · intro ⟨hbytes, hlen, hkey⟩
        rw [hbytes, if_neg (not_not.mpr hlen), if_pos hkey]

theorem keypairFromSecret_error {raw : List Char} {e : KeyError}
    (h : readBytes bs58 (unquote (trim raw)) = .error e) :
    keypairFromSecret bs58 isKeypair raw = .error e := by
  rw [keypairFromSecret, h]
  rfl

/-- A character that is neither white space nor of the alphabet. -/
theorem readBytes_foreign {v : List Char} {c : Char} (hhead : v.head? ≠ some '[') (hc : c ∈ v)
    (hspace : isSpace c = false) (halphabet : c ∉ Base58.alphabet) :
    readBytes bs58 v = .error .notBase58 := by
  rw [readBytes, if_neg hhead]
  cases hdecode : bs58.decode (stripSpaces v) with
  | none => rfl
  | some bytes =>
      have hmem := bs58.decode_alphabet _ _ hdecode c (mem_stripSpaces.mpr ⟨hc, hspace⟩)
      exact absurd hmem halphabet

theorem readBytes_array {ns : List Number} (h : noise.Documented .array)
    (hplain : noise.Plain .array) (hx : ArrayText x ns) :
    readBytes bs58 (unquote (trim (noise.wrap x))) = .ok (ns.map toUint8) := by
  have hparse := hx.parses
  obtain ⟨inner, rfl, hinner⟩ := hx.split
  obtain ⟨t, ht⟩ := noise.payload_array h hplain inner
  have harr := firstArray_append (fun c hc => (hinner c hc).2) t
  have hhead : ('[' :: inner ++ ']' :: t).head? = some '[' := rfl
  rw [ht, readBytes, if_pos hhead, readArray, harr]
  dsimp only
  rw [hparse]
  dsimp only
  rw [numbers?_map]

/-- Text after the quotes hides the array. -/
theorem readBytes_hidden (h : noise.Documented .array) (hplain : ¬ noise.Plain .array) :
    readBytes bs58 (unquote (trim (noise.wrap x))) = .error .notBase58 := by
  unfold Noise.Plain at hplain
  push Not at hplain
  obtain ⟨q, hquote, c, hc, hne⟩ := hplain
  obtain ⟨t, ht⟩ := noise.payload_mismatch (x := x) h hquote hc hne
  rw [ht]
  apply readBytes_foreign _ List.mem_cons_self q.not_space q.not_alphabet
  exact fun hhead => q.not_bracket (Option.some.inj hhead)

/-- In base 58 white space around the key is removed with the rest of it. -/
theorem stripSpaces_payload (h : noise.Documented .base58) (hplain : noise.Plain .base58)
    (hx : ∀ c ∈ stripSpaces x, c ∈ Base58.alphabet) :
    stripSpaces (unquote (trim (noise.wrap x))) = stripSpaces x := by
  obtain ⟨hafter, houtside⟩ := List.forall_mem_append.mp hplain
  cases hquote : noise.quote with
  | none =>
      have hstrip : stripSpaces (trim (noise.wrap x)) = stripSpaces x := by
        rw [h.trim_wrap hquote, stripSpaces_trim, stripSpaces_append,
          stripSpaces_of_spaces hplain, List.append_nil]
      rw [unquote_other, hstrip]
      intro q
      rw [quoted, Bool.and_eq_false_iff]
      left
      rw [beq_eq_false_iff_ne]
      intro hhead
      have hmem : q.char ∈ stripSpaces (trim (noise.wrap x)) :=
        mem_stripSpaces.mpr ⟨List.mem_of_mem_head? hhead, q.not_space⟩
      rw [hstrip] at hmem
      exact q.not_alphabet (hx _ hmem)
  | some q =>
      rw [h.trim_wrap_quoted hquote, trimEnd_eq_nil houtside, unquote_quoted (by simp),
        stripSpaces_trim, List.dropLast_singleton, List.append_nil, stripSpaces_append,
        stripSpaces_append, stripSpaces_of_spaces h.inner, stripSpaces_of_spaces hafter,
        List.nil_append, List.append_nil]

theorem readBytes_base58 {key : List UInt8} (h : noise.Documented .base58)
    (hplain : noise.Plain .base58) (hx : bs58.decode (stripSpaces x) = some key) :
    readBytes bs58 (unquote (trim (noise.wrap x))) = .ok key := by
  have hstrip := stripSpaces_payload h hplain (bs58.decode_alphabet _ _ hx)
  have hhead : (unquote (trim (noise.wrap x))).head? ≠ some '[' := by
    intro hhead
    have hmem : '[' ∈ stripSpaces (unquote (trim (noise.wrap x))) :=
      mem_stripSpaces.mpr ⟨List.mem_of_mem_head? hhead, by decide⟩
    rw [hstrip] at hmem
    exact absurd (bs58.decode_alphabet _ _ hx _ hmem) (by decide)
  rw [readBytes, if_neg hhead, hstrip, hx]

theorem Escapes.mem {s : List Char} (h : Escapes s) {c : Char} (hc : c ∈ s) :
    isSpace c = true ∨ c = '\\' ∨ c = 'n' := by
  induction h with
  | nil => exact absurd hc List.not_mem_nil
  | white hd _ ih =>
      rcases List.mem_cons.mp hc with rfl | hc
      · exact .inl hd
      · exact ih hc
  | escape _ ih =>
      rcases List.mem_cons.mp hc with rfl | hc
      · exact .inr (.inl rfl)
      · rcases List.mem_cons.mp hc with rfl | hc
        · exact .inr (.inr rfl)
        · exact ih hc

/-- What is not white space has an escape. -/
theorem Escapes.backslash {s : List Char} (h : Escapes s) {c : Char} (hc : c ∈ s)
    (hspace : isSpace c = false) : '\\' ∈ s := by
  induction h with
  | nil => exact absurd hc List.not_mem_nil
  | white hd _ ih =>
      rcases List.mem_cons.mp hc with rfl | hc
      · rw [hd] at hspace
        cases hspace
      · exact List.mem_cons_of_mem _ (ih hc)
  | escape _ _ => exact List.mem_cons_self

theorem bracket_notMem_of_spaces {s : List Char} (h : ∀ c ∈ s, isSpace c = true) : '[' ∉ s := by
  intro hmem
  exact absurd (h _ hmem) (by decide)

theorem bracket_notMem_mark (noise : Noise) : '[' ∉ noise.mark := by
  intro hmem
  obtain ⟨q, -, hq⟩ := Option.map_eq_some_iff.mp (Option.mem_toList.mp hmem)
  exact q.not_bracket hq

theorem Escapes.bracket_notMem {s : List Char} (h : Escapes s) : '[' ∉ s := by
  intro hmem
  rcases h.mem hmem with hc | hc | hc <;> exact absurd hc (by decide)

/-- No bracket is in or around a key in base 58. -/
theorem bracket_notMem_wrap {key : List UInt8} (h : noise.Documented .base58)
    (hx : bs58.decode (stripSpaces x) = some key) : '[' ∉ noise.wrap x := by
  have hkey : '[' ∉ x := by
    intro hmem
    have hmem := bs58.decode_alphabet _ _ hx _ (mem_stripSpaces.mpr ⟨hmem, by decide⟩)
    exact absurd hmem (by decide)
  simp [Noise.wrap, bracket_notMem_of_spaces h.lead, bracket_notMem_of_spaces h.inner,
    bracket_notMem_mark, hkey, (h.after rfl).bracket_notMem, (h.outside rfl).bracket_notMem]

/-- An escape makes the text none of base 58. -/
theorem readBytes_escaped {key : List UInt8} (h : noise.Documented .base58)
    (hplain : ¬ noise.Plain .base58) (hx : bs58.decode (stripSpaces x) = some key) :
    readBytes bs58 (unquote (trim (noise.wrap x))) = .error .notBase58 := by
  have hbackslash : '\\' ∈ noise.wrap x := by
    unfold Noise.Plain at hplain
    push Not at hplain
    obtain ⟨c, hc, hspace⟩ := hplain
    have hspace := Bool.eq_false_of_not_eq_true hspace
    rcases List.mem_append.mp hc with hc | hc
    · simp [Noise.wrap, (h.after rfl).backslash hc hspace]
    · simp [Noise.wrap, (h.outside rfl).backslash hc hspace]
  have hquote (q : Quote) : '\\' ≠ q.char := by cases q <;> decide
  have hmem := mem_unquote (mem_trim hbackslash (by decide)) (by decide) hquote
  refine readBytes_foreign ?_ hmem (by decide) (by decide)
  intro hhead
  exact bracket_notMem_wrap h hx (mem_of_trim (mem_of_unquote (List.mem_of_mem_head? hhead)))

/-! ## Which noise is ignored -/

theorem Bs58.encodes_plain {key : List UInt8} {form : Form} (h : noise.Documented form)
    (hx : bs58.Encodes x key form) :
    readBytes bs58 (unquote (trim (noise.wrap x))) = .ok key ↔ noise.Plain form := by
  cases form with
  | array =>
      by_cases hplain : noise.Plain .array
      · rw [readBytes_array h hplain hx, map_toUint8]
        exact iff_of_true rfl hplain
      · rw [readBytes_hidden h hplain]
        exact iff_of_false (fun heq => by cases heq) hplain
  | base58 =>
      by_cases hplain : noise.Plain .base58
      · rw [readBytes_base58 h hplain hx]
        exact iff_of_true rfl hplain
      · rw [readBytes_escaped h hplain hx]
        exact iff_of_false (fun heq => by cases heq) hplain

/-! ## Every input -/

theorem Escapes.of_spaces {s : List Char} (h : ∀ c ∈ s, isSpace c = true) : Escapes s := by
  induction s with
  | nil => exact .nil
  | cons c s ih =>
      obtain ⟨hc, hs⟩ := List.forall_mem_cons.mp h
      exact .white hc (ih hs)

/-- White space and quotes. -/
structure Noise.White (noise : Noise) : Prop where
  lead : ∀ c ∈ noise.lead, isSpace c = true
  inner : ∀ c ∈ noise.inner, isSpace c = true
  after : ∀ c ∈ noise.after, isSpace c = true
  outside : ∀ c ∈ noise.outside, isSpace c = true

theorem Noise.White.documented (h : noise.White) (form : Form) : noise.Documented form where
  lead := h.lead
  inner := h.inner
  after _ := .of_spaces h.after
  outside _ := .of_spaces h.outside

/-- What is around the payload of a text. -/
theorem payload_split (raw : List Char) : unquote (trim raw) = [] ∨
    ∃ noise : Noise, noise.White ∧ raw = noise.wrap (unquote (trim raw)) := by
  obtain ⟨lead, outside, hraw, hlead, houtside⟩ := trim_split raw
  rcases unquote_cases (trim raw) with hv | ⟨q, ⟨-, hv⟩ | ⟨s, hs, hv⟩⟩
  · refine .inr ⟨⟨lead, none, [], [], outside⟩, ⟨hlead, by simp, by simp, houtside⟩, ?_⟩
    rw [hv]
    simpa [Noise.wrap, Noise.mark] using hraw
  · exact .inl hv
  · obtain ⟨inner, after, hsplit, hinner, hafter⟩ := trim_split s
    refine .inr ⟨⟨lead, some q, inner, after, outside⟩, ⟨hlead, hinner, hafter, houtside⟩, ?_⟩
    rw [hs, hsplit] at hraw
    rw [hv]
    simpa [Noise.wrap, Noise.mark] using hraw

theorem firstArray_some {v arr : List Char} (h : firstArray v = some arr) :
    ∃ rest, v = arr ++ rest ∧ arr.head? = v.head? ∧ arr.getLast? = some ']' := by
  unfold firstArray at h
  split_ifs at h with hmem
  cases h
  refine ⟨v.drop (v.idxOf ']' + 1), (List.take_append_drop _ _).symm, ?_, ?_⟩
  · rw [List.head?_take, if_neg (Nat.succ_ne_zero _)]
  · rw [List.getLast?_take, if_neg (Nat.succ_ne_zero _), Nat.add_sub_cancel,
      List.getElem?_eq_getElem (List.idxOf_lt_length_of_mem hmem), List.getElem_idxOf,
      Option.some_or]

theorem readArray_ok {v : List Char} {bytes : List UInt8} (hhead : v.head? = some '[')
    (h : readArray v = .ok bytes) :
    ∃ x rest ns, v = x ++ rest ∧ ArrayText x ns ∧ bytes = ns.map toUint8 := by
  unfold readArray at h
  split at h
  · cases h
  next arr harr =>
    split at h
    · cases h
    next parsed hparse =>
      split at h
      · cases h
      next ns hns =>
        cases h
        obtain ⟨rest, hv, hfirst, hlast⟩ := firstArray_some harr
        rw [numbers?_some hns] at hparse
        exact ⟨arr, rest, ns, hv, ⟨hfirst.trans hhead, hlast, hparse⟩, rfl⟩

theorem decode_of_readBytes {v : List Char} {bytes : List UInt8} (hhead : v.head? ≠ some '[')
    (h : readBytes bs58 v = .ok bytes) : bs58.decode (stripSpaces v) = some bytes := by
  rw [readBytes, if_neg hhead] at h
  split at h
  · cases h
  next hdecode =>
    cases h
    exact hdecode

theorem Bs58.decode_nil (bs58 : Bs58) : bs58.decode [] = some [] := by
  rw [← bs58.encode_nil]
  exact bs58.decode_encode []

/-- What is read is numbers of an array or a text in base 58, in noise that is ignored. -/
theorem readBytes_ok {raw : List Char} {bytes : List UInt8}
    (h : readBytes bs58 (unquote (trim raw)) = .ok bytes) (hne : bytes ≠ []) :
    (∃ (noise : Noise) (x : List Char) (ns : List Number), noise.Documented .array ∧
      noise.Plain .array ∧ ArrayText x ns ∧ raw = noise.wrap x ∧ bytes = ns.map toUint8) ∨
    ∃ (noise : Noise) (x : List Char), noise.Documented .base58 ∧
      bs58.decode (stripSpaces x) = some bytes ∧ raw = noise.wrap x := by
  rcases payload_split raw with hv | ⟨noise, hwhite, hraw⟩
  · rw [hv] at h
    have hdecode := decode_of_readBytes (by simp) h
    rw [stripSpaces, List.filter_nil, bs58.decode_nil] at hdecode
    exact absurd (Option.some.inj hdecode).symm hne
  · by_cases hhead : (unquote (trim raw)).head? = some '['
    · rw [readBytes, if_pos hhead] at h
      obtain ⟨x, rest, ns, hv, hx, hbytes⟩ := readArray_ok hhead h
      left
      rw [hv] at hraw
      refine ⟨{ noise with after := rest ++ noise.after }, x, ns, ?_, ?_, hx, ?_, hbytes⟩
      · exact Noise.documented_array hwhite.lead hwhite.inner
      · intro q _ c hc
        rw [trimEnd_eq_nil hwhite.outside] at hc
        cases hc
      · simpa [Noise.wrap, Noise.mark] using hraw
    · right
      exact ⟨noise, unquote (trim raw), hwhite.documented _, decode_of_readBytes hhead h, hraw⟩

/-- The array is what is in the first brackets. -/
theorem firstArray_wrap {ns : List Number} (h : noise.Documented .array) (hx : ArrayText x ns) :
    firstArray ((noise.wrap x).dropWhile (· ≠ '[')) = some x := by
  obtain ⟨inner, rfl, hinner⟩ := hx.split
  have hbefore (c : Char) (hc : c ∈ noise.lead ++ noise.mark ++ noise.inner) :
      decide (c ≠ '[') = true := by
    rw [decide_eq_true_eq]
    rintro rfl
    simp [bracket_notMem_of_spaces h.lead, bracket_notMem_of_spaces h.inner,
      bracket_notMem_mark] at hc
  have hwrap : noise.wrap ('[' :: inner ++ [']']) =
      noise.lead ++ noise.mark ++ noise.inner ++
        ('[' :: inner ++ ']' :: (noise.after ++ noise.mark ++ noise.outside)) := by
    simp [Noise.wrap]
  rw [hwrap, List.dropWhile_append_of_pos hbefore, List.cons_append,
    List.dropWhile_cons_of_neg (by simp), ← List.cons_append]
  exact firstArray_append (fun c hc => (hinner c hc).2) _

theorem ArrayText.unique {ns ns' : List Number} (h : ArrayText x ns) (h' : ArrayText x ns') :
    ns = ns' := by
  have hparse := h.parses
  rw [h'.parses, Option.some.injEq, Value.array.injEq] at hparse
  exact (List.map_injective_iff.mpr (fun _ _ heq => Value.number.inj heq) hparse).symm

/-- In different noise the same text has the same numbers. -/
theorem numbers_unique {noise' : Noise} {x' : List Char} {ns ns' : List Number}
    (h : noise.Documented .array) (h' : noise'.Documented .array) (hx : ArrayText x ns)
    (hx' : ArrayText x' ns') (heq : noise.wrap x = noise'.wrap x') : ns = ns' := by
  have hfirst := firstArray_wrap h hx
  rw [heq, firstArray_wrap h' hx', Option.some.injEq] at hfirst
  rw [hfirst] at hx'
  exact hx.unique hx'

/-- The bytes that an array carries are its numbers. -/
theorem Bs58.Carries.numbers {key : List UInt8} {ns : List Number}
    (h : bs58.Carries (noise.wrap x) key) (hnoise : noise.Documented .array)
    (hx : ArrayText x ns) : ns = key.map byteNumber := by
  obtain ⟨form, noise', x', hnoise', hencodes, heq⟩ := h
  cases form with
  | array => exact numbers_unique hnoise hnoise' hx hencodes heq
  | base58 =>
      have hmem : '[' ∈ noise.wrap x := by
        have hmem := List.mem_of_mem_head? hx.head
        simp [Noise.wrap, hmem]
      rw [heq] at hmem
      exact absurd hmem (bracket_notMem_wrap hnoise' hencodes)

/-- A payload that becomes other bytes carries none. -/
theorem Wraps.not_carries {raw : List Char} (h : Wraps isKeypair raw) (key : List UInt8) :
    ¬ bs58.Carries raw key := by
  obtain ⟨noise, x, ns, hnoise, -, hx, rfl, -, ⟨n, hn, hbyte⟩, -⟩ := h
  intro hcarries
  rw [hcarries.numbers hnoise hx] at hn
  obtain ⟨byte, -, rfl⟩ := List.mem_map.mp hn
  exact hbyte byte rfl

theorem carries_of_ok {raw : List Char} {key : List UInt8}
    (h : keypairFromSecret bs58 isKeypair raw = .ok key) (hwraps : ¬ Wraps isKeypair raw) :
    bs58.Carries raw key := by
  obtain ⟨hread, hlen, hkey⟩ := keypairFromSecret_ok.mp h
  have hne : key ≠ [] := by
    rintro rfl
    cases hlen
  rcases readBytes_ok hread hne with
    ⟨noise, x, ns, hnoise, hplain, hx, hraw, rfl⟩ | ⟨noise, x, hnoise, hx, hraw⟩
  · by_cases hbytes : ∃ n ∈ ns, ∀ byte, n ≠ byteNumber byte
    · rw [List.length_map] at hlen
      exact absurd ⟨noise, x, ns, hnoise, hplain, hx, hraw, hlen, hbytes, hkey⟩ hwraps
    · push Not at hbytes
      have hsame : (ns.map toUint8).map byteNumber = ns := by
        rw [List.map_map, List.map_congr_left, List.map_id]
        intro n hn
        obtain ⟨byte, rfl⟩ := hbytes n hn
        rw [Function.comp_apply, toUint8_byteNumber, id_eq]
      refine ⟨.array, noise, x, hnoise, ?_, hraw⟩
      rw [Bs58.Encodes, hsame]
      exact hx
  · exact ⟨.base58, noise, x, hnoise, hx, hraw⟩

theorem Wraps.ok (bs58 : Bs58) {raw : List Char} (h : Wraps isKeypair raw) :
    ∃ key, keypairFromSecret bs58 isKeypair raw = .ok key := by
  obtain ⟨noise, x, ns, hnoise, hplain, hx, rfl, hlen, -, hkey⟩ := h
  refine ⟨ns.map toUint8, keypairFromSecret_ok.mpr ⟨?_, ?_, hkey⟩⟩
  · exact readBytes_array hnoise hplain hx
  · rw [List.length_map, hlen]

end

/-- A key is read in exactly the noise that is plain; without 64 bytes for a payload there is
an error, but for numbers that are not bytes and become those of a keypair. -/
theorem keypairFromSecret_exact (bs58 : Bs58) (isKeypair : List UInt8 → Bool) :
    (∀ key : List UInt8, key.length = 64 → isKeypair key = true →
      ∀ (form : Form) (noise : Noise) (x : List Char), noise.Documented form →
        bs58.Encodes x key form →
          (keypairFromSecret bs58 isKeypair (noise.wrap x) = .ok key ↔ noise.Plain form)) ∧
    ∀ raw : List Char,
      ((∀ key : List UInt8, key.length = 64 → ¬ bs58.Carries raw key) →
        ∃ e, keypairFromSecret bs58 isKeypair raw = .error e) ↔ ¬ Wraps isKeypair raw := by
  constructor
  · intro key hlen hkey form noise x hnoise hx
    rw [keypairFromSecret_ok, Bs58.encodes_plain hnoise hx]
    exact and_iff_left ⟨hlen, hkey⟩
  · intro raw
    constructor
    · intro herror hwraps
      obtain ⟨e, he⟩ := herror fun key _ => hwraps.not_carries key
      obtain ⟨key, hkey⟩ := hwraps.ok bs58
      rw [he] at hkey
      cases hkey
    · intro hwraps hcarries
      cases hresult : keypairFromSecret bs58 isKeypair raw with
      | error e => exact ⟨e, rfl⟩
      | ok key =>
          have hlen := (keypairFromSecret_ok.mp hresult).2.1
          exact absurd (carries_of_ok hresult hwraps) (hcarries key hlen)

/-! ## A key -/

def naturalNumber (n : ℕ) : Number := .int n

theorem arrayText_naturals {ns : List ℕ} (hns : ∀ n ∈ ns, n ≤ 2 ^ 53) :
    ArrayText (listText ns) (ns.map naturalNumber) where
  head := rfl
  last := by
    rw [listText, List.getLast?_cons, itemsText_last]
    rfl
  parses := by
    rw [parse_listText hns, naturals, List.map_map]
    rfl

/-- Every key has a text in either form. -/
theorem arrayText_listText (key : List UInt8) :
    ArrayText (listText (key.map UInt8.toNat)) (key.map byteNumber) := by
  have hns : ∀ n ∈ key.map UInt8.toNat, n ≤ 2 ^ 53 := by
    intro n hn
    obtain ⟨byte, -, rfl⟩ := List.mem_map.mp hn
    exact byte.toNat_lt.le.trans (by norm_num)
  have htext := arrayText_naturals hns
  rwa [List.map_map] at htext

theorem Bs58.encodes_encode (bs58 : Bs58) (key : List UInt8) :
    bs58.Encodes (bs58.encode key) key .base58 := by
  have halphabet : Base58.alphabet.all (fun c => !isSpace c) = true := by decide
  have hnone (c : Char) (hc : c ∈ bs58.encode key) : isSpace c = false := by
    have hmem := bs58.decode_alphabet _ _ (bs58.decode_encode key) c hc
    simpa using List.all_eq_true.mp halphabet c hmem
  rw [Bs58.Encodes, stripSpaces_of_none hnone]
  exact bs58.decode_encode key

def base58 : Bs58 where
  encode := Base58.encode
  decode := Base58.decode
  encode_nil := by simp [Base58.encode, Base58.recode]
  decode_encode := Base58.decode_encode
  decode_alphabet _ _ := Base58.decode_alphabet

/-- A seed and its public key. -/
def testKey : List UInt8 :=
  [0x9d, 0x61, 0xb1, 0x9d, 0xef, 0xfd, 0x5a, 0x60, 0xba, 0x84, 0x4a, 0xf4, 0x92, 0xec, 0x2c, 0xc4,
    0x44, 0x49, 0xc5, 0x69, 0x7b, 0x32, 0x69, 0x19, 0x70, 0x3b, 0xac, 0x03, 0x1c, 0xae, 0x7f, 0x60,
    0xd7, 0x5a, 0x98, 0x01, 0x82, 0xb1, 0x0a, 0xb7, 0xd5, 0x4b, 0xfe, 0xd3, 0xc9, 0x64, 0x07, 0x3a,
    0x0e, 0xe1, 0x72, 0xf3, 0xda, 0xa6, 0x23, 0x25, 0xaf, 0x02, 0x1a, 0x68, 0xf7, 0x07, 0x51, 0x1a]

def isTestKey (bytes : List UInt8) : Bool := bytes == testKey

/-- A quoted array with an escape after it, and a line break. -/
def arrayNoise : Noise := ⟨[' '], some .double, [' '], [';', '\\', 'n'], ['\n']⟩

def lineNoise : Noise := ⟨[], some .single, [], ['\n'], ['\n']⟩

theorem arrayNoise_documented : arrayNoise.Documented .array :=
  Noise.documented_array (List.forall_mem_singleton.mpr rfl) (List.forall_mem_singleton.mpr rfl)

theorem lineNoise_white : lineNoise.White where
  lead _ hc := absurd hc List.not_mem_nil
  inner _ hc := absurd hc List.not_mem_nil
  after := List.forall_mem_singleton.mpr rfl
  outside := List.forall_mem_singleton.mpr rfl

/-- Both forms of a key are read; half of it is refused. -/
theorem keypairFromSecret_exact_key :
    keypairFromSecret base58 isTestKey (arrayNoise.wrap (listText (testKey.map UInt8.toNat))) =
        .ok testKey ∧
      keypairFromSecret base58 isTestKey (lineNoise.wrap (base58.encode testKey)) = .ok testKey ∧
        ∃ e, keypairFromSecret base58 isTestKey
          (arrayNoise.wrap (listText ((testKey.take 32).map UInt8.toNat))) = .error e := by
  have hkey : isTestKey testKey = true := by decide
  have hlen : testKey.length = 64 := rfl
  have hseed := arrayText_listText (testKey.take 32)
  obtain ⟨hread, hstrict⟩ := keypairFromSecret_exact base58 isTestKey
  refine ⟨?_, ?_, ?_⟩
  · apply (hread testKey hlen hkey .array arrayNoise _ arrayNoise_documented
      (arrayText_listText testKey)).mpr
    intro q _ c hc
    cases hc
  · apply (hread testKey hlen hkey .base58 lineNoise _ (lineNoise_white.documented _)
      (base58.encodes_encode testKey)).mpr
    exact List.forall_mem_append.mpr ⟨lineNoise_white.after, lineNoise_white.outside⟩
  · apply (hstrict _).mpr
    · rintro ⟨noise, x, ns, hnoise, -, hx, heq, hlen', -⟩
      rw [← numbers_unique arrayNoise_documented hnoise hseed hx heq] at hlen'
      exact absurd hlen' (by decide)
    · intro key hlen' hcarries
      have hbytes := congrArg List.length (hcarries.numbers arrayNoise_documented hseed)
      rw [List.length_map, List.length_map, hlen'] at hbytes
      exact absurd hbytes (by decide)

def noNoise : Noise := ⟨[], none, [], [], []⟩

def escapedNoise : Noise := ⟨[], none, [], ['\\', 'n'], []⟩

/-- An escape after the quotes. -/
def quotedNoise : Noise := ⟨[], some .double, [], [], ['\\', 'n']⟩

/-- The first byte plus 256. -/
def wrappingNumbers : List ℕ := (0x9d + 256) :: testKey.tail.map UInt8.toNat

theorem escapedNoise_documented : escapedNoise.Documented .base58 where
  lead _ hc := absurd hc List.not_mem_nil
  inner _ hc := absurd hc List.not_mem_nil
  after _ := .escape .nil
  outside _ := .nil

theorem quotedNoise_documented : quotedNoise.Documented .array :=
  Noise.documented_array (fun _ hc => absurd hc List.not_mem_nil)
    fun _ hc => absurd hc List.not_mem_nil

theorem noNoise_documented : noNoise.Documented .array :=
  Noise.documented_array (fun _ hc => absurd hc List.not_mem_nil)
    fun _ hc => absurd hc List.not_mem_nil

/-- Documented noise is refused, and numbers that are no bytes are read as a key. -/
theorem keypairFromSecret_errs :
    keypairFromSecret base58 isTestKey (base58.encode testKey ++ ['\\', 'n']) =
        .error .notBase58 ∧
      keypairFromSecret base58 isTestKey
          ('"' :: listText (testKey.map UInt8.toNat) ++ ['"', '\\', 'n']) = .error .notBase58 ∧
        keypairFromSecret base58 isTestKey (listText wrappingNumbers) = .ok testKey := by
  refine ⟨?_, ?_, ?_⟩
  · have hplain : ¬ escapedNoise.Plain .base58 := by
      intro hplain
      exact absurd (hplain 'n' (by decide)) (by decide)
    have hwrap : base58.encode testKey ++ ['\\', 'n'] =
        escapedNoise.wrap (base58.encode testKey) := by
      simp [Noise.wrap, Noise.mark, escapedNoise]
    rw [hwrap]
    apply keypairFromSecret_error
    exact readBytes_escaped escapedNoise_documented hplain (base58.encodes_encode testKey)
  · have hplain : ¬ quotedNoise.Plain .array := by
      intro hplain
      exact absurd (hplain .double rfl 'n' (by decide)) (by decide)
    have hwrap : '"' :: listText (testKey.map UInt8.toNat) ++ ['"', '\\', 'n'] =
        quotedNoise.wrap (listText (testKey.map UInt8.toNat)) := by
      simp [Noise.wrap, Noise.mark, quotedNoise, Quote.char]
    rw [hwrap]
    exact keypairFromSecret_error (readBytes_hidden quotedNoise_documented hplain)
  · have hplain : noNoise.Plain .array := fun _ hq => absurd hq (Option.not_mem_none _)
    have hwrap : listText wrappingNumbers = noNoise.wrap (listText wrappingNumbers) := by
      simp [Noise.wrap, Noise.mark, noNoise]
    have hsmall : ∀ n ∈ wrappingNumbers, n ≤ 2 ^ 53 := by decide
    have htext := arrayText_naturals hsmall
    have hread := @readBytes_array base58 _ _ _ noNoise_documented hplain htext
    have hcut : toUint8 ∘ naturalNumber = UInt8.ofNat := funext toUint8_int
    have hbytes : (wrappingNumbers.map naturalNumber).map toUint8 = testKey := by
      rw [List.map_map, hcut]
      decide
    rw [hbytes] at hread
    rw [hwrap, keypairFromSecret_ok]
    exact ⟨hread, rfl, by decide⟩

end ProofBook.Keys
