import ProofBook.Lib.Totals
import ProofBook.Lib.Checked

/-!
# A token ledger

Accounts hold units of one mint and are debited only under the authority of
their owner. A transfer moves exactly the requested amount or is refused. The
supply of a mint is what all its accounts hold together and fits in 64 bits, so
a credit never overflows.
-/
namespace ProofBook.TokenLedger
open Totals Checked

def wordSize : ℕ := 2 ^ 64

structure TokenAccount (K : Type) where
  mint : K
  owner : K
  amount : ℕ
deriving Repr, DecidableEq

inductive TokenError
  | accountNotFound
  | mintNotFound
  | alreadyInUse
  | ownerMismatch
  | mintMismatch
  | insufficientFunds
  | overflow
deriving Repr, DecidableEq

/-- Token accounts by address, and the supply of each mint. -/
structure Ledger (K : Type) [DecidableEq K] where
  accounts : FMap K (TokenAccount K)
  mints : FMap K ℕ

namespace Ledger
variable {K : Type} [DecidableEq K]

def empty : Ledger K := ⟨∅, ∅⟩

def balance (l : Ledger K) (k : K) : ℕ := ((l.accounts.lookup k).map (·.amount)).getD 0

/-- Who may debit an account, and in which mint it is denominated. -/
def title (l : Ledger K) (k : K) : Option (K × K) :=
  (l.accounts.lookup k).map fun a => (a.mint, a.owner)

/-- All units of a mint that some account holds. -/
def held (l : Ledger K) (mint : K) : ℕ :=
  total (fun _ (a : TokenAccount K) => if a.mint = mint then a.amount else 0) l.accounts

def supply (l : Ledger K) (mint : K) : ℕ := (l.mints.lookup mint).getD 0

def initializeMint (l : Ledger K) (mint : K) : Except TokenError (Ledger K) := do
  require (l.mints.lookup mint = none) .alreadyInUse
  pure { l with mints := l.mints.insert mint 0 }

def initializeAccount (l : Ledger K) (k mint owner : K) : Except TokenError (Ledger K) := do
  require (l.mints.lookup mint ≠ none) .mintNotFound
  require (l.accounts.lookup k = none) .alreadyInUse
  pure { l with accounts := l.accounts.insert k ⟨mint, owner, 0⟩ }

def mintTo (l : Ledger K) (mint dst : K) (amount : ℕ) : Except TokenError (Ledger K) := do
  let s ← demand (l.mints.lookup mint) .mintNotFound
  let d ← demand (l.accounts.lookup dst) .accountNotFound
  require (d.mint = mint) .mintMismatch
  require (s + amount < wordSize) .overflow
  pure { accounts := l.accounts.insert dst { d with amount := d.amount + amount }
         mints := l.mints.insert mint (s + amount) }

/-- Both accounts exist and share a mint, the source covers the amount and its
owner signs. A transfer to the source itself moves nothing. -/
def transfer (l : Ledger K) (src dst authority : K) (amount : ℕ) :
    Except TokenError (Ledger K) := do
  let s ← demand (l.accounts.lookup src) .accountNotFound
  let d ← demand (l.accounts.lookup dst) .accountNotFound
  require (amount ≤ s.amount) .insufficientFunds
  require (s.mint = d.mint) .mintMismatch
  require (s.owner = authority) .ownerMismatch
  if src = dst then pure l else do
    require (d.amount + amount < wordSize) .overflow
    pure { l with
      accounts := (l.accounts.insert src { s with amount := s.amount - amount }).insert dst
        { d with amount := d.amount + amount } }

/-- Supplies are held in full and fit in a word. -/
def Conserved (l : Ledger K) : Prop :=
  ∀ mint, l.held mint = l.supply mint ∧ l.supply mint < wordSize

variable {l l' : Ledger K} {src dst k mint owner authority : K} {amount : ℕ}

theorem balance_of_lookup {a : TokenAccount K} (h : l.accounts.lookup k = some a) :
    l.balance k = a.amount := by simp [balance, h]

theorem title_of_lookup {a : TokenAccount K} (h : l.accounts.lookup k = some a) :
    l.title k = some (a.mint, a.owner) := by simp [title, h]

theorem lookup_of_title {m o : K} (h : l.title k = some (m, o)) :
    l.accounts.lookup k = some ⟨m, o, l.balance k⟩ := by
  cases ha : l.accounts.lookup k with
  | none => simp [title, ha] at h
  | some a =>
      simp only [title, ha, Option.map_some, Option.some.injEq, Prod.mk.injEq] at h
      rw [balance_of_lookup ha, ← h.1, ← h.2]

/-- Everything a successful transfer between two accounts tells. -/
structure Moved (l l' : Ledger K) (src dst authority : K) (amount : ℕ) : Prop where
  funded : amount ≤ l.balance src
  owned : ∃ m, l.title src = some (m, authority) ∧ ∃ o, l.title dst = some (m, o)
  titles : ∀ k, l'.title k = l.title k
  debit : l'.balance src = l.balance src - amount
  credit : l'.balance dst = l.balance dst + amount
  others : ∀ k, k ≠ src → k ≠ dst → l'.balance k = l.balance k
  mints : l'.mints = l.mints

theorem transfer_ok (hne : src ≠ dst) (h : l.transfer src dst authority amount = .ok l') :
    Moved l l' src dst authority amount := by
  simp only [transfer, bind_eq_ok, demand_eq_ok, require_eq_ok, hne, if_false, pure_eq_ok] at h
  obtain ⟨s, hs, d, hd, _, hf, _, hm, _, ho, _, -, rfl⟩ := h
  have hkeep : ∀ k, k ≠ src → k ≠ dst →
      ((l.accounts.insert src { s with amount := s.amount - amount }).insert dst
        { d with amount := d.amount + amount }).lookup k = l.accounts.lookup k := by
    intro k h₁ h₂
    rw [AList.lookup_insert_ne h₂, AList.lookup_insert_ne h₁]
  refine ⟨by rwa [balance_of_lookup hs], ⟨s.mint, ?_, d.owner, ?_⟩, ?_, ?_, ?_, ?_, rfl⟩
  · rw [title_of_lookup hs, ho]
  · rw [title_of_lookup hd, hm]
  · intro k
    by_cases h₂ : k = dst
    · subst h₂
      simp [title, hd]
    · by_cases h₁ : k = src
      · subst h₁
        simp [title, hs, AList.lookup_insert_ne h₂]
      · simp [title, hkeep k h₁ h₂]
  · simp [balance, AList.lookup_insert_ne hne, hs]
  · simp [balance, hd]
  · intro k h₁ h₂
    simp [balance, hkeep k h₁ h₂]

/-- A transfer is signed by the owner of its source. -/
theorem transfer_owner (h : l.transfer src dst authority amount = .ok l') :
    ∃ m, l.title src = some (m, authority) := by
  simp only [transfer, bind_eq_ok, demand_eq_ok, require_eq_ok] at h
  obtain ⟨s, hs, _, _, _, _, _, _, _, ho, _⟩ := h
  exact ⟨s.mint, by rw [title_of_lookup hs, ho]⟩

theorem transfer_self (h : l.transfer src src authority amount = .ok l') : l' = l := by
  simp only [transfer, bind_eq_ok, demand_eq_ok, require_eq_ok, if_true, pure_eq_ok] at h
  obtain ⟨_, _, _, _, _, _, _, _, _, _, rfl⟩ := h
  rfl

theorem transfer_held (h : l.transfer src dst authority amount = .ok l') (mint : K) :
    l'.held mint = l.held mint := by
  by_cases hne : src = dst
  · subst hne
    rw [transfer_self h]
  simp only [transfer, bind_eq_ok, demand_eq_ok, require_eq_ok, hne, if_false, pure_eq_ok] at h
  obtain ⟨s, hs, d, hd, _, hf, _, hm, _, _, _, -, rfl⟩ := h
  have hd' : (l.accounts.insert src { s with amount := s.amount - amount }).lookup dst =
      some d := by rw [AList.lookup_insert_ne (Ne.symm hne), hd]
  have h₁ := total_insert_of_lookup (fun _ (a : TokenAccount K) =>
    if a.mint = mint then a.amount else 0) { s with amount := s.amount - amount } hs
  have h₂ := total_insert_of_lookup (fun _ (a : TokenAccount K) =>
    if a.mint = mint then a.amount else 0) { d with amount := d.amount + amount } hd'
  simp only [hm] at h₁ h₂
  simp only [held, hm]
  split_ifs at h₁ h₂ <;> omega

theorem transfer_conserved (hc : l.Conserved)
    (h : l.transfer src dst authority amount = .ok l') : l'.Conserved := by
  have hm : l'.mints = l.mints := by
    by_cases hne : src = dst
    · subst hne
      rw [transfer_self h]
    · exact (transfer_ok hne h).mints
  intro mint
  rw [transfer_held h, supply, hm]
  exact hc mint

theorem balance_add_le_held {j m o p : K} (hkj : k ≠ j) (hk : l.title k = some (m, o))
    (hj : l.title j = some (m, p)) : l.balance k + l.balance j ≤ l.held m := by
  have := add_le_total_of_lookup
    (fun _ (a : TokenAccount K) => if a.mint = m then a.amount else 0) hkj
    (lookup_of_title hk) (lookup_of_title hj)
  simpa [held] using this

/-- With a conserved supply a covered transfer goes through. -/
theorem transfer_succeeds (hc : l.Conserved) {m o : K} (hs : l.title src = some (m, authority))
    (hd : l.title dst = some (m, o)) (hf : amount ≤ l.balance src) :
    ∃ l', l.transfer src dst authority amount = .ok l' := by
  by_cases hne : src = dst
  · refine ⟨l, ?_⟩
    simp only [transfer, lookup_of_title hs, lookup_of_title hd, hne] at hf ⊢
    simp [demand, require, bind, Except.bind, pure, Except.pure, hf]
  · have hb := balance_add_le_held hne hs hd
    have hw := (hc m).2
    rw [← (hc m).1] at hw
    have ho : l.balance dst + amount < wordSize := by omega
    simp only [transfer, lookup_of_title hs, lookup_of_title hd]
    simp [demand, require, bind, Except.bind, pure, Except.pure, hf, hne, ho]

/-- With a conserved supply a transfer is refused for overflow never, and for
lack of funds only when the source does not cover it. -/
theorem transfer_error (hc : l.Conserved) {e : TokenError}
    (h : l.transfer src dst authority amount = .error e) :
    e ≠ .overflow ∧ (e = .insufficientFunds → l.balance src < amount) := by
  simp only [transfer, bind_eq_error, demand_eq_error, demand_eq_ok, require_eq_error,
    require_eq_ok] at h
  rcases h with ⟨_, rfl⟩ | ⟨s, hs, ⟨_, rfl⟩ | ⟨d, hd, ⟨hf, rfl⟩ | ⟨_, hf, ⟨_, rfl⟩ |
    ⟨_, hm, ⟨_, rfl⟩ | ⟨_, ho, h⟩⟩⟩⟩⟩
  · simp
  · simp
  · rw [balance_of_lookup hs]
    simpa using hf
  · simp
  · simp
  · split_ifs at h with hne
    · exact absurd h pure_ne_error
    · simp only [bind_eq_error, require_eq_error, pure_ne_error, and_false, exists_false,
        or_false] at h
      have hb := balance_add_le_held hne (title_of_lookup hs)
        ((title_of_lookup hd).trans (by rw [← hm]))
      rw [balance_of_lookup hs, balance_of_lookup hd, (hc _).1] at hb
      have := (hc s.mint).2
      omega

theorem initializeMint_ok (h : l.initializeMint mint = .ok l') :
    l.mints.lookup mint = none ∧ l' = { l with mints := l.mints.insert mint 0 } := by
  simp only [initializeMint, bind_eq_ok, require_eq_ok, pure_eq_ok] at h
  obtain ⟨_, h, rfl⟩ := h
  exact ⟨h, rfl⟩

theorem initializeMint_conserved (hc : l.Conserved) (h : l.initializeMint mint = .ok l') :
    l'.Conserved := by
  obtain ⟨hm, rfl⟩ := initializeMint_ok h
  intro m
  have hh := hc m
  by_cases he : m = mint
  · subst he
    simpa [held, supply, hm] using hh
  · simpa [held, supply, AList.lookup_insert_ne he] using hh

theorem initializeAccount_ok (h : l.initializeAccount k mint owner = .ok l') :
    l.accounts.lookup k = none ∧ l.mints.lookup mint ≠ none ∧
      l' = { l with accounts := l.accounts.insert k ⟨mint, owner, 0⟩ } := by
  simp only [initializeAccount, bind_eq_ok, require_eq_ok, pure_eq_ok] at h
  obtain ⟨_, hm, _, h, rfl⟩ := h
  exact ⟨h, hm, rfl⟩

theorem initializeAccount_conserved (hc : l.Conserved)
    (h : l.initializeAccount k mint owner = .ok l') : l'.Conserved := by
  obtain ⟨hk, -, rfl⟩ := initializeAccount_ok h
  intro m
  have := total_insert_of_none (fun _ (a : TokenAccount K) => if a.mint = m then a.amount else 0)
    ⟨mint, owner, 0⟩ hk
  simp only [ite_self, Nat.add_zero] at this
  simpa [held, supply, this] using hc m

theorem initializeAccount_title (h : l.initializeAccount k mint owner = .ok l') :
    l'.title k = some (mint, owner) ∧ l'.balance k = 0 ∧
      ∀ j, j ≠ k → l'.title j = l.title j ∧ l'.balance j = l.balance j := by
  obtain ⟨-, -, rfl⟩ := initializeAccount_ok h
  refine ⟨by simp [title], by simp [balance], fun j hj => ?_⟩
  simp [title, balance, AList.lookup_insert_ne hj]

theorem mintTo_ok (h : l.mintTo mint dst amount = .ok l') :
    ∃ s d, l.mints.lookup mint = some s ∧ l.accounts.lookup dst = some d ∧ d.mint = mint ∧
      s + amount < wordSize ∧
      l' = { accounts := l.accounts.insert dst { d with amount := d.amount + amount }
             mints := l.mints.insert mint (s + amount) } := by
  simp only [mintTo, bind_eq_ok, demand_eq_ok, require_eq_ok, pure_eq_ok] at h
  obtain ⟨s, hs, d, hd, _, hm, _, hw, rfl⟩ := h
  exact ⟨s, d, hs, hd, hm, hw, rfl⟩

theorem mintTo_conserved (hc : l.Conserved) (h : l.mintTo mint dst amount = .ok l') :
    l'.Conserved := by
  obtain ⟨s, d, hs, hd, hm, hw, rfl⟩ := mintTo_ok h
  intro m
  have ht := total_insert_of_lookup (fun _ (a : TokenAccount K) =>
    if a.mint = m then a.amount else 0) { d with amount := d.amount + amount } hd
  have hh := hc m
  by_cases he : m = mint
  · subst he
    simp only [supply, hs, held, Option.getD_some] at hh
    simp only [hm, if_true] at ht
    simp only [supply, held, AList.lookup_insert, Option.getD_some, hm]
    omega
  · simp only [hm, Ne.symm he, if_false, Nat.add_zero] at ht
    simpa [held, supply, AList.lookup_insert_ne he, hm, ht] using hh

theorem mintTo_title (h : l.mintTo mint dst amount = .ok l') (k : K) :
    l'.title k = l.title k ∧ l.balance k ≤ l'.balance k := by
  obtain ⟨s, d, -, hd, -, -, rfl⟩ := mintTo_ok h
  by_cases hk : k = dst
  · subst hk
    simp [title, balance, hd]
  · simp [title, balance, AList.lookup_insert_ne hk]

theorem mintTo_balance (h : l.mintTo mint dst amount = .ok l') (k : K) :
    l'.balance k = l.balance k + if dst = k then amount else 0 := by
  obtain ⟨s, d, -, hd, -, -, rfl⟩ := mintTo_ok h
  by_cases hk : dst = k
  · subst hk
    simp [balance, hd]
  · simp [balance, hk, AList.lookup_insert_ne (Ne.symm hk)]

end Ledger
end ProofBook.TokenLedger
