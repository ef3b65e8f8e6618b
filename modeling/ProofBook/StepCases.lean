import ProofBook.Steps

/-!
# Every operation is a market step and a prop-vault step

The case analysis over all operations, made once: an operation writes the
account it acts on and the ledger. A market's book moves by a `BookStep` and a
prop vault by a `VaultStep`; a new one starts empty; and the well-formedness
these steps rely on is kept.
-/
namespace ProofBook.StepCases
open Addresses State Checked OracleWire OracleAdapter TokenLedger Totals Chain Program Runs Steps
open Instructions.Betting Instructions.Settlement Instructions.Payments Instructions.PropVaults

variable {D : Type} {O : OracleProgram D} {w w' w₁ : World D} {i : Instruction D}
  {k mint src dst owner authority : Pubkey} {amount : ℕ} {l l' l₁ : Ledger Pubkey}

/-! ## What an operation does to the ledger -/

def ActsOn (i : Instruction D) (k : Pubkey) : Prop :=
  Instruction.market? i = some k ∨ Instruction.propVault? i = some k

/-- While every escrow account is under its own authority, an operation debits
only the escrow of the address it acts on. -/
structure LedgerMoves (i : Instruction D) (l l' : Ledger Pubkey) : Prop extends
    LedgerGrows l l' where
  credits : (∀ k m o, l.title (.vault k) = some (m, o) → o = k) → ∀ k, k.canSign = false →
    ¬ ActsOn i k → ∃ d, l'.balance (.vault k) = l.balance (.vault k) + d

theorem LedgerMoves.refl (i : Instruction D) (l : Ledger Pubkey) : LedgerMoves i l l where
  toLedgerGrows := .refl l
  credits _ _ _ _ := ⟨0, rfl⟩

theorem LedgerMoves.trans (h : LedgerMoves i l l₁) (h' : LedgerMoves i l₁ l') :
    LedgerMoves i l l' where
  toLedgerGrows := h.toLedgerGrows.trans h'.toLedgerGrows
  credits ho k hk ha := by
    have ho₁ : ∀ k m o, l₁.title (.vault k) = some (m, o) → o = k :=
      fun k m o ht => (h.creates k m o ht).elim (ho k m o) id
    obtain ⟨c, hc⟩ := h.credits ho k hk ha
    obtain ⟨d, hd⟩ := h'.credits ho₁ k hk ha
    exact ⟨c + d, by rw [hd, hc, Nat.add_assoc]⟩

/-- Whoever is not the owner of an escrow moves nothing out of it. -/
theorem transfer_moves (ha : authority.canSign = true ∨ ActsOn i authority)
    (h : l.transfer src dst authority amount = .ok l') : LedgerMoves i l l' where
  conserved hc := Ledger.transfer_conserved hc h
  keeps k t ht := by rwa [transfer_titles h]
  creates k m o ht := .inl (by rwa [transfer_titles h] at ht)
  credits ho k hk hi := by
    obtain ⟨m, hm⟩ := Ledger.transfer_owner h
    have hsrc : .vault k ≠ src := by
      rintro rfl
      obtain rfl := ho k m authority hm
      exact ha.elim (by simp [hk]) hi
    by_cases hne : src = dst
    · subst hne
      exact ⟨0, by rw [Ledger.transfer_self h, Nat.add_zero]⟩
    · have hm := Ledger.transfer_ok hne h
      by_cases hd : .vault k = dst
      · exact ⟨amount, hd ▸ hm.credit⟩
      · exact ⟨0, by rw [hm.others _ hsrc hd, Nat.add_zero]⟩

theorem initializeAccount_moves (hk : ∀ p, k = .vault p → owner = p ∧ ActsOn i p)
    (h : l.initializeAccount k mint owner = .ok l') : LedgerMoves i l l' where
  toLedgerGrows := initializeAccount_grows h fun p hp => (hk p hp).1
  credits _ j _ hi :=
    ⟨0, ((Ledger.initializeAccount_title h).2.2 _ fun hj => hi (hk j hj.symm).2).2⟩

theorem initializeMint_moves (h : l.initializeMint mint = .ok l') : LedgerMoves i l l' := by
  obtain ⟨-, rfl⟩ := Ledger.initializeMint_ok h
  exact ⟨⟨fun hc => Ledger.initializeMint_conserved hc h, fun _ _ ht => ht,
    fun _ _ _ ht => .inl ht⟩, fun _ _ _ _ => ⟨0, rfl⟩⟩

theorem mintTo_moves (h : l.mintTo mint dst amount = .ok l') : LedgerMoves i l l' where
  conserved hc := Ledger.mintTo_conserved hc h
  keeps k t ht := by rw [(Ledger.mintTo_title h k).1, ht]
  creates k m o ht := .inl (by rwa [(Ledger.mintTo_title h _).1] at ht)
  credits _ k _ _ := Nat.exists_eq_add_of_le (Ledger.mintTo_title h (.vault k)).2

theorem sweep_moves (ha : ActsOn i authority) (h : sweep w src dst authority = .ok w₁) :
    w₁ = w.setLedger w₁.ledger ∧ LedgerMoves i w.ledger w₁.ledger := by
  rcases sweep_ok h with ⟨-, rfl⟩ | ⟨-, l, hl, rfl⟩
  · exact ⟨rfl, .refl i _⟩
  · exact ⟨rfl, transfer_moves (.inr ha) hl⟩

/-! ## What an operation writes -/

/-- The ledger, and the account the operation acts on; only a creation does
not find that account. -/
inductive Effect (O : OracleProgram D) (w : World D) : Instruction D → World D → Prop
  | book {i : Instruction D} {k : Pubkey} {b : Book D} {l : Ledger Pubkey} {es : List (Event D)}
      (market : Instruction.market? i = some k) (propVault : Instruction.propVault? i = none)
      (found : (∃ b₀, w.book? k = some b₀) ∨ ∃ ctx p, i = .initializeMarket ctx p)
      (ledger : LedgerMoves i w.ledger l) : Effect O w i ((w.setLedger l).setBook k b es)
  | propVault {i : Instruction D} {k : Pubkey} {v : PropVault D} {l : Ledger Pubkey}
      {es : List (Event D)} (market : Instruction.market? i = none)
      (propVault : Instruction.propVault? i = some k)
      (found : (∃ v₀, w.propVault? k = some v₀) ∨ ∃ ctx p, i = .initializePropVault ctx p)
      (ledger : LedgerMoves i w.ledger l) : Effect O w i ((w.setLedger l).setPropVault k v es)
  | tokens {i : Instruction D} {l : Ledger Pubkey} (market : Instruction.market? i = none)
      (propVault : Instruction.propVault? i = none) (ledger : LedgerMoves i w.ledger l) :
      Effect O w i (w.setLedger l)
  | dailyRoot {epochDay : UInt16} {root : D} :
      Effect O w (.publishDailyRoot epochDay root) (publishDailyRoot O w epochDay root)
  | clock {now : Int64} : Effect O w (.setClock now) { w with clock := now }

variable [Inhabited D]

theorem step_effect (h : step O w i = .ok w') : Effect O w i w' := by
  cases i with
  | initializeMarket ctx p =>
      obtain ⟨-, -, -, l, es, hl, rfl⟩ := initializeMarket_ok h
      exact .book rfl rfl (.inr ⟨ctx, p, rfl⟩) (initializeAccount_moves
        (fun p hp => ⟨Pubkey.vault.inj hp, .inl (congrArg some (Pubkey.vault.inj hp))⟩) hl)
  | placeBet ctx oi a =>
      obtain ⟨b, q, l, es, hc, hl, rfl⟩ := placeBet_ok h
      exact .book rfl rfl (.inl ⟨b, hc.book⟩) (transfer_moves (.inl hc.signer) hl)
  | lockMarket ctx =>
      obtain ⟨b, es, hb, -, -, rfl⟩ := lockMarket_ok h
      exact .book rfl rfl (.inl ⟨b, hb⟩) (.refl _ w.ledger)
  | initializeComboSpec ctx legs outcomes =>
      obtain ⟨b, es, hc, rfl⟩ := initializeComboSpec_ok h
      exact .book rfl rfl (.inl ⟨b, hc.book⟩) (.refl _ w.ledger)
  | settleMarket ctx oc proof =>
      obtain ⟨b, m, es, hb, -, -, -, -, rfl⟩ := settleMarket_ok h
      exact .book rfl rfl (.inl ⟨b, hb⟩) (.refl _ w.ledger)
  | settleMarketV3 ctx oc proof =>
      obtain ⟨b, s, m, es, hb, -, -, -, -, -, rfl⟩ := settleMarketV3_ok h
      exact .book rfl rfl (.inl ⟨b, hb⟩) (.refl _ w.ledger)
  | cancelMarket ctx =>
      obtain ⟨b, d, es, hb, -, -, -, rfl⟩ := cancelMarket_ok h
      exact .book rfl rfl (.inl ⟨b, hb⟩) (.refl _ w.ledger)
  | claimWinnings ctx =>
      obtain ⟨b, q, nc, py, l, es, hc, -, -, hl, rfl⟩ := claimWinnings_ok h
      exact .book rfl rfl (.inl ⟨b, hc.book⟩) (transfer_moves (.inr (.inl rfl)) hl)
  | claimRefund ctx =>
      obtain ⟨b, q, l, es, hc, -, -, hl, rfl⟩ := claimRefund_ok h
      exact .book rfl rfl (.inl ⟨b, hc.book⟩) (transfer_moves (.inr (.inl rfl)) hl)
  | withdrawFees ctx =>
      obtain ⟨b, l, es, hc, hl, rfl⟩ := withdrawFees_ok h
      exact .book rfl rfl (.inl ⟨b, hc.book⟩) (transfer_moves (.inr (.inl rfl)) hl)
  | initializePropVault ctx p =>
      obtain ⟨hs, -, -, -, -, l₁, l, es, hl₁, hl, rfl⟩ := initializePropVault_ok h
      have created : LedgerMoves (.initializePropVault ctx p : Instruction D) w.ledger l₁ :=
        initializeAccount_moves
          (fun p hp => ⟨Pubkey.vault.inj hp, .inr (congrArg some (Pubkey.vault.inj hp))⟩) hl₁
      exact .propVault rfl rfl (.inr ⟨ctx, p, rfl⟩) (created.trans (transfer_moves (.inl hs) hl))
  | settlePropVault ctx proof =>
      obtain ⟨v, holds, w₁, es, hc, hs, rfl⟩ := settlePropVault_ok h
      obtain ⟨he, hl⟩ := sweep_moves (i := Instruction.settlePropVault ctx proof) (.inr rfl) hs
      rw [he]
      exact .propVault rfl rfl (.inl ⟨v, hc.propVault⟩) hl
  | cancelPropVault ctx =>
      obtain ⟨v, d, w₁, es, hc, hs, rfl⟩ := cancelPropVault_ok h
      obtain ⟨he, hl⟩ := sweep_moves (i := (.cancelPropVault ctx : Instruction D)) (.inr rfl) hs
      rw [he]
      exact .propVault rfl rfl (.inl ⟨v, hc.propVault⟩) hl
  | splTransfer src dst authority a =>
      obtain ⟨hs, l, hl, rfl⟩ := splTransfer_ok h
      exact .tokens rfl rfl (transfer_moves (.inl hs) hl)
  | splInitializeMint mint =>
      obtain ⟨l, hl, rfl⟩ := spl_ok h
      exact .tokens rfl rfl (initializeMint_moves hl)
  | splInitializeAccount a mint owner =>
      obtain ⟨l, hl, rfl⟩ := spl_ok h
      exact .tokens rfl rfl (initializeAccount_moves (fun p hp => Pubkey.noConfusion hp) hl)
  | splMintTo mint dst a =>
      obtain ⟨l, hl, rfl⟩ := spl_ok h
      exact .tokens rfl rfl (mintTo_moves hl)
  | publishDailyRoot d r =>
      cases h
      exact .dailyRoot
  | setClock now =>
      cases h
      exact .clock

theorem step_ledger (h : step O w i = .ok w') : LedgerGrows w.ledger w'.ledger := by
  cases step_effect h with
  | book _ _ _ hl | propVault _ _ _ hl | tokens _ _ hl => exact hl.toLedgerGrows
  | dailyRoot | clock => exact .refl _

theorem step_idle_book (h : step O w i = .ok w') (hm : Instruction.market? i ≠ some k) :
    w'.book? k = w.book? k := by
  cases step_effect h with
  | book market => exact World.setBook_book?_ne fun he => hm (he ▸ market)
  | _ => rfl

theorem step_idle_propVault (h : step O w i = .ok w')
    (hv : Instruction.propVault? i ≠ some k) : w'.propVault? k = w.propVault? k := by
  cases step_effect h with
  | propVault _ propVault => exact World.setPropVault_propVault?_ne fun he => hv (he ▸ propVault)
  | _ => rfl

/-- An escrow is debited only by operations on its own market or prop vault. -/
theorem step_idle_escrow (hw : WellFormed w) (h : step O w i = .ok w')
    (hk : k.canSign = false) (hm : Instruction.market? i ≠ some k)
    (hv : Instruction.propVault? i ≠ some k) : ∃ d, w'.escrow k = w.escrow k + d := by
  cases step_effect h with
  | book _ _ _ hl | propVault _ _ _ hl | tokens _ _ hl =>
      exact hl.credits hw.owners k hk (not_or.mpr ⟨hm, hv⟩)
  | dailyRoot | clock => exact ⟨0, rfl⟩

theorem step_clock (h : step O w i = .ok w') :
    w'.clock = w.clock ∨ ∃ now, i = .setClock now ∧ w' = { w with clock := now } := by
  cases step_effect h with
  | clock => exact .inr ⟨_, rfl, rfl⟩
  | _ => exact .inl rfl

theorem step_finds_book (h : step O w i = .ok w') (hm : Instruction.market? i = some k) :
    (∃ b, w.book? k = some b) ∨ ∃ ctx p, i = .initializeMarket ctx p := by
  cases step_effect h with
  | book market _ found => exact Option.some.inj (market.symm.trans hm) ▸ found
  | propVault market | tokens market => cases market.symm.trans hm
  | dailyRoot | clock => cases hm

theorem step_finds_propVault (h : step O w i = .ok w')
    (hv : Instruction.propVault? i = some k) :
    (∃ v, w.propVault? k = some v) ∨ ∃ ctx p, i = .initializePropVault ctx p := by
  cases step_effect h with
  | propVault _ propVault found => exact Option.some.inj (propVault.symm.trans hv) ▸ found
  | book _ propVault | tokens _ propVault => cases propVault.symm.trans hv
  | dailyRoot | clock => cases hv

/-! ## Markets -/

/-- A prop vault's address is not a market's. -/
theorem propVault?_ne_market (hw : WellFormed w) (h : step O w i = .ok w') {a : Pubkey}
    {f : Int64} {t : ℕ} : Instruction.propVault? i ≠ some (.market a f t) := by
  intro hv
  rcases step_finds_propVault h hv with ⟨v, hb⟩ | ⟨ctx, p, rfl⟩
  · cases (hw.propVaults _ v hb).key
  · cases hv

theorem market?_ne_propVault (hw : WellFormed w) (h : step O w i = .ok w') {d : Pubkey} {n : ℕ} :
    Instruction.market? i ≠ some (.propVault d n) := by
  intro hm
  rcases step_finds_book h hm with ⟨b, hb⟩ | ⟨ctx, p, rfl⟩
  · cases (hw.books _ b hb).key
  · cases hm

/-- A transfer out of an escrow under its own authority. -/
theorem transfer_moved {l l' : Ledger Pubkey} {dst : Pubkey} {a : ℕ} (hne : .vault k ≠ dst)
    (h : l.transfer (.vault k) dst k a = .ok l') :
    Ledger.Moved l l' (.vault k) dst k a ∧ l'.balance (.vault k) + a = l.balance (.vault k) := by
  have hm := Ledger.transfer_ok hne h
  have := hm.funded
  exact ⟨hm, by rw [hm.debit]; omega⟩

theorem step_book (hw : WellFormed w) (h : step O w i = .ok w') {b : Book D}
    (hb : w.book? k = some b) : BookMoves O w w' k b i := by
  have ok := hw.books k b hb
  by_cases hm : Instruction.market? i = some k
  swap
  · refine .idle hb hm (step_idle_book h hm) ?_
    rw [ok.key] at hm ⊢
    exact step_idle_escrow hw h rfl hm (propVault?_ne_market hw h)
  cases i <;> simp only [Instruction.market?, Option.some.injEq, reduceCtorEq] at hm <;> subst hm
  case initializeMarket ctx p =>
    obtain ⟨-, hn, -⟩ := initializeMarket_ok h
    rw [hn] at hb
    cases hb
  case placeBet ctx oi a =>
    obtain ⟨b₁, q, l, es, hc, hl, rfl⟩ := placeBet_ok h
    obtain rfl := Option.some.inj (hc.book.symm.trans hb)
    rw [← hc.vault, ok.vault] at hl
    have hne : ctx.bettorToken ≠ .vault ctx.market := by
      rw [← ok.vault, hc.vault]
      exact hc.distinct
    exact ⟨_, a, 0, World.setBook_book?_self, .bet rfl hc, (Ledger.transfer_ok hne hl).credit⟩
  case lockMarket ctx =>
    obtain ⟨b₁, es, hb₁, hst, ht, rfl⟩ := lockMarket_ok h
    obtain rfl := Option.some.inj (hb₁.symm.trans hb)
    exact ⟨_, 0, 0, World.setBook_book?_self, .lock rfl hst ht, rfl⟩
  case initializeComboSpec ctx legs outcomes =>
    obtain ⟨b₁, es, hc, rfl⟩ := initializeComboSpec_ok h
    obtain rfl := Option.some.inj (hc.book.symm.trans hb)
    exact ⟨_, 0, 0, World.setBook_book?_self, .attach rfl hc, rfl⟩
  case settleMarket ctx oc proof =>
    obtain ⟨b₁, m, es, hb₁, hg, hs, hv, hr, rfl⟩ := settleMarket_ok h
    obtain rfl := Option.some.inj (hb₁.symm.trans hb)
    exact ⟨_, 0, 0, World.setBook_book?_self,
      .settle hg.status hg.outcome (.v2 rfl hs hv) (recordSettlement_ok hr), rfl⟩
  case settleMarketV3 ctx oc proof =>
    obtain ⟨b₁, s, m, es, hb₁, hs, hg, hc, hv, hr, rfl⟩ := settleMarketV3_ok h
    obtain rfl := Option.some.inj (hb₁.symm.trans hb)
    exact ⟨_, 0, 0, World.setBook_book?_self,
      .settle hg.status hg.outcome (.v3 rfl hc hs hv) (recordSettlement_ok hr), rfl⟩
  case cancelMarket ctx =>
    obtain ⟨b₁, d, es, hb₁, hst, hd, ht, rfl⟩ := cancelMarket_ok h
    obtain rfl := Option.some.inj (hb₁.symm.trans hb)
    exact ⟨_, 0, 0, World.setBook_book?_self, .cancel rfl hst hd ht, rfl⟩
  case claimWinnings ctx =>
    obtain ⟨b₁, q, nc, py, l, es, hc, hwin, hp, hl, rfl⟩ := claimWinnings_ok h
    obtain rfl := Option.some.inj (hc.book.symm.trans hb)
    have hvk := hc.vault.symm.trans ok.vault
    rw [hvk] at hl
    obtain ⟨hmv, he⟩ := transfer_moved (hvk ▸ hc.distinct) hl
    exact ⟨_, 0, py, World.setBook_book?_self, .claim rfl hc hwin hp hmv, he⟩
  case claimRefund ctx =>
    obtain ⟨b₁, q, l, es, hc, hst, hu, hl, rfl⟩ := claimRefund_ok h
    obtain rfl := Option.some.inj (hc.book.symm.trans hb)
    have hvk := hc.vault.symm.trans ok.vault
    rw [hvk] at hl
    obtain ⟨hmv, he⟩ := transfer_moved (hvk ▸ hc.distinct) hl
    exact ⟨_, 0, q.amount, World.setBook_book?_self, .refund rfl hc hst hu hmv, he⟩
  case withdrawFees ctx =>
    obtain ⟨b₁, l, es, hc, hl, rfl⟩ := withdrawFees_ok h
    obtain rfl := Option.some.inj (hc.book.symm.trans hb)
    have hvk := hc.vault.symm.trans ok.vault
    rw [hvk] at hl
    obtain ⟨hmv, he⟩ := transfer_moved (hvk ▸ hc.distinct) hl
    exact ⟨_, 0, _, World.setBook_book?_self, .withdraw rfl hc hmv, he⟩

/-- A market appears only through a creation the program accepted, and empty. -/
theorem step_book_new (h : step O w i = .ok w') (hn : w.book? k = none)
    {b : Book D} (hb : w'.book? k = some b) :
    ∃ ctx p, i = .initializeMarket ctx p ∧ k = ctx.marketKey p ∧ ctx.authority.canSign = true ∧
      p.Accepted w.clock ∧ b = ⟨newMarket O ctx p, ∅, none⟩ ∧ w'.escrow k = 0 ∧
      w'.ledger.title (.vault k) = some (ctx.usdcMint, k) := by
  by_cases hm : Instruction.market? i = some k
  swap
  · rw [step_idle_book h hm, hn] at hb
    cases hb
  rcases step_finds_book h hm with ⟨b₀, h₀⟩ | ⟨ctx, p, rfl⟩
  · rw [hn] at h₀
    cases h₀
  obtain ⟨hs, -, ha, l, es, hl, rfl⟩ := initializeMarket_ok h
  obtain rfl := Option.some.inj hm
  rw [World.setBook_book?_self] at hb
  have ht := Ledger.initializeAccount_title hl
  exact ⟨ctx, p, rfl, rfl, hs, ha, (Option.some.inj hb).symm, ht.2.1, ht.1⟩

/-! ## Prop vaults -/

theorem step_propVault (hw : WellFormed w) (h : step O w i = .ok w') {v : PropVault D}
    (hv : w.propVault? k = some v) : VaultMoves O w w' k v i := by
  have ok := hw.propVaults k v hv
  by_cases hm : Instruction.propVault? i = some k
  swap
  · refine .idle hv hm (step_idle_propVault h hm) ?_
    rw [ok.key] at hm ⊢
    exact step_idle_escrow hw h rfl (market?_ne_propVault hw h) hm
  cases i <;> simp only [Instruction.propVault?, Option.some.injEq, reduceCtorEq] at hm <;>
    subst hm
  case initializePropVault ctx p =>
    obtain ⟨-, hn, -⟩ := initializePropVault_ok h
    rw [hn] at hv
    cases hv
  case settlePropVault ctx proof =>
    obtain ⟨v₁, holds, w₁, es, hc, hs, rfl⟩ := settlePropVault_ok h
    obtain rfl := Option.some.inj (hc.propVault.symm.trans hv)
    have hvk := hc.vault.symm.trans ok.vault
    rw [hvk] at hs
    obtain ⟨h0, hmv⟩ := sweep_moved (hvk ▸ hc.distinct holds) hs
    exact ⟨_, 0, _, World.setPropVault_propVault?_self, .settle rfl hc hmv, by simp [h0]⟩
  case cancelPropVault ctx =>
    obtain ⟨v₁, d, w₁, es, hc, hs, rfl⟩ := cancelPropVault_ok h
    obtain rfl := Option.some.inj (hc.propVault.symm.trans hv)
    have hvk := hc.vault.symm.trans ok.vault
    rw [hvk] at hs
    obtain ⟨h0, hmv⟩ := sweep_moved (hvk ▸ hc.distinct) hs
    exact ⟨_, 0, _, World.setPropVault_propVault?_self, .cancel rfl hc hmv, by simp [h0]⟩

/-- A prop vault appears only funded with its amount. -/
theorem step_propVault_new (h : step O w i = .ok w') (hn : w.propVault? k = none)
    {v : PropVault D} (hv : w'.propVault? k = some v) :
    ∃ ctx p, i = .initializePropVault ctx p ∧ k = ctx.vaultKey p ∧
      ctx.depositor.canSign = true ∧ p.Accepted w.clock ctx ∧ v = newPropVault O ctx p ∧
      v.validate = .ok .unit ∧ w'.escrow k = p.amount ∧
      w'.ledger.title (.vault k) = some (ctx.usdcMint, k) ∧
      w'.ledger.title ctx.depositorToken = some (ctx.usdcMint, ctx.depositor) := by
  by_cases hm : Instruction.propVault? i = some k
  swap
  · rw [step_idle_propVault h hm, hn] at hv
    cases hv
  rcases step_finds_propVault h hm with ⟨v₀, h₀⟩ | ⟨ctx, p, rfl⟩
  · rw [hn] at h₀
    cases h₀
  obtain ⟨hs, -, ha, hval, htd, l₁, l, es, hl₁, hl, rfl⟩ := initializePropVault_ok h
  obtain rfl := Option.some.inj hm
  rw [World.setPropVault_propVault?_self] at hv
  obtain rfl := Option.some.inj hv
  have ht := Ledger.initializeAccount_title hl₁
  have hne : ctx.depositorToken ≠ .vault (ctx.vaultKey p) := by
    intro he
    rw [he, Ledger.title, (Ledger.initializeAccount_ok hl₁).1] at htd
    cases htd
  have hm := Ledger.transfer_ok hne hl
  have hg := initializeAccount_grows hl₁ fun p hp => Pubkey.vault.inj hp
  refine ⟨ctx, p, rfl, rfl, hs, ha, rfl, hval, ?_, ?_, ?_⟩
  · simp [hm.credit, ht.2.1]
  · simp [hm.titles, ht.1]
  · exact (hm.titles _).trans (hg.keeps _ _ htd)

/-! ## Well-formedness -/

theorem WellFormed.step (hw : WellFormed w) (h : step O w i = .ok w') : WellFormed w' where
  conserved := (step_ledger h).conserved hw.conserved
  owners j m o ht := ((step_ledger h).creates j m o ht).elim (hw.owners j m o) id
  books j b' hb' := by
    cases hb : w.book? j with
    | none =>
        obtain ⟨ctx, p, -, rfl, hs, -, rfl, -, ht⟩ := step_book_new h hb hb'
        exact ⟨rfl, rfl, ht, hs, fun o q hq => by simp at hq, fun o q hq => by simp at hq⟩
    | some b =>
        obtain ⟨b₁, x, y, hb₁, hstep, -⟩ := step_book hw h hb
        obtain rfl := Option.some.inj (hb₁.symm.trans hb')
        exact hstep.bookOk (hw.books j b hb) (step_ledger h)
  propVaults j v' hv' := by
    cases hv : w.propVault? j with
    | none =>
        obtain ⟨ctx, p, -, rfl, hs, -, rfl, -, -, ht, htok⟩ := step_propVault_new h hv hv'
        exact ⟨rfl, rfl, ht, hs, _, htok⟩
    | some v =>
        obtain ⟨v₁, x, y, hv₁, hstep, -⟩ := step_propVault hw h hv
        obtain rfl := Option.some.inj (hv₁.symm.trans hv')
        exact hstep.propVaultOk (hw.propVaults j v hv) (step_ledger h)

omit [Inhabited D] in
theorem Genesis.wellFormed (h : Genesis w) : WellFormed w where
  conserved := h.conserved
  owners k m o ht := by
    rw [h.vaults] at ht
    cases ht
  books k b hb := by simp [World.book?, h.books] at hb
  propVaults k v hv := by simp [World.propVault?, h.propVaults] at hv

theorem reachable_wellFormed (h : Reachable O w) : WellFormed w :=
  h.invariant (fun _ hg => Genesis.wellFormed hg) fun _ _ _ hw hs => WellFormed.step hw hs

end ProofBook.StepCases
