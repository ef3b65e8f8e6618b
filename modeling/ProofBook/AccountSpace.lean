import ProofBook.OracleSound
import ProofBook.Lib.Layout

/-!
# The space of an account

Accounts are stored in Borsh after an eight-byte discriminator. The reserved space of a
type is the sum over its fields, with the largest variant of an enumeration and the full
capacity of a vector; `space` takes the unused capacity off again. Keys, digests and
discriminators are any encodings of the right lengths.
-/
namespace ProofBook.AccountSpace
open Addresses OracleWire State MockOracle OracleSound Lib
open Layout

variable {D : Type}

/-- How what the program only passes on is stored. -/
structure Wire (D : Type) where
  discriminator : List.Vector UInt8 8
  pubkey : Pubkey → List.Vector UInt8 32
  digest : D → List.Vector UInt8 32

/-! ## Words -/

theorem i32Bytes_length (v : Int32) : (i32Bytes v).length = 4 := leBytes_length 4 v.toUInt32.toNat

theorem i64Bytes_length (v : Int64) : (i64Bytes v).length = 8 := leBytes_length 8 v.toUInt64.toNat

def u8 : Layout ℕ := fixed 1 (leBytes 1) fun n => leBytes_length 1 n
def u16 : Layout ℕ := fixed 2 (leBytes 2) fun n => leBytes_length 2 n
def u32 : Layout ℕ := fixed 4 (leBytes 4) fun n => leBytes_length 4 n
def u64 : Layout ℕ := fixed 8 (leBytes 8) fun n => leBytes_length 8 n
def i32 : Layout Int32 := fixed 4 i32Bytes i32Bytes_length
def i64 : Layout Int64 := fixed 8 i64Bytes i64Bytes_length
def bool : Layout Bool := tag fun b => if b then 1 else 0

def Wire.key (wire : Wire D) : Layout Pubkey :=
  fixed 32 (fun k => (wire.pubkey k).toList) fun k => (wire.pubkey k).toList_length

def Wire.hash (wire : Wire D) : Layout D :=
  fixed 32 (fun d => (wire.digest d).toList) fun d => (wire.digest d).toList_length

/-! ## Types inside an account -/

def comparison : Layout Comparison := tag fun
  | .greaterThan => 0
  | .lessThan => 1
  | .equalTo => 2

def binaryExpression : Layout BinaryExpression := tag fun
  | .add => 0
  | .subtract => 1

def marketStatus : Layout MarketStatus := tag fun
  | .opened => 0
  | .locked => 1
  | .settled => 2
  | .cancelled => 3

def vaultStatus : Layout VaultStatus := tag fun
  | .funded => 0
  | .paidOut => 1
  | .refunded => 2

def outcomeSpec : Layout OutcomeSpec := record
  [u32.field (·.statAKey.toNat), i32.field (·.statAPeriod), bool.field (·.hasStatB),
    u32.field (·.statBKey.toNat), i32.field (·.statBPeriod), binaryExpression.option.field (·.op),
    comparison.field (·.comparison), i32.field (·.threshold)]

def outcomeState : Layout OutcomeState := record [outcomeSpec.field (·.spec), u64.field (·.pool)]

def statLeg : Layout StatLeg := record [u32.field (·.key.toNat), i32.field (·.period)]

def LegPredicate.shape :
    LegPredicate → ℕ × Comparison × Int32 ⊕ ℕ × ℕ × BinaryExpression × Comparison × Int32
  | .single index cmp threshold => .inl (index, cmp, threshold)
  | .binary indexA indexB op cmp threshold => .inr (indexA, indexB, op, cmp, threshold)

def legPredicate : Layout LegPredicate := field LegPredicate.shape <| choice
  (record [u8.field (·.1), comparison.field (·.2.1), i32.field (·.2.2)])
  (record [u8.field (·.1), u8.field (·.2.1), binaryExpression.field (·.2.2.1),
    comparison.field (·.2.2.2.1), i32.field (·.2.2.2.2)])

def comboOutcome : Layout ComboOutcome :=
  record [(vec u32 maxLegs legPredicate).field (·.predicates)]

/-! ## Accounts -/

/-- An account with the seeds' bumps, which no handler decides anything by. -/
structure Bumped (α : Type) where
  account : α
  bump : UInt8
  vaultBump : UInt8

def bumpByte : Layout UInt8 := tag id

/-- A market with room for `cap` outcomes. -/
def market (wire : Wire D) (cap : ℕ) : Layout (Bumped (Market D)) := record
  [wire.key.field (·.account.authority), i64.field (·.account.fixtureId),
    u8.field (·.account.marketType), marketStatus.field (·.account.status),
    u8.field (·.account.numOutcomes), u8.field (·.account.winningOutcome),
    u16.field (·.account.feeBps), i64.field (·.account.lockTime),
    i64.field (·.account.resolutionTimeout), wire.key.field (·.account.oracleProgram),
    wire.key.field (·.account.usdcMint), wire.key.field (·.account.vault),
    wire.key.field (·.account.feeTreasury), u64.field (·.account.totalPool),
    u64.field (·.account.totalWinningPool), u64.field (·.account.feeAmount),
    u64.field (·.account.paidOut), u64.field (·.account.winningStakeClaimed),
    bool.field (·.account.feeWithdrawn), i64.field (·.account.settledAt),
    wire.hash.field (·.account.settleProofRef), i64.field (·.account.settleProofTs),
    u16.field (·.account.settleEpochDay.toNat), wire.key.field (·.account.settleDailyRoots),
    wire.key.field (·.account.settleResolver), bumpByte.field (·.bump),
    bumpByte.field (·.vaultBump), (vec u32 cap outcomeState).field (·.account.outcomes)]

/-- A compound spec with room for some legs and outcomes; it has one bump. -/
def comboSpec (wire : Wire D) (legs outcomes : ℕ) : Layout (Bumped ComboSpec) := record
  [wire.key.field (·.account.market), (vec u32 legs statLeg).field (·.account.legs),
    (vec u32 outcomes comboOutcome).field (·.account.outcomes), bumpByte.field (·.bump)]

/-- A prop vault with room for some legs and predicates. -/
def propVault (wire : Wire D) (legs preds : ℕ) : Layout (Bumped (PropVault D)) := record
  [wire.key.field (·.account.depositor), wire.key.field (·.account.beneficiary),
    u64.field (·.account.vaultId), i64.field (·.account.fixtureId),
    wire.key.field (·.account.usdcMint), wire.key.field (·.account.vault),
    u64.field (·.account.amount), vaultStatus.field (·.account.status),
    (vec u32 legs statLeg).field (·.account.legs),
    (vec u32 preds legPredicate).field (·.account.predicates), i64.field (·.account.lockTime),
    i64.field (·.account.resolutionTimeout), wire.key.field (·.account.oracleProgram),
    i64.field (·.account.settledAt), wire.hash.field (·.account.settleProofRef),
    i64.field (·.account.settleProofTs), u16.field (·.account.settleEpochDay.toNat),
    wire.key.field (·.account.settleDailyRoots), wire.key.field (·.account.settleResolver),
    bumpByte.field (·.bump), bumpByte.field (·.vaultBump)]

/-- What is written to an account. -/
def accountBytes {α : Type} (wire : Wire D) (l : Layout α) (a : α) : List UInt8 :=
  wire.discriminator.toList ++ l.encode a

/-! ## Space -/

/-- `Market::space`. -/
def marketSpace (wire : Wire D) (numOutcomes : ℕ) : Option ℕ :=
  let unused := maxOutcomes - numOutcomes
  checkedSubU64 (8 + (market wire maxOutcomes).initSpace) (unused * outcomeState.initSpace)

/-- `ComboSpec::space`. -/
def comboSpecSpace (wire : Wire D) (numLegs numOutcomes : ℕ) : Option ℕ := do
  let unusedLegs := maxLegs - numLegs
  let unusedOutcomes := maxOutcomes - numOutcomes
  let space ← checkedSubU64 (8 + (comboSpec wire maxLegs maxOutcomes).initSpace)
    (unusedLegs * statLeg.initSpace)
  checkedSubU64 space (unusedOutcomes * comboOutcome.initSpace)

/-- `PropVault::space`. -/
def propVaultSpace (wire : Wire D) (numLegs numPreds : ℕ) : Option ℕ := do
  let unusedLegs := maxLegs - numLegs
  let unusedPreds := maxLegs - numPreds
  let space ← checkedSubU64 (8 + (propVault wire maxLegs maxLegs).initSpace)
    (unusedLegs * statLeg.initSpace)
  checkedSubU64 space (unusedPreds * legPredicate.initSpace)

variable {wire : Wire D}

section
attribute [local simp] u8 u16 u32 u64 i32 i64 bool Wire.key Wire.hash comparison binaryExpression
  marketStatus vaultStatus bumpByte

@[simp] theorem outcomeState_initSpace : outcomeState.initSpace = 32 := by
  simp [outcomeState, outcomeSpec]

@[simp] theorem statLeg_initSpace : statLeg.initSpace = 8 := by
  simp [statLeg]

@[simp] theorem legPredicate_initSpace : legPredicate.initSpace = 9 := by
  simp [legPredicate]

@[simp] theorem comboOutcome_initSpace : comboOutcome.initSpace = 49 := by
  simp [comboOutcome, maxLegs]

theorem market_initSpace (cap : ℕ) : (market wire cap).initSpace = 351 + cap * 32 := by
  simp only [market, record_initSpace, List.map_cons, List.map_nil, List.sum_cons, List.sum_nil,
    field_initSpace, vec_initSpace, fixed_initSpace, tag_initSpace, u8, u16, u32, u64, i64, bool,
    Wire.key, Wire.hash, marketStatus, bumpByte, outcomeState_initSpace]
  omega

theorem comboSpec_initSpace (legs outcomes : ℕ) :
    (comboSpec wire legs outcomes).initSpace = 41 + legs * 8 + outcomes * 49 := by
  simp [comboSpec]
  omega

theorem propVault_initSpace (legs preds : ℕ) :
    (propVault wire legs preds).initSpace = 325 + legs * 8 + preds * 9 := by
  simp [propVault]
  omega

@[simp] theorem outcomeState_ok (o : OutcomeState) : outcomeState.Ok o := by
  simp [outcomeState, outcomeSpec]

@[simp] theorem statLeg_ok (leg : StatLeg) : statLeg.Ok leg := by
  simp [statLeg]

@[simp] theorem legPredicate_ok (p : LegPredicate) : legPredicate.Ok p := by
  cases p <;> simp [legPredicate, LegPredicate.shape]

theorem comboOutcome_ok {outcome : ComboOutcome} :
    comboOutcome.Ok outcome ↔ outcome.predicates.length ≤ maxLegs := by
  simp [comboOutcome]

theorem market_ok {cap : ℕ} {m : Bumped (Market D)} :
    (market wire cap).Ok m ↔ m.account.outcomes.length ≤ cap := by
  simp [market]

theorem comboSpec_ok {legs outcomes : ℕ} {s : Bumped ComboSpec} :
    (comboSpec wire legs outcomes).Ok s ↔ s.account.legs.length ≤ legs ∧
      s.account.outcomes.length ≤ outcomes ∧
      ∀ outcome ∈ s.account.outcomes, outcome.predicates.length ≤ maxLegs := by
  simp [comboSpec, comboOutcome_ok]

theorem propVault_ok {legs preds : ℕ} {v : Bumped (PropVault D)} :
    (propVault wire legs preds).Ok v ↔
      v.account.legs.length ≤ legs ∧ v.account.predicates.length ≤ preds := by
  simp [propVault]

end

theorem marketSpace_eq (n : ℕ) :
    marketSpace wire n = some (8 + (market wire (min n maxOutcomes)).initSpace) := by
  simp only [marketSpace, checkedSubU64_eq_some, market_initSpace, outcomeState_initSpace,
    maxOutcomes]
  omega

theorem comboSpecSpace_eq (legs outcomes : ℕ) : comboSpecSpace wire legs outcomes =
    some (8 + (comboSpec wire (min legs maxLegs) (min outcomes maxOutcomes)).initSpace) := by
  simp only [comboSpecSpace, Option.bind_eq_bind, Option.bind_eq_some_iff, checkedSubU64_eq_some,
    comboSpec_initSpace, statLeg_initSpace, comboOutcome_initSpace, maxLegs, maxOutcomes]
  exact ⟨_, ⟨by omega, rfl⟩, by omega, by omega⟩

theorem propVaultSpace_eq (legs preds : ℕ) : propVaultSpace wire legs preds =
    some (8 + (propVault wire (min legs maxLegs) (min preds maxLegs)).initSpace) := by
  simp only [propVaultSpace, Option.bind_eq_bind, Option.bind_eq_some_iff, checkedSubU64_eq_some,
    propVault_initSpace, statLeg_initSpace, legPredicate_initSpace, maxLegs]
  exact ⟨_, ⟨by omega, rfl⟩, by omega, by omega⟩

theorem accountBytes_length_le {α : Type} {l : Layout α} {a : α} (h : l.Ok a) :
    (accountBytes wire l a).length ≤ 8 + l.initSpace := by
  have hbytes := l.fits a h
  rw [accountBytes, List.length_append, wire.discriminator.toList_length]
  omega

/-- A capacity is not stored. -/
theorem market_encode (cap cap' : ℕ) : (market wire cap).encode = (market wire cap').encode := rfl

theorem comboSpec_encode (legs legs' outcomes outcomes' : ℕ) :
    (comboSpec wire legs outcomes).encode = (comboSpec wire legs' outcomes').encode := rfl

theorem propVault_encode (legs legs' preds preds' : ℕ) :
    (propVault wire legs preds).encode = (propVault wire legs' preds').encode := rfl

/-- Space was computed, and the bytes fit in it. -/
def FitsIn (space : Option ℕ) (bytes : List UInt8) : Prop :=
  ∃ size, space = some size ∧ bytes.length ≤ size

theorem market_fits {m : Bumped (Market D)} (h : m.account.outcomes.length ≤ maxOutcomes) :
    FitsIn (marketSpace wire m.account.outcomes.length)
      (accountBytes wire (market wire maxOutcomes) m) := by
  refine ⟨_, marketSpace_eq _, ?_⟩
  rw [Nat.min_eq_left h, accountBytes, market_encode _ m.account.outcomes.length, ← accountBytes]
  exact accountBytes_length_le (market_ok.mpr le_rfl)

theorem comboSpec_fits {s : Bumped ComboSpec} (hlegs : s.account.legs.length ≤ maxLegs)
    (houtcomes : s.account.outcomes.length ≤ maxOutcomes)
    (hpreds : ∀ outcome ∈ s.account.outcomes, outcome.predicates.length ≤ maxLegs) :
    FitsIn (comboSpecSpace wire s.account.legs.length s.account.outcomes.length)
      (accountBytes wire (comboSpec wire maxLegs maxOutcomes) s) := by
  refine ⟨_, comboSpecSpace_eq _ _, ?_⟩
  rw [Nat.min_eq_left hlegs, Nat.min_eq_left houtcomes, accountBytes,
    comboSpec_encode _ s.account.legs.length _ s.account.outcomes.length, ← accountBytes]
  exact accountBytes_length_le (comboSpec_ok.mpr ⟨le_rfl, le_rfl, hpreds⟩)

theorem propVault_fits {v : Bumped (PropVault D)} (hlegs : v.account.legs.length ≤ maxLegs)
    (hpreds : v.account.predicates.length ≤ maxLegs) :
    FitsIn (propVaultSpace wire v.account.legs.length v.account.predicates.length)
      (accountBytes wire (propVault wire maxLegs maxLegs) v) := by
  refine ⟨_, propVaultSpace_eq _ _, ?_⟩
  rw [Nat.min_eq_left hlegs, Nat.min_eq_left hpreds, accountBytes,
    propVault_encode _ v.account.legs.length _ v.account.predicates.length, ← accountBytes]
  exact accountBytes_length_le (propVault_ok.mpr ⟨le_rfl, le_rfl⟩)

end ProofBook.AccountSpace
