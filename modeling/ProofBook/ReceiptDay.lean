import ProofBook.Binding

/-!
# The day on a receipt

The adapter, the oracle and both receipts take the day of a proof timestamp by the
same truncating cast. They agree for every timestamp, and they are right exactly for
the days that fit the sixteen bits of the seed.
-/
namespace ProofBook.ReceiptDay
open Addresses OracleWire State Checked OracleAdapter MockOracle OracleSound Chain
open Instructions.Settlement Instructions.PropVaults Binding

variable {D : Type} [DecidableEq D]

/-- The day of a millisecond timestamp, before and after the epoch. -/
def dayOf (ts : Int64) : ℤ := ts.toInt / msPerDay

/-- From the epoch on, for 65536 days. -/
def Representable (ts : Int64) : Prop := 0 ≤ ts.toInt ∧ ts.toInt < 65536 * msPerDay

/-- The timestamp and the day on a market's receipt. -/
def marketReceipt (w : World D) (market : Pubkey) : Option (Int64 × UInt16) :=
  (w.book? market).map fun b => (b.market.settleProofTs, b.market.settleEpochDay)

def vaultReceipt (w : World D) (propVault : Pubkey) : Option (Int64 × UInt16) :=
  (w.propVault? propVault).map fun v => (v.settleProofTs, v.settleEpochDay)

/-- A settlement against the bundled oracle: the timestamp of its proof, the roots
account it was given and the receipt it leaves. -/
inductive Settles (H : Keccak D) (w w' : World D) :
    Int64 → Pubkey → Option (Int64 × UInt16) → Prop
  | market {ctx : SettleMarket} {claimedOutcome : ℕ} {proof : SettlementProof D} :
      settleMarket (mockOracle H) w ctx claimedOutcome proof = .ok w' →
      Settles H w w' proof.ts ctx.oracleRoots (marketReceipt w' ctx.market)
  | marketV3 {ctx : SettleMarket} {claimedOutcome : ℕ} {proof : SettlementProofV3 D} :
      settleMarketV3 (mockOracle H) w ctx claimedOutcome proof = .ok w' →
      Settles H w w' proof.ts ctx.oracleRoots (marketReceipt w' ctx.market)
  | propVault {ctx : SettlePropVault} {proof : SettlementProofV3 D} :
      settlePropVault (mockOracle H) w ctx proof = .ok w' →
      Settles H w w' proof.ts ctx.oracleRoots (vaultReceipt w' ctx.propVault)

/-- The receipt names the day of the timestamp, and the roots are those published
for that day, at its address. -/
def OwnDay (w : World D) (ts : Int64) (account : Pubkey)
    (receipt : Option (Int64 × UInt16)) : Prop :=
  ∃ day roots, receipt = some (ts, day) ∧ (day.toNat : ℤ) = dayOf ts ∧
    account = .dailyScores mockOracleId day ∧ w.rootsView account = some roots ∧
    roots.epochDay = day

/-! ## The truncated day -/

theorem epochDayOf_toNat (ts : Int64) : ((epochDayOf ts).toNat : ℤ) = dayOf ts % 65536 := by
  have hlow : 0 ≤ dayOf ts % 65536 := Int.emod_nonneg _ (by decide)
  have hhigh : dayOf ts % 65536 < 65536 := Int.emod_lt_of_pos _ (by decide)
  change (((UInt16.ofNat (dayOf ts % 65536).toNat).toNat : ℕ) : ℤ) = _
  rw [UInt16.toNat_ofNat', Nat.mod_eq_of_lt (by omega), Int.toNat_of_nonneg hlow]

theorem representable_iff {ts : Int64} : Representable ts ↔ 0 ≤ dayOf ts ∧ dayOf ts < 65536 := by
  simp only [Representable, dayOf, msPerDay]
  omega

/-- The cast is exact on the days of sixteen bits, and on no others. -/
theorem epochDayOf_exact {ts : Int64} :
    ((epochDayOf ts).toNat : ℤ) = dayOf ts ↔ Representable ts := by
  rw [epochDayOf_toNat, representable_iff]
  constructor
  · intro h
    rw [← h]
    exact ⟨Int.emod_nonneg _ (by decide), Int.emod_lt_of_pos _ (by decide)⟩
  · intro h
    exact Int.emod_eq_of_lt h.1 h.2

/-! ## What a settlement records -/

variable {H : Keccak D} {w w' : World D} {view : RootsView D} {account : Pubkey} {holds : Bool}

/-- The roots account of a verdict is the one of the truncated day. -/
def RootsChecked (view : RootsView D) (account : Pubkey) (ts : Int64) : Prop :=
  account = dailyScoresPda mockOracleId ts ∧ ∃ roots, RootsOf view account ts roots

theorem buildAndVerify_roots {market : Market D} {claimedOutcome : ℕ} {proof : SettlementProof D}
    (h : buildAndVerify (mockOracle H) view mockOracleId account market claimedOutcome proof =
      .ok holds) : RootsChecked view account proof.ts := by
  simp only [buildAndVerify, invokeValidateStatV2_eq, validateStatV2, bind_eq_ok, mapError_eq_ok,
    require_eq_ok, loadRoots_ok] at h
  obtain ⟨_, _, _, _, _, _, _, haccount, roots, hroots, _⟩ := h
  exact ⟨haccount, roots, haccount ▸ hroots⟩

theorem buildAndVerifyV3Legs_roots {fixtureId : Int64} {legs : List StatLeg}
    {predicates : List LegPredicate} {proof : SettlementProofV3 D}
    (h : buildAndVerifyV3Legs (mockOracle H) view mockOracleId account fixtureId legs predicates
      proof = .ok holds) : RootsChecked view account proof.ts := by
  simp only [buildAndVerifyV3Legs, invokeValidateStatV3_eq, validateStatV3, bind_eq_ok,
    mapError_eq_ok, require_eq_ok, loadRoots_ok] at h
  obtain ⟨_, _, _, _, _, _, _, haccount, roots, hroots, _⟩ := h
  exact ⟨haccount, roots, haccount ▸ hroots⟩

omit [DecidableEq D] in
theorem marketReceipt_recorded {key : Pubkey} {b : Book D} {m : Market D} {r : Receipt D}
    {es : List (Event D)} (h : recordSettlement b.market r = .ok m) :
    marketReceipt (w.setBook key { b with market := m } es) key =
      some (r.proofTs, epochDayOf r.proofTs) := by
  rw [marketReceipt, World.setBook_book?_self, (recordSettlement_ok h).keeps]
  rfl

/-- Every settlement records the timestamp of its proof with the truncated day, and
has checked the roots of that day. -/
theorem settles_spec {ts : Int64} {receipt : Option (Int64 × UInt16)}
    (h : Settles H w w' ts account receipt) :
    receipt = some (ts, epochDayOf ts) ∧ RootsChecked w.rootsView account ts := by
  cases h with
  | market h =>
      obtain ⟨b, m, es, -, -, -, hv, hr, rfl⟩ := settleMarket_ok h
      exact ⟨marketReceipt_recorded hr, buildAndVerify_roots hv⟩
  | marketV3 h =>
      obtain ⟨b, spec, m, es, -, -, -, -, hv, hr, rfl⟩ := settleMarketV3_ok h
      simp only [buildAndVerifyV3, bind_eq_ok] at hv
      obtain ⟨outcome, -, hv⟩ := hv
      exact ⟨marketReceipt_recorded hr, buildAndVerifyV3Legs_roots hv⟩
  | propVault h =>
      obtain ⟨v, holds, w₁, es, hc, -, rfl⟩ := settlePropVault_ok h
      constructor
      · rw [vaultReceipt, World.setPropVault_propVault?_self]
        rfl
      · exact buildAndVerifyV3Legs_roots hc.verdict

theorem settles_ownDay {ts : Int64} {receipt : Option (Int64 × UInt16)}
    (h : Settles H w w' ts account receipt) : OwnDay w ts account receipt ↔ Representable ts := by
  obtain ⟨hreceipt, haccount, roots, hroots, hday⟩ := settles_spec h
  rw [← epochDayOf_exact]
  constructor
  · intro hown
    obtain ⟨day, _, hrecorded, hexact, -⟩ := hown
    rw [hreceipt] at hrecorded
    injection hrecorded with hrecorded
    rw [(Prod.mk.inj hrecorded).2]
    exact hexact
  · intro hexact
    exact ⟨_, roots, hreceipt, hexact, haccount, hroots, hday⟩

/-- A settlement is recorded under the day of its timestamp exactly when that day has
sixteen bits; such settlements of distinct days are recorded under distinct days. -/
theorem own_day_iff {ts : Int64} {receipt : Option (Int64 × UInt16)}
    (h : Settles H w w' ts account receipt) :
    (OwnDay w ts account receipt ↔ Representable ts) ∧
      ∀ {v v' : World D} {ts' account' receipt'}, Settles H v v' ts' account' receipt' →
        Representable ts → Representable ts' → dayOf ts ≠ dayOf ts' →
        receipt.map Prod.snd ≠ receipt'.map Prod.snd := by
  refine ⟨settles_ownDay h, ?_⟩
  intro v v' ts' account' receipt' h' hts hts' hne hsame
  rw [(settles_spec h).1, (settles_spec h').1] at hsame
  injection hsame with hsame
  apply hne
  rw [← epochDayOf_exact.mpr hts, ← epochDayOf_exact.mpr hts']
  exact congrArg (fun day : UInt16 => (day.toNat : ℤ)) hsame

/-! ## The day that comes round again -/

/-- A proof of the published goals, for another timestamp. -/
def goalsProofAt (ts : Int64) : SettlementProofV3 (List UInt8) := { goalsProof with ts := ts }

/-- 65536 days after the epoch. -/
def wrapTs : Int64 := 5662310400000

/-- What it takes for the vault to settle at a timestamp with the roots of day zero. -/
theorem goalsWorld_settles_day {ts : Int64} (hday : epochDayOf ts = 0)
    (hrun : (settlePropVault (mockOracle plainHash) goalsWorld goalsContext
      (goalsProofAt ts)).toOption.isSome = true) :
    ∃ w', Settles plainHash goalsWorld w' ts goalsContext.oracleRoots (some (ts, 0)) := by
  cases hok : settlePropVault (mockOracle plainHash) goalsWorld goalsContext (goalsProofAt ts) with
  | error e =>
      rw [hok] at hrun
      cases hrun
  | ok w' =>
      have hs : Settles plainHash goalsWorld w' ts goalsContext.oracleRoots
          (vaultReceipt w' goalsVault) := .propVault hok
      rw [(settles_spec hs).1, hday] at hs
      exact ⟨w', hs⟩

theorem goalsWorld_settles_zero :
    ∃ w', Settles plainHash goalsWorld w' 0 goalsContext.oracleRoots (some (0, 0)) :=
  goalsWorld_settles_day (by decide +kernel) (by decide +kernel)

theorem goalsWorld_settles_wrap :
    ∃ w', Settles plainHash goalsWorld w' wrapTs goalsContext.oracleRoots (some (wrapTs, 0)) :=
  goalsWorld_settles_day (by decide +kernel) (by decide +kernel)

theorem own_day_iff_goals : ∃ w',
    Settles plainHash goalsWorld w' 0 goalsContext.oracleRoots (some (0, 0)) ∧
      OwnDay goalsWorld 0 goalsContext.oracleRoots (some (0, 0)) := by
  obtain ⟨w', h⟩ := goalsWorld_settles_zero
  exact ⟨w', h, (own_day_iff h).1.mpr ⟨by decide, by decide⟩⟩

/-- The vault settles with a timestamp of day 65536, and its receipt says day zero. -/
theorem day_wraps : dayOf wrapTs = 65536 ∧ ∃ w', Settles plainHash goalsWorld w' wrapTs
      goalsContext.oracleRoots (some (wrapTs, 0)) ∧
    ¬ OwnDay goalsWorld wrapTs goalsContext.oracleRoots (some (wrapTs, 0)) := by
  obtain ⟨w', h⟩ := goalsWorld_settles_wrap
  refine ⟨by decide +kernel, w', h, ?_⟩
  rw [settles_ownDay h, Representable]
  decide +kernel

end ProofBook.ReceiptDay
