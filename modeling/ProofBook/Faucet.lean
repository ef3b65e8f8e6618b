import ProofBook.Lib.Runs
import ProofBook.Lib.Checked

/-!
# The devnet faucet

A call reads the wallet's ledger row, checks the limits, builds and sends a
transaction, polls for its confirmation and upserts the row: separate promises,
with nothing that keeps two calls for one wallet apart. A transaction can land
after its call gave up. All instances of the API share one clock, in
milliseconds; amounts are in base units and lamports.
-/
namespace ProofBook.Faucet
open Runs Checked

structure FaucetConfig where
  usdcGrant : ℕ
  solGrant : ℕ
  /-- A wallet that holds this much gets no tokens. -/
  usdcCeiling : ℕ
  solFloor : ℕ
  maxGrants : ℕ
  cooldownSec : ℕ

def defaultConfig : FaucetConfig := ⟨10000000000, 20000000, 5000000000, 10000000, 5, 30⟩

/-- The ledger row of a wallet. -/
structure FaucetGrant where
  grants : ℕ
  totalUsdc : ℕ
  lastGrantAt : ℕ
deriving Repr, DecidableEq

/-- The instructions of one grant. -/
structure Grant where
  lamports : Option ℕ
  createsAccount : Bool
  usdc : Option ℕ
deriving Repr, DecidableEq

/-- A signed transaction; equal transactions have one signature. -/
structure Tx where
  grant : Grant
  blockhash : ℕ
deriving Repr, DecidableEq

def Tx.tokens (tx : Tx) : ℕ := tx.grant.usdc.getD 0

structure FaucetResult where
  usdc : ℕ
  sol : ℕ
  sig : Option Tx
  note : Option String
deriving Repr, DecidableEq

section
variable (cfg : FaucetConfig)

def cooldownMs : ℕ := cfg.cooldownSec * 1000

/-- The rate limit; a wallet without a row passes. -/
def checkLimits (grant : Option FaucetGrant) (now : ℕ) : Except String PUnit.{1} :=
  match grant with
  | none => pure .unit
  | some g => do
      let sinceMs : ℤ := now - g.lastGrantAt
      let wait := (cooldownMs cfg - sinceMs + 999) / 1000
      require (¬ sinceMs < cooldownMs cfg) s!"Slow down — try again in {wait}s."
      require (¬ cfg.maxGrants ≤ g.grants)
        "This wallet has had its share of test funds. Use a different wallet."

/-- `held` is the balance of the wallet's token account, if it has one. -/
def buildGrant (lamports : ℕ) (held : Option ℕ) : Grant where
  lamports := if lamports < cfg.solFloor then some cfg.solGrant else none
  createsAccount := held.isNone
  usdc := if held.getD 0 < cfg.usdcCeiling then some cfg.usdcGrant else none

end

def Grant.isEmpty (g : Grant) : Bool := g.lamports.isNone && !g.createsAccount && g.usdc.isNone

def alreadyFunded : FaucetResult :=
  ⟨0, 0, none, some "Already funded — you have enough to bet."⟩

def funded (tx : Tx) : FaucetResult := ⟨tx.tokens, tx.grant.lamports.getD 0, some tx, none⟩

/-! ## Runs -/

/-- Where a call of `fund` is. -/
inductive Call
  | reading
  | read (grant : Option FaucetGrant)
  | admitted
  | prepared (grant : Grant)
  | polling (tx : Tx)
  | confirmed (tx : Tx)
  | done (result : Except String FaucetResult)
deriving DecidableEq

def Call.inFlight : Call → Bool
  | .done _ => false
  | _ => true

/-- The call goes by a row that it has read. -/
def Call.pending : Call → Bool
  | .reading | .done _ => false
  | _ => true

structure Landing where
  tx : Tx
  time : ℕ
deriving Repr, DecidableEq

/-- All that concerns one wallet; the latest landing first. -/
structure WalletState where
  row : Option FaucetGrant
  calls : List Call
  sent : List Tx
  failed : List Tx
  landings : List Landing

def WalletState.landed (ws : WalletState) (tx : Tx) : Prop := ∃ l ∈ ws.landings, l.tx = tx

instance (ws : WalletState) (tx : Tx) : Decidable (ws.landed tx) :=
  inferInstanceAs (Decidable (∃ l ∈ ws.landings, l.tx = tx))

structure State (W : Type) where
  now : ℕ
  wallets : W → WalletState

/-- What a call does when its promise settles. -/
inductive Settles
  | rowRead
  | checked
  | balances (lamports : ℕ) (held : Option ℕ)
  | sent (blockhash : ℕ)
  | confirmed
  | statusError (err : String)
  | timedOut
  | expired
  | upserted
  /-- The promise was rejected, or the process died with it. -/
  | threw (error : String)
deriving DecidableEq

inductive Op (W : Type)
  | tick (ms : ℕ)
  | fund (wallet : W)
  | settles (wallet : W) (call : ℕ) (how : Settles)
  | lands (wallet : W) (tx : Tx)
  | fails (wallet : W) (tx : Tx)

section
variable (cfg : FaucetConfig)

def WalletState.setCall (ws : WalletState) (i : ℕ) (c : Call) : WalletState :=
  { ws with calls := ws.calls.set i c }

def upsertGrant (row : Option FaucetGrant) (tokens now : ℕ) : FaucetGrant :=
  match row with
  | none => ⟨1, tokens, now⟩
  | some g => ⟨g.grants + 1, g.totalUsdc + tokens, now⟩

/-- One continuation of a call. -/
def settle (now : ℕ) (ws : WalletState) (i : ℕ) (c : Call) (how : Settles) : Option WalletState :=
  match c, how with
  | .reading, .rowRead => some (ws.setCall i (.read ws.row))
  | .read grant, .checked =>
      match checkLimits cfg grant now with
      | .ok _ => some (ws.setCall i .admitted)
      | .error e => some (ws.setCall i (.done (.error e)))
  | .admitted, .balances lamports held =>
      let grant := buildGrant cfg lamports held
      if grant.isEmpty then some (ws.setCall i (.done (.ok alreadyFunded)))
      else some (ws.setCall i (.prepared grant))
  | .prepared grant, .sent blockhash =>
      let tx : Tx := ⟨grant, blockhash⟩
      some { ws.setCall i (.polling tx) with sent := tx :: ws.sent }
  | .polling tx, .confirmed =>
      if ws.landed tx then some (ws.setCall i (.confirmed tx)) else none
  | .polling tx, .statusError err =>
      if tx ∈ ws.failed then
        some (ws.setCall i (.done (.error s!"faucet transaction failed: {err}")))
      else none
  | .polling _, .timedOut => some (ws.setCall i (.done (.error "faucet transaction timed out")))
  | .polling _, .expired => some (ws.setCall i (.done (.error "faucet blockhash expired")))
  | .confirmed tx, .upserted =>
      some { ws.setCall i (.done (.ok (funded tx))) with
        row := some (upsertGrant ws.row tx.tokens now) }
  | .reading, .threw e | .admitted, .threw e | .prepared _, .threw e | .polling _, .threw e
  | .confirmed _, .threw e => some (ws.setCall i (.done (.error e)))
  | _, _ => none

/-- A transaction lands or fails once. -/
def WalletState.unsettled (ws : WalletState) (tx : Tx) : Prop :=
  tx ∈ ws.sent ∧ tx ∉ ws.failed ∧ ¬ ws.landed tx

instance (ws : WalletState) (tx : Tx) : Decidable (ws.unsettled tx) :=
  inferInstanceAs (Decidable (_ ∧ _))

variable {W : Type} [DecidableEq W]

def State.put (s : State W) (w : W) (ws : WalletState) : State W :=
  { s with wallets := Function.update s.wallets w ws }

def step (s : State W) : Op W → Except Unit (State W)
  | .tick ms => .ok { s with now := s.now + ms }
  | .fund w =>
      let ws := s.wallets w
      .ok (s.put w { ws with calls := ws.calls ++ [.reading] })
  | .settles w i how =>
      match (s.wallets w).calls[i]? with
      | none => .error ()
      | some c =>
          match settle cfg s.now (s.wallets w) i c how with
          | none => .error ()
          | some ws => .ok (s.put w ws)
  | .lands w tx =>
      let ws := s.wallets w
      if ws.unsettled tx then .ok (s.put w { ws with landings := ⟨tx, s.now⟩ :: ws.landings })
      else .error ()
  | .fails w tx =>
      let ws := s.wallets w
      if ws.unsettled tx then .ok (s.put w { ws with failed := tx :: ws.failed }) else .error ()

def machine : Machine (State W) (Op W) Unit := ⟨step cfg⟩

end

def start (W : Type) : State W := ⟨0, fun _ => ⟨none, [], [], [], []⟩⟩

/-! ## Orderly runs -/

/-- A call reads the row when no other goes by one, sends a transaction of its own,
gives up on none that landed, and records the one it confirmed. -/
def Undisturbed (ws : WalletState) : Call → Settles → Prop
  | .reading, .rowRead => ∀ c ∈ ws.calls, c.pending = false
  | .prepared grant, .sent blockhash => (⟨grant, blockhash⟩ : Tx) ∉ ws.sent
  | .polling tx, .timedOut | .polling tx, .expired | .polling tx, .threw _ => ¬ ws.landed tx
  | .confirmed _, .threw _ => False
  | _, _ => True

instance (ws : WalletState) (c : Call) (how : Settles) : Decidable (Undisturbed ws c how) := by
  unfold Undisturbed
  split <;> infer_instance

/-- The calls for a wallet are undisturbed, and a transaction lands while its call
polls. -/
def Orderly {W : Type} (w : W) (s : State W) : Op W → Prop
  | .settles w' i how => w' = w → ∀ c ∈ (s.wallets w).calls[i]?, Undisturbed (s.wallets w) c how
  | .lands w' tx => w' = w → .polling tx ∈ (s.wallets w).calls
  | _ => True

instance {W : Type} [DecidableEq W] (w : W) (s : State W) (op : Op W) :
    Decidable (Orderly w s op) := by
  cases op <;> simp only [Orderly] <;> infer_instance

/-! ## The invariant -/

/-- The row counts these landings, and none is later than its last grant. -/
structure Recorded (row : Option FaucetGrant) (landings : List Landing) : Prop where
  grants : (row.map (·.grants)).getD 0 = landings.length
  totalUsdc : (row.map (·.totalUsdc)).getD 0 = (landings.map (·.tx.tokens)).sum
  last : ∀ g ∈ row, ∀ l ∈ landings, l.time ≤ g.lastGrantAt

/-- The limits leave room for one more grant. -/
def Room (cfg : FaucetConfig) (now : ℕ) (row : Option FaucetGrant) : Prop :=
  ∀ g ∈ row, g.lastGrantAt + cooldownMs cfg ≤ now ∧ g.grants < cfg.maxGrants

/-- The latest landing is this transaction, and the row lacks only it. -/
def JustLanded (ws : WalletState) (tx : Tx) : Prop :=
  ∃ l earlier, ws.landings = l :: earlier ∧ l.tx = tx ∧ Recorded ws.row earlier

def CallOk (cfg : FaucetConfig) (now : ℕ) (ws : WalletState) : Call → Prop
  | .read grant => Recorded ws.row ws.landings ∧ grant = ws.row
  | .admitted | .prepared _ => Recorded ws.row ws.landings ∧ Room cfg now ws.row
  | .polling tx =>
      (¬ ws.landed tx ∧ Recorded ws.row ws.landings ∧ Room cfg now ws.row) ∨ JustLanded ws tx
  | .confirmed tx => JustLanded ws tx
  | .reading | .done _ => True

/-- Two landings are a cooldown apart. -/
def Apart (cfg : FaucetConfig) (landings : List Landing) : Prop :=
  landings.Pairwise fun later earlier => earlier.time + cooldownMs cfg ≤ later.time

structure WalletOk (cfg : FaucetConfig) (now : ℕ) (ws : WalletState) : Prop where
  single : ∀ (i j : ℕ) (c d : Call), ws.calls[i]? = some c → ws.calls[j]? = some d →
    c.pending = true → d.pending = true → i = j
  calls : ∀ c ∈ ws.calls, CallOk cfg now ws c
  quiet : (∀ c ∈ ws.calls, c.pending = false) → Recorded ws.row ws.landings
  count : ws.landings.length ≤ cfg.maxGrants
  apart : Apart cfg ws.landings
  past : ∀ l ∈ ws.landings, l.time ≤ now
  sent : ∀ l ∈ ws.landings, l.tx ∈ ws.sent
  failed : ∀ tx ∈ ws.failed, ¬ ws.landed tx

section
variable {cfg : FaucetConfig} {now now' : ℕ} {ws ws' : WalletState} {c c' : Call} {i : ℕ}
  {tx : Tx}

theorem CallOk.later (h : CallOk cfg now ws c) (hle : now ≤ now') : CallOk cfg now' ws c := by
  have room : Room cfg now ws.row → Room cfg now' ws.row := fun hr g hg =>
    ⟨(hr g hg).1.trans hle, (hr g hg).2⟩
  cases c with
  | admitted | prepared => exact ⟨h.1, room h.2⟩
  | polling tx => exact h.imp (fun h => ⟨h.1, h.2.1, room h.2.2⟩) id
  | _ => exact h

theorem WalletOk.later (h : WalletOk cfg now ws) (hle : now ≤ now') : WalletOk cfg now' ws where
  single := h.single
  calls c hc := (h.calls c hc).later hle
  quiet := h.quiet
  count := h.count
  apart := h.apart
  past l hl := (h.past l hl).trans hle
  sent := h.sent
  failed := h.failed

theorem WalletOk.others (h : WalletOk cfg now ws) (hc : ws.calls[i]? = some c)
    (hp : c.pending = true) {j : ℕ} (hj : j ≠ i) {d : Call} (hd : ws.calls[j]? = some d) :
    d.pending = false := by
  by_contra hf
  exact hj (h.single j i d c hd hc (by simpa using hf) hp)

theorem callOk_of_not_pending {d : Call} (h : d.pending = false) : CallOk cfg now ws d := by
  cases d with
  | reading | done => trivial
  | _ => cases h

/-- Calls that do not go by a row may come and go. -/
theorem WalletOk.frame (h : WalletOk cfg now ws) {calls : List Call}
    (hsame : ∀ (j : ℕ) (d : Call), d.pending = true →
      (calls[j]? = some d ↔ ws.calls[j]? = some d)) :
    WalletOk cfg now { ws with calls } where
  single j k d e hd he hdp hep :=
    h.single j k d e ((hsame j d hdp).mp hd) ((hsame k e hep).mp he) hdp hep
  calls d hd := by
    cases hp : d.pending with
    | false => exact callOk_of_not_pending hp
    | true =>
        obtain ⟨j, hj⟩ := List.mem_iff_getElem?.mp hd
        have hok := h.calls d (List.mem_of_getElem? ((hsame j d hp).mp hj))
        cases d <;> exact hok
  quiet hall := h.quiet fun d hd => by
    by_contra hp
    obtain ⟨j, hj⟩ := List.mem_iff_getElem?.mp hd
    have hp : d.pending = true := by simpa using hp
    have hfalse := hall d (List.mem_of_getElem? ((hsame j d hp).mpr hj))
    rw [hp] at hfalse
    cases hfalse
  count := h.count
  apart := h.apart
  past := h.past
  sent := h.sent
  failed := h.failed

theorem not_pending_of_done {d : Call} (h : d.inFlight = false) : d.pending = false := by
  cases d with
  | done => rfl
  | _ => cases h

/-- When the only call that goes by a row moves on, only its own state is to be
checked. -/
theorem WalletOk.setCall (h : WalletOk cfg now ws) (hlt : i < ws.calls.length)
    (hothers : ∀ j ≠ i, ∀ d, ws.calls[j]? = some d → d.pending = false)
    (hcalls : ws'.calls = ws.calls.set i c')
    (hlandings : ws'.landings = ws.landings) (hsent : ∀ tx ∈ ws.sent, tx ∈ ws'.sent)
    (hfailed : ws'.failed = ws.failed) (hok : CallOk cfg now ws' c')
    (hquiet : c'.pending = false → Recorded ws'.row ws'.landings) : WalletOk cfg now ws' := by
  have hget : ∀ j d, ws'.calls[j]? = some d → (j = i ∧ d = c') ∨ d.pending = false := by
    intro j d hd
    rw [hcalls, List.getElem?_set] at hd
    split_ifs at hd with hij
    · exact .inl ⟨hij.symm, (Option.some.inj hd).symm⟩
    · exact .inr (hothers j (Ne.symm hij) d hd)
  have hmoved : ∀ j d, ws'.calls[j]? = some d → d.pending = true → j = i := by
    intro j d hd hp
    rcases hget j d hd with ⟨hj, -⟩ | hf
    · exact hj
    · rw [hp] at hf
      cases hf
  refine ⟨fun j k d e hd he hdp hep => ?_, fun d hd => ?_, fun hall => ?_, ?_, ?_, ?_, ?_, ?_⟩
  · rw [hmoved j d hd hdp, hmoved k e he hep]
  · obtain ⟨j, hj⟩ := List.mem_iff_getElem?.mp hd
    rcases hget j d hj with ⟨-, rfl⟩ | hf
    · exact hok
    · exact callOk_of_not_pending hf
  · refine hquiet (hall c' ?_)
    rw [hcalls]
    exact List.mem_iff_getElem?.mpr ⟨i, by simp [hlt]⟩
  · exact hlandings ▸ h.count
  · exact hlandings ▸ h.apart
  · exact hlandings ▸ h.past
  · rw [hlandings]
    exact fun l hl => hsent _ (h.sent l hl)
  · simp only [WalletState.landed, hlandings, hfailed]
    exact h.failed

/-- What passes the limits has room. -/
theorem room_of_checkLimits {row : Option FaucetGrant} {u : PUnit.{1}}
    (h : checkLimits cfg row now = .ok u) : Room cfg now row := by
  rintro g rfl
  simp only [checkLimits, bind_eq_ok, require_eq_ok] at h
  obtain ⟨_, hsince, hgrants⟩ := h
  exact ⟨by omega, by omega⟩

/-- The upsert records the landing that the row lacks. -/
theorem recorded_upsert {row : Option FaucetGrant} {l : Landing} {earlier : List Landing}
    (h : Recorded row earlier) (hpast : ∀ l' ∈ l :: earlier, l'.time ≤ now) :
    Recorded (some (upsertGrant row l.tx.tokens now)) (l :: earlier) := by
  constructor
  · have hg := congrArg (· + 1) h.grants
    cases row <;> exact hg
  · have ht := congrArg (· + l.tx.tokens) h.totalUsdc
    rw [List.map_cons, List.sum_cons, Nat.add_comm]
    cases row with
    | none => simpa [upsertGrant] using ht
    | some g => exact ht
  · intro g hg
    cases hg
    have hlast : (upsertGrant row l.tx.tokens now).lastGrantAt = now := by
      cases row <;> rfl
    rw [hlast]
    exact hpast

theorem lt_of_call (hc : ws.calls[i]? = some c) : i < ws.calls.length :=
  (List.getElem?_eq_some_iff.mp hc).1

/-- The only call that goes by a row moves on, and nothing else. -/
theorem WalletOk.next (h : WalletOk cfg now ws) (hc : ws.calls[i]? = some c)
    (hp : c.pending = true) (hok : CallOk cfg now ws c')
    (hquiet : c'.pending = false → Recorded ws.row ws.landings) :
    WalletOk cfg now (ws.setCall i c') := by
  refine h.setCall (lt_of_call hc) (fun j hj d hd => h.others hc hp hj hd) rfl rfl
    (fun _ ht => ht) rfl ?_ hquiet
  cases c' <;> exact hok

theorem WalletOk.ends (h : WalletOk cfg now ws) (hc : ws.calls[i]? = some c)
    (hp : c.pending = true) {result : Except String FaucetResult}
    (hr : Recorded ws.row ws.landings) : WalletOk cfg now (ws.setCall i (.done result)) :=
  h.next hc hp trivial fun _ => hr

/-- A call reads the row when no other goes by one. -/
theorem WalletOk.reads (h : WalletOk cfg now ws) (hc : ws.calls[i]? = some .reading)
    (hnone : ∀ c ∈ ws.calls, c.pending = false) :
    WalletOk cfg now (ws.setCall i (.read ws.row)) :=
  h.setCall (lt_of_call hc) (fun _ _ d hd => hnone d (List.mem_of_getElem? hd)) rfl rfl
    (fun _ ht => ht) rfl ⟨h.quiet hnone, rfl⟩ nofun

/-- A call that has not read the row yet fails. -/
theorem WalletOk.drops (h : WalletOk cfg now ws) (hc : ws.calls[i]? = some .reading)
    (result : Except String FaucetResult) : WalletOk cfg now (ws.setCall i (.done result)) := by
  refine h.frame fun j d hd => ?_
  by_cases hij : i = j
  · subst hij
    rw [hc, List.getElem?_set_self (lt_of_call hc)]
    constructor <;> rintro he <;> cases he <;> cases hd
  · rw [List.getElem?_set_ne hij]

/-- A call whose transaction did not land owes the row nothing. -/
theorem CallOk.polled (h : CallOk cfg now ws (.polling tx)) (hnot : ¬ ws.landed tx) :
    Recorded ws.row ws.landings := by
  rcases h with ⟨-, hr, -⟩ | ⟨l, earlier, hl, rfl, -⟩
  · exact hr
  · exact absurd ⟨l, by simp [hl], rfl⟩ hnot

/-- A call that continues undisturbed. -/
theorem WalletOk.settle (h : WalletOk cfg now ws) (hc : ws.calls[i]? = some c) {how : Settles}
    (hu : Undisturbed ws c how) (hs : settle cfg now ws i c how = some ws') :
    WalletOk cfg now ws' := by
  have hok := h.calls c (List.mem_of_getElem? hc)
  unfold Faucet.settle at hs
  split at hs
  case h_1 =>
    cases hs
    exact h.reads hc hu
  case h_2 grant =>
    obtain ⟨hr, rfl⟩ := hok
    split at hs
    next hlimits =>
      cases hs
      exact h.next hc rfl ⟨hr, room_of_checkLimits hlimits⟩ nofun
    · cases hs
      exact h.ends hc rfl hr
  case h_3 lamports held =>
    dsimp only at hs
    split at hs
    · cases hs
      exact h.ends hc rfl hok.1
    · cases hs
      exact h.next hc rfl hok nofun
  case h_4 grant blockhash =>
    cases hs
    have hnew : ¬ ws.landed ⟨grant, blockhash⟩ := by
      rintro ⟨l, hl, he⟩
      exact hu (he ▸ h.sent l hl)
    exact h.setCall (lt_of_call hc) (fun j hj d hd => h.others hc rfl hj hd) rfl rfl
      (fun _ ht => List.mem_cons_of_mem _ ht) rfl (.inl ⟨hnew, hok⟩) nofun
  case h_5 tx =>
    split at hs
    next hlanded =>
      cases hs
      refine h.next hc rfl ?_ nofun
      exact hok.resolve_left fun hl => hl.1 hlanded
    · cases hs
  case h_6 tx err =>
    split at hs
    next hfailed =>
      cases hs
      exact h.ends hc rfl (hok.polled (h.failed tx hfailed))
    · cases hs
  case h_7 =>
    cases hs
    exact h.ends hc rfl (hok.polled hu)
  case h_8 =>
    cases hs
    exact h.ends hc rfl (hok.polled hu)
  case h_9 tx =>
    cases hs
    obtain ⟨l, earlier, hl, rfl, hr⟩ := hok
    refine h.setCall (lt_of_call hc) (fun j hj d hd => h.others hc rfl hj hd) rfl rfl
      (fun _ ht => ht) rfl trivial fun _ => ?_
    have hrow := recorded_upsert hr (hl ▸ h.past)
    rwa [← hl] at hrow
  case h_10 =>
    cases hs
    exact h.drops hc _
  case h_11 =>
    cases hs
    exact h.ends hc rfl hok.1
  case h_12 =>
    cases hs
    exact h.ends hc rfl hok.1
  case h_13 =>
    cases hs
    exact h.ends hc rfl (hok.polled hu)
  case h_14 => exact hu.elim
  case h_15 => cases hs

theorem WalletOk.fund (h : WalletOk cfg now ws) :
    WalletOk cfg now { ws with calls := ws.calls ++ [.reading] } := by
  refine h.frame fun j d hd => ?_
  rcases Nat.lt_trichotomy j ws.calls.length with hj | rfl | hj
  · rw [List.getElem?_append_left hj]
  · rw [List.getElem?_concat_length, List.getElem?_eq_none le_rfl]
    constructor <;> rintro he <;> cases he
    cases hd
  · rw [List.getElem?_eq_none (by simp; omega), List.getElem?_eq_none hj.le]

/-- A transaction lands while its call polls: the limits were checked for it. -/
theorem WalletOk.lands (h : WalletOk cfg now ws) (hmax : 0 < cfg.maxGrants)
    (hc : .polling tx ∈ ws.calls) (htx : ws.unsettled tx) :
    WalletOk cfg now { ws with landings := ⟨tx, now⟩ :: ws.landings } := by
  obtain ⟨hsent, hfailed, hnot⟩ := htx
  have hok := h.calls _ hc
  obtain ⟨-, hr, hroom⟩ := hok.resolve_right fun ⟨l, _, hl, he, _⟩ =>
    hnot ⟨l, by simp [hl], he⟩
  obtain ⟨i, hi⟩ := List.mem_iff_getElem?.mp hc
  refine ⟨h.single, fun d hd => ?_, fun hall => ?_, ?_, ?_, ?_, ?_, ?_⟩
  · obtain ⟨j, hj⟩ := List.mem_iff_getElem?.mp hd
    by_cases hij : j = i
    · obtain rfl := Option.some.inj ((hij ▸ hj).symm.trans hi)
      exact .inr ⟨_, _, rfl, rfl, hr⟩
    · exact callOk_of_not_pending (h.others hi rfl hij hj)
  · exact absurd (hall _ hc) (by simp [Call.pending])
  · have hg := hr.grants
    cases hrow : ws.row with
    | none =>
        simp only [hrow, Option.map_none, Option.getD_none] at hg
        simp only [List.length_cons]
        omega
    | some g =>
        have := (hroom g hrow).2
        simp only [hrow, Option.map_some, Option.getD_some] at hg
        simp only [List.length_cons]
        omega
  · refine List.pairwise_cons.mpr ⟨fun l hl => ?_, h.apart⟩
    cases hrow : ws.row with
    | none =>
        have hg := hr.grants
        simp only [hrow, Option.map_none, Option.getD_none] at hg
        rw [List.length_eq_zero_iff.mp hg.symm] at hl
        cases hl
    | some g =>
        exact (Nat.add_le_add_right (hr.last g hrow l hl) _).trans (hroom g hrow).1
  · exact List.forall_mem_cons.mpr ⟨le_rfl, h.past⟩
  · exact List.forall_mem_cons.mpr ⟨hsent, h.sent⟩
  · rintro tx' htx' ⟨l, hl, rfl⟩
    rcases List.mem_cons.mp hl with rfl | hl
    · exact hfailed htx'
    · exact h.failed _ htx' ⟨l, hl, rfl⟩

theorem WalletOk.fails (h : WalletOk cfg now ws) (htx : ws.unsettled tx) :
    WalletOk cfg now { ws with failed := tx :: ws.failed } :=
  ⟨h.single, h.calls, h.quiet, h.count, h.apart, h.past, h.sent,
    List.forall_mem_cons.mpr ⟨htx.2.2, h.failed⟩⟩

end

/-! ## Limits -/

section
variable {W : Type} [DecidableEq W] {cfg : FaucetConfig} {w : W} {s t : State W} {op : Op W}

theorem WalletOk.step (hmax : 0 < cfg.maxGrants) (h : WalletOk cfg s.now (s.wallets w))
    (ho : Orderly w s op) (hs : step cfg s op = .ok t) : WalletOk cfg t.now (t.wallets w) := by
  have other : ∀ {w' : W} {ws : WalletState}, (w' = w → WalletOk cfg s.now ws) →
      WalletOk cfg (s.put w' ws).now ((s.put w' ws).wallets w) := by
    intro w' ws hok
    by_cases hw : w' = w
    · subst hw
      simpa [State.put] using hok rfl
    · simpa [State.put, Function.update_of_ne (Ne.symm hw)] using h
  cases op with
  | tick ms =>
      cases hs
      exact h.later (Nat.le_add_right _ _)
  | fund w' =>
      cases hs
      exact other fun hw => by
        subst hw
        exact h.fund
  | settles w' i how =>
      simp only [Faucet.step] at hs
      split at hs
      · cases hs
      next c hc =>
        split at hs
        · cases hs
        next ws hsettle =>
          cases hs
          exact other fun hw => by
            subst hw
            exact h.settle hc (ho rfl c hc) hsettle
  | lands w' tx =>
      simp only [Faucet.step] at hs
      split at hs
      next htx =>
        cases hs
        exact other fun hw => by
          subst hw
          exact h.lands hmax (ho rfl) htx
      · cases hs
  | fails w' tx =>
      simp only [Faucet.step] at hs
      split at hs
      next htx =>
        cases hs
        exact other fun hw => by
          subst hw
          exact h.fails htx
      · cases hs

end

/-- What the faucet promises for one wallet. With no call in flight the ledger
row counts what landed. -/
structure LimitsHold (cfg : FaucetConfig) (ws : WalletState) : Prop where
  count : ws.landings.length ≤ cfg.maxGrants
  apart : Apart cfg ws.landings
  grants : (∀ c ∈ ws.calls, c.inFlight = false) →
    (ws.row.map (·.grants)).getD 0 = ws.landings.length
  totalUsdc : (∀ c ∈ ws.calls, c.inFlight = false) →
    (ws.row.map (·.totalUsdc)).getD 0 = (ws.landings.map (·.tx.tokens)).sum

/-- In every state of every run that is orderly for a wallet, its limits hold. -/
theorem faucet_limits {W : Type} [DecidableEq W] (cfg : FaucetConfig) (hmax : 0 < cfg.maxGrants)
    (w : W) (ops : List (Op W)) (h : (machine cfg).Along (Orderly w) (start W) ops) :
    LimitsHold cfg (((machine cfg).run (start W) ops).wallets w) := by
  have hok : WalletOk cfg ((machine cfg).run (start W) ops).now
      (((machine cfg).run (start W) ops).wallets w) := by
    refine h.preserves (P := fun s => WalletOk cfg s.now (s.wallets w))
      (fun s op t hs ho hstep => hs.step hmax ho hstep) ?_
    exact ⟨by simp [start], by simp [start], fun _ => ⟨rfl, rfl, nofun⟩, Nat.zero_le _,
      List.Pairwise.nil, by simp [start], by simp [start], by simp [start]⟩
  have hquiet : (∀ c ∈ (((machine cfg).run (start W) ops).wallets w).calls, c.inFlight = false) →
      ∀ c ∈ (((machine cfg).run (start W) ops).wallets w).calls, c.pending = false :=
    fun hall c hc => not_pending_of_done (hall c hc)
  exact ⟨hok.count, hok.apart, fun hall => (hok.quiet (hquiet hall)).grants,
    fun hall => (hok.quiet (hquiet hall)).totalUsdc⟩

/-! ## Two calls at once -/

/-- A call, up to its confirmed transaction. -/
def callOps (w i blockhash : ℕ) : List (Op ℕ) :=
  [.settles w i .rowRead, .settles w i .checked, .settles w i (.balances 0 none),
    .settles w i (.sent blockhash), .lands w ⟨buildGrant defaultConfig 0 none, blockhash⟩,
    .settles w i .confirmed, .settles w i .upserted]

/-- Two calls at once for one wallet, the second held up for the cooldown. -/
def twoGrants : List (Op ℕ) :=
  [.fund 0, .fund 0] ++ callOps 0 0 7 ++ [.tick 30000] ++ callOps 0 1 8

theorem faucet_limits_twoGrants :
    LimitsHold defaultConfig (((machine defaultConfig).run (start ℕ) twoGrants).wallets 0) :=
  faucet_limits defaultConfig (by decide) 0 twoGrants (by decide +kernel)

/-- Both calls read the row before either writes it. -/
def concurrentGrants : List (Op ℕ) :=
  [.fund 0, .fund 0, .settles 0 0 .rowRead, .settles 0 0 .checked, .settles 0 1 .rowRead] ++
    (callOps 0 0 7).drop 2 ++ (callOps 0 1 8).drop 1

theorem limits_broken : ¬ ∀ ops : List (Op ℕ),
    LimitsHold defaultConfig (((machine defaultConfig).run (start ℕ) ops).wallets 0) := by
  intro h
  have hnot : ¬ Apart defaultConfig
      (((machine defaultConfig).run (start ℕ) concurrentGrants).wallets 0).landings := by
    unfold Apart
    decide +kernel
  exact hnot (h concurrentGrants).apart

end ProofBook.Faucet
