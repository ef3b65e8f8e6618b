import ProofBook.Transactions
import ProofBook.ClaimedOutcome
import ProofBook.Keeper
import ProofBook.ReceiptSync
import ProofBook.WriteThrough

/-!
# The settlers and their receipts

The settler takes up the 1X2 market of a finalised fixture, the catalogue settler walks
the compound ones; a sync projects the receipts that are missing. Each awaits one call at
a time while transactions of anybody land. A settler emits a receipt from what it reads
back, the catalogue settler from what it claimed. A transaction whose confirmation is
lost counts as one of anybody, and the call throws.
-/
namespace ProofBook.Settlers
open Addresses DbSync Store Catalogue Transactions Runs
open ProofBook.State (Market)
open OracleAdapter (SettlementProof SettlementProofV3)
open OracleWire (ScoreStat ScoresBatchSummary ProofNode OracleProgram)
open Program (Instruction)
open Keeper (Failure)

variable {D : Type}

/-! ## Proofs -/

/-- What `buildProof` makes of the answer of the proof service, or of a recording. -/
structure Built (D : Type) where
  proof : SettlementProof D
  epochDay : UInt16
  p1 : ℤ
  p2 : ℤ
  period : Option ℤ

def Built.claimed (b : Built D) : ℕ := if b.p2 < b.p1 then 0 else if b.p1 < b.p2 then 2 else 1

def Built.proven (b : Built D) : ProvenStat := ⟨b.p1, b.p2, b.period⟩

/-- The answer of the proof service for several stats. -/
structure StatValidationV3 (D : Type) where
  statsToProve : List ScoreStat
  summary : ScoresBatchSummary D
  subTreeProof : List (ProofNode D)
  mainTreeProof : List (ProofNode D)
  eventStatRoot : D
  multiproofHashes : List (ProofNode D)
  multiproofIndices : List UInt32

structure BuiltV3 (D : Type) where
  proof : SettlementProofV3 D
  epochDay : UInt16
  values : List Int32
  period : Int32

/-- An answer with other leaves than the legs of the market throws. -/
def buildV3Proof (val : StatValidationV3 D) (market : MarketTypeDef) : Option (BuiltV3 D) :=
  let leaves := val.statsToProve
  if leaves.map (·.key.toNat) = market.legs.map (·.key) then
    leaves.head?.map fun leaf =>
      let ts := val.summary.updateStats.minTimestamp
      { proof :=
          { ts
            fixtureSummary := val.summary
            fixtureProof := val.subTreeProof
            mainTreeProof := val.mainTreeProof
            eventStatRoot := val.eventStatRoot
            leafValues := leaves.map (·.value)
            multiproofHashes := val.multiproofHashes
            leafIndices := val.multiproofIndices }
        epochDay := epochDayOf ts
        values := leaves.map (·.value)
        period := leaf.period }
  else none

/-! ## State -/

structure Config (D : Type) where
  /-- The type of the 1X2 market. -/
  marketType : ℕ
  settleMaxAttempts : ℕ
  wallet : Pubkey
  oracleProgramId : Pubkey
  catalogue : List MarketTypeDef
  /-- There is a client of the proof service. -/
  client : Bool
  teamCode : String → Option String
  hex : D → String

/-- The types the catalogue settler walks. -/
def Config.defs (cfg : Config D) : List MarketTypeDef :=
  cfg.catalogue.filter (comboMarketTypeMin ≤ ·.type)

def Config.marketPdaFor (cfg : Config D) (fixtureId : Int64) (marketType : ℕ) : Pubkey :=
  .market cfg.wallet fixtureId marketType

inductive Reply (D : Type)
  | market (onchain : Option (Market D))
  | built (b : Built D)
  | validation (val : StatValidationV3 D)
  | sent (signature : String)
  | thrown (e : Failure)

inductive AttemptStop (D : Type)
  | fetch
  | proof
  | settle (b : Built D)
  | refetch (b : Built D) (settleTx : String)
  /-- Already resolved when fetched; a proof for the receipt is tried. -/
  | recordProof (onchain : Market D)
  | refetchResolved
  /-- The retry timer runs. -/
  | waiting

/-- An attempt of the settler; its record's signature is the one it began with. -/
structure Attempt (D : Type) where
  seq : ℤ
  tries : ℕ
  settleTx : String
  stop : AttemptStop D
  reply : Option (Reply D)

inductive WalkStop (D : Type)
  /-- The walk reads the market. -/
  | read
  /-- The attempt of this number runs. -/
  | fetch (n : ℕ)
  | proof (n : ℕ) (onchain : Market D)
  | lock (n claimed : ℕ) (built : BuiltV3 D)
  | settle (n claimed : ℕ) (built : BuiltV3 D)
  | refetch (n claimed : ℕ) (built : BuiltV3 D) (settleTx : String)
  | sleeping (n : ℕ)

/-- `settleFixture` on its way: the market it is at, and the types after it. -/
structure Walk (D : Type) where
  fixtureId : Int64
  seq : ℤ
  market : MarketTypeDef
  rest : List MarketTypeDef
  stop : WalkStop D
  reply : Option (Reply D)

/-- A settled market without a receipt, as the sync finds it. -/
structure SyncRow where
  pda : Pubkey
  fixtureId : ℤ
  marketType : ℕ
deriving DecidableEq

inductive SyncStop (D : Type)
  | fetchMarket
  | findFixture (acc : Market D)
  | signatures (acc : Market D) (fixture : Option FixtureRow)
  | create (row : ReceiptRow)

/-- `syncReceipts` on its way; it goes on as soon as it is answered. -/
structure Sync (D : Type) where
  row : SyncRow
  rest : List SyncRow
  stop : SyncStop D

structure State (D : Type) where
  node : Node D
  store : PgStore
  /-- `inFlight` of the settler. -/
  attempts : Pubkey → Option (Attempt D)
  walks : ℕ → Option (Walk D)
  launched : ℕ
  /-- `inFlight` of the catalogue settler. -/
  inFlight : Pubkey → Bool
  sync : Option (Sync D)
  /-- The receipt events so far. -/
  announced : List ProofReceipt
  /-- The markets counted as settled so far. -/
  counted : List Pubkey

namespace State
variable (s : State D)

def setAttempt (pda : Pubkey) (a : Option (Attempt D)) : State D :=
  { s with attempts := Function.update s.attempts pda a }

def setWalk (i : ℕ) (v : Option (Walk D)) : State D :=
  { s with walks := Function.update s.walks i v }

def setInFlight (pda : Pubkey) (b : Bool) : State D :=
  { s with inFlight := Function.update s.inFlight pda b }

def setSync (y : Option (Sync D)) : State D := { s with sync := y }

def setData (data : StoreData) : State D := { s with store := { s.store with data } }

def save : State D := { s with store := s.store.saveSoon }

def setTables (tables : Tables) : State D := { s with store := { s.store with tables } }

def emit (r : ProofReceipt) : State D := { s with announced := r :: s.announced }

def count (pda : Pubkey) : State D := { s with counted := pda :: s.counted }

end State

/-! ## The settler -/

section
variable (cfg : Config D)

def settleCallOf (pda : Pubkey) (b : Built D) : Instruction D :=
  .settleMarket ⟨cfg.wallet, pda, cfg.oracleProgramId, .dailyScores cfg.oracleProgramId b.epochDay⟩
    b.claimed b.proof

/-- `attempt` up to its first call. -/
def startAttempt (s : State D) (pda : Pubkey) (seq : ℤ) : State D :=
  match s.store.data.markets.get pda with
  | some rec =>
      let tries := rec.settleAttempts + 1
      let data := { s.store.data with
        markets := s.store.data.markets.set { rec with settleAttempts := tries } }
      (s.setData data).setAttempt pda (some ⟨seq, tries, rec.settleTx.getD "", .fetch, none⟩)
  | none => s

def settlerFinalised (s : State D) (fixtureId : Int64) (seq : ℤ) : State D :=
  match s.store.data.marketByFixture fixtureId.toInt cfg.marketType with
  | some rec =>
      if (s.attempts rec.marketPda).isSome ∨ rec.phase = .settled ∨ rec.phase = .cancelled then s
      else
        let data := { s.store.data with
          markets := s.store.data.markets.set { rec with phase := .settling, settleAttempts := 0 } }
        startAttempt (s.setData data).save rec.marketPda seq
  | none => s

/-- Record the resolution; a settled market gets a receipt, which is emitted. -/
def record (s : State D) (pda : Pubkey) (onchain : Market D) (settleTx : String)
    (proven : Option ProvenStat) : State D :=
  match s.store.data.markets.get pda with
  | some rec =>
      let data := recordResolution cfg.hex s.store.data rec onchain settleTx proven
      let s := (s.setData data).save
      if onchain.status = .settled then
        (s.emit (resolutionReceipt cfg.hex onchain settleTx proven)).count pda
      else s
  | none => s

/-- The attempt is retried later, or given up. -/
def failAttempt (s : State D) (pda : Pubkey) (a : Attempt D) (e : Failure) : State D :=
  if e = .fatal ∨ cfg.settleMaxAttempts ≤ a.tries then
    match s.store.data.markets.get pda with
    | some rec =>
        let data := { s.store.data with
          markets := s.store.data.markets.set { rec with phase := .error } }
        (s.setData data).save.setAttempt pda none
    | none => s.setAttempt pda none
  else s.save.setAttempt pda (some { a with stop := .waiting, reply := none })

def resumeAttempt (s : State D) (pda : Pubkey) (a : Attempt D) (r : Reply D) : State D :=
  let await := fun stop => s.setAttempt pda (some { a with stop, reply := none })
  match a.stop with
  | .fetch =>
      match r with
      | .market (some m) =>
          if m.status.terminal then await (.recordProof m)
          else if m.status = .opened then failAttempt cfg s pda a .retryable
          else await .proof
      | _ => failAttempt cfg s pda a .retryable
  | .proof =>
      match r with
      | .built b => await (.settle b)
      | _ => failAttempt cfg s pda a .retryable
  | .settle b =>
      match r with
      | .sent signature => await (.refetch b signature)
      | .thrown .alreadyResolved => await .refetchResolved
      | .thrown e => failAttempt cfg s pda a e
      | _ => failAttempt cfg s pda a .retryable
  | .refetch b settleTx =>
      match r with
      | .market (some m) => (record cfg s pda m settleTx (some b.proven)).setAttempt pda none
      | _ => failAttempt cfg s pda a .retryable
  | .recordProof m =>
      match r with
      | .built b => (record cfg s pda m a.settleTx (some b.proven)).setAttempt pda none
      | _ => (record cfg s pda m a.settleTx none).setAttempt pda none
  | .refetchResolved =>
      match r with
      | .market (some m) => (record cfg s pda m a.settleTx none).setAttempt pda none
      | _ => s.setAttempt pda none
  | .waiting => s

end

/-! ## The catalogue settler -/

section
variable (cfg : Config D)

def settleCallOfV3 (pda : Pubkey) (claimed : ℕ) (b : BuiltV3 D) : Instruction D :=
  .settleMarketV3
    ⟨cfg.wallet, pda, cfg.oracleProgramId, .dailyScores cfg.oracleProgramId b.epochDay⟩
    claimed b.proof

def Walk.pda (v : Walk D) : Pubkey := cfg.marketPdaFor v.fixtureId v.market.type

/-- The walk goes on to the next type that is not in flight. -/
def walkOn (inFlight : Pubkey → Bool) (fixtureId : Int64) (seq : ℤ) :
    List MarketTypeDef → Option (Walk D)
  | [] => none
  | market :: rest =>
      if inFlight (cfg.marketPdaFor fixtureId market.type) then walkOn inFlight fixtureId seq rest
      else some ⟨fixtureId, seq, market, rest, .read, none⟩

def goOn (s : State D) (i : ℕ) (v : Walk D) : State D :=
  s.setWalk i (walkOn cfg s.inFlight v.fixtureId v.seq v.rest)

/-- The attempt is over, and the walk goes on. -/
def finishAttempt (s : State D) (i : ℕ) (v : Walk D) : State D :=
  goOn cfg (s.setInFlight (v.pda cfg) false) i v

/-- An account that is missing after the settlement throws like any failed call. -/
def failureOf : Reply D → Failure
  | .thrown e => e
  | _ => .retryable

/-- An attempt that threw is retried after a while, or given up. -/
def catchAttempt (s : State D) (i : ℕ) (v : Walk D) (n : ℕ) (e : Failure) : State D :=
  if e = .alreadyResolved ∨ e = .fatal ∨ cfg.settleMaxAttempts ≤ n then finishAttempt cfg s i v
  else s.setWalk i (some { v with stop := .sleeping n, reply := none })

def tryAttempt (s : State D) (i : ℕ) (v : Walk D) (n : ℕ) : State D :=
  if n ≤ cfg.settleMaxAttempts then s.setWalk i (some { v with stop := .fetch n, reply := none })
  else finishAttempt cfg s i v

/-- The receipt that `announce` emits for the account read back after the settlement. -/
def catalogueReceipt (onchain : Market D) (market : MarketTypeDef) (claimed : ℕ) (b : BuiltV3 D)
    (settleTx : String) : ProofReceipt where
  marketPda := cfg.marketPdaFor onchain.fixtureId market.type
  matchId := onchain.fixtureId.toInt
  winningOutcome := claimed
  provenScore := none
  statPeriod := some b.period.toInt
  outcomeLabel := (market.outcomes[claimed]?.map (·.label)).getD (toString claimed)
  oracleProgram := onchain.oracleProgram
  epochDay := onchain.settleEpochDay.toNat
  dailyRootsPda := onchain.settleDailyRoots
  proofRef := cfg.hex onchain.settleProofRef
  resolver := onchain.settleResolver
  settleTx := settleTx
  settledAt := onchain.settledAt.toInt
  totalPool := onchain.totalPool
  totalWinningPool := onchain.totalWinningPool
  feeAmount := onchain.feeAmount

/-- The walk once the proof service has answered for a market that was read. -/
def claimOutcome (s : State D) (i : ℕ) (v : Walk D) (now : ℤ) (n : ℕ) (onchain : Market D)
    (val : StatValidationV3 D) : State D :=
  match buildV3Proof val v.market with
  | none => catchAttempt cfg s i v n .retryable
  | some built =>
      let claimed := claimedOutcomeFor v.market (provenValues built.values)
      let await := fun stop => s.setWalk i (some { v with stop, reply := none })
      if claimed < 0 then catchAttempt cfg s i v n .retryable
      else if onchain.status = .opened then
        if now < onchain.lockTime.toInt * 1000 then finishAttempt cfg s i v
        else if ∃ outcome ∈ onchain.outcomes, outcome.pool = 0 then
          -- Would route to Cancelled and earn no receipt.
          catchAttempt cfg s i v n .retryable
        else await (.lock n claimed.toNat built)
      else await (.settle n claimed.toNat built)

/-- The walk after its call returned; `now` is in milliseconds. -/
def resumeWalk (s : State D) (i : ℕ) (v : Walk D) (now : ℤ) (r : Reply D) : State D :=
  let await := fun stop => s.setWalk i (some { v with stop, reply := none })
  match v.stop with
  | .read =>
      match r with
      | .market (some m) =>
          if m.status = .settled then goOn cfg (s.count (v.pda cfg)) i v
          else if m.status = .cancelled then goOn cfg s i v
          else tryAttempt cfg (s.setInFlight (v.pda cfg) true) i v 1
      | _ => goOn cfg s i v
  | .fetch n =>
      match r with
      | .market (some m) =>
          if m.status.terminal then finishAttempt cfg s i v else await (.proof n m)
      | .market none => finishAttempt cfg s i v
      | r => catchAttempt cfg s i v n (failureOf r)
  | .proof n m =>
      match r with
      | .validation val => claimOutcome cfg s i v now n m val
      | r => catchAttempt cfg s i v n (failureOf r)
  | .lock n claimed b =>
      match r with
      | .sent _ => await (.settle n claimed b)
      | r => catchAttempt cfg s i v n (failureOf r)
  | .settle n claimed b =>
      match r with
      | .sent signature => await (.refetch n claimed b signature)
      | r => catchAttempt cfg s i v n (failureOf r)
  | .refetch n claimed b settleTx =>
      match r with
      | .market (some after) =>
          let s := s.emit (catalogueReceipt cfg after v.market claimed b settleTx)
          finishAttempt cfg (s.count (v.pda cfg)) i v
      | r => catchAttempt cfg s i v n (failureOf r)
  | .sleeping _ => s

/-- `onFinalised` of the catalogue settler. -/
def launch (s : State D) (fixtureId : Int64) (seq : ℤ) : State D :=
  if cfg.client then
    { s.setWalk s.launched (walkOn cfg s.inFlight fixtureId seq cfg.defs) with
      launched := s.launched + 1 }
  else s

end

/-! ## The projection of receipts -/

/-- What the account of a settled market says. -/
def accountReceipt (hex : D → String) (row : SyncRow) (acc : Market D) (settleTx : String) :
    ReceiptRow where
  marketPda := row.pda
  fixtureId := row.fixtureId
  winningOutcome := acc.winningOutcome
  outcomeLabel := (Positions.outcomeLabels row.marketType acc.outcomes.length).getD
    acc.winningOutcome s!"Outcome {acc.winningOutcome + 1}"
  provenP1 := none
  provenP2 := none
  statPeriod := none
  oracleProgram := acc.oracleProgram
  epochDay := acc.settleEpochDay.toNat
  dailyRootsPda := acc.settleDailyRoots
  proofRef := hex acc.settleProofRef
  resolver := acc.settleResolver
  settleTx := settleTx
  settledAt := acc.settledAt.toInt * 1000
  totalPool := acc.totalPool
  totalWinningPool := acc.totalWinningPool
  feeAmount := acc.feeAmount

/-- A settled market that lacks a receipt. -/
def Unreceipted (t : Tables) (row : SyncRow) : Prop :=
  t.receipts.get row.pda = none ∧ ∃ m ∈ t.markets.rows, m.data.status = .settled ∧
    row = ⟨m.pda, m.data.fixtureId, m.data.marketType⟩

instance (t : Tables) (row : SyncRow) : Decidable (Unreceipted t row) :=
  inferInstanceAs (Decidable (_ ∧ _))

def syncOn : List SyncRow → Option (Sync D)
  | [] => none
  | row :: rest => some ⟨row, rest, .fetchMarket⟩

/-- The newest transaction that touched the account and succeeded. -/
def recoverSettleTx (n : Node D) (market : Pubkey) : Option String :=
  ((n.signaturesFor market 20).find? fun t => !t.failed).map (·.signature)

/-- The call or statement that the sync awaits is executed, and it goes on. -/
def advanceSync (hex : D → String) (s : State D) (y : Sync D) : State D :=
  let skip := s.setSync (syncOn y.rest)
  match y.stop with
  | .fetchMarket =>
      match s.node.world.book? y.row.pda with
      | some b =>
          if b.market.status = .settled then
            s.setSync (some { y with stop := .findFixture b.market })
          else skip
      | none => skip
  | .findFixture acc =>
      let fixture := s.store.tables.fixtures.get y.row.fixtureId
      s.setSync (some { y with stop := .signatures acc fixture })
  | .signatures acc fixture =>
      match recoverSettleTx s.node y.row.pda with
      | some settleTx =>
          let row := projectReceipt (accountReceipt hex y.row acc settleTx) fixture
          s.setSync (some { y with stop := .create row })
      | none => skip
  | .create row =>
      let tables := s.store.tables
      if (tables.markets.find row.marketPda).isSome ∧ tables.receipts.get row.marketPda = none then
        skip.setTables { tables with receipts := tables.receipts.set row }
      else skip

/-! ## Calls -/

inductive Call (D : Type)
  | fetchMarket (market : Pubkey)
  | buildProof
  | statValidationV3
  | send (i : Instruction D)

/-- What comes back from outside; a signature only for a transaction. -/
inductive Answer (D : Type)
  | served (signature : String)
  | built (b : Built D)
  | validation (val : StatValidationV3 D)
  | thrown (e : Failure)

inductive Who
  | attempt (pda : Pubkey)
  | walk (i : ℕ)
deriving DecidableEq

section
variable (cfg : Config D)

def attemptCall (pda : Pubkey) : AttemptStop D → Option (Call D)
  | .fetch | .refetch _ _ | .refetchResolved => some (.fetchMarket pda)
  | .proof | .recordProof _ => some .buildProof
  | .settle b => some (.send (settleCallOf cfg pda b))
  | .waiting => none

def walkCall (pda : Pubkey) : WalkStop D → Option (Call D)
  | .read | .fetch _ | .refetch _ _ _ _ => some (.fetchMarket pda)
  | .proof _ _ => some .statValidationV3
  | .lock _ _ _ => some (.send (.lockMarket ⟨pda, cfg.wallet⟩))
  | .settle _ claimed b => some (.send (settleCallOfV3 cfg pda claimed b))
  | .sleeping _ => none

/-- The call that someone awaits and that was not answered yet. -/
def awaited (s : State D) : Who → Option (Call D)
  | .attempt pda => do
      let a ← s.attempts pda
      if a.reply.isNone then attemptCall cfg pda a.stop else none
  | .walk i => do
      let v ← s.walks i
      if v.reply.isNone then walkCall cfg (v.pda cfg) v.stop else none

def reply (s : State D) (r : Reply D) : Who → State D
  | .attempt pda => s.setAttempt pda ((s.attempts pda).map fun a => { a with reply := some r })
  | .walk i => s.setWalk i ((s.walks i).map fun v => { v with reply := some r })

def resume (s : State D) (now : ℤ) : Who → Option (State D)
  | .attempt pda => do
      let a ← s.attempts pda
      let r ← a.reply
      some (resumeAttempt cfg s pda a r)
  | .walk i => do
      let v ← s.walks i
      let r ← v.reply
      some (resumeWalk cfg s i v now r)

end

section
variable [Inhabited D] (O : OracleProgram D)

/-- A call that is answered; a transaction then has landed. -/
def Call.serve (n : Node D) : Call D → Answer D → Option (Node D × Reply D)
  | .fetchMarket k, .served _ => some (n, .market ((n.world.book? k).map (·.market)))
  | .buildProof, .built b => some (n, .built b)
  | .statValidationV3, .validation val => some (n, .validation val)
  | .send i, .served signature => (n.land O signature [] [i]).map fun n => (n, .sent signature)
  | _, .thrown e => some (n, .thrown e)
  | _, _ => none

end

/-! ## Runs -/

inductive Op (D : Type)
  /-- A transaction of anybody lands. -/
  | transact (signature : String) (accounts : List Pubkey) (is : List (Instruction D))
  | finalised (fixtureId : Int64) (seq : ℤ)
  | attemptDue (pda : Pubkey)
  | wakeWalk (i : ℕ)
  | answer (who : Who) (a : Answer D)
  | resume (who : Who) (now : ℤ)
  | startSync (rows : List SyncRow)
  | advanceSync
  | syncThrows
  | store (op : FlushOp)
  /-- Another part of the keeper changes the memory. -/
  | mutate (m : WriteThrough.Mutation)
  /-- A sync upserts the row of a market. -/
  | syncMarket (row : MarketRow)
  | importFixture (row : FixtureRow)
  | heal (marketPda : Pubkey) (fixture : FixtureRow)
  | restart

/-- Receipts and settle signatures are written by the settler only. -/
def Foreign (d : StoreData) : WriteThrough.Mutation → Prop
  | .market m => m.settleTx = none ∨ m.settleTx = (d.markets.get m.marketPda).bind (·.settleTx)
  | .receipt _ => False
  | .fixture _ | .kv _ _ => True

instance (d : StoreData) (m : WriteThrough.Mutation) : Decidable (Foreign d m) := by
  cases m <;> unfold Foreign <;> infer_instance

section
variable [Inhabited D] (O : OracleProgram D) (cfg : Config D)

def next (s : State D) : Op D → Option (State D)
  | .transact signature accounts is => do
      let node ← s.node.transact O signature accounts is
      some { s with node }
  | .finalised fixtureId seq =>
      some (launch cfg (settlerFinalised cfg s fixtureId seq) fixtureId seq)
  | .attemptDue pda => do
      let a ← s.attempts pda
      match a.stop with
      | .waiting => some (startAttempt s pda a.seq)
      | _ => none
  | .wakeWalk i => do
      let v ← s.walks i
      match v.stop with
      | .sleeping n => some (tryAttempt cfg s i v (n + 1))
      | _ => none
  | .answer who a => do
      let c ← awaited cfg s who
      let (node, r) ← c.serve O s.node a
      some (reply { s with node } r who)
  | .resume who now => resume cfg s now who
  | .startSync rows =>
      if s.sync.isNone ∧ rows.length ≤ 200 ∧ ∀ row ∈ rows, Unreceipted s.store.tables row then
        some (s.setSync (syncOn rows))
      else none
  | .advanceSync => s.sync.map (advanceSync cfg.hex s)
  | .syncThrows => s.sync.map fun y => s.setSync (syncOn y.rest)
  | .store op => (s.store.step cfg.teamCode op).map fun store => { s with store }
  | .mutate m =>
      if Foreign s.store.data m then some (s.setData (m.apply s.store.data)).save else none
  | .syncMarket row =>
      let tables := s.store.tables
      if row.settleTx = (tables.markets.find row.pda).bind (·.settleTx) then
        (tables.markets.put row).map fun markets => s.setTables { tables with markets }
      else none
  | .importFixture row =>
      let tables := s.store.tables
      some (s.setTables { tables with fixtures := tables.fixtures.set row })
  | .heal marketPda fixture =>
      let tables := s.store.tables
      (tables.receipts.get marketPda).map fun r =>
        s.setTables { tables with receipts := tables.receipts.set (heal fixture r) }
  | .restart =>
      some
        { s with
          store := .booted s.store.tables
          attempts := fun _ => none
          walks := fun _ => none
          inFlight := fun _ => false
          sync := none }

def machine : Machine (State D) (Op D) Unit := ⟨fun s op => (next O cfg s op).elim (.error ()) .ok⟩

end

/-- Before the program was used, with an empty database and nothing running. -/
structure Start (s : State D) : Prop where
  genesis : Program.Genesis s.node.world
  history : s.node.history = []
  settlements : s.node.settlements = []
  store : s.store = .booted .empty
  attempts : ∀ pda, s.attempts pda = none
  walks : ∀ i, s.walks i = none
  sync : s.sync = none
  announced : s.announced = []
  counted : s.counted = []

end ProofBook.Settlers
