import ProofBook.KeeperSteps

/-!
# Restarts

On the final record of a fixture the catalogue settler walks every compound type
it may carry, one market after the other, while the 1X2 settler takes up its own.
What the keeper knows is written to Postgres row by row; a restart begins from
the rows, with nothing running. A proof that the walk holds already is one that
is served at once.
-/
namespace ProofBook.Restarts
open Addresses ProofBook.State Objects Store Runs
open Keeper (Config Account Accounts Record Tx Failure Call Reply)

/-! ## State -/

structure KeeperConfig extends Config where
  catalogue : List ℕ
  cataloguePdaFor : ℤ → ℕ → Pubkey
  /-- There is a client of the proof service; in replay mode there is none. -/
  client : Bool
  teamCode : String → Option String

/-- The types the catalogue settler walks. -/
def KeeperConfig.defs (cfg : KeeperConfig) : List ℕ :=
  cfg.catalogue.filter (comboMarketTypeMin ≤ ·)

/-- The columns of a market row that the keeper loads. -/
structure Row where
  pda : Pubkey
  fixtureId : ℤ
  marketType : ℕ
  status : MarketStatus
  lockTime : ℤ
  resolutionTimeout : ℤ
deriving DecidableEq

inductive WalkStop
  /-- The walk reads the market. -/
  | read
  /-- The attempt of this number runs. -/
  | fetch (n : ℕ)
  | proof (n : ℕ) (a : Account)
  | lock (n : ℕ)
  | settle (n : ℕ)
  | refetch (n : ℕ)
  | sleeping (n : ℕ)
deriving DecidableEq

/-- `settleFixture` on its way: the market it is at, and the types after it. -/
structure Walk where
  fixtureId : ℤ
  seq : ℤ
  type : ℕ
  rest : List ℕ
  stop : WalkStop
  reply : Option Reply
deriving DecidableEq

structure World where
  keeper : Keeper.State
  walks : ℕ → Option Walk
  launched : ℕ
  /-- `inFlight` of the catalogue settler. -/
  inFlight : Pubkey → Bool
  /-- The catalogue attempts started so far. -/
  starts : Pubkey → ℕ
  fixtureRows : ObjectMap FixtureRow.id
  marketRows : ObjectMap Row.pda

namespace World
variable (w : World)

def setWalk (i : ℕ) (v : Option Walk) : World := { w with walks := Function.update w.walks i v }

def setInFlight (pda : Pubkey) (b : Bool) : World :=
  { w with inFlight := Function.update w.inFlight pda b }

def countStart (pda : Pubkey) : World :=
  { w with starts := Function.update w.starts pda (w.starts pda + 1) }

end World

/-! ## The catalogue settler -/

section
variable (cfg : KeeperConfig)

def Walk.pda (v : Walk) : Pubkey := cfg.cataloguePdaFor v.fixtureId v.type

/-- The types a walk has yet to read. -/
def Walk.ahead (v : Walk) : List ℕ := if v.stop = .read then v.type :: v.rest else v.rest

/-- The walk goes on to the next type that is not in flight. -/
def walkOn (inFlight : Pubkey → Bool) (fixtureId seq : ℤ) : List ℕ → Option Walk
  | [] => none
  | type :: rest =>
      if inFlight (cfg.cataloguePdaFor fixtureId type) then walkOn inFlight fixtureId seq rest
      else some ⟨fixtureId, seq, type, rest, .read, none⟩

/-- The settlement of this market is over, and the walk goes on. -/
def finishAttempt (w : World) (i : ℕ) (v : Walk) : World :=
  let w := w.setInFlight (v.pda cfg) false
  w.setWalk i (walkOn cfg w.inFlight v.fixtureId v.seq v.rest)

/-- An account that is missing after the settlement throws like any failed call. -/
def failureOf : Reply → Failure
  | .failed e => e
  | _ => .retryable

/-- An attempt that threw is retried after a while, or given up. -/
def catchAttempt (w : World) (i : ℕ) (v : Walk) (n : ℕ) (e : Failure) : World :=
  if e = .alreadyResolved ∨ e = .fatal ∨ cfg.settleMaxAttempts ≤ n then finishAttempt cfg w i v
  else w.setWalk i (some { v with stop := .sleeping n, reply := none })

def tryAttempt (w : World) (i : ℕ) (v : Walk) (n : ℕ) : World :=
  if n ≤ cfg.settleMaxAttempts then w.setWalk i (some { v with stop := .fetch n, reply := none })
  else finishAttempt cfg w i v

/-- The walk after its call returned. `zero` says whether an outcome has no stake. -/
def resumeWalk (w : World) (i : ℕ) (v : Walk) (now : ℤ) (zero : Bool) (r : Reply) : World :=
  let await := fun stop => w.setWalk i (some { v with stop, reply := none })
  match v.stop with
  | .read =>
      match r with
      | .account (some a) =>
          if a.status.terminal then
            w.setWalk i (walkOn cfg w.inFlight v.fixtureId v.seq v.rest)
          else
            tryAttempt cfg ((w.setInFlight (v.pda cfg) true).countStart (v.pda cfg)) i v 1
      | _ => w.setWalk i (walkOn cfg w.inFlight v.fixtureId v.seq v.rest)
  | .fetch n =>
      match r with
      | .account (some a) =>
          if a.status.terminal then finishAttempt cfg w i v else await (.proof n a)
      | .account none => finishAttempt cfg w i v
      | r => catchAttempt cfg w i v n (failureOf r)
  | .proof n a =>
      match r with
      | .confirmed =>
          if a.status = .opened then
            if now < a.lockTime then finishAttempt cfg w i v
            else if zero then catchAttempt cfg w i v n .retryable
            else await (.lock n)
          else await (.settle n)
      | r => catchAttempt cfg w i v n (failureOf r)
  | .lock n =>
      match r with
      | .confirmed => await (.settle n)
      | r => catchAttempt cfg w i v n (failureOf r)
  | .settle n =>
      match r with
      | .confirmed => await (.refetch n)
      | r => catchAttempt cfg w i v n (failureOf r)
  | .refetch n =>
      match r with
      | .account (some _) => finishAttempt cfg w i v
      | r => catchAttempt cfg w i v n (failureOf r)
  | .sleeping n => tryAttempt cfg w i v (n + 1)

def walkCall (pda : Pubkey) : WalkStop → Option Call
  | .read | .fetch _ | .refetch _ => some (.read pda)
  | .proof _ _ => some .proof
  | .lock _ => some (.send (.lockMarket pda))
  | .settle _ => some (.send (.settleMarket pda))
  | .sleeping _ => none

/-- The call that a walk awaits and that was not answered yet. -/
def awaitedWalk (w : World) (i : ℕ) : Option (Walk × Call) := do
  let v ← w.walks i
  let c ← walkCall (v.pda cfg) v.stop
  if v.reply = none then some (v, c) else none

/-- `onFinalised` of the catalogue settler. -/
def launch (w : World) (fixtureId seq : ℤ) : World :=
  if cfg.client then
    { w.setWalk w.launched (walkOn cfg w.inFlight fixtureId seq cfg.defs) with
      launched := w.launched + 1 }
  else w

/-! ## The feed -/

/-- Whether a delivery is the one that both settlers hear of. -/
def Heard (s : Keeper.State) (u : ScoreUpdate) : Prop :=
  let fx := Keeper.fixtureOf s u.fixtureId
  ¬ Stale fx u ∧ Finalises fx u

instance (s : Keeper.State) (u : ScoreUpdate) : Decidable (Heard s u) :=
  inferInstanceAs (Decidable (_ ∧ _))

def ingest (w : World) (u : ScoreUpdate) : World :=
  let w' := { w with keeper := Keeper.ingest cfg.toConfig w.keeper u }
  if Heard w.keeper u then launch cfg w' u.fixtureId u.seq else w'

end

/-! ## Rows and restarts -/

/-- What `load` makes of a row; compare `loadMarket`. -/
def loadRecord (r : Row) : Record :=
  ⟨r.pda, r.fixtureId, r.marketType, loadPhase r.status, r.lockTime, r.resolutionTimeout, 0⟩

/-- A keeper that knows nothing but the fixtures. -/
def bareKeeper (accounts : Accounts) (submitted : List Tx)
    (fixtureRows : ObjectMap FixtureRow.id) : Keeper.State where
  accounts := accounts
  fixtures := fixtureRows.map loadFixture loadFixture_fixtureId
  records := []
  tracked := .empty
  sweep := none
  attempts _ := none
  ensures _ := none
  submitted := submitted

def bootKeeper (accounts : Accounts) (submitted : List Tx)
    (fixtureRows : ObjectMap FixtureRow.id) (marketRows : ObjectMap Row.pda) : Keeper.State :=
  marketRows.values.foldl (fun s r => s.track (loadRecord r))
    (bareKeeper accounts submitted fixtureRows)

/-- A keeper that starts from the rows. -/
def boot (accounts : Accounts) (fixtureRows : ObjectMap FixtureRow.id)
    (marketRows : ObjectMap Row.pda) : World where
  keeper := bootKeeper accounts [] fixtureRows marketRows
  walks _ := none
  launched := 0
  inFlight _ := false
  starts _ := 0
  fixtureRows := fixtureRows
  marketRows := marketRows

def restart (w : World) : World :=
  { w with
    keeper := bootKeeper w.keeper.accounts w.keeper.submitted w.fixtureRows w.marketRows
    walks := fun _ => none
    inFlight := fun _ => false }

/-! ## Runs -/

inductive Op
  | ingest (u : ScoreUpdate)
  /-- Any other operation of the keeper. -/
  | keeper (op : Keeper.Op)
  | serveWalk (i : ℕ) (voided reported : Bool)
  | denyWalk (i : ℕ) (e : Failure)
  | resumeWalk (i : ℕ) (now : ℤ) (zero : Bool)
  | wakeWalk (i : ℕ)
  | persistFixture (id : ℤ)
  | persistMarket (pda : Pubkey)
  /-- A sync upserts the row of a market from its account. -/
  | syncMarket (pda : Pubkey) (fixtureId : ℤ) (marketType : ℕ)
  | restart
deriving DecidableEq

def Op.isIngest : Keeper.Op → Bool
  | .ingest _ => true
  | _ => false

def answerWalk (w : World) (i : ℕ) (v : Walk) (r : Reply) : World :=
  w.setWalk i (some { v with reply := some r })

def next (cfg : KeeperConfig) (w : World) : Op → Option World
  | .ingest u => some (ingest cfg w u)
  | .keeper op =>
      if Op.isIngest op then none
      else (Keeper.next cfg.toConfig w.keeper op).map fun keeper => { w with keeper }
  | .serveWalk i voided reported => do
      let (v, c) ← awaitedWalk cfg w i
      let (accounts, r) ← c.serve voided reported w.keeper.accounts
      some (answerWalk { w with keeper := { w.keeper with accounts } } i v r)
  | .denyWalk i e => do
      let (v, _) ← awaitedWalk cfg w i
      some (answerWalk w i v (.failed e))
  | .resumeWalk i now zero => do
      let v ← w.walks i
      let r ← v.reply
      some (resumeWalk cfg w i v now zero r)
  | .wakeWalk i => do
      let v ← w.walks i
      match v.stop with
      | .sleeping n => some (tryAttempt cfg w i v (n + 1))
      | _ => none
  | .persistFixture id => do
      let f ← w.keeper.fixtures.get id
      some { w with fixtureRows := w.fixtureRows.set (fixtureRow cfg.teamCode f) }
  | .persistMarket pda => do
      let (_, ref) ← w.keeper.tracked.get pda
      let m ← w.keeper.records[ref]?
      let row ← w.marketRows.get pda
      some { w with marketRows := w.marketRows.set { row with status := marketStatus m.phase } }
  | .syncMarket pda fixtureId marketType => do
      let a ← w.keeper.accounts pda
      some { w with
        marketRows := w.marketRows.set
          ⟨pda, fixtureId, marketType, a.status, a.lockTime, a.resolutionTimeout⟩ }
  | .restart => some (restart w)

def machine (cfg : KeeperConfig) : Machine World Op Unit :=
  ⟨fun w op => (next cfg w op).elim (.error ()) .ok⟩

end ProofBook.Restarts
