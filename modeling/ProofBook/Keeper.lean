import ProofBook.Ingest
import ProofBook.Resolution
import ProofBook.Lib.Runs

/-!
# The keeper

The sweeper, the settler and fixture discovery share the records of the tracked
markets. Each of them awaits one call at a time: a read of an account, a
transaction, or a proof from the feed's operator. A call is served or denied, a
served one may still be reported as failed, and only later the caller goes on;
meanwhile the others act. Records are objects: discovery may track a new one
while the sweeper or the settler still holds the old one.
-/
namespace ProofBook.Keeper
open Addresses State Objects Store Runs

/-! ## State -/

structure Config where
  marketType : ℕ
  resolutionTimeoutSec : ℤ
  settleMaxAttempts : ℕ
  /-- The address of the 1X2 market of a fixture. -/
  marketPdaFor : ℤ → Pubkey

/-- What the keeper reads of a market account; the program checks the timeout. -/
structure Account where
  status : MarketStatus
  lockTime : ℤ
  resolutionTimeout : ℤ
  timeout_pos : 0 < resolutionTimeout
deriving DecidableEq

abbrev Accounts := Pubkey → Option Account

def statusOf (a : Option Account) : Option MarketStatus := a.map (·.status)

/-- The fields of a `MarketRecord` that decide what the keeper does. -/
structure Record where
  marketPda : Pubkey
  fixtureId : ℤ
  marketType : ℕ
  phase : MarketPhase
  lockTime : ℤ
  resolutionTimeout : ℤ
  settleAttempts : ℕ
deriving DecidableEq

inductive Tx
  | initializeMarket (pda : Pubkey) (lockTime resolutionTimeout : ℤ)
  | lockMarket (pda : Pubkey)
  | cancelMarket (pda : Pubkey)
  | settleMarket (pda : Pubkey)
deriving DecidableEq

/-- `isRetryable` of an error, and the one error that is a resolution. -/
inductive Failure
  | alreadyResolved
  | fatal
  | retryable
deriving DecidableEq

inductive Call
  | read (pda : Pubkey)
  | send (tx : Tx)
  | proof
deriving DecidableEq

inductive Reply
  | account (a : Option Account)
  | confirmed
  | failed (e : Failure)
deriving DecidableEq

inductive SweepStop
  | lockRead
  | lock
  | cancelRead
  | cancel
deriving DecidableEq

/-- A pass of the sweeper: its clock, the records still to visit, the one visited. -/
structure Sweep where
  now : ℤ
  rest : List ℕ
  ref : ℕ
  stop : SweepStop
  reply : Option Reply

inductive AttemptStop
  | fetch
  | proof
  | settle
  | refetch
  /-- Already resolved when fetched; a proof for the receipt is tried. -/
  | recordProof (status : MarketStatus)
  | refetchResolved
  /-- The retry timer runs. -/
  | waiting
deriving DecidableEq

structure Attempt where
  ref : ℕ
  tries : ℕ
  seq : ℤ
  stop : AttemptStop
  reply : Option Reply

inductive EnsureStop
  | fetch
  | initializeMarket (lockTime : ℤ)
deriving DecidableEq

structure Ensure where
  info : FixtureInfo
  lockTimeOverride : Option ℤ
  stop : EnsureStop
  reply : Option Reply

structure State where
  accounts : Accounts
  fixtures : ObjectMap FixtureLive.fixtureId
  /-- Every record made so far; a reference is a position. -/
  records : List Record
  /-- `data.markets`. -/
  tracked : ObjectMap (Prod.fst : Pubkey × ℕ → Pubkey)
  sweep : Option Sweep
  /-- `inFlight` of the settler. -/
  attempts : Pubkey → Option Attempt
  ensures : ℕ → Option Ensure
  submitted : List Tx

namespace State
variable (s : State)

def modifyRecord (ref : ℕ) (f : Record → Record) : State :=
  { s with records := s.records.modify ref f }

def setPhase (ref : ℕ) (phase : MarketPhase) : State :=
  s.modifyRecord ref fun m => { m with phase }

/-- Track a new record. -/
def track (m : Record) : State :=
  { s with
    records := s.records ++ [m]
    tracked := s.tracked.set (m.marketPda, s.records.length) }

def submit (tx : Tx) : State := { s with submitted := tx :: s.submitted }

def setSweep (sweep : Option Sweep) : State := { s with sweep }

def setAttempt (pda : Pubkey) (a : Option Attempt) : State :=
  { s with attempts := Function.update s.attempts pda a }

def setEnsure (i : ℕ) (e : Option Ensure) : State :=
  { s with ensures := Function.update s.ensures i e }

/-- The address a reference stands for. -/
def pdaOf (ref : ℕ) : Option Pubkey := (s.records[ref]?).map (·.marketPda)

end State

/-! ## The sweeper -/

def LockDue (now : ℤ) (m : Record) : Prop := m.phase = .created ∧ m.lockTime ≤ now

def BackstopDue (now : ℤ) (m : Record) : Prop :=
  (m.phase = .locked ∨ m.phase = .settling ∨ m.phase = .error) ∧
    m.lockTime + m.resolutionTimeout < now

instance (now : ℤ) (m : Record) : Decidable (LockDue now m) := inferInstanceAs (Decidable (_ ∧ _))

instance (now : ℤ) (m : Record) : Decidable (BackstopDue now m) :=
  inferInstanceAs (Decidable (_ ∧ _))

/-- Where the visit of a record first stops, if it does. -/
def firstStop (now : ℤ) (m : Record) : Option SweepStop :=
  if m.phase = .settled ∨ m.phase = .cancelled then none
  else if LockDue now m then some .lockRead
  else if BackstopDue now m then some .cancelRead
  else none

/-- The pass goes on to the next record that stops it. -/
def walk (records : List Record) (now : ℤ) : List ℕ → Option Sweep
  | [] => none
  | ref :: rest =>
      match (records[ref]?).bind (firstStop now) with
      | some stop => some ⟨now, rest, ref, stop, none⟩
      | none => walk records now rest

/-- The second half of a visit. -/
def backstop (records : List Record) (sw : Sweep) : Option Sweep :=
  if (records[sw.ref]?).any (BackstopDue sw.now ·) then
    some { sw with stop := .cancelRead, reply := none }
  else walk records sw.now sw.rest

def startSweep (s : State) (now : ℤ) : State :=
  match s.sweep with
  | some _ => s
  | none => s.setSweep (walk s.records now (s.tracked.values.map Prod.snd))

/-- The pass after its call returned; a read that fails ends it. -/
def resumeSweep (s : State) (sw : Sweep) (pda : Pubkey) (r : Reply) : State :=
  match sw.stop with
  | .lockRead =>
      match r with
      | .account a =>
          match statusOf a with
          | some .opened =>
              (s.submit (.lockMarket pda)).setSweep
                (some { sw with stop := .lock, reply := none })
          | some .locked =>
              let s := s.setPhase sw.ref .locked
              s.setSweep (backstop s.records sw)
          | _ => s.setSweep (backstop s.records sw)
      | _ => s.setSweep none
  | .lock =>
      match r with
      | .confirmed =>
          let s := s.setPhase sw.ref .locked
          s.setSweep (backstop s.records sw)
      | _ => s.setSweep (backstop s.records sw)
  | .cancelRead =>
      match r with
      | .account a =>
          match statusOf a with
          | some .locked =>
              (s.submit (.cancelMarket pda)).setSweep
                (some { sw with stop := .cancel, reply := none })
          | some .settled =>
              let s := s.setPhase sw.ref .settled
              s.setSweep (walk s.records sw.now sw.rest)
          | some .cancelled =>
              let s := s.setPhase sw.ref .cancelled
              s.setSweep (walk s.records sw.now sw.rest)
          | _ => s.setSweep (walk s.records sw.now sw.rest)
      | _ => s.setSweep none
  | .cancel =>
      match r with
      | .confirmed =>
          let s := s.setPhase sw.ref .cancelled
          s.setSweep (walk s.records sw.now sw.rest)
      | _ => s.setSweep (walk s.records sw.now sw.rest)

/-! ## The settler -/

/-- The record of a fixture's market of this type: the first one tracked. -/
def marketByFixture (s : State) (fixtureId : ℤ) (marketType : ℕ) : Option ℕ :=
  (s.tracked.values.map Prod.snd).find? fun ref =>
    (s.records[ref]?).any fun m => m.fixtureId = fixtureId ∧ m.marketType = marketType

/-- `attempt` up to its first call. -/
def startAttempt (s : State) (pda : Pubkey) (seq : ℤ) : State :=
  match s.tracked.get pda with
  | some (_, ref) =>
      let s := s.modifyRecord ref fun m => { m with settleAttempts := m.settleAttempts + 1 }
      let tries := ((s.records[ref]?).map (·.settleAttempts)).getD 0
      s.setAttempt pda (some ⟨ref, tries, seq, .fetch, none⟩)
  | none => s

/-- The record that a finalisation starts an attempt for. -/
def finalisable (cfg : Config) (s : State) (fixtureId : ℤ) : Option (ℕ × Record) := do
  let ref ← marketByFixture s fixtureId cfg.marketType
  let m ← s.records[ref]?
  if (s.attempts m.marketPda).isSome ∨ m.phase = .settled ∨ m.phase = .cancelled then none
  else some (ref, m)

def onFinalised (cfg : Config) (s : State) (fixtureId seq : ℤ) : State :=
  match finalisable cfg s fixtureId with
  | some (ref, m) =>
      startAttempt
        (s.modifyRecord ref fun m => { m with phase := .settling, settleAttempts := 0 })
        m.marketPda seq
  | none => s

/-- The record is looked up again; only its phase matters here. -/
def recordResolution (s : State) (pda : Pubkey) (status : MarketStatus) : State :=
  match s.tracked.get pda with
  | some (_, ref) => s.setPhase ref (resolvedPhase status)
  | none => s

/-- The attempt is retried later, or given up. -/
def failAttempt (cfg : Config) (s : State) (pda : Pubkey) (a : Attempt) (e : Failure) : State :=
  if e = .fatal ∨ cfg.settleMaxAttempts ≤ a.tries then
    (s.setPhase a.ref .error).setAttempt pda none
  else s.setAttempt pda (some { a with stop := .waiting, reply := none })

def resumeAttempt (cfg : Config) (s : State) (pda : Pubkey) (a : Attempt) (r : Reply) : State :=
  let await := fun stop => some { a with stop, reply := none }
  match a.stop with
  | .fetch =>
      match r with
      | .account (some acc) =>
          if acc.status.terminal then s.setAttempt pda (await (.recordProof acc.status))
          else if acc.status = .opened then failAttempt cfg s pda a .retryable
          else s.setAttempt pda (await .proof)
      | _ => failAttempt cfg s pda a .retryable
  | .proof =>
      match r with
      | .confirmed => (s.submit (.settleMarket pda)).setAttempt pda (await .settle)
      | _ => failAttempt cfg s pda a .retryable
  | .settle =>
      match r with
      | .failed .alreadyResolved => s.setAttempt pda (await .refetchResolved)
      | .failed e => failAttempt cfg s pda a e
      | _ => s.setAttempt pda (await .refetch)
  | .refetch =>
      match r with
      | .account (some acc) => (recordResolution s pda acc.status).setAttempt pda none
      | _ => failAttempt cfg s pda a .retryable
  | .recordProof status => (recordResolution s pda status).setAttempt pda none
  | .refetchResolved =>
      match r with
      | .account (some acc) => (recordResolution s pda acc.status).setAttempt pda none
      | _ => s.setAttempt pda none
  | .waiting => s

/-! ## Discovery -/

def adoptedRecord (cfg : Config) (info : FixtureInfo) (a : Account) : Record :=
  ⟨cfg.marketPdaFor info.fixtureId, info.fixtureId, cfg.marketType, loadPhase a.status, a.lockTime,
    a.resolutionTimeout, 0⟩

def createdRecord (cfg : Config) (info : FixtureInfo) (lockTime : ℤ) : Record :=
  ⟨cfg.marketPdaFor info.fixtureId, info.fixtureId, cfg.marketType, .created, lockTime,
    cfg.resolutionTimeoutSec, 0⟩

def startEnsure (cfg : Config) (s : State) (i : ℕ) (info : FixtureInfo)
    (lockTimeOverride : Option ℤ) : State :=
  if (s.tracked.get (cfg.marketPdaFor info.fixtureId)).isSome then s
  else s.setEnsure i (some ⟨info, lockTimeOverride, .fetch, none⟩)

def fixtureOf (s : State) (id : ℤ) : FixtureLive := (s.fixtures.get id).getD (freshFixture id)

/-- A market is created only with its lock time in the future. -/
def resumeEnsure (cfg : Config) (s : State) (i : ℕ) (e : Ensure) (now : ℤ) (r : Reply) : State :=
  match e.stop, r with
  | .fetch, .account (some a) => (s.track (adoptedRecord cfg e.info a)).setEnsure i none
  | .fetch, .account none =>
      let lockTime := (e.lockTimeOverride.orElse fun _ => e.info.kickoffTs).getD 0
      if lockTime = 0 ∨ lockTime ≤ now + 5 then s.setEnsure i none
      else
        (s.submit (.initializeMarket (cfg.marketPdaFor e.info.fixtureId) lockTime
          cfg.resolutionTimeoutSec)).setEnsure i
            (some { e with stop := .initializeMarket lockTime, reply := none })
  | .initializeMarket lockTime, .confirmed =>
      let s := s.track (createdRecord cfg e.info lockTime)
      let fs := describe (fixtureOf s e.info.fixtureId) e.info lockTime
      ({ s with fixtures := s.fixtures.set fs }).setEnsure i none
  | _, _ => s.setEnsure i none

/-! ## The feed -/

def ingest (cfg : Config) (s : State) (u : ScoreUpdate) : State :=
  let fx := fixtureOf s u.fixtureId
  if Stale fx u then { s with fixtures := s.fixtures.set fx }
  else
    let t := { s with fixtures := s.fixtures.set (ingestFixture fx u) }
    if Finalises fx u then onFinalised cfg t u.fixtureId u.seq else t

/-! ## Calls -/

/-- What a transaction does when it lands; a settlement may void the market. -/
def Tx.land (voided : Bool) (accounts : Accounts) : Tx → Option Accounts
  | .initializeMarket pda lockTime resolutionTimeout =>
      if h : accounts pda = none ∧ 0 < resolutionTimeout then
        some (Function.update accounts pda (some ⟨.opened, lockTime, resolutionTimeout, h.2⟩))
      else none
  | .lockMarket pda => do
      let a ← accounts pda
      if a.status = .opened then
        some (Function.update accounts pda (some { a with status := .locked }))
      else none
  | .cancelMarket pda => do
      let a ← accounts pda
      if a.status = .locked then
        some (Function.update accounts pda (some { a with status := .cancelled }))
      else none
  | .settleMarket pda => do
      let a ← accounts pda
      if a.status = .locked then
        let status := if voided then .cancelled else .settled
        some (Function.update accounts pda (some { a with status }))
      else none

/-- A served call; its success may be reported as a failure. -/
def Call.serve (voided reported : Bool) (accounts : Accounts) : Call → Option (Accounts × Reply)
  | .read pda => some (accounts, if reported then .account (accounts pda) else .failed .retryable)
  | .proof => some (accounts, if reported then .confirmed else .failed .retryable)
  | .send tx =>
      (tx.land voided accounts).map fun accounts =>
        (accounts, if reported then .confirmed else .failed .retryable)

/-- A settlement is refused as already resolved only when it is. -/
def Call.MayFail (accounts : Accounts) (c : Call) (e : Failure) : Prop :=
  e = .alreadyResolved → ∃ pda, c = .send (.settleMarket pda) ∧
    (accounts pda).any (·.status.terminal) = true

instance (accounts : Accounts) (c : Call) (e : Failure) : Decidable (c.MayFail accounts e) :=
  match c with
  | .send (.settleMarket pda) =>
      decidable_of_iff (e = .alreadyResolved → (accounts pda).any (·.status.terminal) = true)
        (by simp [Call.MayFail])
  | .read _ | .proof
  | .send (.initializeMarket ..) | .send (.lockMarket _) | .send (.cancelMarket _) =>
      decidable_of_iff (e ≠ .alreadyResolved) (by simp [Call.MayFail])

inductive Who
  | sweep
  | attempt (pda : Pubkey)
  | ensure (i : ℕ)
deriving DecidableEq

def sweepCall (pda : Pubkey) : SweepStop → Call
  | .lockRead | .cancelRead => .read pda
  | .lock => .send (.lockMarket pda)
  | .cancel => .send (.cancelMarket pda)

def attemptCall (pda : Pubkey) : AttemptStop → Option Call
  | .fetch | .refetch | .refetchResolved => some (.read pda)
  | .proof | .recordProof _ => some .proof
  | .settle => some (.send (.settleMarket pda))
  | .waiting => none

def ensureCall (cfg : Config) (pda : Pubkey) : EnsureStop → Call
  | .fetch => .read pda
  | .initializeMarket lockTime => .send (.initializeMarket pda lockTime cfg.resolutionTimeoutSec)

/-- The call that someone awaits and that was not answered yet. -/
def awaited (cfg : Config) (s : State) : Who → Option Call
  | .sweep => do
      let sw ← s.sweep
      let pda ← s.pdaOf sw.ref
      if sw.reply = none then some (sweepCall pda sw.stop) else none
  | .attempt pda => do
      let a ← s.attempts pda
      if a.reply = none then attemptCall pda a.stop else none
  | .ensure i => do
      let e ← s.ensures i
      if e.reply = none then some (ensureCall cfg (cfg.marketPdaFor e.info.fixtureId) e.stop)
      else none

def answer (s : State) (r : Reply) : Who → State
  | .sweep => s.setSweep (s.sweep.map fun sw => { sw with reply := some r })
  | .attempt pda =>
      s.setAttempt pda ((s.attempts pda).map fun a => { a with reply := some r })
  | .ensure i => s.setEnsure i ((s.ensures i).map fun e => { e with reply := some r })

def resume (cfg : Config) (s : State) (now : ℤ) : Who → Option State
  | .sweep => do
      let sw ← s.sweep
      let pda ← s.pdaOf sw.ref
      let r ← sw.reply
      some (resumeSweep s sw pda r)
  | .attempt pda => do
      let a ← s.attempts pda
      let r ← a.reply
      some (resumeAttempt cfg s pda a r)
  | .ensure i => do
      let e ← s.ensures i
      let r ← e.reply
      some (resumeEnsure cfg s i e now r)

/-! ## Runs -/

inductive Op
  | ingest (u : ScoreUpdate)
  | ensure (i : ℕ) (info : FixtureInfo) (lockTimeOverride : Option ℤ)
  | sweep (now : ℤ)
  | attemptDue (pda : Pubkey)
  | serve (who : Who) (voided reported : Bool)
  | deny (who : Who) (e : Failure)
  | resume (who : Who) (now : ℤ)
  /-- Another party creates a market or moves one. -/
  | chainCreates (pda : Pubkey) (a : Account)
  | chainMoves (pda : Pubkey) (status : MarketStatus)
deriving DecidableEq

def next (cfg : Config) (s : State) : Op → Option State
  | .ingest u => some (ingest cfg s u)
  | .ensure i info lockTimeOverride =>
      if (s.ensures i).isNone then some (startEnsure cfg s i info lockTimeOverride) else none
  | .sweep now => some (startSweep s now)
  | .attemptDue pda => do
      let a ← s.attempts pda
      if a.stop = .waiting then some (startAttempt s pda a.seq) else none
  | .serve who voided reported => do
      let c ← awaited cfg s who
      let (accounts, r) ← c.serve voided reported s.accounts
      some (answer { s with accounts } r who)
  | .deny who e => do
      let c ← awaited cfg s who
      if c.MayFail s.accounts e then some (answer s (.failed e) who) else none
  | .resume who now => resume cfg s now who
  | .chainCreates pda a =>
      if s.accounts pda = none ∧ a.status = .opened then
        some { s with accounts := Function.update s.accounts pda (some a) }
      else none
  | .chainMoves pda status => do
      let a ← s.accounts pda
      if stage a.status < stage status then
        some { s with accounts := Function.update s.accounts pda (some { a with status }) }
      else none

def machine (cfg : Config) : Machine State Op Unit :=
  ⟨fun s op => (next cfg s op).elim (.error ()) .ok⟩

end ProofBook.Keeper
