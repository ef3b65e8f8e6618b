import ProofBook.Lib.Runs
import ProofBook.Lib.SessionLock

/-!
# Leader election

Each keeper instance asks for one advisory lock over a connection of its own, and
calls itself the leader from the answer on. It gives up when the connection
reports an error or a periodic query fails. The server frees the lock when it
ends the session, whether or not the instance has noticed.
-/
namespace ProofBook.Leader
open Runs SessionLock

/-! ## Instances -/

/-- The connection of one client of an instance. -/
structure Session where
  owner : ℕ
  serial : ℕ
deriving Repr, DecidableEq

/-- Where `attempt` is: which promise it awaits. -/
inductive Attempt
  | idle
  | waiting
  | connecting
  | asking (session : Session)
  | answered (session : Session) (locked : Bool)
  | closing
  | acquiring
deriving Repr, DecidableEq

/-- Where the verify loop is. -/
inductive Verify
  | off
  | sleeping
  | asking (session : Session)
  | answered (session : Session) (locked : Bool)
deriving Repr, DecidableEq

structure Instance where
  started : Bool
  acquired : Bool
  stopped : Bool
  exited : Bool
  client : Option Session
  attempt : Attempt
  verify : Verify
  /-- The promise of `run` was resolved. -/
  resolved : Bool
deriving Repr, DecidableEq

namespace Instance

def fresh : Instance := ⟨false, false, false, false, none, .idle, .off, false⟩

def isLeader (n : Instance) : Bool := n.acquired

/-- `attempt` up to its first promise. -/
def tryAgain (n : Instance) : Instance :=
  { n with client := none, attempt := if n.stopped then .idle else .connecting }

def retrySoon (n : Instance) : Instance :=
  { n with client := none, attempt := if n.stopped then .idle else .waiting }

/-- A leader that is no longer certain exits the process. -/
def standDown (n : Instance) : Instance :=
  if n.acquired = true ∧ n.stopped = false then { n with acquired := false, exited := true } else n

/-- The answer to the query of `attempt`. -/
def learn (n : Instance) (locked : Bool) : Instance :=
  if locked then { n with acquired := true, attempt := .acquiring, verify := .sleeping }
  else { n with attempt := .closing }

/-- `onAcquire` returned; the keeper's does nothing. -/
def resolve (n : Instance) : Instance := { n with attempt := .idle, resolved := true }

/-- One tick of the verify loop, up to its query. -/
def tick (n : Instance) : Instance :=
  if n.acquired = true ∧ n.stopped = false then
    match n.client with
    | some s => { n with verify := .asking s }
    | none => n.standDown
  else { n with verify := .off }

/-- The answer to the query of the verify loop. -/
def verified (n : Instance) (locked : Bool) : Instance :=
  if locked then { n with verify := .sleeping } else { n with verify := .off }.standDown

def verifyFailed (n : Instance) : Instance := { n with verify := .off }.standDown

/-- `stop` clears the retry timer; the client closes on its own. -/
def stop (n : Instance) : Instance :=
  { n with stopped := true, attempt := if n.attempt = .waiting then .idle else n.attempt }

end Instance

/-! ## Runs -/

structure State where
  server : Server Session
  instances : ℕ → Instance
  /-- The instances the server granted the lock to. -/
  grants : List ℕ

def start : State := ⟨.empty, fun _ => .fresh, []⟩

inductive Op
  | run (i : ℕ)
  | connected (i serial : ℕ)
  | attemptAsked (i : ℕ)
  | learned (i : ℕ)
  | attemptFailed (i : ℕ)
  | closed (i : ℕ)
  | retried (i : ℕ)
  | onAcquired (i : ℕ)
  | tick (i : ℕ)
  | verifyAsked (i : ℕ)
  | verified (i : ℕ)
  | verifyFailed (i : ℕ)
  /-- The client's `error` or `end` event. -/
  | connectionLost (i : ℕ)
  | stop (i : ℕ)
  /-- The server ends a session; no client need notice. -/
  | sessionEnds (session : Session)
deriving Repr, DecidableEq

/-- The instance that acts. -/
def Op.actor : Op → Option ℕ
  | .run i | .connected i _ | .attemptAsked i | .learned i | .attemptFailed i | .closed i
  | .retried i | .onAcquired i | .tick i | .verifyAsked i | .verified i | .verifyFailed i
  | .connectionLost i | .stop i => some i
  | .sessionEnds _ => none

namespace State

def put (s : State) (i : ℕ) (n : Instance) : State :=
  { s with instances := Function.update s.instances i n }

def isLeader (s : State) (i : ℕ) : Bool := (s.instances i).isLeader

end State

/-- Whether `attempt` awaits its connection or its query. -/
def Attempt.pending : Attempt → Bool
  | .connecting | .asking _ | .answered _ _ => true
  | _ => false

/-- Whether the answer on its way to `attempt` is a grant. -/
def Attempt.granted : Attempt → Bool
  | .answered _ locked => locked
  | _ => false

def Verify.pending : Verify → Bool
  | .asking _ | .answered _ _ => true
  | _ => false

/-- One continuation of a running instance, or nothing if it is not due. -/
def act (s : State) (i : ℕ) (n : Instance) : Op → Option State
  | .run _ => if n.started then none else some (s.put i { n with started := true }.tryAgain)
  | .connected _ serial =>
      if n.attempt = .connecting ∧ (⟨i, serial⟩ : Session) ∉ s.server.opened then
        some { s.put i { n with client := some ⟨i, serial⟩, attempt := .asking ⟨i, serial⟩ } with
          server := s.server.connect ⟨i, serial⟩ }
      else none
  | .attemptAsked _ =>
      match n.attempt with
      | .asking session =>
          if s.server.Live session then
            let (locked, server) := s.server.tryLock session
            some { s.put i { n with attempt := .answered session locked } with
              server := server
              grants := if locked then i :: s.grants else s.grants }
          else none
      | _ => none
  | .learned _ =>
      match n.attempt with
      | .answered _ locked => some (s.put i (n.learn locked))
      | _ => none
  | .attemptFailed _ => if n.attempt.pending then some (s.put i n.retrySoon) else none
  | .closed _ => if n.attempt = .closing then some (s.put i n.retrySoon) else none
  | .retried _ => if n.attempt = .waiting then some (s.put i n.tryAgain) else none
  | .onAcquired _ => if n.attempt = .acquiring then some (s.put i n.resolve) else none
  | .tick _ => if n.verify = .sleeping then some (s.put i n.tick) else none
  | .verifyAsked _ =>
      match n.verify with
      | .asking session =>
          if s.server.Live session then
            let (locked, server) := s.server.tryLock session
            some { s.put i { n with verify := .answered session locked } with server := server }
          else none
      | _ => none
  | .verified _ =>
      match n.verify with
      | .answered _ locked => some (s.put i (n.verified locked))
      | _ => none
  | .verifyFailed _ => if n.verify.pending then some (s.put i n.verifyFailed) else none
  | .connectionLost _ => some (s.put i n.standDown)
  | .stop _ => some (s.put i n.stop)
  | .sessionEnds _ => none

/-- An exited process does nothing more. -/
def step (s : State) (op : Op) : Except Unit State :=
  match op with
  | .sessionEnds session => .ok { s with server := s.server.endSession session }
  | op =>
      match op.actor with
      | none => .error ()
      | some i =>
          if (s.instances i).exited then .error ()
          else
            match act s i (s.instances i) op with
            | some t => .ok t
            | none => .error ()

def machine : Machine State Op Unit := ⟨step⟩

/-! ## The invariant -/

/-- What an instance believes about the lock was true when the server answered. -/
structure InstanceOk (d : Server Session) (grants : List ℕ) (i : ℕ) (n : Instance) : Prop where
  owner : ∀ session, n.client = some session → session.owner = i
  held : n.acquired = true → ∃ session, n.client = some session ∧ d.Granted session
  settled : n.acquired = true → n.attempt = .idle ∨ n.attempt = .acquiring
  started : n.started = false → n.acquired = false ∧ n.attempt = .idle
  asking : ∀ session, n.attempt = .asking session →
    n.client = some session ∧ session ∈ d.opened
  answered : ∀ session, n.attempt = .answered session true →
    n.client = some session ∧ d.Granted session ∧ i ∈ grants
  acquiring : n.attempt = .acquiring → i ∈ grants
  resolved : n.resolved = true → i ∈ grants

/-- What the server gave stays given. -/
structure Grows (s t : State) : Prop where
  granted : ∀ session, s.server.Granted session → t.server.Granted session
  opened : ∀ session ∈ s.server.opened, session ∈ t.server.opened
  grants : ∀ i ∈ s.grants, i ∈ t.grants

theorem InstanceOk.grows {s t : State} (hg : Grows s t) {i : ℕ} {n : Instance}
    (h : InstanceOk s.server s.grants i n) : InstanceOk t.server t.grants i n where
  owner := h.owner
  held ha := by
    obtain ⟨session, hc, hs⟩ := h.held ha
    exact ⟨session, hc, hg.granted session hs⟩
  settled := h.settled
  started := h.started
  asking session ha := ⟨(h.asking session ha).1, hg.opened session (h.asking session ha).2⟩
  answered session ha := by
    obtain ⟨hc, hs, hi⟩ := h.answered session ha
    exact ⟨hc, hg.granted session hs, hg.grants i hi⟩
  acquiring ha := hg.grants i (h.acquiring ha)
  resolved hr := hg.grants i (h.resolved hr)

/-- What one continuation does to its instance and to the server. -/
structure Acted (s t : State) (i : ℕ) (op : Op) (n : Instance) : Prop where
  instances : t.instances = Function.update s.instances i n
  grows : Grows s t
  ok : InstanceOk t.server t.grants i n
  acquires : n.acquired = true → (s.instances i).acquired = true ∨
    ∃ session j, op = .learned j ∧ (s.instances i).attempt = .answered session true

section
variable {s t : State} {i : ℕ} {n : Instance} {op : Op}

/-- A change of the instance alone. -/
theorem acted_put (hok : InstanceOk s.server s.grants i n)
    (hacq : n.acquired = true → (s.instances i).acquired = true ∨
      ∃ session j, op = .learned j ∧ (s.instances i).attempt = .answered session true) :
    Acted s (s.put i n) i op n :=
  ⟨rfl, ⟨fun _ h => h, fun _ h => h, fun _ h => h⟩, hok, hacq⟩

theorem InstanceOk.standDown {d : Server Session} {grants : List ℕ}
    (h : InstanceOk d grants i n) : InstanceOk d grants i n.standDown := by
  unfold Instance.standDown
  split
  · exact ⟨h.owner, nofun, nofun, fun hs => ⟨rfl, (h.started hs).2⟩, h.asking, h.answered,
      h.acquiring, h.resolved⟩
  · exact h

theorem InstanceOk.withVerify {d : Server Session} {grants : List ℕ}
    (h : InstanceOk d grants i n) (v : Verify) :
    InstanceOk d grants i { n with verify := v } :=
  ⟨h.owner, h.held, h.settled, h.started, h.asking, h.answered, h.acquiring, h.resolved⟩

theorem standDown_acquired (h : n.standDown.acquired = true) : n.acquired = true := by
  unfold Instance.standDown at h
  split at h
  · cases h
  · exact h

theorem InstanceOk.begun {d : Server Session} {grants : List ℕ} (h : InstanceOk d grants i n)
    (hi : n.attempt ≠ .idle) : n.started = true := by
  by_contra hs
  exact hi (h.started (by simpa using hs)).2

theorem InstanceOk.not_acquired {d : Server Session} {grants : List ℕ}
    (h : InstanceOk d grants i n) (hi : n.attempt ≠ .idle) (ha : n.attempt ≠ .acquiring) :
    ¬ n.acquired = true := fun hc => (h.settled hc).elim hi ha

/-- A started instance that is not the leader and was told nothing. -/
theorem InstanceOk.reset {d : Server Session} {grants : List ℕ} (h : InstanceOk d grants i n)
    (hacq : ¬ n.acquired = true) (hs : n.started = true) {a : Attempt}
    (ha : a = .idle ∨ a = .waiting ∨ a = .connecting) :
    InstanceOk d grants i { n with client := none, attempt := a } := by
  refine ⟨nofun, fun hc => absurd hc hacq, fun hc => absurd hc hacq,
    fun hf => absurd hs (by simp_all), ?_, ?_, ?_, h.resolved⟩
  all_goals rcases ha with rfl | rfl | rfl <;> nofun

theorem InstanceOk.retrySoon {d : Server Session} {grants : List ℕ}
    (h : InstanceOk d grants i n) (hi : n.attempt ≠ .idle) (ha : n.attempt ≠ .acquiring) :
    InstanceOk d grants i n.retrySoon := by
  refine h.reset (h.not_acquired hi ha) (h.begun hi) ?_
  split <;> simp

/-- The server's answer, on its way to the instance that asked. -/
theorem acted_asked {session : Session} (h : InstanceOk s.server s.grants i n)
    (ha : n.attempt = .asking session) :
    Acted s { s.put i { n with attempt := .answered session (s.server.tryLock session).1 } with
      server := (s.server.tryLock session).2
      grants := if (s.server.tryLock session).1 then i :: s.grants else s.grants } i op
        { n with attempt := .answered session (s.server.tryLock session).1 } := by
  obtain ⟨hclient, hopen⟩ := h.asking session ha
  have hacq := h.not_acquired (by simp [ha]) (by simp [ha])
  have hgrants : ∀ j ∈ s.grants,
      j ∈ if (s.server.tryLock session).1 then i :: s.grants else s.grants := by
    intro j hj
    split
    · exact List.mem_cons_of_mem _ hj
    · exact hj
  refine ⟨rfl, ⟨fun _ hs => hs.tryLock, fun _ hs => by simpa using hs, hgrants⟩,
    ⟨h.owner, fun hc => absurd hc hacq, fun hc => absurd hc hacq, ?_, nofun, ?_, nofun,
      fun hr => hgrants i (h.resolved hr)⟩, fun hc => absurd hc hacq⟩
  · have := h.begun (by simp [ha])
    exact fun hs => absurd this (by simp_all)
  · intro session' he
    simp only [Attempt.answered.injEq] at he
    obtain ⟨rfl, hl⟩ := he
    exact ⟨hclient, Server.tryLock_granted hopen hl, by simp [hl]⟩

theorem acted_connected {serial : ℕ} (h : InstanceOk s.server s.grants i n)
    (ha : n.attempt = .connecting) :
    Acted s { s.put i { n with client := some ⟨i, serial⟩, attempt := .asking ⟨i, serial⟩ } with
      server := s.server.connect ⟨i, serial⟩ } i op
        { n with client := some ⟨i, serial⟩, attempt := .asking ⟨i, serial⟩ } := by
  have hacq := h.not_acquired (by simp [ha]) (by simp [ha])
  refine ⟨rfl, ⟨fun _ hs => hs.connect, fun _ hs => List.mem_cons_of_mem _ hs, fun _ hi => hi⟩,
    ⟨?_, fun hc => absurd hc hacq, fun hc => absurd hc hacq, ?_, ?_, nofun, nofun, h.resolved⟩,
    fun hc => absurd hc hacq⟩
  · rintro session ⟨⟩
    rfl
  · have := h.begun (by simp [ha])
    exact fun hs => absurd this (by simp_all)
  · rintro session ⟨⟩
    exact ⟨rfl, List.mem_cons_self⟩

/-- The answer arrives. -/
theorem acted_learned {session : Session} {locked : Bool} {j : ℕ}
    (h : InstanceOk s.server s.grants i n) (hn : s.instances i = n)
    (ha : n.attempt = .answered session locked) :
    Acted s (s.put i (n.learn locked)) i (.learned j) (n.learn locked) := by
  have hacq := h.not_acquired (by simp [ha]) (by simp [ha])
  have hs := h.begun (by simp [ha])
  cases locked with
  | true =>
      obtain ⟨hclient, hgranted, hi⟩ := h.answered session ha
      refine acted_put ⟨h.owner, fun _ => ⟨session, hclient, hgranted⟩, fun _ => .inr rfl, ?_,
        nofun, nofun, fun _ => hi, h.resolved⟩ fun _ => .inr ⟨session, j, rfl, by rw [hn, ha]⟩
      exact fun hf => absurd hs (by simp_all [Instance.learn])
  | false =>
      refine acted_put ⟨h.owner, fun hc => absurd hc hacq, fun hc => absurd hc hacq, ?_, nofun,
        nofun, nofun, h.resolved⟩ fun hc => absurd hc hacq
      exact fun hf => absurd hs (by simp_all [Instance.learn])

theorem InstanceOk.tick {d : Server Session} {grants : List ℕ} (h : InstanceOk d grants i n) :
    InstanceOk d grants i n.tick := by
  unfold Instance.tick
  split
  · split
    · exact h.withVerify _
    · exact h.standDown
  · exact h.withVerify _

theorem tick_acquired (h : n.tick.acquired = true) : n.acquired = true := by
  unfold Instance.tick at h
  split at h
  · split at h
    · exact h
    · exact standDown_acquired h
  · exact h

theorem InstanceOk.verified {d : Server Session} {grants : List ℕ} (h : InstanceOk d grants i n)
    (locked : Bool) : InstanceOk d grants i (n.verified locked) := by
  cases locked with
  | true => exact h.withVerify _
  | false => exact (h.withVerify _).standDown

theorem verified_acquired {locked : Bool} (h : (n.verified locked).acquired = true) :
    n.acquired = true := by
  cases locked with
  | true => exact h
  | false =>
      have := standDown_acquired h
      exact this

theorem InstanceOk.stop {d : Server Session} {grants : List ℕ} (h : InstanceOk d grants i n) :
    InstanceOk d grants i n.stop := by
  by_cases hw : n.attempt = .waiting
  · have hacq := h.not_acquired (by simp [hw]) (by simp [hw])
    simp only [Instance.stop, hw, if_true]
    exact ⟨h.owner, fun hc => absurd hc hacq, fun hc => absurd hc hacq,
      fun _ => ⟨by simpa using hacq, rfl⟩, nofun, nofun, nofun, h.resolved⟩
  · simp only [Instance.stop, hw, if_false]
    exact ⟨h.owner, h.held, h.settled, h.started, h.asking, h.answered, h.acquiring, h.resolved⟩

/-- Each continuation keeps its instance's beliefs true, and only an answer to
`attempt` makes a leader. -/
theorem act_acted (h : InstanceOk s.server s.grants i (s.instances i))
    (ha : act s i (s.instances i) op = some t) : ∃ n, Acted s t i op n := by
  generalize hn : s.instances i = n at h ha
  have same : ∀ {n' : Instance}, (n'.acquired = true → n.acquired = true) →
      n'.acquired = true → (s.instances i).acquired = true ∨
        ∃ session j, op = .learned j ∧ (s.instances i).attempt = .answered session true := by
    intro n' he hc
    exact .inl (by rw [hn, he hc])
  cases op <;> simp only [act, Option.ite_none_right_eq_some, Option.ite_none_left_eq_some,
    Option.some.injEq, reduceCtorEq] at ha
  case run =>
    obtain ⟨hs, rfl⟩ := ha
    obtain ⟨hacq, -⟩ := h.started (by simpa using hs)
    have hreset : InstanceOk s.server s.grants i { n with started := true } :=
      ⟨h.owner, h.held, h.settled, nofun, h.asking, h.answered, h.acquiring, h.resolved⟩
    refine ⟨_, acted_put (hreset.reset (by simp [hacq]) rfl ?_) (same id)⟩
    split <;> simp
  case connected =>
    obtain ⟨hc, rfl⟩ := ha
    exact ⟨_, acted_connected h hc.1⟩
  case attemptAsked =>
    split at ha
    next session hask =>
      split at ha
      · cases ha
        exact ⟨_, acted_asked h hask⟩
      · cases ha
    · cases ha
  case learned =>
    split at ha
    next session locked hans =>
      cases ha
      exact ⟨_, acted_learned h hn hans⟩
    · cases ha
  case attemptFailed =>
    obtain ⟨hp, rfl⟩ := ha
    exact ⟨_, acted_put (h.retrySoon (by rintro he; simp [he, Attempt.pending] at hp)
      (by rintro he; simp [he, Attempt.pending] at hp)) (same id)⟩
  case closed =>
    obtain ⟨hc, rfl⟩ := ha
    exact ⟨_, acted_put (h.retrySoon (by simp [hc]) (by simp [hc])) (same id)⟩
  case retried =>
    obtain ⟨hw, rfl⟩ := ha
    refine ⟨_, acted_put (h.reset (h.not_acquired (by simp [hw]) (by simp [hw]))
      (h.begun (by simp [hw])) ?_) (same id)⟩
    split <;> simp
  case onAcquired =>
    obtain ⟨hq, rfl⟩ := ha
    have hs := h.begun (by simp [hq])
    refine ⟨_, acted_put ⟨h.owner, h.held, fun _ => .inl rfl, ?_, nofun, nofun, nofun,
      fun _ => h.acquiring hq⟩ (same id)⟩
    exact fun hf => absurd hs (by simp_all [Instance.resolve])
  case tick =>
    obtain ⟨-, rfl⟩ := ha
    exact ⟨_, acted_put h.tick (same tick_acquired)⟩
  case verifyAsked =>
    split at ha
    next session hask =>
      split at ha
      · cases ha
        have hgrows : Grows s { s with server := (s.server.tryLock session).2 } :=
          ⟨fun _ hs => hs.tryLock, fun _ hs => by simpa using hs, fun _ hi => hi⟩
        exact ⟨_, rfl, ⟨hgrows.granted, hgrows.opened, hgrows.grants⟩,
          (h.withVerify _).grows hgrows, same id⟩
      · cases ha
    · cases ha
  case verified =>
    split at ha
    next session locked hans =>
      cases ha
      exact ⟨_, acted_put (h.verified locked) (same verified_acquired)⟩
    · cases ha
  case verifyFailed =>
    obtain ⟨-, rfl⟩ := ha
    exact ⟨_, acted_put (h.withVerify _).standDown (same standDown_acquired)⟩
  case connectionLost =>
    subst ha
    exact ⟨_, acted_put h.standDown (same standDown_acquired)⟩
  case stop =>
    subst ha
    exact ⟨_, acted_put h.stop (same id)⟩

end

/-! ## One leader -/

def State.Ok (s : State) : Prop := ∀ i, InstanceOk s.server s.grants i (s.instances i)

theorem start_ok : start.Ok := fun _ =>
  ⟨nofun, nofun, nofun, fun _ => ⟨rfl, rfl⟩, nofun, nofun, nofun, nofun⟩

section
variable {s t : State} {op : Op}

/-- A step ends a session or continues one instance. -/
theorem step_cases (h : step s op = .ok t) :
    (∃ session, op = .sessionEnds session ∧
      t = { s with server := s.server.endSession session }) ∨
    ∃ i, op.actor = some i ∧ act s i (s.instances i) op = some t := by
  cases op with
  | sessionEnds session => exact .inl ⟨session, rfl, (Except.ok.inj h).symm⟩
  | _ =>
      right
      simp only [step, Op.actor] at h
      split at h
      · cases h
      · split at h
        next hact =>
          cases h
          exact ⟨_, rfl, hact⟩
        · cases h

theorem State.Ok.step (hs : s.Ok) (h : step s op = .ok t) : t.Ok := by
  rcases step_cases h with ⟨session, -, rfl⟩ | ⟨i, -, hact⟩
  · have hgrows : Grows s { s with server := s.server.endSession session } :=
      ⟨fun _ hg => hg.endSession, fun _ ho => ho, fun _ hi => hi⟩
    exact fun i => (hs i).grows hgrows
  · obtain ⟨n, hacted⟩ := act_acted (hs i) hact
    intro j
    rw [hacted.instances]
    by_cases hj : j = i
    · subst hj
      simpa using hacted.ok
    · simpa [hj] using (hs j).grows hacted.grows

/-- When an instance learns that it was granted the lock, no session that the
server ended is its own or that of an instance that still calls itself leader. -/
def DeathsNoticed (s : State) : Op → Prop
  | .learned i => (s.instances i).attempt.granted = true → ∀ session ∈ s.server.ended,
      (s.instances session.owner).client = some session →
        session.owner ≠ i ∧ s.isLeader session.owner = false
  | _ => True

instance (s : State) (op : Op) : Decidable (DeathsNoticed s op) := by
  cases op <;> simp only [DeathsNoticed] <;> infer_instance

def OneLeader (s : State) : Prop := ∀ i j, s.isLeader i = true → s.isLeader j = true → i = j

theorem OneLeader.step (hs : s.Ok) (hone : OneLeader s) (hn : DeathsNoticed s op)
    (h : step s op = .ok t) : OneLeader t := by
  rcases step_cases h with ⟨session, -, rfl⟩ | ⟨i, hi, hact⟩
  · exact hone
  obtain ⟨n, hacted⟩ := act_acted (hs i) hact
  have others : ∀ j, j ≠ i → t.isLeader j = true → s.isLeader j = true := by
    intro j hj hl
    simpa [State.isLeader, hacted.instances, hj] using hl
  have alone : ∀ j, j ≠ i → t.isLeader i = true → t.isLeader j = true → False := by
    intro j hj hli hlj
    have hlj := others j hj hlj
    have hacq : n.acquired = true := by
      simpa [State.isLeader, Instance.isLeader, hacted.instances] using hli
    rcases hacted.acquires hacq with hold | ⟨mine, k, rfl, hans⟩
    · exact hj (hone j i hlj hold)
    obtain rfl : k = i := by simpa [Op.actor] using hi
    -- Both sessions were granted the lock, and the server has ended neither.
    have hn := hn (by rw [hans, Attempt.granted])
    obtain ⟨hclient, hmine, -⟩ := (hs k).answered mine hans
    obtain ⟨theirs, hclient', htheirs⟩ := (hs j).held hlj
    have hown := (hs k).owner mine hclient
    have hown' := (hs j).owner theirs hclient'
    have hlive : s.server.Live mine :=
      ⟨hmine.1, fun he => (hn mine he (hown ▸ hclient)).1 hown⟩
    have hlive' : s.server.Live theirs := by
      refine ⟨htheirs.1, fun he => ?_⟩
      have := (hn theirs he (hown' ▸ hclient')).2
      rw [hown', hlj] at this
      cases this
    have heq := hmine.unique htheirs hlive hlive'
    exact hj (hown'.symm.trans (heq ▸ hown))
  intro j k hlj hlk
  by_cases hj : j = i
  · subst hj
    by_contra hk
    exact alone k (Ne.symm hk) hlj hlk
  · by_cases hk : k = i
    · subst hk
      exact (alone j hj hlk hlj).elim
    · exact hone j k (others j hj hlj) (others k hk hlk)

end

/-- In every state of every run in which deaths are noticed at most one instance
is the leader; in every run at all, `run` resolves for instances that were
granted the lock. -/
theorem one_keeper_acts (ops : List Op) :
    (machine.Along DeathsNoticed start ops → OneLeader (machine.run start ops)) ∧
      ∀ i, ((machine.run start ops).instances i).resolved = true →
        i ∈ (machine.run start ops).grants := by
  constructor
  · intro h
    have hboth := h.preserves (P := fun s => s.Ok ∧ OneLeader s)
      (fun s op t hs hn hstep => ⟨hs.1.step hstep, hs.2.step hs.1 hn hstep⟩)
      ⟨start_ok, fun i j hi => by cases hi⟩
    exact hboth.2
  · intro i hi
    have hok : (machine.run start ops).Ok :=
      Machine.run_preserves (fun s op t hs hstep => hs.step hstep) start_ok ops
    exact (hok i).resolved hi

/-! ## Two leaders -/

/-- An instance that asks at once and learns that it was granted the lock. -/
def takes (i : ℕ) : List Op := [.run i, .connected i 0, .attemptAsked i, .learned i, .onAcquired i]

/-- A follower takes over after the leader noticed that its session ended. -/
def handover : List Op :=
  takes 0 ++ [.sessionEnds ⟨0, 0⟩, .tick 0, .verifyFailed 0] ++ takes 1

theorem one_keeper_acts_handover :
    OneLeader (machine.run start handover) ∧ 1 ∈ (machine.run start handover).grants :=
  ⟨(one_keeper_acts handover).1 (by decide), (one_keeper_acts handover).2 1 (by decide)⟩

/-- The session ends half-open: until its next tick the old leader goes on. -/
def halfOpen : List Op := takes 0 ++ [.sessionEnds ⟨0, 0⟩] ++ takes 1

theorem two_leaders : ¬ ∀ ops, OneLeader (machine.run start ops) := by
  intro h
  exact absurd (h halfOpen 0 1 (by decide) (by decide)) (by decide)

end ProofBook.Leader
