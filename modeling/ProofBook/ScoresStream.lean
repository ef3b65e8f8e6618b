import ProofBook.Ingest
import ProofBook.Lib.Runs

/-!
# The keeper's streams

A client of a server-sent event stream: it reconnects after a growing delay and
resumes after the last event it saw. The scores and the odds are read by the same
client with different rows. The server is not part of this: that its messages are
the entries of a log, each connection going on where the one before ended, is a
hypothesis on the messages that arrive.
-/
namespace ProofBook.ScoresStream
open Store Runs

universe u v

/-! ## Rows of a message -/

/-- A message is not JSON, one record or a list of them. -/
inductive Payload (R : Type u)
  | heartbeat
  | record (raw : R)
  | records (raws : List R)

def Payload.raws {R : Type u} : Payload R → List R
  | .heartbeat => []
  | .record raw => [raw]
  | .records raws => raws

/-- A score record; field names come in two casings. -/
structure RawScore where
  FixtureId : Option ℤ
  fixtureId : Option ℤ
  Seq : Option ℤ
  seq : Option ℤ
  Ts : Option ℤ
  ts : Option ℤ
  StatusId : Option ℤ
  statusId : Option ℤ
  Score : Option PartialScore
  score : Option PartialScore
deriving Repr, DecidableEq

/-- The total goals of the sides that have any. -/
def goals (s : Option PartialScore) : Option PartialScore :=
  s.bind fun s => if s.p1 = none ∧ s.p2 = none then none else some s

def normalizeUpdate (now : ℤ) (raw : RawScore) : Option ScoreUpdate := do
  let fixtureId ← raw.FixtureId.orElse fun _ => raw.fixtureId
  let seq ← raw.Seq.orElse fun _ => raw.seq
  let ts := (raw.Ts.orElse fun _ => raw.ts).getD now
  let statusId := raw.StatusId.orElse fun _ => raw.statusId
  let score := goals (raw.Score.orElse fun _ => raw.score)
  pure ⟨fixtureId, seq, ts, statusId, score⟩

/-- What the scores stream emits of a message. -/
def scoreRows (now : ℤ) (message : Payload RawScore) : List ScoreUpdate :=
  message.raws.filterMap (normalizeUpdate now)

/-! ## The client -/

/-- A connection. -/
structure Socket (I : Type) where
  id : ℕ
  opened : Bool
  /-- The last id it was sent, or else the `Last-Event-ID` it was opened with. -/
  after : Option I
  /-- The last id the event source saw itself. -/
  lastEventId : Option I
deriving Repr, DecidableEq

structure Timer where
  id : ℕ
  delay : ℕ
deriving Repr, DecidableEq

/-- Sockets and timers that are not the ones the client remembers stay alive on
their own. -/
structure State (I : Type) (U : Type v) where
  sockets : List (Socket I)
  es : Option ℕ
  timers : List Timer
  reconnectTimer : Option ℕ
  lastEventId : Option I
  backoffMs : ℕ
  stopped : Bool
  next : ℕ
  emitted : List U
  /-- The reconnects that were scheduled since a connection last opened. -/
  failures : ℕ

inductive Op (I : Type) (P : Type u)
  | start
  | stop
  | accept (socket : ℕ)
  | message (socket : ℕ) (id : Option I) (entry : P) (now : ℤ)
  | fail (socket : ℕ) (fatal : Bool)
  | fire (timer : ℕ)

variable {I : Type} {P : Type u} {U : Type v}

def initial (I : Type) (U : Type v) : State I U :=
  ⟨[], none, [], none, none, 1000, false, 0, [], 0⟩

/-- A new event source, unless the stream was stopped. -/
def connect (s : State I U) : State I U :=
  if s.stopped then s
  else { s with
    sockets := s.sockets ++ [⟨s.next, false, none, none⟩], es := some s.next, next := s.next + 1 }

def start (s : State I U) : State I U := connect { s with stopped := false }

/-- The remembered timer and event source are cleared and closed. -/
def stop (s : State I U) : State I U :=
  { s with
    stopped := true
    timers := s.timers.filter fun t => some t.id ≠ s.reconnectTimer
    sockets := s.sockets.filter fun c => some c.id ≠ s.es }

def setSocket (s : State I U) (c : Socket I) : State I U :=
  { s with sockets := s.sockets.map fun d => if d.id = c.id then c else d }

/-- The `Last-Event-ID` of a request: the event source's own, or else the client's. -/
def resumeFrom (s : State I U) (c : Socket I) : Option I :=
  c.lastEventId.orElse fun _ => s.lastEventId

def onopen (s : State I U) (c : Socket I) : State I U :=
  setSocket { s with backoffMs := 1000, failures := 0 }
    { c with opened := true, after := resumeFrom s c }

/-- A message without an id leaves the ids as they were. -/
def onmessage (rows : ℤ → P → List U) (s : State I U) (c : Socket I) (id : Option I) (entry : P)
    (now : ℤ) : State I U :=
  setSocket
    { s with
      lastEventId := id.orElse fun _ => s.lastEventId
      emitted := s.emitted ++ rows now entry }
    { c with
      after := id.orElse fun _ => c.after
      lastEventId := id.orElse fun _ => c.lastEventId }

/-- The remembered event source is closed, whichever one failed; another that did
not fail for good connects again by itself. -/
def onerror (s : State I U) (c : Socket I) (fatal : Bool) : State I U :=
  let s := if fatal then { s with sockets := s.sockets.filter fun d => d.id ≠ c.id }
    else setSocket s { c with opened := false }
  let s := { s with sockets := s.sockets.filter fun d => some d.id ≠ s.es }
  if s.stopped then s
  else { s with
    timers := s.timers ++ [⟨s.next, s.backoffMs⟩]
    reconnectTimer := some s.next
    backoffMs := min (s.backoffMs * 2) 60000
    next := s.next + 1
    failures := s.failures + 1 }

def socket? (s : State I U) (id : ℕ) : Option (Socket I) := s.sockets.find? fun c => c.id = id

/-- One callback or one call of the client. -/
def step (rows : ℤ → P → List U) (s : State I U) : Op I P → Except Unit (State I U)
  | .start => .ok (start s)
  | .stop => .ok (stop s)
  | .accept socket =>
      match socket? s socket with
      | some c => if c.opened then .error () else .ok (onopen s c)
      | none => .error ()
  | .message socket id entry now =>
      match socket? s socket with
      | some c => if c.opened then .ok (onmessage rows s c id entry now) else .error ()
      | none => .error ()
  | .fail socket fatal =>
      match socket? s socket with
      | some c => .ok (onerror s c fatal)
      | none => .error ()
  | .fire timer =>
      if s.timers.any fun t => t.id = timer then
        .ok (connect { s with timers := s.timers.filter fun t => t.id ≠ timer })
      else .error ()

def machine (rows : ℤ → P → List U) : Machine (State I U) (Op I P) Unit := ⟨step rows⟩

@[simp] theorem machine_step (rows : ℤ → P → List U) :
    (machine rows).step = step (I := I) rows := rfl

/-! ## The server -/

/-- A log, each entry under an id of its own. -/
structure Log (I : Type) (P : Type u) where
  id : ℕ → I
  entry : ℕ → P
  distinct : id.Injective

/-- What is relied on of the server: a message is an entry of its log under its id,
and the next one after what the connection was sent last or was opened with; a
connection opened without an id may begin anywhere. -/
def Serves (log : Log I P) (s : State I U) : Op I P → Prop
  | .message socket id entry _ => ∀ c ∈ socket? s socket,
      ∃ n, id = some (log.id n) ∧ entry = log.entry n ∧
        ∀ m, c.after = some (log.id m) → n = m + 1
  | _ => True

/-- Nothing is connected or about to be. -/
def Idle (s : State I U) : Prop := s.sockets = [] ∧ s.timers = []

/-- The stream is started only when nothing is connected. -/
def StartsIdle (s : State I U) : Op I P → Prop
  | .start => Idle s
  | _ => True

/-! ## What the client reads -/

/-- The rows of the entries from `n` on, each read at its time. -/
def readFrom (rows : ℤ → P → List U) (log : Log I P) : ℕ → List ℤ → List U
  | _, [] => []
  | n, now :: times => rows now (log.entry n) ++ readFrom rows log (n + 1) times

variable {rows : ℤ → P → List U} {log : Log I P} {s s' : State I U} {op : Op I P}

theorem readFrom_concat (n : ℕ) (times : List ℤ) (now : ℤ) :
    readFrom rows log n (times ++ [now]) =
      readFrom rows log n times ++ rows now (log.entry (n + times.length)) := by
  induction times generalizing n with
  | nil => simp [readFrom]
  | cons t times ih =>
      rw [List.cons_append, readFrom, ih, readFrom, List.append_assoc, List.length_cons,
        Nat.add_assoc, Nat.add_comm 1]

/-- What was emitted: the rows of consecutive entries, the last of them the one
the client remembers. -/
structure Emitted (rows : ℤ → P → List U) (log : Log I P) (s : State I U) (first : ℕ)
    (times : List ℤ) : Prop where
  rows : s.emitted = readFrom rows log first times
  last : s.lastEventId = if times = [] then none else some (log.id (first + times.length - 1))

/-- The delay after some failures in a row. -/
def backoff (failures : ℕ) : ℕ := min (1000 * 2 ^ failures) 60000

theorem backoff_next (failures : ℕ) :
    min (backoff failures * 2) 60000 = backoff (failures + 1) := by
  unfold backoff
  rw [pow_succ]
  omega

/-- One connection or one timer while the stream runs, and nothing otherwise. -/
inductive Link (s : State I U) : Prop
  | idle (sockets : s.sockets = []) (timers : s.timers = [])
      (stopped : s.stopped = true ∨ s.next = 0)
  | connected (c : Socket I) (sockets : s.sockets = [c]) (timers : s.timers = [])
      (es : s.es = some c.id) (running : s.stopped = false) (started : 0 < s.next)
      (own : c.lastEventId = none ∨ c.lastEventId = s.lastEventId)
      (after : c.opened = true → c.after = s.lastEventId)
  | waiting (t : Timer) (sockets : s.sockets = []) (timers : s.timers = [t])
      (timer : s.reconnectTimer = some t.id) (running : s.stopped = false) (started : 0 < s.next)
      (delay : ∃ k, s.failures = k + 1 ∧ t.delay = backoff k)

structure Invariant (rows : ℤ → P → List U) (log : Log I P) (s : State I U) : Prop where
  link : Link s
  backoff : s.backoffMs = backoff s.failures
  emitted : ∃ first times, Emitted rows log s first times

theorem initial_invariant : Invariant rows log (initial I U) where
  link := .idle rfl rfl (.inr rfl)
  backoff := rfl
  emitted := ⟨0, [], rfl, rfl⟩

theorem socket?_connected {c d : Socket I} (hs : s.sockets = [c]) {id : ℕ}
    (h : socket? s id = some d) : d = c ∧ id = c.id := by
  have hd := List.find?_some h
  have hmem := List.mem_of_find?_eq_some h
  rw [hs, List.mem_singleton] at hmem
  subst hmem
  exact ⟨rfl, by simpa [eq_comm] using hd⟩

theorem socket?_none (hs : s.sockets = []) (id : ℕ) : socket? s id = none := by
  simp [socket?, hs]

/-- A connection that a callback ran on is the one there is. -/
theorem Link.callback (h : Link s) {id : ℕ} {d : Socket I} (hd : socket? s id = some d) :
    s.sockets = [d] ∧ s.timers = [] ∧ s.es = some d.id ∧ s.stopped = false ∧ 0 < s.next ∧
      (d.lastEventId = none ∨ d.lastEventId = s.lastEventId) ∧
      (d.opened = true → d.after = s.lastEventId) := by
  cases h with
  | idle hs => simp [socket?_none hs] at hd
  | waiting t hs => simp [socket?_none hs] at hd
  | connected c hs ht he hr hn ho ha =>
      obtain ⟨rfl, -⟩ := socket?_connected hs hd
      exact ⟨hs, ht, he, hr, hn, ho, ha⟩

/-- A new connection where nothing is connected. -/
theorem connect_invariant (hbackoff : s.backoffMs = backoff s.failures)
    (hemitted : ∃ first times, Emitted rows log s first times) (hs : s.sockets = [])
    (ht : s.timers = []) (hrun : s.stopped = false) : Invariant rows log (connect s) := by
  obtain ⟨first, times, hem⟩ := hemitted
  rw [connect, if_neg (by simp [hrun])]
  exact ⟨.connected ⟨s.next, false, none, none⟩ (by simp [hs]) ht rfl hrun (Nat.succ_pos _)
    (.inl rfl) (fun ho => by cases ho), hbackoff, first, times, hem.rows, hem.last⟩

theorem Invariant.stop (h : Invariant rows log s) : Invariant rows log (stop s) := by
  refine ⟨.idle ?_ ?_ (.inl rfl), h.backoff, ?_⟩
  · cases h.link with
    | idle hs | waiting t hs => simp [ScoresStream.stop, hs]
    | connected c hs ht he => simp [ScoresStream.stop, hs, he]
  · cases h.link with
    | idle hs ht | connected c hs ht => simp [ScoresStream.stop, ht]
    | waiting t hs ht he => simp [ScoresStream.stop, ht, he]
  · obtain ⟨first, times, he⟩ := h.emitted
    exact ⟨first, times, he.rows, he.last⟩

theorem setSocket_single {c d : Socket I} (hs : s.sockets = [c]) (hid : d.id = c.id) :
    (setSocket s d).sockets = [d] := by
  simp [setSocket, hs, hid]

theorem resumeFrom_eq {c : Socket I}
    (ho : c.lastEventId = none ∨ c.lastEventId = s.lastEventId) :
    resumeFrom s c = s.lastEventId := by
  unfold resumeFrom
  rcases ho with ho | ho <;> rw [ho]
  · rfl
  · cases s.lastEventId <;> rfl

theorem Invariant.accept (h : Invariant rows log s) {id : ℕ} {c : Socket I}
    (hc : socket? s id = some c) : Invariant rows log (onopen s c) := by
  obtain ⟨hs, ht, he, hr, hn, ho, -⟩ := h.link.callback hc
  obtain ⟨first, times, hem⟩ := h.emitted
  refine ⟨.connected { c with opened := true, after := resumeFrom s c } ?_ ht he hr hn ho ?_,
    rfl, first, times, hem.rows, hem.last⟩
  · exact setSocket_single hs rfl
  · exact fun _ => resumeFrom_eq ho

/-- The entry after those that were emitted is the one that is sent next. -/
theorem Emitted.message {first : ℕ} {times : List ℤ} (h : Emitted rows log s first times)
    {n : ℕ} (hnext : ∀ m, s.lastEventId = some (log.id m) → n = m + 1) (c : Socket I) (now : ℤ) :
    ∃ first times, Emitted rows log (onmessage rows s c (some (log.id n)) (log.entry n) now) first
      times := by
  by_cases ht : times = []
  · subst ht
    have hrows : s.emitted = [] := h.rows
    exact ⟨n, [now], by simp [onmessage, setSocket, hrows, readFrom], by
      simp [onmessage, setSocket]⟩
  · have hlast := h.last
    rw [if_neg ht] at hlast
    have hpos := List.length_pos_iff.mpr ht
    have hplace : n = first + times.length := by
      have := hnext _ hlast
      omega
    refine ⟨first, times ++ [now], ?_, ?_⟩
    · rw [readFrom_concat, ← h.rows, ← hplace]
      rfl
    · simp [onmessage, setSocket, hplace, ← Nat.add_assoc]

theorem Invariant.message (h : Invariant rows log s) {socket : ℕ} {c : Socket I}
    (hc : socket? s socket = some c) (hopen : c.opened = true) {id : Option I} {entry : P} {now : ℤ}
    (hserves : Serves log s (.message socket id entry now)) :
    Invariant rows log (onmessage rows s c id entry now) := by
  obtain ⟨hs, ht, he, hr, hn, ho, ha⟩ := h.link.callback hc
  obtain ⟨first, times, hem⟩ := h.emitted
  obtain ⟨n, rfl, rfl, hnext⟩ := hserves c hc
  rw [ha hopen] at hnext
  exact ⟨.connected { c with after := some (log.id n), lastEventId := some (log.id n) }
    (setSocket_single hs rfl) ht he hr hn (.inr rfl) fun _ => rfl, h.backoff,
    hem.message hnext c now⟩

theorem Invariant.fail (h : Invariant rows log s) {id : ℕ} {c : Socket I}
    (hc : socket? s id = some c) (fatal : Bool) : Invariant rows log (onerror s c fatal) := by
  obtain ⟨hs, ht, he, hr, hn, ho, -⟩ := h.link.callback hc
  obtain ⟨first, times, hem⟩ := h.emitted
  have hdelay : min (s.backoffMs * 2) 60000 = ScoresStream.backoff (s.failures + 1) := by
    rw [h.backoff, backoff_next]
  cases fatal with
  | true =>
      simp only [onerror, if_true, if_neg (show ¬ s.stopped = true by simp [hr])]
      exact ⟨.waiting ⟨s.next, s.backoffMs⟩ (by simp [hs]) (by simp [ht]) rfl hr (Nat.succ_pos _)
        ⟨_, rfl, h.backoff⟩, hdelay, first, times, hem.rows, hem.last⟩
  | false =>
      have hclosed : ((setSocket s { c with opened := false }).sockets.filter fun d =>
          some d.id ≠ s.es) = [] := by
        have hone : (setSocket s { c with opened := false }).sockets =
            [{ c with opened := false }] := setSocket_single hs rfl
        simp [hone, he]
      simp only [onerror, Bool.false_eq_true, if_false]
      rw [if_neg (show ¬ (setSocket s { c with opened := false }).stopped = true by
        simp [setSocket, hr])]
      exact ⟨.waiting ⟨s.next, s.backoffMs⟩ hclosed (by simp [setSocket, ht]) rfl hr
        (Nat.succ_pos _) ⟨_, rfl, h.backoff⟩, hdelay, first, times, hem.rows, hem.last⟩

theorem Invariant.fire (h : Invariant rows log s) {id : ℕ}
    (hid : (s.timers.any fun t => t.id = id) = true) : Invariant rows log
      (ScoresStream.connect { s with timers := s.timers.filter fun t => t.id ≠ id }) := by
  cases h.link with
  | idle hs ht => simp [ht] at hid
  | connected c hs ht => simp [ht] at hid
  | waiting t hs ht he hr hn hd =>
      have hone : t.id = id := by simpa [ht] using hid
      obtain ⟨first, times, hem⟩ := h.emitted
      exact connect_invariant h.backoff ⟨first, times, hem.rows, hem.last⟩ hs
        (by simp [ht, hone]) hr

theorem Invariant.step (h : Invariant rows log s) (hop : StartsIdle s op)
    (hserves : Serves log s op) (hs : step rows s op = .ok s') : Invariant rows log s' := by
  cases op with
  | start =>
      cases hs
      obtain ⟨first, times, hem⟩ := h.emitted
      exact connect_invariant h.backoff ⟨first, times, hem.rows, hem.last⟩ hop.1 hop.2 rfl
  | stop =>
      cases hs
      exact h.stop
  | accept socket =>
      simp only [ScoresStream.step] at hs
      split at hs
      · split_ifs at hs
        cases hs
        exact h.accept ‹_›
      · cases hs
  | message socket id entry now =>
      simp only [ScoresStream.step] at hs
      split at hs
      next c hc =>
        split_ifs at hs with hopen
        cases hs
        exact h.message hc hopen hserves
      · cases hs
  | fail socket fatal =>
      simp only [ScoresStream.step] at hs
      split at hs
      · cases hs
        exact h.fail ‹_› fatal
      · cases hs
  | fire timer =>
      simp only [ScoresStream.step] at hs
      split_ifs at hs with hid
      cases hs
      exact h.fire hid

theorem run_invariant {ops : List (Op I P)}
    (h : (machine rows).Along (fun s op => StartsIdle s op ∧ Serves log s op) (initial I U) ops) :
    Invariant rows log ((machine rows).run (initial I U) ops) :=
  h.preserves (fun _ _ _ hP hC hs => hP.step hC.1 hC.2 hs) initial_invariant

/-! ## Reading on -/

/-- A callback of a connection or of a timer, other than a failure. -/
def IsCallback : Op I P → Prop
  | .accept _ | .message _ _ _ _ | .fire _ => True
  | _ => False

/-- Callbacks alone bring the client to an entry of the log. -/
def CanReach (rows : ℤ → P → List U) (log : Log I P) (s : State I U) (n : ℕ) : Prop :=
  ∃ ops, (∀ op ∈ ops, IsCallback op) ∧ (machine rows).Along (Serves log) s ops ∧
    ((machine rows).run s ops).lastEventId = some (log.id n)

theorem CanReach.callback (op : Op I P) (hop : IsCallback op) (hserves : Serves log s op)
    (hs : step rows s op = .ok s') {n : ℕ} (h : CanReach rows log s' n) :
    CanReach rows log s n := by
  obtain ⟨ops, hops, halong, hlast⟩ := h
  have happly : (machine rows).apply s op = s' := Machine.apply_of_ok hs
  exact ⟨op :: ops, List.forall_mem_cons.mpr ⟨hop, hops⟩, ⟨hserves, by rwa [happly]⟩, by
    rwa [Machine.run_cons, happly]⟩

theorem socket?_single {c : Socket I} (hs : s.sockets = [c]) : socket? s c.id = some c := by
  simp [socket?, hs]

/-- The next entry may be sent after the one that was. -/
theorem serves_next (log : Log I P) (n : ℕ) {socket : ℕ}
    (h : ∀ c ∈ socket? s socket, c.after = some (log.id n)) (now : ℤ) :
    Serves log s (.message socket (some (log.id (n + 1))) (log.entry (n + 1)) now) := by
  intro c hc
  refine ⟨n + 1, rfl, rfl, fun m hm => ?_⟩
  rw [h c hc] at hm
  exact congrArg (· + 1) (log.distinct (Option.some.inj hm))

/-- An accepted connection reads on, entry by entry. -/
theorem opened_canReach {c : Socket I} {l : ℕ} (h : Invariant rows log s) (hs : s.sockets = [c])
    (hopen : c.opened = true) (hl : s.lastEventId = some (log.id l)) (k : ℕ) :
    CanReach rows log s (l + k) := by
  induction k generalizing s c l with
  | zero => exact ⟨[], by simp, trivial, hl⟩
  | succ k ih =>
      have hc := socket?_single hs
      obtain ⟨-, -, -, -, -, -, hafter⟩ := h.link.callback hc
      have hserves : Serves log s
          (.message c.id (some (log.id (l + 1))) (log.entry (l + 1)) 0) := by
        refine serves_next log l (fun d hd => ?_) 0
        obtain ⟨rfl, -⟩ := socket?_connected hs hd
        rw [hafter hopen, hl]
      have hstep : step rows s (.message c.id (some (log.id (l + 1))) (log.entry (l + 1)) 0) =
          .ok (onmessage rows s c (some (log.id (l + 1))) (log.entry (l + 1)) 0) := by
        simp [step, hc, hopen]
      rw [Nat.add_comm k 1, ← Nat.add_assoc]
      refine .callback (.message c.id _ _ 0) trivial hserves hstep ?_
      exact ih (h.message hc hopen hserves) (setSocket_single hs rfl) hopen rfl

/-- A connection that is not accepted yet is accepted first. -/
theorem connected_canReach {c : Socket I} {l : ℕ} (h : Invariant rows log s)
    (hs : s.sockets = [c]) (hl : s.lastEventId = some (log.id l)) (k : ℕ) :
    CanReach rows log s (l + k) := by
  by_cases hopen : c.opened = true
  · exact opened_canReach h hs hopen hl k
  · have hc := socket?_single hs
    have hstep : step rows s (.accept c.id) = .ok (onopen s c) := by
      simp [step, hc, hopen]
    refine .callback (.accept c.id) trivial trivial hstep ?_
    exact opened_canReach (h.accept hc) (setSocket_single hs rfl) rfl hl k

theorem running_canReach {l : ℕ} (h : Invariant rows log s) (hrun : s.stopped = false)
    (hstarted : 0 < s.next) (hl : s.lastEventId = some (log.id l)) (k : ℕ) :
    CanReach rows log s (l + k) := by
  cases h.link with
  | idle hs ht hstop => simp [hrun, hstarted.ne'] at hstop
  | connected c hs => exact connected_canReach h hs hl k
  | waiting t hs ht =>
      have hid : (s.timers.any fun t' => t'.id = t.id) = true := by simp [ht]
      have hstep : step rows s (.fire t.id) =
          .ok (connect { s with timers := s.timers.filter fun t' => t'.id ≠ t.id }) := by
        rw [step, if_pos hid]
      have hinv := h.fire hid
      refine .callback (.fire t.id) trivial trivial hstep ?_
      rw [connect, if_neg (by simp [hrun])] at hinv ⊢
      exact connected_canReach (c := ⟨s.next, false, none, none⟩) hinv (by simp [hs]) hl k

def goal (seq : ℤ) : Payload RawScore :=
  .record ⟨some 7, none, some seq, none, some seq, none, some 2, none, some ⟨some seq, none⟩, none⟩

/-- A goal with every entry. -/
def goalLog : Log ℕ (Payload RawScore) := ⟨id, fun n => goal n, Function.injective_id⟩

/-- A connection dropped after the second goal; the next one fails before it is
accepted, so the client waits twice as long before it reads the third. -/
def droppedRun : List (Op ℕ (Payload RawScore)) :=
  [.start, .accept 0, .message 0 (some 1) (goal 1) 0, .message 0 (some 2) (goal 2) 0,
    .fail 0 false, .fire 1, .fail 2 true, .fire 3, .accept 4, .message 4 (some 3) (goal 3) 0,
    .fail 4 false]

end ProofBook.ScoresStream
