import ProofBook.Lib.LogReader
import ProofBook.Lib.Runs

/-!
# The event stream

The keeper inserts a row for every event and notifies its id; every API instance
that listens reads the row back and broadcasts it to its registered connections.
A connection first replays rows: after the id the client resumes from, or else
the latest. The replay query, the writing of its rows and the registration are
three steps, each notification is dispatched on its own, and the frames of a
connection arrive in the order they were written, unless it drops first.
-/
namespace ProofBook.EventStream
open LogReader Runs

/-- What the stream reads of a `feed_event`; the payload is only passed on. -/
structure Row where
  id : ℕ
  type : String
deriving Repr, DecidableEq

structure Config where
  /-- `?types=` of a client; none stands for all. -/
  types : ℕ → List String
  /-- The types a client has a listener for. -/
  listens : ℕ → List String

def backlogLimit : ℕ := 50
def resumeLimit : ℕ := 500

inductive Phase
  | requested
  | queried (result : List Row)
  | replayed
  | registered
  | closed
deriving DecidableEq

structure Conn where
  client : ℕ
  server : ℕ
  /-- The id the client resumes from. -/
  afterId : Option ℕ
  phase : Phase
  /-- Frames written and not received yet. -/
  wire : List Row
  /-- The latest id when the replay query ran, and the one it did not reach back to. -/
  mark : ℕ
  low : ℕ
deriving DecidableEq

/-- The last id of a client's reader is its `lastId`. -/
structure Client where
  reader : Reader ℕ
  conn : Option ℕ
deriving DecidableEq

structure State where
  rows : List Row
  listening : ℕ → Bool
  dispatching : ℕ → List ℕ
  /-- The ids each instance has broadcast. -/
  sent : ℕ → List ℕ
  conns : ℕ → Option Conn
  connected : ℕ
  clients : ℕ → Client

def start : State where
  rows := []
  listening _ := false
  dispatching _ := []
  sent _ := []
  conns _ := none
  connected := 0
  clients _ := ⟨.new, none⟩

/-- The id of the latest row. -/
def latest (rows : List Row) : ℕ := (rows.getLast?.map (·.id)).getD 0

section
variable (cfg : Config)

/-- The server's filter. -/
def wants (c : ℕ) (row : Row) : Bool := (cfg.types c).isEmpty || (cfg.types c).contains row.type

def listensTo (c : ℕ) (row : Row) : Bool := (cfg.listens c).contains row.type

/-- The rows that match a replay query, and how many of them it takes. -/
def matching (rows : List Row) (q : Conn) : List Row :=
  rows.filter fun row => wants cfg q.client row && q.afterId.all (· < row.id)

def limit (q : Conn) : ℕ := if q.afterId.isSome then resumeLimit else backlogLimit

/-- The latest rows that match, oldest first. -/
def replayRows (rows : List Row) (q : Conn) : List Row :=
  ((matching cfg rows q).reverse.take (limit q)).reverse

/-- A query that failed counts as empty. -/
def queryResult (rows : List Row) (q : Conn) (ok : Bool) : List Row :=
  if ok then replayRows cfg rows q else []

/-- The matching rows that are not replayed. -/
def skipped (rows : List Row) (q : Conn) (ok : Bool) : List Row :=
  if ok then (matching cfg rows q).take ((matching cfg rows q).length - limit q)
  else matching cfg rows q

def skippedHeard (rows : List Row) (q : Conn) (ok : Bool) : List Row :=
  (skipped cfg rows q ok).filter (listensTo cfg q.client ·)

/-- The connection once its replay query returned. -/
def queryConn (rows : List Row) (q : Conn) (ok : Bool) : Conn :=
  { q with
    phase := .queried (queryResult cfg rows q ok)
    mark := latest rows
    low := q.afterId.getD (latest (skippedHeard cfg rows q ok)) }

/-- A broadcast frame is written to the registered connections that want it. -/
def pushFrame (n : ℕ) (row : Row) (q : Conn) : Conn :=
  if q.server = n ∧ q.phase = .registered ∧ wants cfg q.client row = true then
    { q with wire := q.wire ++ [row] }
  else q

def broadcast (s : State) (n : ℕ) (row : Row) : State :=
  { s with
    conns := fun k => (s.conns k).map (pushFrame cfg n row)
    sent := Function.update s.sent n (row.id :: s.sent n) }

/-- `fan` of one listener; a type without one goes unheard. -/
def hear (c : ℕ) (r : Reader ℕ) (row : Row) : Reader ℕ :=
  if listensTo cfg c row then r.take row.id else r

namespace State
variable (s : State)

def setConn (k : ℕ) (q : Conn) : State := { s with conns := Function.update s.conns k (some q) }

def setClient (c : ℕ) (client : Client) : State :=
  { s with clients := Function.update s.clients c client }

end State

inductive Op
  | insert (row : Row)
  | notify (id : ℕ)
  /-- The LISTEN connection of an instance comes up or goes down. -/
  | listen (n : ℕ) (up : Bool)
  | dispatch (n id : ℕ) (found : Bool)
  | connect (c n : ℕ)
  | query (k : ℕ) (ok : Bool)
  | replay (k : ℕ)
  | addClient (k : ℕ)
  | receive (c : ℕ)
  /-- The server is done with a connection. -/
  | close (k : ℕ)
  /-- The client has lost its connection. -/
  | drop (c : ℕ)
deriving DecidableEq

def next (s : State) : Op → Option State
  | .insert row => if latest s.rows < row.id then some { s with rows := s.rows ++ [row] } else none
  | .notify id =>
      if id ∈ s.rows.map (·.id) then
        some { s with
          dispatching := fun n => if s.listening n then id :: s.dispatching n else s.dispatching n }
      else none
  | .listen n up => some { s with listening := Function.update s.listening n up }
  | .dispatch n id found =>
      if id ∈ s.dispatching n then
        let s := { s with
          dispatching := Function.update s.dispatching n ((s.dispatching n).erase id) }
        if found then (s.rows.find? (·.id = id)).map (broadcast cfg s n) else some s
      else none
  | .connect c n =>
      if (s.clients c).conn = none then
        let q := ⟨c, n, (s.clients c).reader.last, .requested, [], 0, 0⟩
        some { (s.setConn s.connected q).setClient c ⟨(s.clients c).reader, some s.connected⟩ with
          connected := s.connected + 1 }
      else none
  | .query k ok => do
      let q ← s.conns k
      if q.phase = .requested then some (s.setConn k (queryConn cfg s.rows q ok)) else none
  | .replay k => do
      let q ← s.conns k
      match q.phase with
      | .queried result =>
          some (s.setConn k { q with phase := .replayed, wire := q.wire ++ result })
      | _ => none
  | .addClient k => do
      let q ← s.conns k
      if q.phase = .replayed then some (s.setConn k { q with phase := .registered }) else none
  | .receive c => do
      let k ← (s.clients c).conn
      let q ← s.conns k
      match q.wire with
      | row :: wire =>
          some ((s.setConn k { q with wire }).setClient c
            ⟨hear cfg c (s.clients c).reader row, some k⟩)
      | [] => none
  | .close k => do
      let q ← s.conns k
      some (s.setConn k { q with phase := .closed })
  | .drop c => some (s.setClient c ⟨(s.clients c).reader, none⟩)

def machine : Machine State Op Unit := ⟨fun s op => (next cfg s op).elim (.error ()) .ok⟩

end

end ProofBook.EventStream
