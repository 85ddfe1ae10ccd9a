import Reshard.Migration.Pusher
import Reshard.Migration.Launcher

/-!
A node: a coordinator with its background pushers and its launch controller, on a clock that
moves only when it is told to. Whatever falls due while the clock moves happens in the order
of time, and among pushers of one instant in the order of their start. Threads and their
scheduling are left out.
-/

namespace Reshard

/-- The way to the destination of a move. -/
structure Transport where
  /-- Size of the records of a table. -/
  size : String → Nat
  /-- Whether the transport accepts the batch of the given number, counted from zero. -/
  accepts : Nat → Bool

/-- A batch that was handed to the transport, and its outcome. -/
structure Delivery where
  source : PartitionId
  dest : PartitionId
  keys : List Key
  accepted : Bool
  deriving DecidableEq, Repr

structure Node (W : Type) where
  coordinator : Coordinator W
  /-- Without a transport there is no background push. -/
  transport : Option Transport
  clock : Nat
  /-- The running pushers, in the order of their start. -/
  pushers : List Pusher
  /-- How many pushers were started. -/
  started : Nat
  /-- The number of the pusher of the move in flight. -/
  latest : Option Nat
  /-- How many batches were handed to the transport. -/
  delivered : Nat
  launcher : Option Launcher

namespace Node

variable {W : Type} [Weight W] {α : Type}

def make (coordinator : Coordinator W) (transport : Option Transport) : Node W where
  coordinator := coordinator
  transport := transport
  clock := 0
  pushers := []
  started := 0
  latest := none
  delivered := 0
  launcher := none

/-- Whether the pusher of the move in flight has not ended yet. -/
def isPushing (n : Node W) : Bool :=
  match n.latest with
  | none => false
  | some number => n.pushers.any (·.number = number)

/-! Effects of the coordinator. -/

/-- The first round of a pusher is due at a set time: only the time between rounds is cut. -/
def startPusher (n : Node W) (source dest : PartitionId) : Node W :=
  if n.transport.isNone then
    n
  else
    let due := n.clock + n.coordinator.setup.batches.interval
    { n with
      pushers := n.pushers ++ [⟨n.started, source, dest, due⟩]
      started := n.started + 1
      latest := some n.started }

def endPusher (n : Node W) (number : Nat) : Node W :=
  { n with pushers := n.pushers.filter (·.number ≠ number) }

def stopPusher (n : Node W) : Node W :=
  match n.latest with
  | none => n
  | some number => { n.endPusher number with latest := none }

def perform (n : Node W) : Effect W → Node W
  | .startPusher source dest => n.startPusher source dest
  | .stopPusher => n.stopPusher
  | .submit _ _ => n
  | .report _ _ => n

/-- The node after an operation of its coordinator. -/
def settle (n : Node W) (turn : Turn W α) : Node W :=
  turn.effects.foldl perform { n with coordinator := turn.next }

/-! Background pushers. -/

/-- The pusher that is due first, if it is due by `time`. -/
def duePusher? (n : Node W) (time : Nat) : Option Pusher :=
  (choose (fun a b => a.due < b.due) n.pushers).filter (·.due ≤ time)

def postpone (n : Node W) (number : Nat) : Node W :=
  { n with
    pushers := n.pushers.map fun p =>
      if p.number = number then
        { p with due := p.due + Wait.cut n.coordinator.setup.batches.interval }
      else p }

/-- A pusher takes its turn. One that is to run without delay between its rounds ends. -/
def pushOnce (n : Node W) (t : Transport) (p : Pusher) :
    Except Overflow (List Delivery × Node W) :=
  if n.coordinator.setup.batches.interval = 0 then
    .ok ([], n.endPusher p.number)
  else do
    match ← n.coordinator.pushRound t.size with
    | (.ended, _) => return ([], n.endPusher p.number)
    | (.idle, c) => return ([], { n with coordinator := c }.postpone p.number)
    | (.sent batch, c) =>
      let accepted := t.accepts n.delivered
      let sent := { n with coordinator := c.settle batch accepted, delivered := n.delivered + 1 }
      return ([⟨p.source, p.dest, batch, accepted⟩], sent.postpone p.number)

/-- Runs, at most the given number of times, pushers that are due by `time`. -/
def pushUntil (t : Transport) (time : Nat) :
    Nat → Node W → Except Overflow (List Delivery × Node W)
  | 0, n => .ok ([], n)
  | turns + 1, n =>
    match n.duePusher? time with
    | none => .ok ([], n)
    | some p => do
      let (first, pushed) ← n.pushOnce t p
      let (rest, last) ← pushUntil t time turns pushed
      return (first ++ rest, last)

/-- How many turns the pushers can take by `time`: each turn ends its pusher or moves it on. -/
def turnsUntil (n : Node W) (time : Nat) : Nat :=
  n.pushers.foldl (fun turns p => turns + (time + 1 - p.due)) 0

/-- Lets `ms` milliseconds pass, and answers what the pushers sent in the meantime. -/
def advance (n : Node W) (ms : Nat) : Except Overflow (List Delivery × Node W) := do
  let time := n.clock + ms
  let (deliveries, pushed) ←
    match n.transport with
    | none => .ok ([], n)
    | some t => n.pushUntil t time (n.turnsUntil time)
  let operating := pushed.coordinator.flags.operating
  return (deliveries,
    { pushed with
      clock := time
      launcher := pushed.launcher.map (·.advance operating time) })

/-! The launch controller. -/

def startLauncher (n : Node W) (rule : LaunchRule) : Node W :=
  { n with launcher := some (.start rule n.clock) }

def stopListening (n : Node W) : Node W :=
  { n with launcher := n.launcher.map (·.stopListening) }

/-- Launches once for each of the given number of requests. -/
def serveRequests (now : Nat) : Nat → Node W → List (Except Failure Unit) × Node W
  | 0, n => ([], n)
  | requests + 1, n =>
    let turn := n.coordinator.launch now
    let (rest, last) := serveRequests now requests (n.settle turn)
    (turn.answer :: rest, last)

/-- Serves the requests that wait in the mailbox. -/
def serve (n : Node W) (now : Nat) : List (Except Failure Unit) × Node W :=
  match n.launcher with
  | none => ([], n)
  | some l =>
    serveRequests now l.mailbox { n with launcher := some { l with mailbox := 0 } }

end Node

end Reshard
