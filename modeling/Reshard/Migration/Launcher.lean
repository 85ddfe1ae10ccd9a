import Reshard.Migration.Wait

/-!
The launch controller asks for a round after an initial delay and then periodically, as long
as no round is running. Its requests wait in a mailbox. The delay after which it stops is
measured in real time, of which only a delay of zero is seen to pass here.
-/

namespace Reshard

/-- All times in milliseconds. -/
structure LaunchRule where
  initial : Nat
  period : Nat
  stopAfter : Nat
  /-- Whether to launch exactly once. -/
  once : Bool
  deriving DecidableEq, Repr

structure Launcher where
  rule : LaunchRule
  /-- When it acts next. -/
  due : Nat
  /-- The initial delay is over. -/
  begun : Bool
  ended : Bool
  /-- Requests that were sent and not yet received. -/
  mailbox : Nat
  /-- Whether anyone will receive them. -/
  listening : Bool
  deriving DecidableEq, Repr

namespace Launcher

def start (rule : LaunchRule) (now : Nat) : Launcher where
  rule := rule
  due := now + Wait.cut rule.initial
  begun := false
  ended := false
  mailbox := 0
  listening := true

/-- Sends a request; without a receiver, the launcher ends. -/
def send (l : Launcher) : Launcher :=
  if l.listening then { l with mailbox := l.mailbox + 1 } else { l with ended := true }

/-- Sends a request unless a round is running, and waits for the next period. -/
def knock (l : Launcher) (operating : Bool) : Launcher :=
  let waiting := { l with begun := true, due := l.due + Wait.cut l.rule.period }
  if operating then waiting else waiting.send

def act (l : Launcher) (operating : Bool) : Launcher :=
  if l.begun then
    l.knock operating
  else if l.rule.once then
    { l.send with ended := true }
  else if l.rule.period = 0 || l.rule.stopAfter = 0 then
    { l with ended := true }
  else
    l.knock operating

/-- Acts, at most the given number of times, on everything that is due by `time`. -/
def actUntil (operating : Bool) (time : Nat) : Nat → Launcher → Launcher
  | 0, l => l
  | n + 1, l =>
    if l.ended || time < l.due then l else actUntil operating time n (l.act operating)

/-- Lets the time pass; every action moves the next one on by a millisecond at least. -/
def advance (l : Launcher) (operating : Bool) (time : Nat) : Launcher :=
  actUntil operating time (time + 1 - l.due) l

/-- No one will receive requests any more; those in the mailbox are lost. -/
def stopListening (l : Launcher) : Launcher := { l with listening := false, mailbox := 0 }

end Launcher

end Reshard
