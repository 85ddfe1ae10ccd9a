import Reshard.Options.CommandLine
import Reshard.Options.Number

/-!
Reading durations such as `1h 30m` or `1.5s`: numbers with units, one after the other. A
duration is a number of nanoseconds, and its whole seconds fit in a word. A fraction of a unit
has to come out even, in nanoseconds up to the minute and in seconds from the hour on.
-/

namespace Reshard

namespace Duration

def isBlank (c : Char) : Bool :=
  c.isWhitespace ||
    [0x0b, 0x0c, 0x85, 0xa0, 0x1680, 0x2028, 0x2029, 0x202f, 0x205f, 0x3000].contains c.toNat ||
    (0x2000 ≤ c.toNat && c.toNat ≤ 0x200a)

def isUnitLetter (c : Char) : Bool := c.isAlpha || c = 'µ'

/-- Nanoseconds of a second. -/
def second : Nat := 1000000000

/-! Units. -/

/-- A length of time, counted in nanoseconds or in seconds. -/
inductive Length
  | nanos (count : Nat)
  | seconds (count : Nat)
  deriving DecidableEq, Repr

/-- A unit is counted as a whole, and divided by a fraction, if it can be divided. -/
structure TimeUnit where
  whole : Length
  divided : Option Length
  deriving DecidableEq, Repr

namespace TimeUnit

def nanosecond : TimeUnit := ⟨.nanos 1, none⟩

def ofNanos (count : Nat) : TimeUnit := ⟨.nanos count, some (.nanos count)⟩

/-- A unit of some seconds that is divided down to nanoseconds. -/
def ofSeconds (count : Nat) : TimeUnit := ⟨.seconds count, some (.nanos (count * second))⟩

/-- A unit of some seconds that is divided down to seconds only. -/
def ofWholeSeconds (count : Nat) : TimeUnit := ⟨.seconds count, some (.seconds count)⟩

/-- The unit of a name. Months and years are of mean length. -/
def ofName? (name : String) : Option TimeUnit :=
  match name with
  | "nanos" | "nsec" | "ns" => some nanosecond
  | "usec" | "us" | "µs" => some (ofNanos 1000)
  | "millis" | "msec" | "ms" => some (ofNanos 1000000)
  | "seconds" | "second" | "secs" | "sec" | "s" => some (ofSeconds 1)
  | "minutes" | "minute" | "min" | "mins" | "m" => some (ofSeconds 60)
  | "hours" | "hour" | "hr" | "hrs" | "h" => some (ofWholeSeconds 3600)
  | "days" | "day" | "d" => some (ofWholeSeconds 86400)
  | "weeks" | "week" | "wk" | "wks" | "w" => some (ofWholeSeconds 604800)
  | "months" | "month" | "M" => some (ofWholeSeconds 2630016)
  | "years" | "year" | "yr" | "yrs" | "y" => some (ofWholeSeconds 31557600)
  | _ => none

end TimeUnit

namespace Length

/-- A count that has to be a word. -/
def word? (n : Nat) : Option Nat := if n < Word.limit then some n else none

/-- The length `n` times over, if the count is still a word. -/
def times? (n : Nat) : Length → Option Length
  | nanos count => (word? (n * count)).map nanos
  | seconds count => (word? (n * count)).map seconds

/-- The `d`th part of a length, if it comes out even. -/
def part? (d : Nat) : Length → Option Length
  | nanos count => if count % d = 0 then some (nanos (count / d)) else none
  | seconds count => if count % d = 0 then some (seconds (count / d)) else none

end Length

/-! Spans. -/

/-- A decimal fraction. -/
structure Fraction where
  numerator : Nat
  /-- A power of ten. -/
  denominator : Nat
  deriving DecidableEq, Repr

/-- The fraction of the digits after a point, of which there is one at least. The power of ten
that they stand over is a word. -/
def Fraction.ofDigits? (digits : List Char) : Option Fraction := do
  return ⟨← Number.digitsOf? digits, ← Length.word? (Nat.pow 10 digits.length)⟩

/-- A number with its unit. -/
structure Span where
  whole : Nat
  fraction : Option Fraction
  unit : TimeUnit
  deriving DecidableEq, Repr

/-- Digits, among which blanks may stand, and what follows them. -/
def takeNumber (s : List Char) : List Char × List Char :=
  let (number, rest) := s.span fun c => c.isDigit || isBlank c
  (number.filter Char.isDigit, rest)

/-- A fraction with its point, if there is one, and what follows it. -/
def takeFraction? (s : List Char) : Option (Option Fraction × List Char) :=
  match s with
  | '.' :: rest =>
    let (digits, after) := takeNumber rest
    (Fraction.ofDigits? digits).map fun f => (some f, after)
  | _ => some (none, s)

namespace Span

/-- What ends a span: a blank, or the first digit of the next one. -/
def endsAt (s : List Char) : Bool := s.head?.all fun c => isBlank c || c.isDigit

/-- Reads a span, and answers what follows it. -/
def read? (s : List Char) : Option (Span × List Char) := do
  let (digits, s₁) := takeNumber s
  let whole ← (Number.digitsOf? digits).bind Length.word?
  let (fraction, s₂) ← takeFraction? s₁
  let (name, after) := s₂.span isUnitLetter
  let unit ← TimeUnit.ofName? (String.ofList name)
  if endsAt after then some (⟨whole, fraction, unit⟩, after) else none

/-- The length of the whole units. -/
def wholeLength? (s : Span) : Option Length := s.unit.whole.times? s.whole

/-- The length of a fraction of the unit. -/
def fractionLength? (s : Span) (f : Fraction) : Option Length := do
  ((← s.unit.divided).times? f.numerator).bind (Length.part? f.denominator)

end Span

/-! Sums. -/

/-- Adds a length to a duration. Nanoseconds are added to those beyond the last whole second,
and the sum must be a word. More seconds than fit are refused, but for the last one: when the
nanoseconds make up exactly that second, the duration overflows. -/
def add (total : Nat) : Length → Except Rejection Nat
  | .seconds count =>
    if total / second + count < Word.limit then .ok (total + count * second)
    else .error .unreadableValue
  | .nanos count =>
    let beyond := total % second + count
    if Word.limit ≤ beyond then .error .unreadableValue
    else if (total + count) / second < Word.limit then .ok (total + count)
    else if beyond = second then .error .overflow
    else .error .unreadableValue

def orUnreadable {α : Type} : Option α → Except Rejection α
  | some a => .ok a
  | none => .error .unreadableValue

/-- Adds a span to a duration: the whole units first, then the fraction. -/
def addSpan (total : Nat) (s : Span) : Except Rejection Nat := do
  let whole ← add total (← orUnreadable s.wholeLength?)
  match s.fraction with
  | none => return whole
  | some fraction => add whole (← orUnreadable (s.fractionLength? fraction))

/-- Adds up spans until nothing but blanks is left; each span takes a character at least. -/
def addSpans : Nat → List Char → Nat → Except Rejection Nat
  | 0, _, _ => .error .unreadableValue
  | n + 1, s, total => do
    let (span, after) ← orUnreadable (Span.read? s)
    let sum ← addSpan total span
    match after.dropWhile isBlank with
    | [] => return sum
    | more => addSpans n more sum

/-- The duration that a text names; zero needs no unit. -/
def read (s : String) : Except Rejection Nat :=
  if s = "0" then
    .ok 0
  else
    let trimmed := s.toList.dropWhile isBlank
    addSpans (trimmed.length + 1) trimmed 0

end Duration

end Reshard
