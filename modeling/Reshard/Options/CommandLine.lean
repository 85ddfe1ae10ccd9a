/-!
Command lines made of long options, with the environment behind them. An option is taken up when all
that belongs to it has been read: at once if its value is attached with an equals sign, else when
the next option or the end is reached. What is unknown is reported before any fault of an option
that waits, but for an overflow. Variables of the environment stand in for options that were not
given, and are taken up last, in the order of the options.
-/

namespace Reshard

/-- Why a command line is not accepted. -/
inductive Rejection
  /-- An unknown option, or an argument that belongs to none. -/
  | unknownArgument
  /-- A value outside a fixed choice, or no value. -/
  | invalidValue
  /-- A value that cannot be read. -/
  | unreadableValue
  /-- A value whose reading overflows. -/
  | overflow
  /-- An option that is given twice. -/
  | repeatedOption
  /-- A value for an option that takes none. -/
  | unneededValue
  /-- A request for help. -/
  | help
  deriving DecidableEq, Repr

/-- What an option does to the settings. -/
inductive Reading (σ : Type)
  | flag (set : σ → Bool → σ)
  | value (read : σ → String → Except Rejection σ)

structure CommandOption (σ : Type) where
  name : String
  /-- The variable of the environment that stands in for the option. -/
  envName : Option String
  reading : Reading σ

/-- The same option for settings of which `σ` is a part. -/
def CommandOption.lift {σ τ : Type} (o : CommandOption σ) (get : τ → σ)
    (put : τ → σ → τ) : CommandOption τ where
  name := o.name
  envName := o.envName
  reading :=
    match o.reading with
    | .flag set => .flag fun t b => put t (set (get t) b)
    | .value read => .value fun t s => (read (get t) s).map (put t)

namespace CommandLine

variable {σ : Type}

structure Scan (σ : Type) where
  settings : σ
  /-- The names of the options that were taken up. -/
  taken : List String
  /-- An option whose value has not come, or has come as a separate argument. -/
  waiting : Option (CommandOption σ × Option String)

namespace Scan

/-- Takes up an option with a value; a flag is read from the words for truth. -/
def assign (s : Scan σ) (o : CommandOption σ) (value : String) : Except Rejection (Scan σ) :=
  if s.taken.contains o.name then
    .error .repeatedOption
  else do
    let settings ←
      match o.reading with
      | .value read => read s.settings value
      | .flag set =>
        if value = "true" then .ok (set s.settings true)
        else if value = "false" then .ok (set s.settings false)
        else .error .invalidValue
    return { s with settings, taken := o.name :: s.taken }

/-- Takes up the option that waits, if one does. -/
def takeUp (s : Scan σ) : Except Rejection (Scan σ) :=
  match s.waiting with
  | none => .ok s
  | some (_, none) => .error .invalidValue
  | some (o, some value) => { s with waiting := none }.assign o value

/-- Reports a fault of the command line itself. The option that waits is taken up first, and
only an overflow of its reading is told instead. -/
def refuse (s : Scan σ) (fault : Rejection) : Except Rejection (Scan σ) :=
  match s.takeUp with
  | .error .overflow => .error .overflow
  | _ => .error fault

/-- A long option, with the value that is attached to it. -/
def long (options : List (CommandOption σ)) (s : Scan σ) (name : String)
    (attached : Option String) : Except Rejection (Scan σ) :=
  match options.find? (·.name = name) with
  | some o =>
    match o.reading, attached with
    | .flag _, some _ => s.refuse .unneededValue
    | .flag _, none => do (← s.takeUp).assign o "true"
    | .value _, some value => do (← s.takeUp).assign o value
    | .value _, none => do return { ← s.takeUp with waiting := some (o, none) }
  | none =>
    if name = "help" then
      match attached with
      | some _ => s.refuse .unneededValue
      | none => do
        let _ ← s.takeUp
        throw .help
    else
      s.refuse .unknownArgument

/-- An argument that is no option: the value that an option waits for, or nothing known. -/
def plain (s : Scan σ) (arg : String) : Except Rejection (Scan σ) :=
  match s.waiting with
  | some (o, none) => .ok { s with waiting := some (o, some arg) }
  | _ => s.refuse .unknownArgument

/-- Splits an option at its first equals sign. -/
def splitEquals (s : List Char) : String × Option String :=
  let (name, rest) := s.span (· ≠ '=')
  match rest with
  | [] => (String.ofList name, none)
  | _ :: value => (String.ofList name, some (String.ofList value))

def argument (options : List (CommandOption σ)) (s : Scan σ) (arg : String) :
    Except Rejection (Scan σ) :=
  match arg.toList with
  | '-' :: '-' :: rest =>
    let (name, attached) := splitEquals rest
    s.long options name attached
  | '-' :: 'h' :: _ => do
    let _ ← s.takeUp
    throw .help
  | '-' :: _ :: _ => s.refuse .unknownArgument
  | _ => s.plain arg

/-- Reads the arguments. After two dashes no option follows, and any argument is unknown. -/
def arguments (options : List (CommandOption σ)) : Scan σ → List String →
    Except Rejection (Scan σ)
  | s, [] => s.takeUp
  | s, arg :: rest =>
    if arg = "--" then
      if rest.isEmpty then s.takeUp else s.refuse .unknownArgument
    else do
      arguments options (← s.argument options arg) rest

/-- Takes up the variables of options that were not given. -/
def environment (env : String → Option String) : Scan σ → List (CommandOption σ) →
    Except Rejection (Scan σ)
  | s, [] => .ok s
  | s, o :: rest =>
    match o.envName.bind env with
    | none => environment env s rest
    | some value =>
      if s.taken.contains o.name then environment env s rest
      else do environment env (← s.assign o value) rest

end Scan

/-- The settings that a command line and an environment make of the given ones. -/
def parse (options : List (CommandOption σ)) (env : String → Option String) (settings : σ)
    (args : List String) : Except Rejection σ := do
  let scan ← Scan.arguments options ⟨settings, [], none⟩ args
  let scan ← scan.environment env options
  return scan.settings

/-! Readings of values. -/

/-- A value whose reading tells what is wrong with it. -/
def checked {α : Type} (read : String → Except Rejection α) (set : σ → α → σ) :
    Reading σ :=
  .value fun s text => (read text).map (set s)

/-- A value that is read, or is unreadable. -/
def readable {α : Type} (read : String → Option α) (set : σ → α → σ) : Reading σ :=
  .value fun s text =>
    match read text with
    | some a => .ok (set s a)
    | none => .error .unreadableValue

/-- One of the listed words. -/
def oneOf {α : Type} (words : List (String × α)) (set : σ → α → σ) : Reading σ :=
  .value fun s text =>
    match words.lookup text with
    | some a => .ok (set s a)
    | none => .error .invalidValue

/-- Any text but the empty one. -/
def nonempty (set : σ → String → σ) : Reading σ :=
  .value fun s text => if text.isEmpty then .error .invalidValue else .ok (set s text)

end CommandLine

end Reshard
