import IndexAdvice.Text.CharClass

/-!
# Command-line arguments

The grammar of arguments. A long option is `--name value` or `--name=value`, a short one `-n value`
or `-nvalue`, and several short flags may share a dash. Two dashes alone end the options. An option
may be given several times. Where `mixed` is unset, the first argument that is no option ends them
as well.
-/

namespace IndexAdvice.CommandLine

/-- An option that a command knows. -/
structure OptionSpec where
  /-- The long name without its dashes. -/
  name : String
  /-- The letter of the short form. -/
  short : Option Char := none
  /-- Whether a value follows; if not, the option is a flag. -/
  takesValue : Bool := true
deriving DecidableEq, Repr

/-- The options and other arguments of a command line. -/
structure Given where
  /-- Names of options with their values, in order; the value of a flag is empty. -/
  options : List (String × String) := []
  positional : List String := []
deriving DecidableEq, Repr

namespace Given

/-- One more option. -/
def addOption (g : Given) (spec : OptionSpec) (value : String) : Given :=
  { g with options := g.options ++ [(spec.name, value)] }

/-- More arguments that are no options. -/
def addPositional (g : Given) (args : List String) : Given :=
  { g with positional := g.positional ++ args }

/-- All values of an option. -/
def values (g : Given) (name : String) : List String :=
  (g.options.filter (·.1 == name)).map (·.2)

/-- The last value of an option. -/
def value? (g : Given) (name : String) : Option String :=
  (g.values name).getLast?

/-- Whether a flag is given. -/
def flag (g : Given) (name : String) : Bool :=
  g.options.any (·.1 == name)

end Given

/-- Reads the letters of a short option: flags, of which the last may be an option with a value. The
result tells which option still waits for its value. -/
def readLetters (specs : List OptionSpec) (given : Given) :
    List Char → Option (Given × Option OptionSpec)
  | [] => some (given, none)
  | letter :: rest =>
    match specs.find? (·.short == some letter) with
    | none => none
    | some spec =>
      if !spec.takesValue then readLetters specs (given.addOption spec "") rest
      else if rest.isEmpty then some (given, some spec)
      else some (given.addOption spec (String.ofList rest), none)

/-- Reads one argument that starts with a dash. -/
def readOption (specs : List OptionSpec) (given : Given) (arg : List Char) :
    Option (Given × Option OptionSpec) :=
  let name := arg.takeWhile (· != '=')
  let value := (arg.drop name.length).tail
  let hasValue := name.length < arg.length
  match specs.find? (fun spec => '-' :: '-' :: spec.name.toList == name) with
  | some spec =>
    if !spec.takesValue then if hasValue then none else some (given.addOption spec "", none)
    else if hasValue then some (given.addOption spec (String.ofList value), none)
    else some (given, some spec)
  | none =>
    match arg with
    | '-' :: '-' :: _ => none
    | _ => readLetters specs given arg.tail

/-- Reads arguments, where the option `waiting` still needs its value. Arguments that follow no
grammar give none. -/
def readFrom (specs : List OptionSpec) (mixed : Bool) (waiting : Option OptionSpec)
    (given : Given) : List String → Option Given
  | [] => if waiting.isSome then none else some given
  | arg :: rest =>
    match waiting with
    | some spec => readFrom specs mixed none (given.addOption spec arg) rest
    | none =>
      if arg == "--" then some (given.addPositional rest)
      else if arg.toList.head? == some '-' && arg.toList.length != 1 then
        match readOption specs given arg.toList with
        | some (given, waiting) => readFrom specs mixed waiting given rest
        | none => none
      else if mixed then readFrom specs mixed none (given.addPositional [arg]) rest
      else some (given.addPositional (arg :: rest))

/-- Reads arguments. -/
def read (specs : List OptionSpec) (mixed : Bool) (args : List String) : Option Given :=
  readFrom specs mixed none {} args

/-! ### Whole numbers -/

/-- The value of a decimal digit of any script: the digits of a system are consecutive. -/
def digitValue? (c : Char) : Option Nat :=
  let n := c.toNat
  if 48 ≤ n ∧ n ≤ 57 then some (n - 48)
  else (Text.decimalRanges.find? fun (first, last) => first ≤ n && n ≤ last).map
    fun (first, _) => (n - first) % 10

/-- The number that digits write after `value`; single underscores may stand between them. -/
def numberFrom (value : Nat) : List Char → Option Nat
  | [] => some value
  | c :: cs =>
    match digitValue? c with
    | some d => numberFrom (value * 10 + d) cs
    | none =>
      match cs with
      | d :: ds =>
        if c == '_' then (digitValue? d).bind fun k => numberFrom (value * 10 + k) ds else none
      | [] => none

/-- The number that a text of at least one digit writes. -/
def natural? (cs : List Char) : Option Nat :=
  match cs with
  | [] => none
  | c :: rest => (digitValue? c).bind fun d => numberFrom d rest

/-- How many digits a number may have. -/
def maxDigits : Nat :=
  4300

/-- The characters that may stand around a number: the blank ones but for the information
separators. -/
def isNumberMargin (c : Char) : Bool :=
  Text.isBlank c && !(28 ≤ c.toNat && c.toNat ≤ 31)

/-- The text of a number without what may stand around it. -/
def numberText (cs : List Char) : List Char :=
  ((cs.dropWhile isNumberMargin).reverse.dropWhile isNumberMargin).reverse

/-- The number that a text writes, with or without a sign and blanks around it. -/
def integer? (s : String) : Option Int :=
  let cs := numberText s.toList
  if maxDigits < cs.countP fun c => (digitValue? c).isSome then none
  else match cs with
    | '-' :: rest => (natural? rest).map fun n => -(n : Int)
    | '+' :: rest => (natural? rest).map fun n => (n : Int)
    | rest => (natural? rest).map fun n => (n : Int)

end IndexAdvice.CommandLine
