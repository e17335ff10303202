/-
# The command line

The program takes a pattern and prints strings of it, one to a line.  Options may be given in the
environment instead.

* `Request.ofArguments` reads arguments and environment.
* `run` is what the program prints and how it ends.
-/
import PatternSampler.Pattern
import PatternSampler.Random.Words

namespace PatternSampler.CommandLine

/-- An option that has a value. -/
inductive Field where
  | count
  | seed
  | slack
  | backrefs
deriving DecidableEq

namespace Field

/-- The option of a long name. -/
def ofName? : String → Option Field
  | "count" => some count
  | "seed" => some seed
  | "slack" => some slack
  | "backrefs" => some backrefs
  | _ => none

/-- The environment variable that stands in for an option. -/
def variableName : Field → String
  | count => "REGEX_GEN_COUNT"
  | seed => "REGEX_GEN_SEED"
  | slack => "REGEX_GEN_SLACK"
  | backrefs => "REGEX_GEN_BACKREFS"

/-- All options. -/
def all : List Field := [count, seed, slack, backrefs]

end Field

/-! ## Values of options -/

/-- A number of 64 bits in decimal digits, with or without a plus sign. -/
def number? (text : String) : Option Nat :=
  let digits := if text.toList.head? = some '+' then text.toList.drop 1 else text.toList
  let value := Reading.numberOf 10 digits
  if digits.isEmpty || !digits.all Char.isDigit || Reading.wordMax < value then none else some value

/-- The mode of a name. -/
def backrefMode? : String → Option BackrefMode
  | "replay" => some .replay
  | "regenerate" => some .regenerate
  | _ => none

/-! ## Arguments -/

/-- Why the arguments lead to no strings. -/
inductive Stop where
  /-- The program is asked how it is called. -/
  | help
  /-- The arguments cannot be read. -/
  | unreadable
deriving DecidableEq

/-- What has been said so far, each thing at most once. -/
structure Arguments where
  /-- The pattern. -/
  pattern : Option String := none
  /-- How many strings to print. -/
  count : Option Nat := none
  /-- The seed of the random source. -/
  seed : Option Nat := none
  /-- How many times more than needed an unbounded repetition may repeat. -/
  slack : Option Nat := none
  /-- How references to groups are generated. -/
  backrefs : Option BackrefMode := none
  /-- Whether strings that are meant not to match are left unchecked. -/
  noVerify : Bool := false

namespace Arguments

/-- What a place holds after it is filled: it must be empty, and the value must be readable. -/
def filled {α : Type} (place value : Option α) : Except Stop (Option α) :=
  if place.isSome || value.isNone then .error .unreadable else .ok value

/-- Adds an option with the text of its value. -/
def addField (a : Arguments) (field : Field) (text : String) : Except Stop Arguments :=
  match field with
  | .count => return { a with count := ← filled a.count (number? text) }
  | .seed => return { a with seed := ← filled a.seed (number? text) }
  | .slack => return { a with slack := ← filled a.slack (number? text) }
  | .backrefs => return { a with backrefs := ← filled a.backrefs (backrefMode? text) }

/-- Whether an option has been given. -/
def has (a : Arguments) : Field → Bool
  | .count => a.count.isSome
  | .seed => a.seed.isSome
  | .slack => a.slack.isSome
  | .backrefs => a.backrefs.isSome

/-- Adds an option from its variable, which counts only where the option has not been given. -/
def addVariable (environment : String → Option String) (a : Arguments) (field : Field) :
    Except Stop Arguments :=
  if a.has field then .ok a
  else
    match environment field.variableName with
    | none => .ok a
    | some text => a.addField field text

/-- Adds the pattern. -/
def addPattern (a : Arguments) (pattern : String) : Except Stop Arguments :=
  return { a with pattern := ← filled a.pattern (some pattern) }

/-- Adds the flag that leaves strings unchecked, which may be given once. -/
def addNoVerify (a : Arguments) : Except Stop Arguments :=
  if a.noVerify then .error .unreadable else .ok { a with noVerify := true }

/-- Whether an argument is an option rather than a value.  A single hyphen is a value. -/
def isOption (argument : List Char) : Bool :=
  argument.head? == some '-' && argument.length != 1

/-- What an argument says that is not the value of an option before it. -/
inductive Meaning where
  /-- It is the pattern. -/
  | pattern (text : String)
  /-- Only patterns follow. -/
  | patternsOnly
  /-- It asks how the program is called. -/
  | help
  /-- It is the flag that leaves strings unchecked. -/
  | noVerify
  /-- It is an option with its value. -/
  | given (field : Field) (value : String)
  /-- It is an option whose value comes next. -/
  | awaiting (field : Field)
  /-- It is none of them. -/
  | unknown

/-- The meaning of a flag by its long name. -/
def Meaning.ofFlag : String → Meaning
  | "no-verify" => noVerify
  | "help" => help
  | _ => unknown

/-- The meaning of an argument: `--name`, `--name=value`, `-n`, `-nvalue`, `-n=value`, `-h` or the
pattern. -/
def Meaning.of (argument : List Char) : Meaning :=
  match argument with
  | ['-', '-'] => patternsOnly
  | '-' :: '-' :: rest =>
    let name := String.ofList (rest.takeWhile (· ≠ '='))
    match rest.dropWhile (· ≠ '='), Field.ofName? name with
    | [], some field => awaiting field
    | _ :: value, some field => given field (String.ofList value)
    | [], none => ofFlag name
    | _ :: _, none => unknown
  | ['-', 'n'] => awaiting .count
  | '-' :: 'n' :: '=' :: value => given .count (String.ofList value)
  | '-' :: 'n' :: value => given .count (String.ofList value)
  | '-' :: 'h' :: _ => help
  | _ => if isOption argument then unknown else pattern (String.ofList argument)

/-- Reads arguments behind those that have been read.  The first that leads to no strings decides: a
question for help counts only if all before it can be read, values included. -/
def read (a : Arguments) : List String → Except Stop Arguments
  | [] => .ok a
  | argument :: rest =>
    match Meaning.of argument.toList with
    | .pattern text => do read (← a.addPattern text) rest
    | .patternsOnly => rest.foldlM addPattern a
    | .help => .error .help
    | .noVerify => do read (← a.addNoVerify) rest
    | .given field value => do read (← a.addField field value) rest
    | .awaiting field =>
      match rest with
      | [] => .error .unreadable
      | value :: rest =>
        if isOption value.toList then .error .unreadable
        else do read (← a.addField field value) rest
    | .unknown => .error .unreadable

end Arguments

/-- What the program is asked to do. -/
structure Request where
  /-- The text of the pattern. -/
  pattern : String
  /-- How many strings to print. -/
  count : Nat := 1
  /-- The seed of the random source, if it is given. -/
  seed : Option Nat := none
  /-- The settings of the generation. -/
  settings : Settings := {}

namespace Request

/-- Reads arguments, then the environment for what they do not say. -/
def ofArguments (arguments : List String) (environment : String → Option String) :
    Except Stop Request := do
  let given ← Arguments.read {} arguments
  let a ← Field.all.foldlM (Arguments.addVariable environment) given
  match a.pattern with
  | none => .error .unreadable
  | some pattern =>
    return {
      pattern
      count := a.count.getD 1
      seed := a.seed
      settings := {
        slack := a.slack.getD ({} : Settings).slack
        backrefs := a.backrefs.getD .replay
        verify := !a.noVerify } }

end Request

/-! ## The run -/

/-- What the program prints and how it ends. -/
structure Outcome where
  /-- The exit code: 0 for success, 1 for an error, 2 for arguments that cannot be read. -/
  code : Nat
  /-- What is printed as output. -/
  output : String
  /-- What is printed as diagnostics. -/
  diagnostics : String

/-- How the program is called. -/
def usage : String :=
  "Usage: pattern-sampler [--count N] [--seed N] [--slack N] [--backrefs replay|regenerate] " ++
    "[--no-verify] <PATTERN>\n"

/-- The end after an error; `output` is what has been printed before it. -/
def Outcome.failure (output context : String) (e : SampleError) : Outcome :=
  { code := 1, output, diagnostics := "Error: " ++ context ++ ": " ++ e.message ++ "\n" }

/-- Prints the last `left` of `count` strings behind `output`. -/
def printStrings {σ : Type} [RandomSource σ] (settings : Settings) (count : Nat) :
    (left : Nat) → Pattern → σ → (output : String) → Outcome
  | 0, _, _, output => { code := 0, output, diagnostics := "" }
  | left + 1, p, g, output =>
    match p.generate settings g with
    | (.ok text, p, g) => printStrings settings count left p g (output ++ text ++ "\n")
    | (.error e, _, _) =>
      .failure output
        ("Failed to generate string " ++ toString (count - left) ++ " of " ++ toString count) e

/-- What the program prints and how it ends; `entropy` is the seed where none is given. -/
def run (arguments : List String) (environment : String → Option String) (entropy : UInt64) :
    Outcome :=
  match Request.ofArguments arguments environment with
  | .error .help => { code := 0, output := usage, diagnostics := "" }
  | .error .unreadable => { code := 2, output := "", diagnostics := usage }
  | .ok request =>
    match Pattern.ofString? request.pattern with
    | .error e => .failure "" ("Failed to compile pattern " ++ quoted request.pattern) e
    | .ok p =>
      let seed := (request.seed.map UInt64.ofNat).getD entropy
      printStrings request.settings request.count request.count p (WordStream.ofSeed seed) ""

end PatternSampler.CommandLine
