/-
# Patterns ready for use

A pattern that has been read can be asked for strings and for matches any number of times.  With an
invalidation marker it yields strings that are meant not to match, and by default makes sure of it.
The program that decides matches is built when it is first needed and kept.

* `Pattern.ofString?` reads a pattern.
* `Pattern.fullMatch` decides whether a whole string matches.
* `Pattern.generate` generates a string.
-/
import PatternSampler.Generation.Basic
import PatternSampler.Invalidation.Basic
import PatternSampler.Program.Lowering
import PatternSampler.Program.Search
import PatternSampler.Reading.Pattern

namespace PatternSampler

/-- A pattern together with what has been worked out about it. -/
structure Pattern where
  /-- The text of the pattern. -/
  source : String
  /-- The pattern as it was read. -/
  compiled : Compiled
  /-- The program that decides matches, once it has been needed. -/
  program? : Option Program := none

/-- Generates a string of an expression, starting without captured texts. -/
def Expr.sample {σ : Type} [RandomSource σ] (e : Expr) (settings : Settings) (route : Route) :
    Sampling σ (List Char) := fun g =>
  match e.generate settings route { source := g } with
  | .ok chars state => .ok chars state.source
  | .error e state => .error e state.source

namespace Compiled

/-- The pattern as an expression. -/
def expr (c : Compiled) : Expr :=
  c.tree.expr c.root

/-- The program that decides whether a string matches the pattern, markers left aside. -/
def program (c : Compiled) : Program :=
  c.tree.program c.root

/-- Generates a string that matches or, if the pattern has a marker, one in which an eligible node
breaks its own rule; `source` is the text of the pattern. -/
def sample {σ : Type} [RandomSource σ] (c : Compiled) (source : String) (settings : Settings) :
    Sampling σ String := do
  let route ←
    if c.hasMarker then Route.toward c.tree <$> c.tree.selectInvalid c.candidates source
    else pure {}
  return String.ofList (← c.expr.sample settings route)

end Compiled

namespace Pattern

/-- Reads a pattern. -/
def ofString? (source : String) : Except SampleError Pattern :=
  match Compiled.ofPattern? source with
  | .ok compiled => .ok { source, compiled }
  | .error e => .error e

/-- Whether the pattern has an invalidation marker. -/
def isInvalidating (p : Pattern) : Bool :=
  p.compiled.hasMarker

/-- Whether the program that decides matches has been built. -/
def isLowered (p : Pattern) : Bool :=
  p.program?.isSome

/-- The program that decides matches. -/
def program (p : Pattern) : Program :=
  p.program?.getD p.compiled.program

/-- Keeps the program that decides matches. -/
def lower (p : Pattern) : Pattern :=
  { p with program? := some p.program }

/-- A copy of the pattern, which keeps the program if it has been built. -/
def copy (p : Pattern) : Pattern :=
  { source := p.source, compiled := p.compiled, program? := p.program? }

/-- Whether a whole string matches the pattern, and the pattern with its program. -/
def fullMatch (p : Pattern) (input : String) : Bool × Pattern :=
  let p := p.lower
  (p.program.fullMatch input.toList, p)

/-- Generates a string.  One that is meant not to match is checked if the settings say so, and only
then is the program needed. -/
def generate {σ : Type} [RandomSource σ] (p : Pattern) (settings : Settings) (g : σ) :
    Except SampleError String × Pattern × σ :=
  match p.compiled.sample p.source settings g with
  | .error e g => (.error e, p, g)
  | .ok text g =>
    if p.isInvalidating ∧ settings.verify then
      let (matched, p) := p.fullMatch text
      if matched then (.error (.stillMatches p.source text), p, g) else (.ok text, p, g)
    else (.ok text, p, g)

end Pattern

/-- Reads a pattern and generates one string of it. -/
def generateOnce {σ : Type} [RandomSource σ] (source : String) (settings : Settings) (g : σ) :
    Except SampleError String × σ :=
  match Pattern.ofString? source with
  | .error e => (.error e, g)
  | .ok p =>
    let (result, _, g) := p.generate settings g
    (result, g)

end PatternSampler
