/-
# Generating strings

A string of a pattern is put together from the strings of its parts.  The node that the route names,
if there is one, breaks its own rule: a set gives a character that it rejects, a text has one
character replaced, a repetition is carried out too often or not often enough.

* `Settings` lists what can be set about the generation of strings.
* `Bounds.draw` draws how often a repetition is carried out, by `Bounds.drawValid` within its bounds
  or by `Bounds.drawInvalid` outside of them.  Sums stop at the greatest number of 64 bits.
* `Expr.generate` generates a string of an expression.
* `GenerationState` is what a generation carries along: the random source and the texts that the
  capturing groups produced last.  Both outlive an error.
-/
import PatternSampler.CharSet.Runs
import PatternSampler.Invalidation.Basic
import PatternSampler.Tree.Expr
import Std.Data.TreeMap

namespace PatternSampler

/-! ## Settings -/

/-- Where a backreference takes its text from. -/
inductive BackrefMode where
  /-- It repeats the text that its group produced last. -/
  | replay
  /-- It produces a text of its group anew. -/
  | regenerate
deriving DecidableEq

/-- The settings of a generation. -/
structure Settings where
  /-- By how much an unbounded repetition may exceed its least number of times, and an invalid one
  its greatest. -/
  slack : Nat := 10
  /-- Where backreferences take their text from. -/
  backrefs : BackrefMode := .replay
  /-- Whether a text that is meant to be invalid is checked against the pattern. -/
  verify : Bool := true
deriving DecidableEq

/-! ## How often to repeat -/

/-- The greatest number of times anything is repeated. -/
def maxCount : Nat := UInt64.size - 1

/-- A sum that stops at `maxCount`. -/
def addCount (m n : Nat) : Nat :=
  min (m + n) maxCount

namespace Bounds

/-- The greatest number of times a valid repetition is carried out. -/
def ceiling (b : Bounds) (slack : Nat) : Nat :=
  b.most.getD (addCount b.least slack)

/-- The least number of times a valid repetition is carried out: a reserved one is not left out. -/
def floor (b : Bounds) (reserved : Bool) : Nat :=
  if b.least = 0 ∧ reserved then 1 else b.least

/-- Draws a number of times within the bounds.  Nothing is drawn where there is no choice. -/
def drawValid {σ : Type} [RandomSource σ] (b : Bounds) (slack : Nat) (reserved : Bool) :
    Sampling σ Nat :=
  if b.ceiling slack ≤ b.floor reserved then pure (b.floor reserved)
  else draw (.between (b.floor reserved) (b.ceiling slack))

/-- The numbers of times above the bounds, as far as the slack reaches. -/
def above (b : Bounds) (slack : Nat) : Span :=
  .between (addCount (b.ceiling slack) 1) (addCount (b.ceiling slack) (max slack 1))

/-- Draws a number of times outside the bounds: above them if they are bounded and a coin says so or
if nothing lies below them, and else below. -/
def drawInvalid {σ : Type} [RandomSource σ] (b : Bounds) (slack : Nat) : Sampling σ Nat := do
  let coin ← draw (.below 2)
  if (b.most.isSome ∧ coin = 1) ∨ b.least = 0 then PatternSampler.draw (b.above slack)
  else PatternSampler.draw (.below b.least)

/-- Draws a number of times, outside the bounds if `invalid`. -/
def draw {σ : Type} [RandomSource σ] (b : Bounds) (slack : Nat) (invalid reserved : Bool) :
    Sampling σ Nat :=
  if invalid then b.drawInvalid slack else b.drawValid slack reserved

end Bounds

/-! ## Strings -/

/-- The random source and the text that each capturing group produced last. -/
structure GenerationState (σ : Type) where
  /-- Where random numbers come from. -/
  source : σ
  /-- The last text of each capturing group. -/
  captures : Std.TreeMap Nat (List Char) := ∅

instance {σ : Type} [RandomSource σ] : RandomSource (GenerationState σ) where
  draw s g :=
    let (n, source) := RandomSource.draw s g.source
    (n, { g with source })
  draw_mem s g h := RandomSource.draw_mem s g.source h

/-- An action that generates a value of type `α`. -/
abbrev Generating (σ α : Type) := Sampling (GenerationState σ) α

namespace Generating

variable {σ : Type}

/-- The text of a group, which is kept if the group captures. -/
def remember (id : Nat) (capture : Option Nat) (chars : List Char) : Generating σ (List Char) :=
  modifyGet fun g =>
    (chars, if capture.isSome then { g with captures := g.captures.insert id chars } else g)

/-- The last text of a capturing group, if it has produced one. -/
def lastText? (id : Nat) : Generating σ (Option (List Char)) :=
  return (← get).captures[id]?

/-- Carries an action out `count` times and puts its texts together behind those that are given in
reverse. -/
def collect (action : Generating σ (List Char)) : (count : Nat) → (reversed : List Char) →
    Generating σ (List Char)
  | 0, reversed => return reversed.reverse
  | count + 1, reversed => do collect action count ((← action).reverseAux reversed)

/-- Carries an action out `count` times and puts its texts together. -/
def times (count : Nat) (action : Generating σ (List Char)) : Generating σ (List Char) :=
  collect action count []

end Generating

/-- A text `count` times over. -/
def repeatText (count : Nat) (chars : List Char) : List Char :=
  if chars.isEmpty then [] else (List.replicate count chars).flatten

/-- A text with its last character repeated `count` times in its place; an empty one stays empty. -/
def repeatLast (count : Nat) (chars : List Char) : List Char :=
  match chars.getLast? with
  | none => []
  | some last => chars.dropLast ++ List.replicate count last

/-- Replaces one character of a text by any other one.  An empty text stays empty, and nothing is
drawn for it. -/
def corruptText {σ : Type} [RandomSource σ] (chars : List Char) : Sampling σ (List Char) := do
  if chars.isEmpty then return []
  let place ← draw (.below chars.length)
  let other ← (CharSet.allBut (chars.getD place default)).pick false
  return chars.set place other

namespace Expr

/-- Whether an expression is a fixed text. -/
def isText : Expr → Bool
  | text _ _ => true
  | _ => false

variable {σ : Type} [RandomSource σ]

/-- Carries out a repetition `count` times.  Of a repeated text only the last character is repeated;
with `sameText` one text of the body is used throughout. -/
def generateTimes (bodyIsText sameText : Bool) (count : Nat)
    (body : Generating σ (List Char)) : Generating σ (List Char) := do
  if bodyIsText then return repeatLast count (← body)
  else if count = 0 then return []
  else if sameText then return repeatText count (← body)
  else Generating.times count body

mutual

/-- Generates a string of an expression. -/
def generate (settings : Settings) (route : Route) : Expr → Generating σ (List Char)
  | text id chars => if route.breaks id then corruptText chars else return chars
  | set id s => return [← s.pick (route.breaks id)]
  | concat _ parts => generateAll settings route parts
  | alternation id branches => do
    match route.path.branch? id with
    | some child => generateNth settings route branches (branches.findIdx (·.id == child))
    | none => generateNth settings route branches (← draw (.below branches.length))
  | repetition id body bounds sameText => do
    let count ← bounds.draw settings.slack (route.breaks id) (route.path.reserves id)
    generateTimes body.isText sameText count (body.generate settings route)
  | group id body capture => do
    Generating.remember id capture (← body.generate settings route)
  | backref _ target => do
    match settings.backrefs with
    | .replay =>
      match ← Generating.lastText? target.id with
      | some chars => return chars
      | none => target.generate settings route
    | .regenerate => target.generate settings route

/-- Generates a string of each expression and puts them together. -/
def generateAll (settings : Settings) (route : Route) : List Expr → Generating σ (List Char)
  | [] => return []
  | e :: es => do
    let first ← e.generate settings route
    return first ++ (← generateAll settings route es)

/-- Generates a string of the expression at a position of a list. -/
def generateNth (settings : Settings) (route : Route) : List Expr → Nat → Generating σ (List Char)
  | [], _ => return []
  | e :: _, 0 => e.generate settings route
  | _ :: es, n + 1 => generateNth settings route es n

end

end Expr

end PatternSampler
