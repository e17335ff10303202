/-
# Sessions

A session owns a random source and keeps every pattern that it has been able to read, so that each
is read once.
-/
import PatternSampler.Pattern
import Std.Data.HashMap

namespace PatternSampler

/-- A random source, settings, and the patterns read so far. -/
structure Session (σ : Type) where
  /-- Where random numbers come from. -/
  source : σ
  /-- The settings of all generations. -/
  settings : Settings := {}
  /-- The patterns read so far. -/
  cache : Std.HashMap String Pattern := ∅

namespace Session

variable {σ : Type}

/-- How many different patterns have been read. -/
def cached (s : Session σ) : Nat :=
  s.cache.size

/-- The pattern of a text, from the cache if it is there. -/
def pattern? (s : Session σ) (text : String) : Except SampleError Pattern :=
  match s.cache[text]? with
  | some p => .ok p
  | none => Pattern.ofString? text

/-- Generates a string of a pattern, which is kept.  A pattern that cannot be read leaves the
session as it is. -/
def next [RandomSource σ] (s : Session σ) (text : String) :
    Except SampleError String × Session σ :=
  match s.pattern? text with
  | .error e => (.error e, s)
  | .ok p =>
    let (result, p, source) := p.generate s.settings s.source
    (result, { s with source, cache := s.cache.insert text p })

end Session

end PatternSampler
