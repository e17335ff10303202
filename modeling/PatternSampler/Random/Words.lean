/-
# Streams of random words

A source that reads 64-bit words, either a fixed list of them in a cycle or the output of a mixing
counter.  A number below `n` is had by multiplying a word with `n` and keeping the high half of the
product; a second word settles the cases in which the discarded half could have carried over.

* `Feed` produces words, `WordStream` counts how many were taken.
* The instance of `RandomSource` shows that every number drawn lies in its span.
-/
import PatternSampler.Random.Source

namespace PatternSampler

/-- Where the words come from. -/
inductive Feed where
  /-- A list of words, read from position `next` on and from its start again at its end. -/
  | cycle (words : Array UInt64) (next : Nat)
  /-- A counter that advances by a fixed step and is scrambled into each word. -/
  | mixing (state : UInt64)

/-- The next word. -/
def Feed.word : Feed → UInt64 × Feed
  | .cycle words next => (words.getD (next % words.size) 0, .cycle words (next + 1))
  | .mixing state =>
    let s := state + 0x9E3779B97F4A7C15
    let z := (s ^^^ (s >>> 30)) * 0xBF58476D1CE4E5B9
    let z := (z ^^^ (z >>> 27)) * 0x94D049BB133111EB
    (z ^^^ (z >>> 31), .mixing s)

/-- A feed together with the number of words taken from it. -/
structure WordStream where
  /-- Where the next word comes from. -/
  feed : Feed
  /-- How many words have been taken. -/
  taken : Nat := 0

namespace WordStream

/-- A stream that mixes a seed into words. -/
def ofSeed (seed : UInt64) : WordStream :=
  { feed := .mixing seed }

/-- A stream that repeats a list of words. -/
def ofWords (words : Array UInt64) : WordStream :=
  { feed := .cycle words 0 }

/-- Takes one word and keeps its low `width` bits. -/
def bits (width : Nat) (g : WordStream) : Nat × WordStream :=
  let (word, feed) := g.feed.word
  (word.toNat % 1 <<< width, { feed, taken := g.taken + 1 })

/-- A number below `count`.  One word is taken even for a single possible answer; where `count` is
a multiple of the number of words of that width, the bits themselves are the answer. -/
def scaled (width count : Nat) (g : WordStream) : Nat × WordStream :=
  let size := 1 <<< width
  let range := count % size
  let (x, g) := g.bits width
  if range = 0 then (x, g)
  else
    let high := x * range / size
    let rest := x * range % size
    if rest > size - range then
      let (y, g) := g.bits width
      if rest + y * range / size ≥ size then (high + 1, g) else (high, g)
    else (high, g)

/-- Draws one number of a span, from 32 bits where the span is written with such numbers alone and
from 64 bits otherwise. -/
def draw (s : Span) (g : WordStream) : Nat × WordStream :=
  let width := if s.upper > 0xFFFFFFFF then 64 else 32
  let (offset, g) := g.scaled width s.count
  (s.low + offset, g)

theorem bits_lt (width : Nat) (g : WordStream) : (g.bits width).1 < 1 <<< width := by
  apply Nat.mod_lt
  rw [Nat.one_shiftLeft]
  exact Nat.two_pow_pos width

/-- The high part of a product of `x` below `size` with `range`, and one more when the low part
carries over, stay below `range`. -/
theorem high_lt {x y size range : Nat} (hx : x < size) (hy : y < size) (hr : 0 < range) :
    x * range / size < range ∧
      (size ≤ x * range % size + y * range / size → x * range / size + 1 < range) := by
  have step : x * range + range ≤ size * range := by
    rw [← Nat.succ_mul]
    exact Nat.mul_le_mul_right range hx
  have carry : y * range / size < range :=
    Nat.div_lt_of_lt_mul (Nat.mul_lt_mul_of_pos_right hy hr)
  have split := Nat.div_add_mod (x * range) size
  refine ⟨Nat.div_lt_of_lt_mul (by omega), fun exceeds => ?_⟩
  have : size * (x * range / size + 1) < size * range := by
    rw [Nat.mul_add, Nat.mul_one]
    omega
  exact Nat.lt_of_mul_lt_mul_left this

theorem scaled_lt (width : Nat) {count : Nat} (h : 0 < count) (g : WordStream) :
    (g.scaled width count).1 < count := by
  have hx := g.bits_lt width
  have hy := (g.bits width).2.bits_lt width
  have le : count % 1 <<< width ≤ count := Nat.mod_le _ _
  simp only [scaled]
  split
  next zero =>
    have := Nat.le_of_dvd h (Nat.dvd_of_mod_eq_zero zero)
    omega
  next pos =>
    obtain ⟨low, high⟩ := high_lt hx hy (Nat.pos_of_ne_zero pos)
    split
    · split
      · have := high (by assumption)
        omega
      · simp only
        omega
    · simp only
      omega

instance : RandomSource WordStream where
  draw := draw
  draw_mem s g h := by
    simp only [draw, Span.mem_iff]
    have := scaled_lt (if s.upper > 0xFFFFFFFF then 64 else 32) h g
    omega

end WordStream

end PatternSampler
