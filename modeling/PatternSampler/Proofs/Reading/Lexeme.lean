/-
# Lexemes

A text falls into lexemes: escapes, sets in brackets, and single characters.  A marker is a lexeme
of its own, so it can be told from the text alone where the markers are.  Whatever a reader takes
from the front of a text consists of whole lexemes, none of which is a marker.

* `lexemes` : a text taken apart, `unmarked` : a text without its markers.
* `Separated` : no marker keeps a number and a digit apart.
* `Skips` : some part of a text consists of lexemes, and none of them is a marker.
-/
import PatternSampler.Proofs.Reading.Token

namespace PatternSampler.Reading

/-! ## Lexemes -/

/-- The inside of a set up to the closing bracket, which does not stand behind a backslash. -/
def setBody : List Char → List Char
  | [] => []
  | '\\' :: c :: cs => '\\' :: c :: setBody cs
  | ']' :: _ => [']']
  | c :: cs => c :: setBody cs

/-- What stands behind an opening bracket up to the closing one, which is not the first item. -/
def setText : List Char → List Char
  | '^' :: ']' :: cs => '^' :: ']' :: setBody cs
  | ']' :: cs => ']' :: setBody cs
  | cs => setBody cs

/-- The first lexeme of a text: a set, a backslash with what it escapes, or a single character.  The
digits of an octal number or a backreference belong to it. -/
def lexeme : List Char → List Char
  | [] => []
  | '[' :: cs => '[' :: setText cs
  | '\\' :: c :: cs => '\\' :: c :: if c.isDigit then numberTail c cs else []
  | c :: _ => [c]

/-- A text that is not empty begins with its first lexeme. -/
theorem exists_lexeme_cons (c : Char) (cs : List Char) : ∃ tail, lexeme (c :: cs) = c :: tail := by
  unfold lexeme
  split
  · next eq => cases eq
  · next eq =>
    cases eq
    exact ⟨_, rfl⟩
  · next eq =>
    cases eq
    exact ⟨_, rfl⟩
  · next eq =>
    cases eq
    exact ⟨_, rfl⟩

/-- The lexemes of a text. -/
def lexemes : List Char → List (List Char)
  | [] => []
  | c :: cs => lexeme (c :: cs) :: lexemes (cs.drop ((lexeme (c :: cs)).length - 1))
termination_by cs => cs.length
decreasing_by
  simp only [List.length_drop, List.length_cons]
  omega

/-- The lexeme that is a marker. -/
def marker : List Char :=
  ['\\', 'i']

/-- A text without its markers. -/
def unmarked (cs : List Char) : List Char :=
  ((lexemes cs).filter (· ≠ marker)).flatten

/-- No marker stands between an octal number or a backreference and a digit, which would run on
without it. -/
def Separated (cs : List Char) : Prop :=
  ∀ number, Numeric number → ∀ d : Char, d.isDigit = true →
    ¬[number, marker, [d]] <:+: lexemes cs

/-- If a text begins with a marker, no other one follows at once. -/
def Single (cs : List Char) : Prop :=
  ∀ rest, cs = '\\' :: 'i' :: rest → atMarker rest = false

variable {cs rest used used' : List Char} {c : Char}

/-- A lexeme is cut off the front of a text. -/
theorem lexemes_append (first : lexeme (c :: used ++ rest) = c :: used) :
    lexemes (c :: used ++ rest) = (c :: used) :: lexemes rest := by
  rw [List.cons_append] at first ⊢
  rw [lexemes, first, List.length_cons, Nat.add_sub_cancel, List.drop_left]

/-- Any other character is a lexeme of its own. -/
theorem lexeme_of_ne (backslash : c ≠ '\\') (bracket : c ≠ '[') (cs : List Char) :
    lexeme (c :: cs) = [c] :=
  lexeme.eq_4 c cs bracket fun _ _ eq => absurd eq backslash

theorem lexemes_of_ne (backslash : c ≠ '\\') (bracket : c ≠ '[') (cs : List Char) :
    lexemes (c :: cs) = [c] :: lexemes cs := by
  have first : lexeme (c :: [] ++ cs) = [c] := lexeme_of_ne backslash bracket cs
  exact lexemes_append first

/-- A marker is a lexeme. -/
theorem lexemes_marker (cs : List Char) : lexemes ('\\' :: 'i' :: cs) = marker :: lexemes cs := by
  have first : lexeme ('\\' :: ['i'] ++ cs) = marker := rfl
  exact lexemes_append first

theorem unmarked_nil : unmarked [] = [] := by
  rw [unmarked, lexemes]
  rfl

/-- A marker is left out. -/
theorem unmarked_marker (cs : List Char) : unmarked ('\\' :: 'i' :: cs) = unmarked cs := by
  rw [unmarked, lexemes_marker, List.filter_cons_of_neg (by simp)]
  rfl

/-! ## Parts without markers -/

/-- A text goes on behind some part of it, which consists of lexemes that are no markers. -/
def Skips (used rest : List Char) : Prop :=
  ∃ parts, parts.flatten = used ∧ marker ∉ parts ∧ lexemes (used ++ rest) = parts ++ lexemes rest

theorem Skips.nil (rest : List Char) : Skips [] rest :=
  ⟨[], rfl, List.not_mem_nil, rfl⟩

/-- Texts that are skipped are skipped together. -/
theorem Skips.append (first : Skips used (used' ++ rest)) (second : Skips used' rest) :
    Skips (used ++ used') rest := by
  obtain ⟨parts, rfl, clean, eq⟩ := first
  obtain ⟨parts', rfl, clean', eq'⟩ := second
  refine ⟨parts ++ parts', List.flatten_append, ?_, ?_⟩
  · simp [clean, clean']
  · rw [List.append_assoc, List.append_assoc, eq, eq']

/-- A single lexeme. -/
theorem Skips.lexeme (first : lexeme (c :: used ++ rest) = c :: used) (other : c :: used ≠ marker) :
    Skips (c :: used) rest :=
  ⟨[c :: used], by simp, by simpa using other.symm, lexemes_append first⟩

/-- A character that is neither a backslash nor an opening bracket is a lexeme on its own. -/
theorem Skips.char (backslash : c ≠ '\\') (bracket : c ≠ '[') (rest : List Char) :
    Skips [c] rest :=
  .lexeme (lexeme_of_ne backslash bracket rest) (by simp [marker])

/-- Characters that are lexemes of their own are skipped. -/
theorem skips_of_forall (plain : ∀ c ∈ used, c ≠ '\\' ∧ c ≠ '[') : Skips used rest := by
  induction used with
  | nil => exact .nil rest
  | cons c used ih =>
    obtain ⟨⟨backslash, bracket⟩, plain⟩ := List.forall_mem_cons.1 plain
    exact (Skips.char backslash bracket (used ++ rest)).append (ih plain)

theorem Plain.skips (plain : Plain used) : Skips used rest :=
  skips_of_forall fun c mem => ⟨(plain c mem).1, (plain c mem).2.1⟩

theorem IsRun.skips (run : IsRun used) : Skips used rest := by
  obtain ⟨-, special, plain⟩ := run
  apply skips_of_forall
  rw [List.forall_mem_cons]
  constructor
  · constructor <;> rintro rfl <;> exact special (by decide)
  · intro d mem
    constructor <;> rintro rfl <;> exact absurd (plain _ mem) (by decide)

/-- A set ends at the first bracket that is not enclosed. -/
theorem setBody_append (enclosed : Enclosed used) (rest : List Char) :
    setBody (used ++ ']' :: rest) = used ++ [']'] := by
  induction enclosed with
  | nil => rfl
  | @char c cs backslash closing _ ih =>
    rw [List.cons_append, setBody.eq_4 c (cs ++ ']' :: rest) (fun _ _ eq => absurd eq backslash)
      (fun eq => absurd eq closing), ih]
    rfl
  | escape _ ih =>
    rw [List.cons_append, List.cons_append, setBody, ih]
    rfl

/-- Without a caret and a leading bracket a set is its body. -/
theorem setText_of_head? (caret : cs.head? ≠ some '^') (closing : cs.head? ≠ some ']') :
    setText cs = setBody cs :=
  setText.eq_3 cs (fun _ eq => caret (by rw [eq]; rfl)) fun _ eq => closing (by rw [eq]; rfl)

/-- The text of a set ends with the set. -/
theorem setText_append (set : IsSet used) (rest : List Char) : setText (used ++ rest) = used := by
  obtain ⟨caret, first, positive, enclosed⟩ := set
  rename_i inside
  have body := setBody_append enclosed rest
  -- only at the beginning, behind the caret if there is one, a closing bracket is an item
  rcases caret with rfl | rfl <;> rcases first with ⟨rfl, some⟩ | rfl
  · have positive := positive rfl
    obtain ⟨c, inside, rfl⟩ := List.exists_cons_of_ne_nil some
    have text : setText (c :: inside ++ ']' :: rest) = _ :=
      setText_of_head? positive enclosed.head?_ne
    simpa using text.trans body
  · simpa [setText] using body
  · obtain ⟨c, inside, rfl⟩ := List.exists_cons_of_ne_nil some
    have body := setBody_append (enclosed.char (c := '^') (by decide) (by decide)) rest
    have closing : c ≠ ']' := fun eq => enclosed.head?_ne (by rw [eq]; rfl)
    have text : setText ('^' :: (c :: inside ++ ']' :: rest)) = setBody _ :=
      setText.eq_3 _ (fun _ eq => closing (List.cons.inj (List.cons.inj eq).2).1) (by simp)
    simpa using text.trans body
  · simpa [setText] using body

theorem IsToken.skips (token : IsToken rest used) : Skips used rest := by
  cases token with
  | @single c mem =>
    apply skips_of_forall
    rw [List.forall_mem_singleton]
    fin_cases mem <;> decide
  | @escape c used digit letter plain =>
    have first : Skips ['\\', c] (used ++ rest) := by
      apply Skips.lexeme
      · simp [lexeme, digit]
      · simpa [marker] using letter
    exact first.append plain.skips
  | @number c used digit tail =>
    apply Skips.lexeme
    · simp [lexeme, digit, tail]
    · rw [marker]
      rintro ⟨⟩
      exact absurd digit (by decide)
  | @set used set =>
    apply Skips.lexeme
    · exact congrArg ('[' :: ·) (setText_append set rest)
    · simp [marker]

/-! ## Texts without markers -/

/-- What is not a marker stays where it is. -/
theorem Skips.unmarked (skips : Skips used rest) :
    unmarked (used ++ rest) = used ++ unmarked rest := by
  obtain ⟨parts, rfl, clean, eq⟩ := skips
  have kept : parts.filter (· ≠ marker) = parts := by
    rw [List.filter_eq_self]
    intro part mem
    simpa using fun is : part = marker => clean (is ▸ mem)
  rw [Reading.unmarked, Reading.unmarked, eq, List.filter_append, kept, List.flatten_append]

/-- A character that is neither a backslash nor an opening bracket stays where it is. -/
theorem unmarked_of_ne (backslash : c ≠ '\\') (bracket : c ≠ '[') (cs : List Char) :
    unmarked (c :: cs) = c :: unmarked cs :=
  (Skips.char backslash bracket cs).unmarked

/-- A text that does not begin with a marker begins as before without its markers. -/
theorem unmarked_cons (unmarkedHead : atMarker (c :: cs) = false) :
    ∃ tail, lexeme (c :: cs) = c :: tail ∧
      unmarked (c :: cs) = c :: (tail ++ unmarked (cs.drop tail.length)) := by
  obtain ⟨tail, eq⟩ := exists_lexeme_cons c cs
  have other : c :: tail ≠ marker := by
    rintro ⟨⟩
    cases cs with
    | nil => cases eq
    | cons d cs =>
      have eq : '\\' :: d :: _ = ['\\', 'i'] := eq
      obtain rfl : d = 'i' := (List.cons.inj (List.cons.inj eq).2).1
      cases unmarkedHead
  refine ⟨tail, eq, ?_⟩
  rw [unmarked, lexemes, eq, List.filter_cons_of_pos (by simpa using other)]
  rfl

/-- Only a marker in front is missed. -/
theorem head?_unmarked (first : atMarker cs = false) : (unmarked cs).head? = cs.head? := by
  cases cs with
  | nil => rw [unmarked_nil]
  | cons c cs =>
    obtain ⟨tail, -, eq⟩ := unmarked_cons first
    rw [eq]
    rfl

/-- **There is no marker left** at the beginning of a text without its markers. -/
theorem atMarker_unmarked (cs : List Char) : atMarker (unmarked cs) = false := by
  induction length : cs.length using Nat.strong_induction_on generalizing cs with
  | _ n ih =>
    subst length
    by_cases first : atMarker cs = true
    · obtain ⟨rest, rfl⟩ := atMarker_iff.1 first
      rw [unmarked_marker]
      exact ih rest.length (by simp only [List.length_cons]; omega) rest rfl
    have first : atMarker cs = false := by simpa using first
    -- what is escaped stays behind its backslash, so a marker would have been one before
    rw [atMarker_eq_false_iff]
    intro rest left
    match cs with
    | [] => cases unmarked_nil.symm.trans left
    | [c] =>
      obtain ⟨tail, eq, text⟩ := unmarked_cons first
      rw [text] at left
      obtain rfl : c = '\\' := (List.cons.inj left).1
      cases eq
      rw [List.drop_nil, unmarked_nil] at left
      cases left
    | c :: d :: cs =>
      obtain ⟨tail, eq, text⟩ := unmarked_cons first
      rw [text] at left
      obtain rfl : c = '\\' := (List.cons.inj left).1
      obtain ⟨rfl⟩ : d :: _ = tail := (List.cons.inj eq).2
      obtain rfl : d = 'i' := (List.cons.inj (List.cons.inj left).2).1
      cases first

/-- Digits do not run on behind a number, even without the markers. -/
theorem follows_unmarked (token : IsToken rest used) (separated : Separated (used ++ rest))
    (single : Single rest) (numeric : Numeric used) : Follows rest (unmarked rest) := by
  by_cases first : atMarker rest = true
  · obtain ⟨rest', rfl⟩ := atMarker_iff.1 first
    right
    intro d head
    rw [unmarked_marker, head?_unmarked (single rest' rfl)] at head
    -- a digit here would stand right behind the marker, which is right behind the number
    by_contra digit
    have digit : d.isDigit = true := by simpa using digit
    obtain ⟨tail, rfl⟩ : ∃ tail, rest' = d :: tail := ⟨_, (List.cons_head?_tail head).symm⟩
    have ne {e : Char} (other : e.isDigit = false) : d ≠ e := by
      rintro rfl
      exact Bool.false_ne_true (other.symm.trans digit)
    apply separated used numeric d digit
    obtain ⟨c, used, rfl, digit⟩ := numeric
    cases token with
    | escape letter =>
      rw [digit] at letter
      cases letter
    | number _ eq =>
      rw [lexemes_append (by simp [lexeme, digit, eq]), lexemes_marker,
        lexemes_of_ne (ne rfl) (ne rfl)]
      exact (List.prefix_append _ _).isInfix
  · exact .inl (head?_unmarked (by simpa using first))

end PatternSampler.Reading
