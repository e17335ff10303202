/-
# Where faults are noticed

Readers report a fault where they are, where the part that they read began, or at a place in
between.  None of these places lies outside of the text that the reader was given, so the place that
is reported for a whole pattern is one in the pattern or its end.

* `FaultsIn` : an outcome that, if it is a fault, was noticed with at most so much text left.
* `Reading.readAtom_faultsIn`, `Reading.readGroupHead_faultsIn`, `Reading.readQuantifier_faultsIn` :
  the readers of atoms, heads of groups and quantifiers.
* `Reader.FaultsIn` : the same for readers that work on a draft.
* `Reading.alternatives_faultsIn` and those before it : the readers of patterns.
-/
import PatternSampler.Proofs.Reading.Phrase

namespace PatternSampler.Reading

variable {α β : Type} {n m : ℕ} {cs : List Char}

/-! ## Readers of texts -/

/-- If there is a fault, at most `n` characters were left where it was noticed. -/
def FaultsIn (n : ℕ) (x : Except Fault α) : Prop :=
  ∀ e, x = .error e → e.remaining ≤ n

namespace FaultsIn

theorem ok (a : α) : FaultsIn n (.ok a : Except Fault α) := by
  rintro e ⟨⟩

theorem error {e : Fault} (le : e.remaining ≤ n) : FaultsIn n (.error e : Except Fault α) := by
  rintro _ ⟨⟩
  exact le

theorem fault {cause : ReadError} (le : cs.length ≤ n) :
    FaultsIn n (.error (fault cs cause) : Except Fault α) :=
  error le

theorem mono {x : Except Fault α} (h : FaultsIn n x) (le : n ≤ m) : FaultsIn m x :=
  fun e failed => (h e failed).trans le

theorem bind {x : Except Fault α} {f : α → Except Fault β} (first : FaultsIn n x)
    (second : ∀ a, x = .ok a → FaultsIn n (f a)) : FaultsIn n (x >>= f) := by
  cases x with
  | error e => exact error (first e rfl)
  | ok a => exact second a rfl

end FaultsIn

/-- A number that is too large is reported where its digits begin. -/
theorem readDecimal_faultsIn (cs : List Char) : FaultsIn cs.length (readDecimal cs) := by
  unfold readDecimal
  dsimp only
  split
  · exact .ok _
  · exact .fault le_rfl

/-- A missing digit is reported where it should stand. -/
theorem readHexFrom_faultsIn (wanted left value : ℕ) (cs : List Char) :
    FaultsIn cs.length (readHexFrom wanted left value cs) := by
  induction left generalizing value cs with
  | zero => exact .ok _
  | succ left ih =>
    cases cs with
    | nil => exact .fault le_rfl
    | cons c cs =>
      rw [readHexFrom]
      split
      · exact (ih _ cs).mono (Nat.le_succ _)
      · exact .fault le_rfl

/-- An octal number has no digits that could be missing; the other numbers report their own
faults. -/
theorem readCodeNumber_faultsIn (cs : List Char) : FaultsIn cs.length (readCodeNumber cs) := by
  unfold readCodeNumber
  split
  · exact (readHexFrom_faultsIn _ _ _ _).mono (Nat.le_succ _)
  · exact (readHexFrom_faultsIn _ _ _ _).mono (Nat.le_succ _)
  · exact .ok _
  · refine (readDecimal_faultsIn cs).bind fun _ _ => ?_
    dsimp only
    split
    · exact .ok _
    · exact .fault le_rfl

/-- A number that is no character is reported where it begins. -/
theorem readCodePoint_faultsIn (cs : List Char) : FaultsIn cs.length (readCodePoint cs) := by
  refine (readCodeNumber_faultsIn cs).bind fun _ _ => ?_
  dsimp only
  split
  · exact .ok _
  · exact .fault le_rfl

/-- A name that is none is reported where it begins, and one that is not closed where it ends. -/
theorem readGroupName_faultsIn (cs : List Char) : FaultsIn cs.length (readGroupName cs) := by
  have body (close : Char) (cs : List Char) :
      FaultsIn cs.length (readGroupName.body close cs) := by
    have left := (List.dropWhile_suffix (l := cs) fun c => isAlphanumeric c || c == '_').length_le
    unfold readGroupName.body
    split
    · dsimp only
      split
      · exact .fault (Nat.zero_le _)
      · next eq =>
        rw [eq] at left
        split
        · exact .ok _
        · exact .fault left
    · exact .fault le_rfl
  unfold readGroupName
  split
  · exact (body _ _).mono (Nat.le_succ _)
  · exact (body _ _).mono (Nat.le_succ _)
  · refine .fault ?_
    rw [List.length_drop]
    exact Nat.sub_le _ _

/-- An escape that there is not is reported behind its backslash. -/
theorem readEscape_faultsIn (cs : List Char) : FaultsIn cs.length (readEscape cs) := by
  unfold readEscape
  split
  · exact .fault le_rfl
  · split
    · exact .ok _
    split
    · exact (readCodePoint_faultsIn _).bind fun _ _ => .ok _
    split
    · exact (readDecimal_faultsIn _).bind fun _ _ => .ok _
    split
    · exact ((readGroupName_faultsIn _).mono (Nat.le_succ _)).bind fun _ _ => .ok _
    split
    · exact .ok _
    split
    · exact .fault le_rfl
    split
    · exact .fault le_rfl
    split
    · exact .ok _
    · exact .fault le_rfl

/-! ### Sets -/

theorem readMemberEscape_faultsIn (cs : List Char) :
    FaultsIn cs.length (readMemberEscape cs) := by
  unfold readMemberEscape
  split
  · exact .fault le_rfl
  · split
    · exact (readCodePoint_faultsIn _).bind fun _ _ => .ok _
    split
    · exact .ok _
    split
    · exact .ok _
    · exact .fault le_rfl

/-- A member that is no character of the table is reported where it begins. -/
theorem readMember_faultsIn (cs : List Char) : FaultsIn cs.length (readMember cs) := by
  have any : FaultsIn cs.length (readAnyMember cs) := by
    unfold readAnyMember
    split
    · exact .fault le_rfl
    · split
      · exact .ok _
      · exact .fault le_rfl
    · exact (readMemberEscape_faultsIn _).mono (Nat.le_succ _)
    · exact .ok _
  refine any.bind fun _ _ => ?_
  dsimp only
  split
  · split
    · exact .fault le_rfl
    · exact .ok _
  · exact .ok _

/-- A range with a class or a smaller character at its end is reported behind its dash. -/
theorem readItem_faultsIn (cs : List Char) : FaultsIn cs.length (readItem cs) := by
  refine (readMember_faultsIn cs).bind fun first read => ?_
  have short : first.2.length ≤ cs.length := (readMember_length read).le
  obtain ⟨member, rest⟩ := first
  dsimp only
  split
  · exact .ok _
  split
  · exact .ok _
  · next behind range =>
    have le := (rangeEnd?_length range).le.trans short
    refine ((readMember_faultsIn behind).mono le).bind fun _ _ => ?_
    split
    · exact .fault le
    split
    · exact .fault le
    · exact .ok _

/-- Each item reports its own faults; where the text ends, the given one is reported. -/
theorem readItems_faultsIn {unclosed : Fault} (le : unclosed.remaining ≤ n)
    (short : cs.length ≤ n) : FaultsIn n (readItems unclosed cs) := by
  fun_induction readItems unclosed cs with
  | case1 => exact .error le
  | case2 => exact .ok _
  | case3 c tail _ e failed => exact .error ((readItem_faultsIn _ e failed).trans short)
  | case4 c tail _ item left read ih =>
    exact (ih ((readItem_length read).le.trans short)).bind fun _ _ => .ok _

/-- A set that is not closed is reported where it was opened, one character before its inside. -/
theorem readBracket_faultsIn {unclosed : Fault} (le : unclosed.remaining ≤ n)
    (short : cs.length ≤ n) : FaultsIn n (readBracket unclosed cs) := by
  have inside : (leadingItem (if cs.head? != some '^' then cs else cs.drop 1)).2.length ≤ n := by
    refine (length_leadingItem _).trans (le_trans ?_ short)
    split
    · exact le_rfl
    · rw [List.length_drop]
      exact Nat.sub_le _ _
  exact (readItems_faultsIn le inside).bind fun _ _ => .ok _

/-! ### Atoms, heads of groups and quantifiers -/

/-- Faults of macros and sets that are not closed are reported where the atom begins. -/
theorem readAtom_faultsIn (cs : List Char) : FaultsIn cs.length (readAtom cs) := by
  unfold readAtom
  split
  · exact .fault le_rfl
  · refine FaultsIn.bind ?_ fun _ _ => .ok _
    unfold readMacroName
    split
    · exact .ok _
    · exact .fault le_rfl
  · exact (readBracket_faultsIn le_rfl (Nat.le_succ _)).bind fun _ _ => .ok _
  · exact ((readEscape_faultsIn _).mono (Nat.le_succ _)).bind fun _ _ => .ok _
  · split
    · exact .fault le_rfl
    split
    · exact .ok _
    split
    · exact .ok _
    · exact .ok _

/-- A kind of group that there is not is reported behind its question mark. -/
theorem readGroupHead_faultsIn (cs : List Char) : FaultsIn cs.length (readGroupHead cs) := by
  have named (cs : List Char) : FaultsIn cs.length
      (readGroupName cs >>= fun read => .ok (GroupKind.named read.1, read.2)) :=
    (readGroupName_faultsIn cs).bind fun _ _ => .ok _
  unfold readGroupHead
  split
  · exact .ok _
  · split
    · exact .fault (Nat.le_succ _)
    · exact .fault (Nat.le_succ _)
    · exact .fault (Nat.le_succ _)
    · exact .fault (Nat.le_succ _)
    · exact (named _).mono (Nat.le_succ _)
    · exact (named _).mono (Nat.le_succ _)
    · exact .fault (Nat.le_succ _)
  · exact .ok _

/-- A bound that is missing or too large is reported where it should stand. -/
theorem readBound_faultsIn (cs : List Char) : FaultsIn cs.length (readBound cs) := by
  unfold readBound
  dsimp only
  split
  · exact .fault le_rfl
  split
  · exact .fault le_rfl
  split
  · exact .fault le_rfl
  · exact .ok _

theorem readMost_faultsIn (least : ℕ) (cs : List Char) :
    FaultsIn cs.length (readMost least cs) := by
  unfold readMost
  split
  · exact .ok _
  · exact ((readBound_faultsIn _).mono (Nat.le_succ _)).bind fun _ _ => .ok _
  · exact .ok _

/-- Both bounds report their own faults, the braces what follows these. -/
theorem readBraces_faultsIn (cs : List Char) : FaultsIn cs.length (readBraces cs) := by
  have front : (if cs.head? == some '=' then cs.drop 1 else cs).length ≤ cs.length := by
    split
    · rw [List.length_drop]
      exact Nat.sub_le _ _
    · exact le_rfl
  refine ((readBound_faultsIn _).mono front).bind fun first read => ?_
  have short : first.2.length ≤ cs.length := (readBound_length read).trans front
  refine ((readMost_faultsIn _ _).mono short).bind fun second read' => ?_
  have short' : second.2.length ≤ cs.length := (readMost_length read').trans short
  dsimp only
  split
  · exact .fault (Nat.zero_le _)
  · next eq =>
    rw [eq] at short'
    split
    · exact .fault short'
    split
    · exact .fault ((Nat.le_succ _).trans short')
    · exact .ok _

/-- A question mark behind a quantifier is reported where it stands. -/
theorem readQuantifier_faultsIn (cs : List Char) : FaultsIn cs.length (readQuantifier cs) := by
  have greedy : FaultsIn cs.length (readGreedy cs) := by
    unfold readGreedy
    split
    · exact .ok _
    · exact .ok _
    · exact .ok _
    · exact ((readBraces_faultsIn _).mono (Nat.le_succ _)).bind fun _ _ => .ok _
    · exact .ok _
  refine greedy.bind fun read eq => ?_
  dsimp only
  split
  · have short : read.2.length ≤ cs.length := readGreedy_length eq
    exact .fault short
  · exact .ok _

/-! ## Readers that work on a draft -/

/-- If there is a fault, at most `n` characters were left where it was noticed. -/
def Reader.FaultsIn (n : ℕ) (x : Reader α) : Prop :=
  ∀ d e d', x d = .error e d' → e.remaining ≤ n

namespace Reader.FaultsIn

theorem pure (a : α) : Reader.FaultsIn n (pure a : Reader α) := by
  rintro d e d' ⟨⟩

theorem get : Reader.FaultsIn n (get : Reader Draft) := by
  rintro d e d' ⟨⟩

theorem modifyGet (f : Draft → α × Draft) : Reader.FaultsIn n (modifyGet f : Reader α) := by
  rintro d e d' ⟨⟩

theorem throw {cause : ReadError} (le : cs.length ≤ n) :
    Reader.FaultsIn n (throw (fault cs cause) : Reader α) := by
  rintro d e d' ⟨⟩
  exact le

theorem mono {x : Reader α} (h : Reader.FaultsIn n x) (le : n ≤ m) : Reader.FaultsIn m x :=
  fun d e d' failed => (h d e d' failed).trans le

theorem bind {x : Reader α} {f : α → Reader β} (first : Reader.FaultsIn n x)
    (second : ∀ a, Reader.FaultsIn n (f a)) : Reader.FaultsIn n (x >>= f) := by
  intro d e d' failed
  rcases bind_eq_error_iff.1 failed with failed | ⟨a, d₁, -, failed⟩
  · exact first d e d' failed
  · exact second a d₁ e d' failed

end Reader.FaultsIn

theorem takeMarker_faultsIn (present : Bool) (cs : List Char) :
    Reader.FaultsIn n (takeMarker present cs) := by
  unfold takeMarker
  split
  · exact (Reader.FaultsIn.modifyGet _).bind fun _ => .pure _
  · exact .pure _

theorem takeClosingMarker_faultsIn (first : ℕ) (cs : List Char) :
    Reader.FaultsIn n (takeClosingMarker first cs) := by
  unfold takeClosingMarker
  split
  · exact (Reader.FaultsIn.modifyGet _).bind fun _ => .pure _
  · exact .pure _

/-- A fault of an atom is reported where the atom begins, also if it is one in what a macro stands
for. -/
theorem plantAtom_faultsIn (macros : Macros) (le : cs.length ≤ n) (a : Atom) :
    Reader.FaultsIn n (plantAtom macros cs a) := by
  cases a with
  | text | set => exact .modifyGet _
  | backrefNumber number =>
    refine Reader.FaultsIn.get.bind fun d => ?_
    split
    · exact .modifyGet _
    · exact .throw le
  | backrefName name =>
    refine Reader.FaultsIn.get.bind fun d => ?_
    split
    · exact .modifyGet _
    · exact .throw le
  | macroName name =>
    rw [plantAtom]
    split
    · next reader _ =>
      intro d e d' failed
      unfold EStateM.adaptExcept at failed
      split at failed
      · cases failed
        exact le
      · cases failed
    · exact .throw le

/-- Only the reader of the quantifier reports faults. -/
theorem quantified_faultsIn (node : ℕ) (cs : List Char) :
    Reader.FaultsIn cs.length (quantified node cs) := by
  unfold quantified
  split
  · next e failed =>
    rintro d _ d' ⟨⟩
    exact readQuantifier_faultsIn cs e failed
  · exact .pure _
  · exact (Reader.FaultsIn.modifyGet _).bind fun _ => .pure _

/-- The nodes of branches, choices and groups can always be added. -/
theorem plantBranch_faultsIn (ids : List ℕ) : Reader.FaultsIn n (plantBranch ids) := by
  unfold plantBranch
  split
  · exact .modifyGet _
  · exact .pure _
  · exact .modifyGet _

theorem plantAlternatives_faultsIn (first : ℕ) (more : List ℕ) :
    Reader.FaultsIn n (plantAlternatives first more) := by
  unfold plantAlternatives
  split
  · exact .pure _
  · exact .modifyGet _

theorem openGroup_faultsIn (kind : GroupKind) : Reader.FaultsIn n (openGroup kind) := by
  cases kind with
  | numbered => exact .modifyGet _
  | named | plain => exact .pure _

theorem closeGroup_faultsIn (kind : GroupKind) (number : Option ℕ) (body : ℕ) :
    Reader.FaultsIn n (closeGroup kind number body) := by
  unfold closeGroup
  split
  · exact (Reader.FaultsIn.modifyGet _).bind fun _ =>
      (Reader.FaultsIn.modifyGet _).bind fun _ => .pure _
  · exact (Reader.FaultsIn.modifyGet _).bind fun _ =>
      (Reader.FaultsIn.modifyGet _).bind fun _ => .pure _
  · exact .modifyGet _

/-! ### Patterns -/

mutual

/-- **A fault in a pattern is noticed in what the reader was given.**  The readers call one another
on what is left, which is never more. -/
theorem alternatives_faultsIn (macros : Macros) (cs : List Char) :
    Reader.FaultsIn cs.length (alternatives macros cs) := by
  rw [alternatives]
  refine (branch_faultsIn macros cs).bind fun (first, ⟨rest, h⟩) => ?_
  refine ((furtherBranches_faultsIn macros rest).mono h).bind fun _ => ?_
  exact (plantAlternatives_faultsIn _ _).bind fun _ => .pure _
termination_by 6 * cs.length + 5

theorem furtherBranches_faultsIn (macros : Macros) (cs : List Char) :
    Reader.FaultsIn cs.length (furtherBranches macros cs) := by
  unfold furtherBranches
  split
  · next tail =>
    refine ((branch_faultsIn macros tail).mono (Nat.le_succ _)).bind fun (first, ⟨rest, h⟩) => ?_
    have le : rest.length ≤ ('|' :: tail).length := h.trans (Nat.le_succ _)
    exact ((furtherBranches_faultsIn macros rest).mono le).bind fun _ => .pure _
  · exact .pure _
termination_by 6 * cs.length + 4
decreasing_by
  all_goals
    simp_all only [List.length_cons]
    omega

theorem branch_faultsIn (macros : Macros) (cs : List Char) :
    Reader.FaultsIn cs.length (branch macros cs) := by
  rw [branch]
  refine (pieces_faultsIn macros cs).bind fun _ => ?_
  exact (plantBranch_faultsIn _).bind fun _ => .pure _
termination_by 6 * cs.length + 3

theorem pieces_faultsIn (macros : Macros) (cs : List Char) :
    Reader.FaultsIn cs.length (pieces macros cs) := by
  rw [pieces]
  split
  · exact .pure _
  · refine (piece_faultsIn macros cs).bind fun (first, ⟨rest, h⟩) => ?_
    exact ((pieces_faultsIn macros rest).mono h.le).bind fun _ => .pure _
termination_by 6 * cs.length + 2

theorem piece_faultsIn (macros : Macros) (cs : List Char) :
    Reader.FaultsIn cs.length (piece macros cs) := by
  rw [piece]
  refine Reader.FaultsIn.get.bind fun before => ?_
  refine (takeMarker_faultsIn _ _).bind fun ⟨body, h₁⟩ => ?_
  refine ((atom_faultsIn macros body).mono h₁).bind fun (node, ⟨rest, h₂⟩) => ?_
  have le₂ : rest.length ≤ cs.length := h₂.le.trans h₁
  refine (Reader.FaultsIn.modifyGet _).bind fun _ => ?_
  refine (takeMarker_faultsIn _ _).bind fun ⟨rest', h₃⟩ => ?_
  refine ((quantified_faultsIn node rest').mono (h₃.trans le₂)).bind fun _ => ?_
  refine (Reader.FaultsIn.modifyGet _).bind fun _ => ?_
  exact (takeClosingMarker_faultsIn _ _).bind fun _ => .pure _
termination_by 6 * cs.length + 1

theorem atom_faultsIn (macros : Macros) (cs : List Char) :
    Reader.FaultsIn cs.length (atom macros cs) := by
  unfold atom
  split
  · next tail =>
    split
    · next e failed =>
      rintro d _ d' ⟨⟩
      exact (readGroupHead_faultsIn tail e failed).trans (Nat.le_succ _)
    · next kind inside head =>
      have short := readGroupHead_length head
      have le : inside.length ≤ ('(' :: tail).length := short.trans (Nat.le_succ _)
      refine (openGroup_faultsIn kind).bind fun number => ?_
      refine ((alternatives_faultsIn macros inside).mono le).bind fun (body, ⟨rest, _⟩) => ?_
      dsimp only
      split
      · exact (closeGroup_faultsIn _ _ _).bind fun _ => .pure _
      · exact .throw le_rfl
  · split
    · next e failed =>
      rintro d _ d' ⟨⟩
      exact readAtom_faultsIn cs e failed
    · exact (plantAtom_faultsIn macros le_rfl _).bind fun _ => .pure _
termination_by 6 * cs.length
decreasing_by
  all_goals
    simp_all only [List.length_cons]
    omega

end

/-- **A fault in a whole pattern is noticed in its text or at its end.** -/
theorem wholePattern_faultsIn (macros : Macros) (cs : List Char) :
    Reader.FaultsIn cs.length (wholePattern macros cs) := by
  refine (alternatives_faultsIn macros cs).bind fun (root, ⟨rest, h⟩) => ?_
  dsimp only
  split
  · exact .pure _
  · exact .throw h

end PatternSampler.Reading
