/-
# Expressions with the same code

The code of a pattern does not tell where one text ends and the next one begins.  So texts one after
the other may be put together, even if the last one is repeated, because of a repeated text only the
last character is.

* `Expr.SameCode` and `Expr.SameCodeAll` : expressions with the same code.
* `Expr.sameCodeAll_texts` and `Expr.sameCodeAll_repeated` : texts put together.
-/
import PatternSampler.Proofs.Program.Pieces
import PatternSampler.Proofs.Tree.Skeleton

namespace PatternSampler.Expr

variable {e e' : Expr} {es es' es'' : List Expr}

/-- Two expressions have the same code. -/
structure SameCode (e e' : Expr) : Prop where
  emit : e'.emit = e.emit

/-- Expressions one after the other have the same code, however many there are. -/
structure SameCodeAll (es es' : List Expr) : Prop where
  emit : emitAll es' = emitAll es

theorem SameCode.refl (e : Expr) : SameCode e e :=
  ⟨rfl⟩

theorem SameCodeAll.symm (h : SameCodeAll es es') : SameCodeAll es' es :=
  ⟨h.emit.symm⟩

theorem SameCodeAll.trans (first : SameCodeAll es es') (second : SameCodeAll es' es'') :
    SameCodeAll es es'' :=
  ⟨second.emit.trans first.emit⟩

theorem SameCodeAll.cons (head : SameCode e e') (tail : SameCodeAll es es') :
    SameCodeAll (e :: es) (e' :: es') where
  emit := by
    funext c
    rw [emitAll, emitAll, head.emit, tail.emit]

/-! ## Ways of putting expressions together -/

/-- A row has the code of its expressions, whether there are none, one or several. -/
theorem emit_row (es : List Expr) : (row es).emit = emitAll es := by
  match es with
  | [] =>
    funext c
    exact c.addChars_nil
  | [e] => rfl
  | e :: e' :: es => rfl

/-- Rows of parts with the same code have the same code. -/
theorem SameCodeAll.row (h : SameCodeAll es es') : SameCode (row es) (row es') where
  emit := by rw [emit_row, emit_row, h.emit]

/-- A choice has the code of its branches, whether there is one or several. -/
theorem emit_oneOf (e : Expr) (es : List Expr) : (oneOf e es).emit = emitAny (e :: es) := by
  cases es <;> rfl

/-- The code of branches is made of the code of each. -/
theorem sameCode_any (each : List.Forall₂ SameCode es es') : emitAny es' = emitAny es := by
  induction each with
  | nil => rfl
  | cons head tail ih =>
    cases tail with
    | nil => exact head.emit
    | cons head' tail =>
      funext c
      rw [emitAny, emitAny, head.emit, ih]

/-- Choices between parts with the same code have the same code. -/
theorem SameCode.oneOf (head : SameCode e e') (tail : List.Forall₂ SameCode es es') :
    SameCode (oneOf e es) (oneOf e' es') where
  emit := by rw [emit_oneOf, emit_oneOf, sameCode_any (.cons head tail)]

/-- What stands in a group may be replaced, whether the group captures or not. -/
theorem SameCode.group (h : SameCode e e') (id : ℕ) (capture : Option ℕ) :
    SameCode (group id e capture) (group id e' capture) := by
  cases capture with
  | none => exact ⟨h.emit⟩
  | some n =>
    constructor
    funext c
    rw [Expr.emit, Expr.emit, h.emit]

/-- What is repeated may be replaced if it has the same lead and its unit has the same code. -/
theorem SameCode.repetition (lead : e'.lead = e.lead) (unit : SameCode e.unit e'.unit) (id : ℕ)
    (bounds : Bounds) (same : Bool) :
    SameCode (repetition id e bounds same) (repetition id e' bounds same) where
  emit := by
    funext c
    rw [emit_repetition, emit_repetition, lead, unit.emit]

/-! ## Texts -/

/-- The characters of a text that is put together are added one text after the other. -/
theorem addChars_append (c : Code) (chars chars' : List Char) :
    c.addChars (chars ++ chars') = (c.addChars chars).addChars chars' := by
  induction chars generalizing c with
  | nil => rw [List.nil_append, Code.addChars_nil]
  | cons x chars ih => rw [List.cons_append, Code.addChars_cons, Code.addChars_cons, ih]

/-- An empty text has no code. -/
theorem sameCodeAll_nil (es : List Expr) : SameCodeAll (text 0 [] :: es) es where
  emit := by
    funext c
    exact congrArg (emitAll es) c.addChars_nil.symm

/-- **Two texts** have the code of a single one. -/
theorem sameCodeAll_texts (chars chars' : List Char) (es : List Expr) :
    SameCodeAll (text 0 chars :: text 0 chars' :: es) (text 0 (chars ++ chars') :: es) where
  emit := by
    funext c
    simp only [emitAll, emit, addChars_append]

/-- **A text in front of a repeated one** may be put together with it. -/
theorem sameCodeAll_repeated (chars : List Char) {chars' : List Char} (some : chars' ≠ [])
    (bounds : Bounds) (same : Bool) (es : List Expr) :
    SameCodeAll (text 0 chars :: repetition 0 (text 0 chars') bounds same :: es)
      (repetition 0 (text 0 (chars ++ chars')) bounds same :: es) := by
  have lead : (text 0 (chars ++ chars')).lead = chars ++ (text 0 chars').lead :=
    List.dropLast_append_of_ne_nil some
  have unit : (text 0 (chars ++ chars')).unit = (text 0 chars').unit := by
    rw [Expr.unit, Expr.unit, List.getLast?_append_of_ne_nil chars some]
  constructor
  funext c
  simp only [emitAll, emit_repetition, lead, unit, emit, addChars_append]

end PatternSampler.Expr
