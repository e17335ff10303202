/-
# Pieces of code

All that is added for an expression is put together from single instructions by adding one piece of
code behind another one or around it.  So what is preserved when pieces are put together holds of
the code of every expression, and one induction over pieces proves it.

Some instructions are put in place only when the code behind them is there.  No piece looks at the
instructions that it is added to, so they might as well have been put in place before.

* `Steady` : adding a piece and patching an earlier instruction commute.
* `Code.addOptional_eq`, `Code.addChoice_eq`, `Code.addLoop_eq` : code that needs no patching.
* `Piece` : the ways in which code is added, `Piece.steady` : they are all steady.
* `Expr.owners` : for each instruction of an expression the set node that it is emitted for.
-/
import PatternSampler.Program.Lowering
import PatternSampler.Proofs.Tree.Unfold

namespace PatternSampler

/-! ## Patching -/

namespace Code

variable {c : Code} {place k : ℕ} {inst other : Inst}

@[simp] theorem here_add (c : Code) (inst : Inst) : (c.add inst).here = c.here + 1 :=
  Array.size_push _

@[simp] theorem here_addSave (c : Code) (slot : ℕ) : (c.addSave slot).here = c.here + 1 :=
  here_add c _

@[simp] theorem here_patch (c : Code) (place : ℕ) (inst : Inst) :
    (c.patch place inst).here = c.here :=
  Array.size_setIfInBounds

@[simp] theorem here_takeSlot (c : Code) : c.takeSlot.here = c.here :=
  rfl

/-- An instruction that is added stands where the code ended. -/
theorem getElem?_add (c : Code) (inst : Inst) : (c.add inst).insts[c.here]? = some inst :=
  Array.getElem?_push_size

/-- An instruction that is put in place of another one stands there. -/
theorem getElem?_patch (lt : place < c.here) (inst : Inst) :
    (c.patch place inst).insts[place]? = some inst := by
  rw [patch, Array.getElem?_setIfInBounds_self]
  exact if_pos lt

/-- Putting an instruction where it is already changes nothing. -/
theorem patch_eq_self (look : c.insts[place]? = some inst) : c.patch place inst = c := by
  have same : c.insts.setIfInBounds place inst = c.insts := by
    ext k lt lt'
    · exact Array.size_setIfInBounds
    · rw [Array.getElem_setIfInBounds]
      split
      · next eq =>
        subst eq
        exact (Option.some.inj ((Array.getElem?_eq_getElem lt').symm.trans look)).symm
      · rfl
  rw [patch, same]

/-- An instruction may be patched before or after another one is added behind it. -/
theorem patch_add (lt : place < c.here) (inst other : Inst) :
    (c.patch place inst).add other = (c.add other).patch place inst := by
  have same : (c.insts.setIfInBounds place inst).push other =
      (c.insts.push other).setIfInBounds place inst := by
    have lt : place < c.insts.size := lt
    ext k inside inside'
    · simp
    · grind
  rw [add, add, patch, patch, same]

/-- A placeholder that has been patched might have been the instruction from the beginning. -/
theorem patch_add_here (c : Code) (inst other : Inst) :
    (c.add other).patch c.here inst = c.add inst := by
  have same : (c.insts.push other).setIfInBounds c.insts.size inst = c.insts.push inst := by
    ext k inside inside'
    · simp
    · grind
  rw [add, add, patch, here, same]

theorem addChars_nil (c : Code) : c.addChars [] = c := by
  simp [addChars]

theorem addChars_cons (x : Char) (chars : List Char) (c : Code) :
    c.addChars (x :: chars) = (c.add (.char x)).addChars chars := by
  simp [addChars, add]

end Code

/-! ## Steady pieces -/

/-- All that is in one piece of code is at the same place in another one. -/
structure Code.Extends (c c' : Code) : Prop where
  insts : ∀ (k : ℕ) (inst : Inst), c.insts[k]? = some inst → c'.insts[k]? = some inst
  sets : ∀ (k : ℕ) (entry : ℕ × CharSet), c.sets[k]? = some entry → c'.sets[k]? = some entry

/-- A way of adding `length` instructions that does not depend on the instructions so far: it makes
no difference whether one of these is patched before or afterwards. -/
structure Steady (length : ℕ) (body : Code → Code) : Prop where
  here : ∀ c, (body c).here = c.here + length
  patch : ∀ (c : Code) (place : ℕ) (inst : Inst), place < c.here →
    body (c.patch place inst) = (body c).patch place inst
  sets : ∀ (c : Code) (k : ℕ) (entry : ℕ × CharSet), c.sets[k]? = some entry →
    (body c).sets[k]? = some entry
  modulus : ∀ c, (body c).modulus = c.modulus

namespace Steady

variable {length length₁ length₂ : ℕ} {body body₁ body₂ : Code → Code}

/-- **What is there stays there.**  Patching an instruction with itself changes nothing. -/
theorem ext (h : Steady length body) (c : Code) : c.Extends (body c) where
  insts := by
    intro k inst look
    have lt : k < c.here := (Array.getElem?_eq_some_iff.1 look).1
    have same := h.patch c k inst lt
    rw [Code.patch_eq_self look] at same
    rw [same]
    exact Code.getElem?_patch (lt.trans_le (by rw [h.here]; exact Nat.le_add_right _ _)) inst
  sets := h.sets c

theorem cast {length' : ℕ} (h : Steady length body) (eq : length = length') : Steady length' body :=
  eq ▸ h

theorem skip : Steady 0 id where
  here := fun _ => rfl
  patch := fun _ _ _ _ => rfl
  sets := fun _ _ _ look => look
  modulus := fun _ => rfl

theorem add (inst : Inst) : Steady 1 (Code.add inst) where
  here := fun c => c.here_add inst
  patch := fun _ _ other lt => Code.patch_add lt other inst
  sets := fun _ _ _ look => look
  modulus := fun _ => rfl

theorem addSave (slot : ℕ) : Steady 1 (Code.addSave slot) where
  here := fun c => c.here_addSave slot
  patch := fun _ _ inst lt => Code.patch_add lt inst _
  sets := fun _ _ _ look => look
  modulus := fun _ => rfl

/-- The set of a node is looked for among the sets and not among the instructions. -/
theorem addSet (id : ℕ) (s : CharSet) : Steady 1 (Code.addSet id s) where
  here := by
    intro c
    unfold Code.addSet
    split
    · exact c.here_add _
    · exact Array.size_push _
  patch := by
    intro c place inst lt
    unfold Code.addSet
    rw [show (c.patch place inst).sets = c.sets from rfl]
    split
    · exact Code.patch_add lt inst _
    · next none =>
      have added := Code.patch_add lt inst (.set c.sets.size)
      exact congrArg (fun added : Code => { added with sets := c.sets.push (id, s) }) added
  sets := by
    intro c k entry look
    unfold Code.addSet
    split
    · exact look
    · obtain ⟨lt, -⟩ := Array.getElem?_eq_some_iff.1 look
      rw [← look, Array.getElem?_eq_getElem lt]
      exact Array.getElem?_push_lt lt
  modulus := by
    intro c
    unfold Code.addSet
    split <;> rfl

/-- Pieces one after the other are as long as both. -/
theorem seq (first : Steady length₁ body₁) (second : Steady length₂ body₂) :
    Steady (length₁ + length₂) (fun c => body₂ (body₁ c)) where
  here := fun c => by rw [second.here, first.here, Nat.add_assoc]
  patch := by
    intro c place inst lt
    rw [first.patch c place inst lt, second.patch]
    exact lt.trans_le (by rw [first.here]; exact Nat.le_add_right _ _)
  sets := fun c k entry look => second.sets _ k entry (first.sets c k entry look)
  modulus := fun c => (second.modulus _).trans (first.modulus c)

end Steady

/-! ## Code that needs no patching -/

namespace Code

variable {length length₁ length₂ : ℕ} {body body₁ body₂ : Code → Code}

/-- The code up to a part of `length` instructions that may be left out. -/
def openOptional (length : ℕ) (c : Code) : Code :=
  c.add (.split (c.here + 1) (c.here + 1 + length))

@[simp] theorem here_openOptional (length : ℕ) (c : Code) :
    (c.openOptional length).here = c.here + 1 :=
  here_add c _

/-- An optional part is its body behind a split that is already patched. -/
theorem addOptional_eq (h : Steady length body) (c : Code) :
    c.addOptional body = body (c.openOptional length) := by
  have lt : c.here < (c.add .nop).here := by simp
  unfold addOptional
  dsimp only
  rw [← h.patch _ _ _ lt, patch_add_here, h.here, here_add]
  rfl

/-- The code up to the first of two parts, of which it has `length` instructions. -/
def openChoice (length : ℕ) (c : Code) : Code :=
  c.add (.split (c.here + 1) (c.here + 1 + length + 1))

@[simp] theorem here_openChoice (length : ℕ) (c : Code) : (c.openChoice length).here = c.here + 1 :=
  here_add c _

/-- A choice is its two parts, each behind an instruction that is already patched. -/
theorem addChoice_eq (first : Steady length₁ body₁) (second : Steady length₂ body₂) (c : Code) :
    c.addChoice body₁ body₂ = body₂ ((body₁ (c.openChoice length₁)).add
      (.jump (c.here + 1 + length₁ + 1 + length₂))) := by
  have inner : (body₁ (c.add .nop)).here = c.here + 1 + length₁ := by rw [first.here, here_add]
  have start : c.here < (c.add .nop).here := by simp
  have lt : c.here < (body₁ (c.add .nop)).here := by omega
  -- the split is put in place before the first part is added, the jump before the second one is
  have split : ((body₁ (c.add .nop)).add .nop).patch c.here
      (.split (c.add .nop).here ((body₁ (c.add .nop)).add .nop).here) =
        (body₁ (c.openChoice length₁)).add .nop := by
    rw [← patch_add lt, ← first.patch _ _ _ start, patch_add_here, here_add, here_add, inner]
    rfl
  have front : (body₁ (c.openChoice length₁)).here = (body₁ (c.add .nop)).here := by
    rw [first.here, first.here, here_openChoice, here_add]
  unfold addChoice
  dsimp only
  rw [split, ← second.patch _ _ _ (by rw [here_add, front]; exact Nat.lt_succ_self _), ← front,
    patch_add_here, second.here, here_add, front, inner]

/-- The code up to the body of a loop of `length` instructions: its slot is given out, a split and a
save stand in front. -/
def openLoop (length : ℕ) (c : Code) : Code :=
  (c.takeSlot.add (.split (c.here + 1) (c.here + 2 + length + 2))).add (.save c.nextSlot)

@[simp] theorem here_openLoop (length : ℕ) (c : Code) : (c.openLoop length).here = c.here + 2 := by
  rw [openLoop, here_add, here_add, here_takeSlot]

/-- A loop is its body behind a split that is already patched, and a way back. -/
theorem addLoop_eq (h : Steady length body) (c : Code) :
    c.addLoop body =
      ((body (c.openLoop length)).add (.progress c.nextSlot)).add (.jump c.here) := by
  have start : c.here < (c.takeSlot.add .nop).here := by simp
  have opened : c.here < ((c.takeSlot.add .nop).add (.save c.nextSlot)).here := by simp
  have lt : c.here < (body ((c.takeSlot.add .nop).add (.save c.nextSlot))).here :=
    opened.trans_le (by rw [h.here]; exact Nat.le_add_right _ _)
  have lt' : c.here <
      ((body ((c.takeSlot.add .nop).add (.save c.nextSlot))).add (.progress c.nextSlot)).here := by
    rw [here_add]
    exact lt.trans (Nat.lt_succ_self _)
  unfold addLoop
  dsimp only
  -- the split is put in place before all that stands behind it is added
  rw [← patch_add lt', ← patch_add lt, ← h.patch _ _ _ opened, ← patch_add start,
    ← here_takeSlot c, patch_add_here]
  simp only [here_add, h.here]
  rfl

end Code

namespace Steady

variable {length length₁ length₂ : ℕ} {body body₁ body₂ : Code → Code}

theorem optional (h : Steady length body) : Steady (length + 1) (Code.addOptional body) where
  here := by
    intro c
    rw [Code.addOptional_eq h, h.here, Code.here_openOptional]
    omega
  patch := by
    intro c place inst lt
    have opened : (c.patch place inst).openOptional length =
        (c.openOptional length).patch place inst := by
      rw [Code.openOptional, Code.here_patch]
      exact Code.patch_add lt inst _
    rw [Code.addOptional_eq h, Code.addOptional_eq h, opened, h.patch]
    rw [Code.here_openOptional]
    omega
  sets := by
    intro c k entry look
    rw [Code.addOptional_eq h]
    exact h.sets _ k entry look
  modulus := by
    intro c
    rw [Code.addOptional_eq h]
    exact h.modulus _

theorem choice (first : Steady length₁ body₁) (second : Steady length₂ body₂) :
    Steady (length₁ + length₂ + 2) (Code.addChoice body₁ body₂) where
  here := by
    intro c
    rw [Code.addChoice_eq first second, second.here, Code.here_add, first.here,
      Code.here_openChoice]
    omega
  patch := by
    intro c place inst lt
    have opened : (c.patch place inst).openChoice length₁ =
        (c.openChoice length₁).patch place inst := by
      rw [Code.openChoice, Code.here_patch]
      exact Code.patch_add lt inst _
    have start : place < (c.openChoice length₁).here := by
      rw [Code.here_openChoice]
      omega
    have behind : place < (body₁ (c.openChoice length₁)).here := by
      rw [first.here]
      omega
    rw [Code.addChoice_eq first second, Code.addChoice_eq first second, opened,
      first.patch _ _ _ start, Code.here_patch, Code.patch_add behind, second.patch]
    rw [Code.here_add]
    omega
  sets := by
    intro c k entry look
    rw [Code.addChoice_eq first second]
    exact second.sets _ k entry (first.sets _ k entry look)
  modulus := by
    intro c
    rw [Code.addChoice_eq first second]
    exact (second.modulus _).trans (first.modulus _)

theorem loop (h : Steady length body) : Steady (length + 4) (Code.addLoop body) where
  here := by
    intro c
    rw [Code.addLoop_eq h, Code.here_add, Code.here_add, h.here, Code.here_openLoop]
    omega
  patch := by
    intro c place inst lt
    have opened : (c.patch place inst).openLoop length =
        (c.openLoop length).patch place inst := by
      have taken : place < c.takeSlot.here := lt
      have split : (c.patch place inst).takeSlot.add
          (.split (c.here + 1) (c.here + 2 + length + 2)) =
            (c.takeSlot.add (.split (c.here + 1) (c.here + 2 + length + 2))).patch place inst :=
        Code.patch_add taken inst _
      rw [Code.openLoop, Code.here_patch, split]
      refine Code.patch_add ?_ inst (.save c.nextSlot)
      rw [Code.here_add]
      omega
    have start : place < (c.openLoop length).here := by
      rw [Code.here_openLoop]
      omega
    have behind : place < (body (c.openLoop length)).here := by
      rw [h.here]
      omega
    rw [Code.addLoop_eq h, Code.addLoop_eq h, opened, h.patch _ _ _ start, Code.here_patch,
      Code.patch_add behind]
    refine Code.patch_add ?_ inst _
    rw [Code.here_add]
    omega
  sets := by
    intro c k entry look
    rw [Code.addLoop_eq h]
    exact h.sets _ k entry look
  modulus := by
    intro c
    rw [Code.addLoop_eq h]
    exact h.modulus _

theorem capture (h : Steady length body) (number : ℕ) :
    Steady (length + 2) (Code.addCaptured number body) := by
  exact (((addSave (2 * number)).seq h).seq (addSave (2 * number + 1))).cast (by omega)

end Steady

/-! ## Pieces -/

/-- A way of adding code: single instructions, and what they are put together to.  The list has the
owner of each instruction, which is the node of the set that it is emitted for, if it is emitted for
one; the number is that of the loops.  Groups have their numbers from `groups`, and `table` has the
sets of the nodes. -/
inductive Piece (groups : Set ℕ) (table : ℕ → Option CharSet) :
    List (Option ℕ) → ℕ → (Code → Code) → Prop
  | skip : Piece groups table [] 0 id
  | char (x : Char) : Piece groups table [none] 0 (Code.add (.char x))
  | set {id : ℕ} {s : CharSet} : table id = some s →
      Piece groups table [some id] 0 (Code.addSet id s)
  | backref {n : ℕ} : n ∈ groups → Piece groups table [none] 0 (Code.add (.backref n))
  | seq {own own' : List (Option ℕ)} {loops loops' : ℕ} {body body' : Code → Code} :
      Piece groups table own loops body → Piece groups table own' loops' body' →
      Piece groups table (own ++ own') (loops + loops') (fun c => body' (body c))
  | optional {own : List (Option ℕ)} {loops : ℕ} {body : Code → Code} :
      Piece groups table own loops body →
      Piece groups table (none :: own) loops (Code.addOptional body)
  | choice {own own' : List (Option ℕ)} {loops loops' : ℕ} {body body' : Code → Code} :
      Piece groups table own loops body → Piece groups table own' loops' body' →
      Piece groups table (none :: (own ++ none :: own')) (loops + loops')
        (Code.addChoice body body')
  | loop {own : List (Option ℕ)} {loops : ℕ} {body : Code → Code} :
      Piece groups table own loops body →
      Piece groups table (none :: none :: (own ++ [none, none])) (loops + 1) (Code.addLoop body)
  | capture {n : ℕ} {own : List (Option ℕ)} {loops : ℕ} {body : Code → Code} : n ∈ groups →
      Piece groups table own loops body →
      Piece groups table (none :: (own ++ [none])) loops (Code.addCaptured n body)

/-- The owners of the instructions of a repeated part, if `own` are those of the part. -/
def Bounds.owners (b : Bounds) (own : List (Option ℕ)) : List (Option ℕ) :=
  (List.replicate b.least own).flatten ++
    match b.most with
    | none => none :: none :: (own ++ [none, none])
    | some most => (List.replicate (most - b.least) (none :: own)).flatten

namespace Piece

variable {groups : Set ℕ} {table : ℕ → Option CharSet} {own own' : List (Option ℕ)}
  {loops loops' : ℕ} {body : Code → Code}

theorem cast (h : Piece groups table own loops body) (same : own = own') (eq : loops = loops') :
    Piece groups table own' loops' body :=
  same ▸ eq ▸ h

/-- **No piece depends on the instructions that it is added to.** -/
theorem steady (h : Piece groups table own loops body) : Steady own.length body := by
  induction h with
  | skip => exact .skip
  | char x => exact .add _
  | set => exact .addSet _ _
  | backref => exact .add _
  | seq _ _ first second => exact (first.seq second).cast (by simp)
  | optional _ ih => exact ih.optional
  | choice _ _ first second =>
    refine (first.choice second).cast ?_
    simp only [List.length_cons, List.length_append]
    omega
  | loop _ ih => exact ih.loop.cast (by simp)
  | capture _ _ ih => exact (ih.capture _).cast (by simp)

/-- An instruction for each character of a text. -/
theorem chars (text : List Char) :
    Piece groups table (List.replicate text.length none) 0 (Code.addChars text) := by
  induction text with
  | nil =>
    rw [show Code.addChars [] = id from funext Code.addChars_nil]
    exact .skip
  | cons x text ih =>
    rw [show Code.addChars (x :: text) = fun c => (c.add (.char x)).addChars text from
      funext fun c => Code.addChars_cons x text c]
    exact (Piece.char x).seq ih

/-- A piece a number of times. -/
theorem times (h : Piece groups table own loops body) (count : ℕ) :
    Piece groups table (List.replicate count own).flatten (count * loops)
      (fun c => c.times body count) := by
  induction count with
  | zero =>
    rw [Nat.zero_mul]
    exact .skip
  | succ count ih =>
    refine (h.seq ih).cast ?_ ?_
    · rw [List.replicate_succ, List.flatten_cons]
    · rw [Nat.succ_mul, Nat.add_comm]

/-- A piece as often as the bounds demand and allow. -/
theorem repeated (h : Piece groups table own loops body) (bounds : Bounds) :
    Piece groups table (bounds.owners own) (bounds.loopCount loops)
      (fun c => c.addRepeated bounds body) := by
  obtain ⟨least, most⟩ := bounds
  cases most with
  | none => exact (h.times least).seq h.loop
  | some most => exact (h.times least).seq (h.optional.times (most - least))

end Piece

/-! ## Expressions -/

namespace Expr

mutual

/-- For each instruction of an expression the node of the set that it is emitted for, if it is
emitted for one. -/
def owners : Expr → List (Option ℕ)
  | text _ chars => List.replicate chars.length none
  | set id _ => [some id]
  | concat _ parts => ownersAll parts
  | alternation _ branches => ownersAny branches
  | repetition _ (text _ (_ :: cs)) bounds _ =>
    List.replicate cs.length none ++ bounds.owners [none]
  | repetition _ body bounds _ => bounds.owners body.owners
  | group _ body (some _) => none :: (body.owners ++ [none])
  | group _ body none => body.owners
  | backref _ (group _ _ (some _)) => [none]
  | backref _ target => target.owners

/-- The owners of the instructions of expressions one after the other. -/
def ownersAll : List Expr → List (Option ℕ)
  | [] => []
  | e :: es => e.owners ++ ownersAll es

/-- The owners of the instructions of a choice of expressions. -/
def ownersAny : List Expr → List (Option ℕ)
  | [] => []
  | [e] => e.owners
  | e :: e' :: es => none :: (e.owners ++ none :: ownersAny (e' :: es))

end

/-- The instructions of a repeated text are those of what stands in front of its last character and
of this one. -/
theorem owners_repetition (id : ℕ) (body : Expr) (bounds : Bounds) (same : Bool) :
    (repetition id body bounds same).owners =
      List.replicate body.lead.length none ++ bounds.owners body.unit.owners := by
  cases body with
  | text tid chars =>
    cases chars with
    | nil => simp [owners, lead, unit]
    | cons first others => simp [owners, lead, unit, List.getLast?_cons]
  | _ => simp [owners, lead, unit]

/-- In front of what is repeated there is no loop. -/
theorem loopCount_repetition (id : ℕ) (body : Expr) (bounds : Bounds) (same : Bool) :
    (repetition id body bounds same).loopCount = bounds.loopCount body.unit.loopCount := by
  cases body with
  | text tid chars => cases chars <;> rfl
  | _ => rfl

/-- A repetition reads the lead once and repeats the unit. -/
theorem emit_repetition (id : ℕ) (body : Expr) (bounds : Bounds) (same : Bool) (c : Code) :
    (repetition id body bounds same).emit c =
      (c.addChars body.lead).addRepeated bounds body.unit.emit := by
  have plain (e : Expr) (c : Code) :
      (c.addChars []).addRepeated bounds e.emit = c.addRepeated bounds e.emit := by
    rw [Code.addChars_nil]
  cases body with
  | text tid chars =>
    cases chars with
    | nil => exact (plain _ c).symm
    | cons first others =>
      have last : (first :: others).getLast? =
          some ((first :: others).getLast (List.cons_ne_nil first others)) :=
        List.getLast?_eq_some_getLast _
      rw [lead, unit, last]
      show _ = Code.addRepeated bounds (Code.addChars [_]) _
      rw [show (Code.addChars [(first :: others).getLast (List.cons_ne_nil first others)]) =
        Code.add (.char ((first :: others).getLast (List.cons_ne_nil first others))) from by
          funext c
          rw [Code.addChars_cons, Code.addChars_nil]]
      rfl
  | _ => exact (plain _ c).symm

variable {groups : Set ℕ} {table : ℕ → Option CharSet}

/-- The code of an expression is a piece. -/
def IsPiece (groups : Set ℕ) (table : ℕ → Option CharSet) (e : Expr) : Prop :=
  Piece groups table e.owners e.loopCount e.emit

/-- Expressions one after the other. -/
theorem piece_emitAll {parts : List Expr} (each : ∀ e ∈ parts, e.IsPiece groups table) :
    Piece groups table (ownersAll parts) (loopCountAll parts) (emitAll parts) := by
  induction parts with
  | nil => exact .skip
  | cons e es ih =>
    have first := each e List.mem_cons_self
    exact first.seq (ih fun e he => each e (List.mem_cons_of_mem _ he))

/-- A choice of expressions. -/
theorem piece_emitAny {branches : List Expr} (each : ∀ e ∈ branches, e.IsPiece groups table) :
    Piece groups table (ownersAny branches) (loopCountAll branches) (emitAny branches) := by
  induction branches with
  | nil => exact .skip
  | cons e es ih =>
    have head := each e List.mem_cons_self
    cases es with
    | nil => exact head
    | cons e' es => exact head.choice (ih fun e he => each e (List.mem_cons_of_mem _ he))

/-- What is repeated of a piece is a piece. -/
theorem IsPiece.unit {e : Expr} (h : e.IsPiece groups table) : e.unit.IsPiece groups table := by
  cases e with
  | text id chars => exact .chars _
  | _ => exact h

/-- A repetition of a piece is a piece. -/
theorem IsPiece.repetition {body : Expr} (h : body.IsPiece groups table) (id : ℕ)
    (bounds : Bounds) (same : Bool) :
    (Expr.repetition id body bounds same).IsPiece groups table := by
  unfold IsPiece
  rw [owners_repetition, loopCount_repetition,
    funext fun c => emit_repetition id body bounds same c]
  exact ((Piece.chars body.lead).seq (h.unit.repeated bounds)).cast rfl (Nat.zero_add _)

/-- A backreference reads the text of a capturing group; to anything else it stands for its
target. -/
theorem IsPiece.backref {target : Expr} (h : target.IsPiece groups table) (id : ℕ)
    (known : ∀ gid body n, target = group gid body (some n) → n ∈ groups) :
    (Expr.backref id target).IsPiece groups table := by
  cases target with
  | group gid body capture =>
    cases capture with
    | none => exact h
    | some n => exact Piece.backref (known gid body n rfl)
  | _ => exact h

end Expr

/-! ## Trees -/

namespace Tree

variable {t : Tree}

/-- The set of a node, if it is one. -/
def set? (t : Tree) (id : ℕ) : Option CharSet :=
  match t.shape? id with
  | some (.set s) => some s
  | _ => none

/-- The numbers under which groups of a tree capture. -/
def captures (t : Tree) : Set ℕ :=
  {n | ∃ id, t.capture? id = some n}

/-- The greatest number is not less than any of them. -/
theorem le_captureCount_of_mem {n : ℕ} (mem : n ∈ t.captures) : n ≤ t.captureCount := by
  obtain ⟨id, own⟩ := mem
  exact le_captureCount own

/-- **The code of a node is a piece**, whatever the node refers to. -/
theorem isPiece_expr (ordered : t.Ordered) (id : ℕ) : (t.expr id).IsPiece t.captures t.set? := by
  induction id using Nat.strong_induction_on with
  | _ id ih =>
    rcases look : t.shape? id with _ | shape
    · rw [expr_eq_default look]
      exact .chars []
    have inner (r : ℕ) (hr : r ∈ shape.references) := ih r (ordered id shape look r hr)
    have each (ids : List ℕ) (sub : ids ⊆ shape.references) : ∀ e ∈ ids.map t.expr,
        e.IsPiece t.captures t.set? := by
      intro e he
      obtain ⟨r, hr, rfl⟩ := List.mem_map.1 he
      exact inner r (sub hr)
    rw [expr_eq ordered look]
    cases shape with
    | text chars => exact .chars chars
    | set s => exact .set (by rw [set?, look])
    | concat parts => exact Expr.piece_emitAll (each parts (List.Subset.refl parts))
    | alternation branches => exact Expr.piece_emitAny (each branches (List.Subset.refl branches))
    | repetition body bounds same => exact (inner body List.mem_cons_self).repetition id bounds same
    | group body name capture =>
      cases capture with
      | none => exact inner body List.mem_cons_self
      | some n => exact .capture ⟨id, capture?_of_shape? look⟩ (inner body List.mem_cons_self)
    | backref target =>
      refine (inner target List.mem_cons_self).backref id fun gid body n eq => ?_
      have has : (t.expr target).HasGroup n := ⟨gid, body, eq ▸ .refl⟩
      obtain ⟨g, -, own⟩ := exists_capture?_of_hasGroup ordered has
      exact ⟨g, own⟩

end Tree

end PatternSampler
