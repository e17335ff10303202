/-
# What a phrase means

The nodes that are made of a phrase depend on what has been read before it, but only on the account
of that.  Given the account, a phrase has a meaning, an expression in which a set is known by how
many sets stand before it and in which a backreference keeps only the number of its group.

* `Phrase.meaning` is the meaning of a phrase.
* `Phrase.exists_meaning_of_build` and `Phrase.exists_build_of_meaning` : nodes are made of a phrase
  exactly if it has a meaning, and that is the skeleton of their expression in the finished pattern.
-/
import PatternSampler.Pattern
import PatternSampler.Proofs.Reading.Account
import PatternSampler.Proofs.Reading.Phrase

namespace PatternSampler

open Reading

/-! ## Meanings -/

/-- The meaning of an atom that is neither a group nor a macro, and the account after it. -/
def Reading.Atom.meaning (total : ℕ) (n : Account) : Atom → Option (Expr × Account)
  | .text chars => some (.text 0 chars, n)
  | .set s => some (.set n.sets s, { n with sets := n.sets + 1 })
  | .backrefNumber number => (n.ofNumber? total number).map fun number => (.again number, n)
  | .backrefName name => (n.ofName? total name).map fun number => (.again number, n)
  | .macroName _ => none

namespace Phrase

mutual

/-- The meaning of a phrase and the account after it, if `total` numbered groups are opened in the
whole pattern. -/
def meaning (total : ℕ) : Phrase → Account → Option (Expr × Account)
  | atom a, n => a.meaning total n
  | group kind body, n =>
    (body.meaning total (n.opening kind)).map fun (e, m) =>
      (.group 0 e (m.capture n total kind), m.closing n kind)
  | piece _ body quantifier, n =>
    (body.meaning total n).map fun (e, m) =>
      (quantifier.elim e fun q => .repetition 0 e q.bounds q.sameText, m)
  | branch pieces, n => (meaningAll total pieces n).map fun (es, m) => (.row es, m)
  | choice first more, n =>
    (first.meaning total n).bind fun (e, m) =>
      (meaningAll total more m).map fun (es, m') => (.oneOf e es, m')

/-- The meanings of several phrases and the account after them. -/
def meaningAll (total : ℕ) : List Phrase → Account → Option (List Expr × Account)
  | [], n => some ([], n)
  | φ :: φs, n =>
    (φ.meaning total n).bind fun (e, m) =>
      (meaningAll total φs m).map fun (es, m') => (e :: es, m')

end

variable {total : ℕ} {n m : Account} {e : Expr} {es : List Expr}

/-- A group means its inside, under the number it takes. -/
theorem meaning_group_eq_some {kind : GroupKind} {body : Phrase} :
    (group kind body).meaning total n = some (e, m) ↔
      ∃ e' m', body.meaning total (n.opening kind) = some (e', m') ∧
        e = .group 0 e' (m'.capture n total kind) ∧ m = m'.closing n kind := by
  rw [meaning, Option.map_eq_some_iff]
  constructor
  · rintro ⟨⟨e', m'⟩, inner, ⟨⟩⟩
    exact ⟨e', m', inner, rfl, rfl⟩
  · rintro ⟨e', m', inner, rfl, rfl⟩
    exact ⟨(e', m'), inner, rfl⟩

/-- A piece means its body, repeated if a quantifier says so. -/
theorem meaning_piece_eq_some {marks : Marks} {body : Phrase} {quantifier : Option Quantifier} :
    (piece marks body quantifier).meaning total n = some (e, m) ↔
      ∃ e', body.meaning total n = some (e', m) ∧
        e = quantifier.elim e' fun q => .repetition 0 e' q.bounds q.sameText := by
  rw [meaning, Option.map_eq_some_iff]
  constructor
  · rintro ⟨⟨e', m'⟩, inner, ⟨⟩⟩
    exact ⟨e', inner, rfl⟩
  · rintro ⟨e', inner, rfl⟩
    exact ⟨(e', m), inner, rfl⟩

/-- A branch means its pieces one after the other. -/
theorem meaning_branch_eq_some {pieces : List Phrase} :
    (branch pieces).meaning total n = some (e, m) ↔
      ∃ es, meaningAll total pieces n = some (es, m) ∧ e = .row es := by
  rw [meaning, Option.map_eq_some_iff]
  constructor
  · rintro ⟨⟨es, m'⟩, inner, ⟨⟩⟩
    exact ⟨es, inner, rfl⟩
  · rintro ⟨es, inner, rfl⟩
    exact ⟨(es, m), inner, rfl⟩

/-- A choice means its branches. -/
theorem meaning_choice_eq_some {first : Phrase} {more : List Phrase} :
    (choice first more).meaning total n = some (e, m) ↔
      ∃ e' m' es, first.meaning total n = some (e', m') ∧
        meaningAll total more m' = some (es, m) ∧ e = .oneOf e' es := by
  rw [meaning, Option.bind_eq_some_iff]
  constructor
  · rintro ⟨⟨e', m'⟩, head, tail⟩
    obtain ⟨⟨es, m''⟩, tail, ⟨⟩⟩ := Option.map_eq_some_iff.1 tail
    exact ⟨e', m', es, head, tail, rfl⟩
  · rintro ⟨e', m', es, head, tail, rfl⟩
    exact ⟨(e', m'), head, Option.map_eq_some_iff.2 ⟨(es, m), tail, rfl⟩⟩

theorem meaningAll_nil_eq_some : meaningAll total [] n = some (es, m) ↔ es = [] ∧ m = n := by
  rw [meaningAll]
  constructor
  · rintro ⟨⟩
    exact ⟨rfl, rfl⟩
  · rintro ⟨rfl, rfl⟩
    rfl

/-- The account goes from each phrase to the next. -/
theorem meaningAll_cons_eq_some {φ : Phrase} {φs : List Phrase} :
    meaningAll total (φ :: φs) n = some (es, m) ↔
      ∃ e' m' es', φ.meaning total n = some (e', m') ∧ meaningAll total φs m' = some (es', m) ∧
        es = e' :: es' := by
  rw [meaningAll, Option.bind_eq_some_iff]
  constructor
  · rintro ⟨⟨e', m'⟩, head, tail⟩
    obtain ⟨⟨es, m''⟩, tail, ⟨⟩⟩ := Option.map_eq_some_iff.1 tail
    exact ⟨e', m', es, head, tail, rfl⟩
  · rintro ⟨e', m', es, head, tail, rfl⟩
    exact ⟨(e', m'), head, Option.map_eq_some_iff.2 ⟨(es, m), tail, rfl⟩⟩

end Phrase

/-! ## Nodes that are made -/

namespace Draft

theorem alike_markIf (present : Bool) (d : Draft) : d.Alike (d.markIf present) := by
  cases present <;> exact ⟨rfl, rfl, rfl, rfl⟩

theorem alike_markFromIf (present : Bool) (first : ℕ) (d : Draft) :
    d.Alike (d.markFromIf present first) := by
  cases present <;> exact ⟨rfl, rfl, rfl, rfl⟩

theorem alike_marking (d : Draft) (marking : Bool) : d.Alike { d with marking } :=
  ⟨rfl, rfl, rfl, rfl⟩

/-- The expression that a node has in whatever a draft may become. -/
def Means (d : Draft) (total id : ℕ) (e : Expr) : Prop :=
  ∀ F : Draft, d.Begins F → F.Sound → F.Distinct → F.opened = total → ∀ root,
    ((F.finish root).tree.expr id).skeleton F.tree.rank = e

/-- What comes later does not count for what a node means. -/
theorem Means.mono {d d' : Draft} {total id : ℕ} {e : Expr} (h : d.Means total id e)
    (begins : d.Begins d') : d'.Means total id e :=
  fun F later => h F (begins.trans later)

end Draft

/-- Nodes have been added to a draft, and the last one means an expression. -/
structure Makes (total : ℕ) (d : Draft) (id : ℕ) (d' : Draft) (e : Expr) : Prop where
  begins : d.Begins d'
  distinct : d.Distinct → d'.Distinct
  means : d'.Means total id e

variable {d d' d₁ d₂ : Draft} {total id : ℕ} {e : Expr}

/-- A node that is no group. -/
theorem Makes.plant (begins : d.Begins d₁) (distinct : d.Distinct → d₁.Distinct) {shape : Shape}
    (unnamed : ∀ body name, shape ≠ .group body (some name) none)
    (unfolds : ∀ F : Draft, d₁.Begins F → F.Sound → F.Distinct → F.opened = total → ∀ root,
      (shape.unfold d₁.tree.size (F.finish root).tree.expr).skeleton F.tree.rank = e) :
    Makes total d d₁.tree.size (d₁.plant shape) e where
  begins := begins.trans (Draft.begins_plant d₁ shape)
  distinct := by
    intro h
    obtain ⟨nodup, exist⟩ := distinct h
    refine ⟨nodup, fun id mem => (exist id mem).trans ?_⟩
    show d₁.tree.size < (d₁.tree.adopt shape).size
    rw [Tree.size_adopt]
    omega
  means := by
    intro F later sound groups opened root
    have look : F.tree.shape? d₁.tree.size = some shape := by
      rw [later.shapes _ (Tree.lt_size_of_shape? (Draft.shape?_plant_size d₁ shape))]
      exact Draft.shape?_plant_size d₁ shape
    rw [sound.expr_finish look, sound.numberOf?_eq_none look unnamed]
    exact unfolds F ((Draft.begins_plant d₁ shape).trans later) sound groups opened root

/-- A backreference keeps only the number of its group. -/
theorem makes_backref {target number : ℕ} (captures : d.Captures total target number) :
    Makes total d d.tree.size (d.plant (.backref target)) (.again number) := by
  apply Makes.plant (.refl d) (fun h => h) (by simp)
  intro F later sound groups opened root
  obtain ⟨body, name, look⟩ := captures F later sound groups opened root
  rw [Shape.unfold, Tree.expr_eq (sound.wellFormed_finish root).ordered look, Shape.unfold]
  rfl

/-- The account after a node that is no set has been added. -/
theorem account_plant_of_not_isSet {shape : Shape} (plain : shape.isSet = false) :
    (d.plant shape).account = d.account := by
  rw [Draft.account_plant, plain]
  rfl

/-- The node of an atom means what the atom means. -/
theorem exists_meaning_of_atom (total : ℕ) {a : Atom}
    (run : (Phrase.atom a).build d = .ok id d') :
    ∃ e, a.meaning total d.account = some (e, d'.account) ∧ Makes total d id d' e := by
  rw [Phrase.build] at run
  cases a with
  | text chars =>
    cases run
    refine ⟨.text 0 chars, ?_, .plant (.refl d) (fun h => h) (by simp) fun _ _ _ _ _ _ => rfl⟩
    rw [account_plant_of_not_isSet rfl]
    rfl
  | set s =>
    cases run
    refine ⟨.set d.account.sets s, ?_, .plant (.refl d) (fun h => h) (by simp) ?_⟩
    · rw [Draft.account_plant]
      rfl
    · intro F later _ _ _ _
      rw [Shape.unfold, Expr.skeleton, later.rank le_rfl]
      rfl
  | backrefNumber number =>
    obtain ⟨target, found, ⟨⟩⟩ := plantAtom_backrefNumber_eq_ok_iff.1 run
    obtain ⟨n, leads, captures⟩ := Draft.exists_ofNumber? total found
    refine ⟨.again n, ?_, makes_backref captures⟩
    rw [Atom.meaning, leads, account_plant_of_not_isSet rfl]
    rfl
  | backrefName name =>
    obtain ⟨target, found, ⟨⟩⟩ := plantAtom_backrefName_eq_ok_iff.1 run
    obtain ⟨n, leads, captures⟩ := Draft.exists_ofName? total found
    refine ⟨.again n, ?_, makes_backref captures⟩
    rw [Atom.meaning, leads, account_plant_of_not_isSet rfl]
    rfl
  | macroName name => cases run

/-- What is put down later does not count for what a node means. -/
theorem Makes.later (made : Makes total d id d₁ e) (begins : d₁.Begins d')
    (distinct : d₁.Distinct → d'.Distinct) : Makes total d id d' e where
  begins := made.begins.trans begins
  distinct := fun h => distinct (made.distinct h)
  means := made.means.mono begins

/-- A group that is not named is put on top of a part. -/
theorem Makes.group (made : Makes total d id d₂ e) (capture : Option ℕ) :
    Makes total d d₂.tree.size (d₂.plant (.group id none capture)) (.group 0 e capture) := by
  apply Makes.plant made.begins made.distinct (by simp)
  intro F later sound groups opened root
  rw [Shape.unfold, Expr.skeleton, made.means F later sound groups opened root]

/-- A named group is put on top of a part; it captures under the number of its place among the named
groups. -/
theorem Makes.namedGroup (made : Makes total d id d₂ e) (name : String) :
    Makes total d d₂.tree.size
      { d₂.plant (.group id (some name) none) with
        named := d₂.named.push (name, d₂.tree.size) }
      (.group 0 e (some (total + 1 + d₂.account.named.length))) := by
  have planted := Draft.begins_plant d₂ (.group id (some name) none)
  have pushed := Draft.begins_push_named (d₂.plant (.group id (some name) none))
    (name, d₂.tree.size)
  have here := Draft.shape?_plant_size d₂ (.group id (some name) none)
  refine ⟨made.begins.trans (planted.trans pushed), ?_, ?_⟩
  · intro h
    obtain ⟨nodup, exist⟩ := made.distinct h
    have size : (d₂.plant (.group id (some name) none)).tree.size = d₂.tree.size + 1 :=
      Tree.size_adopt _ _
    constructor
    · show ((d₂.named.push (name, d₂.tree.size)).toList.map Prod.snd).Nodup
      rw [Array.toList_push, List.map_append, List.nodup_append]
      refine ⟨nodup, List.nodup_singleton _, ?_⟩
      rintro i mem j mem' rfl
      rw [List.map_singleton, List.mem_singleton] at mem'
      exact absurd (exist i mem) (by omega)
    · show ∀ i ∈ (d₂.named.push (name, d₂.tree.size)).toList.map Prod.snd,
        i < (d₂.plant (.group id (some name) none)).tree.size
      intro i mem
      rw [Array.toList_push, List.map_append, List.mem_append] at mem
      rcases mem with mem | mem
      · have lt := exist i mem
        omega
      · rw [List.map_singleton, List.mem_singleton] at mem
        omega
  · rintro F later sound groups rfl root
    have look : F.tree.shape? d₂.tree.size = some (.group id (some name) none) := by
      rw [(pushed.trans later).shapes _ (Tree.lt_size_of_shape? here)]
      exact here
    have found : F.named.toList[d₂.account.named.length]? = some (name, d₂.tree.size) := by
      obtain ⟨more, eq⟩ := later.named
      rw [← eq, Draft.account, List.length_map]
      simp
    rw [sound.expr_finish look, groups.numberOf? found]
    show Expr.group 0 _ _ = _
    rw [made.means F (planted.trans (pushed.trans later)) sound groups rfl root]

/-- What an opening group does to a draft does not count for what is added then. -/
theorem makes_of_openGroup {kind : GroupKind} {number : Option ℕ}
    (opens : openGroup kind d = .ok number d₁) (made : Makes total d₁ id d₂ e) :
    Makes total d id d₂ e := by
  cases kind with
  | numbered =>
    cases opens
    obtain ⟨⟨size, shapes, numbered, named⟩, distinct, means⟩ := made
    exact ⟨⟨size, shapes, numbered, named⟩, fun h => distinct ⟨h.nodup, h.exist⟩, means⟩
  | named name =>
    cases opens
    exact made
  | plain =>
    cases opens
    exact made

/-- A group is put on top of a part. -/
theorem makes_group {kind : GroupKind} {number : Option ℕ} {inner : ℕ}
    (opens : openGroup kind d = .ok number d₁) (made : Makes total d₁ inner d₂ e)
    (closes : closeGroup kind number inner d₂ = .ok id d') :
    d₁.account = d.account.opening kind ∧
      d'.account = d₂.account.closing d.account kind ∧
      Makes total d id d' (.group 0 e (d₂.account.capture d.account total kind)) := by
  have inside := makes_of_openGroup opens made
  cases kind with
  | numbered =>
    cases opens
    cases closes
    have account : (d₂.plant (.group inner none (some (d.opened + 1)))).account = d₂.account :=
      account_plant_of_not_isSet rfl
    refine ⟨rfl, ?_, ?_⟩
    · show { (d₂.plant (.group inner none (some (d.opened + 1)))).account with
        closed := (d₂.numbered.push (d.opened + 1, d₂.tree.size)).toList.map Prod.fst } = _
      rw [account, Array.toList_push, List.map_append]
      rfl
    · exact (inside.group (some (d.opened + 1))).later (Draft.begins_push_numbered _ _)
        fun h => ⟨h.nodup, h.exist⟩
  | named name =>
    cases opens
    cases closes
    have account : (d₂.plant (.group inner (some name) none)).account = d₂.account :=
      account_plant_of_not_isSet rfl
    refine ⟨rfl, ?_, inside.namedGroup name⟩
    show { (d₂.plant (.group inner (some name) none)).account with
      named := (d₂.named.push (name, d₂.tree.size)).toList.map Prod.fst } = _
    rw [account, Array.toList_push, List.map_append]
    rfl
  | plain =>
    cases opens
    cases closes
    exact ⟨rfl, account_plant_of_not_isSet rfl, inside.group none⟩

/-- A repetition that is put on top of a part, if there is a quantifier. -/
theorem makes_repeated {quantifier : Option Quantifier} {node : ℕ} (made : Makes total d node d₁ e)
    (run : Phrase.repeated quantifier node d₁ = .ok id d') :
    d'.account = d₁.account ∧
      Makes total d id d' (quantifier.elim e fun q => .repetition 0 e q.bounds q.sameText) := by
  cases quantifier with
  | none =>
    cases run
    exact ⟨rfl, made⟩
  | some q =>
    cases run
    refine ⟨account_plant_of_not_isSet rfl, .plant made.begins made.distinct (by simp) ?_⟩
    intro F later sound groups opened root
    rw [Shape.unfold, Expr.skeleton, made.means F later sound groups opened root]
    rfl

/-- Several parts have been added to a draft, and their nodes mean expressions. -/
structure MakesAll (total : ℕ) (d : Draft) (ids : List ℕ) (d' : Draft) (es : List Expr) : Prop where
  begins : d.Begins d'
  distinct : d.Distinct → d'.Distinct
  means : List.Forall₂ (d'.Means total) ids es

theorem MakesAll.nil (d : Draft) : MakesAll total d [] d [] :=
  ⟨.refl d, id, .nil⟩

theorem MakesAll.cons {ids : List ℕ} {es : List Expr} (first : Makes total d id d₁ e)
    (more : MakesAll total d₁ ids d' es) : MakesAll total d (id :: ids) d' (e :: es) where
  begins := first.begins.trans more.begins
  distinct := fun h => more.distinct (first.distinct h)
  means := .cons (first.means.mono more.begins) more.means

/-- Nodes in a row, put below one node. -/
theorem MakesAll.skeletonAll {ids : List ℕ} {es : List Expr} (all : MakesAll total d ids d' es)
    {F : Draft} (later : d'.Begins F) (sound : F.Sound) (groups : F.Distinct)
    (opened : F.opened = total) (root : ℕ) :
    Expr.skeletonAll F.tree.rank (ids.map (F.finish root).tree.expr) = es := by
  rw [Expr.skeletonAll_eq_map, List.map_map]
  have means := all.means
  clear all
  induction means with
  | nil => rfl
  | cons head _ ih =>
    rw [List.map_cons, ih]
    congr 1
    exact head F later sound groups opened root

/-- The node of a branch means the row of its pieces. -/
theorem makes_branch {ids : List ℕ} {es : List Expr} (all : MakesAll total d ids d₁ es)
    (run : plantBranch ids d₁ = .ok id d') :
    d'.account = d₁.account ∧ Makes total d id d' (.row es) := by
  have parts := all
  obtain ⟨begins, distinct, means⟩ := parts
  cases means with
  | nil =>
    cases run
    exact ⟨account_plant_of_not_isSet rfl, .plant begins distinct (by simp) fun _ _ _ _ _ _ => rfl⟩
  | cons head tail =>
    cases tail with
    | nil =>
      cases run
      exact ⟨rfl, begins, distinct, head⟩
    | cons head' tail =>
      cases run
      refine ⟨account_plant_of_not_isSet rfl, .plant begins distinct (by simp) ?_⟩
      intro F later sound groups opened root
      rw [Shape.unfold, Expr.skeleton, all.skeletonAll later sound groups opened root]
      rfl

/-- The node of a choice means the choice of its branches. -/
theorem makes_choice {ids : List ℕ} {es : List Expr} {first : ℕ}
    (all : MakesAll total d (first :: ids) d₁ (e :: es))
    (run : plantAlternatives first ids d₁ = .ok id d') :
    d'.account = d₁.account ∧ Makes total d id d' (.oneOf e es) := by
  have parts := all
  obtain ⟨begins, distinct, means⟩ := parts
  cases means with
  | cons head tail =>
    cases tail with
    | nil =>
      cases run
      exact ⟨rfl, begins, distinct, head⟩
    | cons head' tail =>
      cases run
      refine ⟨account_plant_of_not_isSet rfl, .plant begins distinct (by simp) ?_⟩
      intro F later sound groups opened root
      rw [Shape.unfold, Expr.skeleton, all.skeletonAll later sound groups opened root]
      rfl

/-! ## Phrases -/

namespace Phrase

/-- Several phrases mean what each of them means. -/
theorem exists_meaningAll_of_buildAll (total : ℕ) {φs : List Phrase}
    (each : ∀ φ ∈ φs, ∀ {d d' : Draft} {id : ℕ}, φ.build d = .ok id d' →
      ∃ e, φ.meaning total d.account = some (e, d'.account) ∧ Makes total d id d' e)
    {d d' : Draft} {ids : List ℕ} (run : buildAll φs d = .ok ids d') :
    ∃ es, meaningAll total φs d.account = some (es, d'.account) ∧ MakesAll total d ids d' es := by
  induction φs generalizing d ids with
  | nil =>
    obtain ⟨rfl, rfl⟩ := buildAll_nil_eq_ok.1 run
    exact ⟨[], rfl, .nil d'⟩
  | cons φ φs ih =>
    obtain ⟨id, d₁, others, head, tail, rfl⟩ := buildAll_cons_eq_ok.1 run
    obtain ⟨e, meaning, made⟩ := each φ List.mem_cons_self head
    obtain ⟨es, meanings, all⟩ := ih (fun ψ hψ => each ψ (List.mem_cons_of_mem _ hψ)) tail
    exact ⟨e :: es, meaningAll_cons_eq_some.2 ⟨e, _, es, meaning, meanings, rfl⟩, .cons made all⟩

/-- **The nodes that are made of a phrase mean what the phrase means.** -/
theorem exists_meaning_of_build (total : ℕ) {φ : Phrase} {d d' : Draft} {id : ℕ}
    (run : φ.build d = .ok id d') :
    ∃ e, φ.meaning total d.account = some (e, d'.account) ∧ Makes total d id d' e := by
  induction φ using Phrase.induct generalizing d d' id with
  | atom a => exact exists_meaning_of_atom total run
  | group kind body ih =>
    obtain ⟨number, inner, d₁, d₂, opens, built, closes⟩ := build_group_eq_ok.1 run
    obtain ⟨e, meaning, made⟩ := ih built
    obtain ⟨opening, closing, made⟩ := makes_group opens made closes
    rw [opening] at meaning
    exact ⟨_, meaning_group_eq_some.2 ⟨e, _, meaning, rfl, closing⟩, made⟩
  | piece marks body quantifier ih =>
    obtain ⟨node, d₁, d₂, inner, outer, rfl⟩ := build_piece_eq_ok.1 run
    obtain ⟨e, meaning, made⟩ := ih inner
    -- marks do not count, neither before the atom nor behind it nor behind the quantifier
    have before := Draft.alike_markIf marks.leading d
    have between := (Draft.alike_marking d₁ d.marking).trans (Draft.alike_markIf marks.inner _)
    have behind := (Draft.alike_marking d₂ d.marking).trans
      (Draft.alike_markFromIf marks.closing d.tree.size _)
    have atom : Makes total d node d₁ e :=
      ⟨before.begins.trans made.begins, fun h => made.distinct (before.distinct h), made.means⟩
    obtain ⟨account, made⟩ := makes_repeated (atom.later between.begins between.distinct) outer
    refine ⟨_, meaning_piece_eq_some.2 ⟨e, ?_, rfl⟩, made.later behind.begins behind.distinct⟩
    rw [behind.account, account, between.account, ← before.account]
    exact meaning
  | branch pieces ih =>
    obtain ⟨nodes, d₁, built, planted⟩ := build_branch_eq_ok.1 run
    obtain ⟨es, meanings, all⟩ := exists_meaningAll_of_buildAll total (fun φ hφ => ih φ hφ) built
    obtain ⟨account, made⟩ := makes_branch all planted
    rw [← account] at meanings
    exact ⟨_, meaning_branch_eq_some.2 ⟨es, meanings, rfl⟩, made⟩
  | choice first more ih ih' =>
    obtain ⟨node, others, d₁, d₂, head, tail, planted⟩ := build_choice_eq_ok.1 run
    obtain ⟨e, meaning, made⟩ := ih head
    obtain ⟨es, meanings, all⟩ := exists_meaningAll_of_buildAll total (fun φ hφ => ih' φ hφ) tail
    obtain ⟨account, made⟩ := makes_choice (.cons made all) planted
    rw [← account] at meanings
    exact ⟨_, meaning_choice_eq_some.2 ⟨e, _, es, meaning, meanings, rfl⟩, made⟩

/-- Nodes can be made of several phrases if they have meanings. -/
theorem exists_buildAll_of_meaningAll {total : ℕ} {φs : List Phrase}
    (each : ∀ φ ∈ φs, ∀ {d : Draft} {r : Expr × Account}, φ.meaning total d.account = some r →
      ∃ id d', φ.build d = .ok id d') {d : Draft} {r : List Expr × Account}
    (meanings : meaningAll total φs d.account = some r) : ∃ ids d', buildAll φs d = .ok ids d' := by
  induction φs generalizing d r with
  | nil => exact ⟨[], d, buildAll_nil_eq_ok.2 ⟨rfl, rfl⟩⟩
  | cons φ φs ih =>
    obtain ⟨es, m⟩ := r
    obtain ⟨e, m', es', head, tail, rfl⟩ := meaningAll_cons_eq_some.1 meanings
    obtain ⟨id, d₁, built⟩ := each φ List.mem_cons_self head
    obtain ⟨_, same, -⟩ := exists_meaning_of_build total built
    cases head.symm.trans same
    obtain ⟨ids, d₂, others⟩ := ih (fun ψ hψ => each ψ (List.mem_cons_of_mem _ hψ)) tail
    exact ⟨id :: ids, d₂, buildAll_cons_eq_ok.2 ⟨id, d₁, ids, built, others, rfl⟩⟩

/-- The node of a branch can always be added. -/
theorem exists_plantBranch (ids : List ℕ) (d : Draft) : ∃ id d', plantBranch ids d = .ok id d' := by
  unfold plantBranch
  split <;> exact ⟨_, _, rfl⟩

/-- The node of a choice can always be added. -/
theorem exists_plantAlternatives (first : ℕ) (ids : List ℕ) (d : Draft) :
    ∃ id d', plantAlternatives first ids d = .ok id d' := by
  unfold plantAlternatives
  split <;> exact ⟨_, _, rfl⟩

/-- The node of a repetition can always be added. -/
theorem exists_repeated (quantifier : Option Quantifier) (node : ℕ) (d : Draft) :
    ∃ id d', repeated quantifier node d = .ok id d' := by
  cases quantifier <;> exact ⟨_, _, rfl⟩

theorem exists_openGroup (kind : GroupKind) (d : Draft) :
    ∃ number d', openGroup kind d = .ok number d' := by
  cases kind <;> exact ⟨_, _, rfl⟩

theorem exists_closeGroup (kind : GroupKind) (number : Option ℕ) (body : ℕ) (d : Draft) :
    ∃ id d', closeGroup kind number body d = .ok id d' := by
  cases kind <;> cases number <;> exact ⟨_, _, rfl⟩

/-- **Nodes can be made of a phrase that has a meaning.** -/
theorem exists_build_of_meaning {total : ℕ} {φ : Phrase} {d : Draft} {r : Expr × Account}
    (meaning : φ.meaning total d.account = some r) : ∃ id d', φ.build d = .ok id d' := by
  induction φ using Phrase.induct generalizing d r with
  | atom a =>
    rw [Phrase.meaning] at meaning
    rw [build]
    cases a with
    | text chars => exact ⟨_, _, rfl⟩
    | set s => exact ⟨_, _, rfl⟩
    | backrefNumber number =>
      obtain ⟨n, leads, -⟩ := Option.map_eq_some_iff.1 meaning
      obtain ⟨target, found⟩ := Draft.exists_groupOfNumber? leads
      exact ⟨_, _, plantAtom_backrefNumber_eq_ok_iff.2 ⟨target, found, rfl⟩⟩
    | backrefName name =>
      obtain ⟨n, leads, -⟩ := Option.map_eq_some_iff.1 meaning
      obtain ⟨target, found⟩ := Draft.exists_groupOfName? leads
      exact ⟨_, _, plantAtom_backrefName_eq_ok_iff.2 ⟨target, found, rfl⟩⟩
    | macroName name => cases meaning
  | group kind body ih =>
    obtain ⟨e, m⟩ := r
    obtain ⟨e', m', inner, -, -⟩ := meaning_group_eq_some.1 meaning
    obtain ⟨number, d₁, opens⟩ := exists_openGroup kind d
    have account : d₁.account = d.account.opening kind := by
      cases kind <;> cases opens <;> rfl
    rw [← account] at inner
    obtain ⟨node, d₂, built⟩ := ih inner
    obtain ⟨id, d₃, closes⟩ := exists_closeGroup kind number node d₂
    exact ⟨id, d₃, build_group_eq_ok.2 ⟨number, node, d₁, d₂, opens, built, closes⟩⟩
  | piece marks body quantifier ih =>
    obtain ⟨e, m⟩ := r
    obtain ⟨e', inner, -⟩ := meaning_piece_eq_some.1 meaning
    rw [← (Draft.alike_markIf marks.leading d).account] at inner
    obtain ⟨node, d₁, built⟩ := ih inner
    obtain ⟨id, d₂, planted⟩ := exists_repeated quantifier node
      (Draft.markIf marks.inner { d₁ with marking := d.marking })
    exact ⟨id, _, build_piece_eq_ok.2 ⟨node, d₁, d₂, built, planted, rfl⟩⟩
  | branch pieces ih =>
    obtain ⟨e, m⟩ := r
    obtain ⟨es, inner, -⟩ := meaning_branch_eq_some.1 meaning
    obtain ⟨ids, d₁, built⟩ := exists_buildAll_of_meaningAll (fun φ hφ => ih φ hφ) inner
    obtain ⟨id, d₂, planted⟩ := exists_plantBranch ids d₁
    exact ⟨id, d₂, build_branch_eq_ok.2 ⟨ids, d₁, built, planted⟩⟩
  | choice first more ih ih' =>
    obtain ⟨e, m⟩ := r
    obtain ⟨e', m', es, head, tail, -⟩ := meaning_choice_eq_some.1 meaning
    obtain ⟨node, d₁, built⟩ := ih head
    obtain ⟨_, same, -⟩ := exists_meaning_of_build total built
    cases head.symm.trans same
    obtain ⟨ids, d₂, others⟩ := exists_buildAll_of_meaningAll (fun φ hφ => ih' φ hφ) tail
    obtain ⟨id, d₃, planted⟩ := exists_plantAlternatives node ids d₂
    exact ⟨id, d₃, build_choice_eq_ok.2 ⟨node, ids, d₁, d₂, built, others, planted⟩⟩

end Phrase

/-! ## Whole patterns -/

/-- A pattern is read as a phrase, of which the nodes of a draft are made. -/
structure Phrase.Finishes (φ : Phrase) (pattern : String) (c : Compiled) (d : Draft) : Prop where
  spells : φ.Spells expansions pattern.toList
  built : φ.build {} = .ok c.root d
  finished : d.finish c.root = c
  sound : d.Sound
  distinct : d.Distinct
  meaning : φ.meaning d.opened ({} : Draft).account =
    some (c.expr.skeleton d.tree.rank, d.account)

/-- A phrase of which nodes can be made is the pattern that it spells. -/
theorem Phrase.Spells.finishes {φ : Phrase} {pattern : String} {root : ℕ} {d : Draft}
    (spells : φ.Spells expansions pattern.toList) (built : φ.build {} = .ok root d) :
    φ.Finishes pattern (d.finish root) d := by
  have run := (wholePattern_eq_ok_iff stands_expandMacro).2 ⟨φ, spells, built⟩
  have sound : d.Sound := (adds_wholePattern addMacros_expandMacro Draft.sound_empty run).sound
  obtain ⟨e, meaning, made⟩ := φ.exists_meaning_of_build d.opened built
  have distinct : d.Distinct := made.distinct ⟨List.nodup_nil, fun _ h => absurd h List.not_mem_nil⟩
  rw [← made.means d (.refl d) sound distinct rfl root] at meaning
  exact ⟨spells, built, rfl, sound, distinct, meaning⟩

/-- The pattern can be read. -/
theorem Phrase.Finishes.read {φ : Phrase} {pattern : String} {c : Compiled} {d : Draft}
    (h : φ.Finishes pattern c d) : Compiled.ofPattern? pattern = .ok c :=
  Compiled.ofPattern?_eq_ok_iff.2 ⟨φ, d, h.spells, h.built, h.finished⟩

/-- **Every pattern that can be read is a phrase**, of which its nodes are made. -/
theorem Compiled.exists_finishes {pattern : String} {c : Compiled}
    (h : ofPattern? pattern = .ok c) : ∃ φ d, Phrase.Finishes φ pattern c d := by
  obtain ⟨φ, d, spells, built, eq⟩ := ofPattern?_eq_ok_iff.1 h
  have finishes := spells.finishes built
  rw [eq] at finishes
  exact ⟨φ, d, finishes⟩

end PatternSampler
