/-
# What reading a pattern yields

Whatever is read, the draft stays sound, and each reader of a part adds the nodes of that part and
no others.  The proof follows the readers, by induction on the length of the text that is left.

* `Reading.readersAdd` : what the readers of parts add, one reader after the other.
* `Reading.adds_wholePattern` : what the reader of a whole pattern adds.
-/
import PatternSampler.Proofs.Reading.Draft
import PatternSampler.Reading.Pattern

namespace PatternSampler

namespace Reading

variable {d d₁ d₂ d₃ : Draft} {id : ℕ} {ids : List ℕ} {macros : Macros}

/-! ## Marks -/

/-- Whether nodes are marked does not count for the tree. -/
theorem alike_setMarking {marking : Bool} {u : Unit} (run : setMarking marking d = .ok u d₁) :
    d.Alike d₁ := by
  cases run
  exact ⟨rfl, rfl, rfl, rfl⟩

/-- A marker adds no node. -/
theorem alike_takeMarker {present : Bool} {cs : List Char} {rest : Rest cs}
    (run : takeMarker present cs d = .ok rest d₁) : d.Alike d₁ := by
  unfold takeMarker at run
  cases present
  · cases run
    exact ⟨rfl, rfl, rfl, rfl⟩
  · cases run
    exact ⟨rfl, rfl, rfl, rfl⟩

/-- A marker at the end of a branch adds no node. -/
theorem alike_takeClosingMarker {first : ℕ} {cs : List Char} {rest : Rest cs}
    (run : takeClosingMarker first cs d = .ok rest d₁) : d.Alike d₁ := by
  unfold takeClosingMarker at run
  split at run
  · cases run
    exact ⟨rfl, rfl, rfl, rfl⟩
  · cases run
    exact ⟨rfl, rfl, rfl, rfl⟩

/-! ## Nodes on top of parts -/

/-- A node that is neither an alternation nor a group nor a backreference can always be added. -/
theorem adds_plain (h : AddsRow d ids d₁) {shape : Shape} (run : plant shape d₁ = .ok id d₂)
    (regular : shape.Regular) (children : shape.children = ids)
    (branches : ∀ branches, shape ≠ .alternation branches)
    (targets : ∀ target, shape ≠ .backref target) (capture : shape.capture? = none) :
    Adds d id d₂ := by
  cases run
  refine h.plant children ⟨regular, fun bs eq => absurd eq (branches bs),
    fun t eq => absurd eq (targets t), ?_, ?_⟩ ?_ <;> simp [capture]

/-- A backreference to a closed group can always be added. -/
theorem adds_backref (sound : d.Sound) {target : ℕ}
    (closed : (∃ n, (n, target) ∈ d.numbered) ∨ ∃ name, (name, target) ∈ d.named)
    (run : plant (.backref target) d = .ok id d₁) : Adds d id d₁ := by
  cases run
  refine (AddsRow.nil sound).plant rfl ⟨trivial, by simp, ?_, by simp [Shape.capture?],
    by simp [Shape.capture?]⟩ (by simp [Shape.capture?])
  rintro _ ⟨⟩
  exact closed

/-- A number leads to a closed group. -/
theorem closed_of_groupOfNumber? {number target : ℕ}
    (h : d.groupOfNumber? number = some target) :
    (∃ n, (n, target) ∈ d.numbered) ∨ ∃ name, (name, target) ∈ d.named := by
  unfold Draft.groupOfNumber? at h
  split at h
  · next n id found =>
    cases h
    exact Or.inl ⟨n, Array.mem_of_find?_eq_some found⟩
  · split at h
    · obtain ⟨⟨name, id⟩, look, rfl⟩ := Option.map_eq_some_iff.1 h
      exact Or.inr ⟨name, Array.mem_of_getElem? look⟩
    · cases h

/-- A name leads to a closed group. -/
theorem closed_of_groupOfName? {name : String} {target : ℕ}
    (h : d.groupOfName? name = some target) :
    (∃ n, (n, target) ∈ d.numbered) ∨ ∃ name, (name, target) ∈ d.named := by
  obtain ⟨⟨name', id⟩, found, rfl⟩ := Option.map_eq_some_iff.1 h
  exact Or.inr ⟨name', Array.mem_of_find?_eq_some found⟩

/-- A backreference to what was looked up is added if something was found. -/
theorem lookUp_plant_eq_ok_iff (lookUp : Draft → Option ℕ) (missing : Fault) :
    (get >>= fun d => match lookUp d with
      | some target => plant (.backref target)
      | none => throw missing : Reader ℕ) d = .ok id d₁ ↔
      ∃ target, lookUp d = some target ∧ plant (.backref target) d = .ok id d₁ := by
  rw [bind_eq_ok_iff]
  constructor
  · rintro ⟨_, _, ⟨⟩, run⟩
    rcases found : lookUp d with _ | target
    · simp only [found] at run
      cases run
    · simp only [found] at run
      exact ⟨target, rfl, run⟩
  · rintro ⟨target, found, run⟩
    refine ⟨d, d, rfl, ?_⟩
    simp only [found]
    exact run

/-- A number has to lead to a closed group. -/
theorem plantAtom_backrefNumber_eq_ok_iff {start : List Char} {number : ℕ} :
    plantAtom macros start (.backrefNumber number) d = .ok id d₁ ↔
      ∃ target, d.groupOfNumber? number = some target ∧ plant (.backref target) d = .ok id d₁ :=
  lookUp_plant_eq_ok_iff (Draft.groupOfNumber? · number) _

/-- A name has to lead to a closed group. -/
theorem plantAtom_backrefName_eq_ok_iff {start : List Char} {name : String} :
    plantAtom macros start (.backrefName name) d = .ok id d₁ ↔
      ∃ target, d.groupOfName? name = some target ∧ plant (.backref target) d = .ok id d₁ :=
  lookUp_plant_eq_ok_iff (Draft.groupOfName? · name) _

/-- The readers of macros add parts. -/
def AddMacros (macros : Macros) : Prop :=
  ∀ name reader, macros name = some reader → ∀ d id d', d.Sound → reader d = .ok id d' →
    Adds d id d'

/-- **An atom adds one part**, a macro that of what it stands for. -/
theorem adds_plantAtom (known : AddMacros macros) (sound : d.Sound) {start : List Char} {a : Atom}
    (counted : ∀ set, a = .set set → set.Counted)
    (run : plantAtom macros start a d = .ok id d₁) : Adds d id d₁ := by
  cases a with
  | text chars => exact adds_plain (AddsRow.nil sound) run trivial rfl (by simp) (by simp) rfl
  | set s => exact adds_plain (AddsRow.nil sound) run (counted s rfl) rfl (by simp) (by simp) rfl
  | backrefNumber number =>
    obtain ⟨target, found, run⟩ := plantAtom_backrefNumber_eq_ok_iff.1 run
    exact adds_backref sound (closed_of_groupOfNumber? found) run
  | backrefName name =>
    obtain ⟨target, found, run⟩ := plantAtom_backrefName_eq_ok_iff.1 run
    exact adds_backref sound (closed_of_groupOfName? found) run
  | macroName name =>
    rw [plantAtom] at run
    rcases found : macros name with _ | reader
    · simp only [found] at run
      cases run
    · simp only [found] at run
      exact known name reader found d id d₁ sound (adaptExcept_eq_ok_iff.1 run)

/-- A quantifier adds a node on top of its atom, or nothing. -/
theorem adds_quantified {atom : ℕ} {cs : List Char} {rest : Rest cs} (h : Adds d atom d₁)
    (run : quantified atom cs d₁ = .ok (id, rest) d₂) : Adds d id d₂ := by
  generalize eq : quantified atom cs = reader at run
  unfold quantified at eq
  split at eq <;> subst eq
  · cases run
  · cases run
    exact h
  · next q _ read =>
    rw [bind_eq_ok_iff] at run
    obtain ⟨_, _, planted, run⟩ := run
    cases run
    have sensible := sensible_of_readQuantifier read
    exact adds_plain h.row planted sensible rfl (by simp) (by simp) rfl

/-- A branch adds a node on top of its pieces, or is one of them. -/
theorem adds_plantBranch (h : AddsRow d ids d₁) (run : plantBranch ids d₁ = .ok id d₂) :
    Adds d id d₂ := by
  unfold plantBranch at run
  split at run
  · exact adds_plain h run trivial rfl (by simp) (by simp) rfl
  · cases run
    exact h.single
  · exact adds_plain h run trivial rfl (by simp) (by simp) rfl

/-- A choice adds a node on top of its branches, or is its only one. -/
theorem adds_plantAlternatives {first : ℕ} {more : List ℕ} (h : AddsRow d (first :: more) d₁)
    (run : plantAlternatives first more d₁ = .ok id d₂) : Adds d id d₂ := by
  unfold plantAlternatives at run
  split at run
  · cases run
    exact h.single
  · cases run
    exact h.plant rfl ⟨trivial, by rintro _ ⟨⟩; simp, by simp, by simp [Shape.capture?],
      by simp [Shape.capture?]⟩ (by simp [Shape.capture?])

/-! ## Groups -/

/-- A group that opens takes a number at most. -/
theorem sound_openGroup {kind : GroupKind} {number : Option ℕ} (sound : d.Sound)
    (run : openGroup kind d = .ok number d₁) : d₁.Sound := by
  cases kind with
  | numbered =>
    cases run
    exact ⟨sound.ordered, sound.linked, sound.regular, sound.branches, sound.numbered, sound.named,
      sound.targets, fun id n found => (sound.opened id n found).trans (Nat.le_succ _), sound.unique⟩
  | named name =>
    cases run
    exact sound
  | plain =>
    cases run
    exact sound

/-- A group that captures under the number it got when it opened. -/
theorem adds_numbered (sound : d.Sound) {body : ℕ}
    (h : Adds { d with opened := d.opened + 1 } body d₁)
    (run : closeGroup .numbered (some (d.opened + 1)) body d₁ = .ok id d₂) : Adds d id d₂ := by
  -- neither an earlier group nor one in the body has the number of this group
  have unused (i : ℕ) : d₁.tree.capture? i ≠ some (d.opened + 1) := by
    intro found
    by_cases lt : i < d.tree.size
    · have := sound.opened i _ ((h.grows.capture? lt).symm.trans found)
      omega
    · have := h.grows.fresh i _ (not_lt.1 lt) found
      exact absurd this (lt_irrefl _)
  have widen : AddsRow d [body] d₁ :=
    ⟨h.sound, ⟨h.grows.size, h.grows.shapes, h.grows.parents,
      (Nat.le_succ _).trans h.grows.opened, fun i n le found =>
        (Nat.lt_succ_self _).trans (h.grows.fresh i n le found)⟩, h.row.free, h.row.row⟩
  have admits : d₁.Admits (.group body none (some (d.opened + 1))) := by
    refine ⟨trivial, by simp, by simp, ?_, ?_⟩
    · rintro _ ⟨⟩
      exact h.grows.opened
    · rintro i _ ⟨⟩
      exact unused i
  have planted := widen.plant rfl admits (by rintro _ ⟨⟩; exact Nat.lt_succ_self _)
  cases run
  exact planted.noted (planted.sound.push_numbered (Draft.shape?_plant_size _ _)) rfl rfl

/-- A group with a name; it gets its number later. -/
theorem adds_named {name : String} {number : Option ℕ} {body : ℕ} (h : Adds d body d₁)
    (run : closeGroup (.named name) number body d₁ = .ok id d₂) : Adds d id d₂ := by
  have admits : d₁.Admits (.group body (some name) none) :=
    ⟨trivial, by simp, by simp, by simp [Shape.capture?], by simp [Shape.capture?]⟩
  have planted := h.row.plant rfl admits (by simp [Shape.capture?])
  cases run
  exact planted.noted (planted.sound.push_named (Draft.shape?_plant_size _ _)) rfl rfl

/-- A group adds a node on top of its inside. -/
theorem adds_group {kind : GroupKind} {number : Option ℕ} {body : ℕ} (sound : d.Sound)
    (opens : openGroup kind d = .ok number d₁) (h : Adds d₁ body d₂)
    (closes : closeGroup kind number body d₂ = .ok id d₃) : Adds d id d₃ := by
  cases kind with
  | numbered =>
    cases opens
    exact adds_numbered sound h closes
  | named name =>
    cases opens
    exact adds_named h closes
  | plain =>
    cases opens
    exact adds_plain h.row closes trivial rfl (by simp) (by simp) rfl

/-! ## Patterns -/

/-- What the readers do that stop before the text is used up, for one text. -/
structure ReadersAdd (macros : Macros) (cs : List Char) : Prop where
  atom : ∀ {d d' : Draft} {id : ℕ} {rest : Shorter cs}, d.Sound →
    atom macros cs d = .ok (id, rest) d' → Adds d id d'
  piece : ∀ {d d' : Draft} {id : ℕ} {rest : Shorter cs}, d.Sound →
    piece macros cs d = .ok (id, rest) d' → Adds d id d'
  pieces : ∀ {d d' : Draft} {ids : List ℕ} {rest : Rest cs}, d.Sound →
    pieces macros cs d = .ok (ids, rest) d' → AddsRow d ids d'
  branch : ∀ {d d' : Draft} {id : ℕ} {rest : Rest cs}, d.Sound →
    branch macros cs d = .ok (id, rest) d' → Adds d id d'
  further : ∀ {d d' : Draft} {ids : List ℕ} {rest : Rest cs}, d.Sound →
    furtherBranches macros cs d = .ok (ids, rest) d' → AddsRow d ids d'

/-- A branch and the branches behind it. -/
theorem adds_alternatives_of {cs : List Char}
    (all : ∀ cs' : List Char, cs'.length ≤ cs.length → ReadersAdd macros cs') {rest : Rest cs}
    (sound : d.Sound) (run : alternatives macros cs d = .ok (id, rest) d₁) : Adds d id d₁ := by
  rw [alternatives, bind_eq_ok_iff] at run
  obtain ⟨⟨first, rest₁, h₁⟩, d₂, run₁, run⟩ := run
  rw [bind_eq_ok_iff] at run
  obtain ⟨⟨more, rest₂, h₂⟩, d₃, run₂, run⟩ := run
  rw [bind_eq_ok_iff] at run
  obtain ⟨_, _, planted, run⟩ := run
  cases run
  have head := (all cs le_rfl).branch sound run₁
  have tail := (all rest₁ h₁).further head.sound run₂
  exact adds_plantAlternatives (.cons head tail) planted

/-- An atom adds one part if readers of less do. -/
theorem adds_atom_of (known : AddMacros macros) {cs : List Char}
    (shorter : ∀ cs' : List Char, cs'.length < cs.length → ReadersAdd macros cs')
    {rest : Shorter cs} (sound : d.Sound) (run : atom macros cs d = .ok (id, rest) d₁) :
    Adds d id d₁ := by
  generalize eq : atom macros cs = reader at run
  unfold atom at eq
  split at eq
  · next tail =>
    split at eq <;> subst eq
    · cases run
    · next kind inside head =>
      have lt : inside.length < tail.length + 1 := Nat.lt_succ_of_le (readGroupHead_length head)
      rw [bind_eq_ok_iff] at run
      obtain ⟨number, d₂, opens, run⟩ := run
      obtain ⟨⟨body, rest₁, h₁⟩, d₃, reader, run₁, eq, run⟩ := exists_of_bind_eq_ok run
      have inner := adds_alternatives_of (fun cs' le => shorter cs' (le.trans_lt lt))
        (sound_openGroup sound opens) run₁
      dsimp only at eq
      split at eq <;> subst eq
      · rw [bind_eq_ok_iff] at run
        obtain ⟨_, _, closes, run⟩ := run
        cases run
        exact adds_group sound opens inner closes
      · cases run
  · split at eq <;> subst eq
    · cases run
    · next read =>
      rw [bind_eq_ok_iff] at run
      obtain ⟨_, _, planted, run⟩ := run
      cases run
      exact adds_plantAtom known sound (fun _ eq => counted_of_readAtom read eq) planted

/-- The markers around an atom and its quantifier change nothing but marks. -/
theorem adds_piece_of {cs : List Char}
    (atoms : ∀ cs' : List Char, cs'.length ≤ cs.length → ∀ {d d' : Draft} {id : ℕ}
      {rest : Shorter cs'}, d.Sound → atom macros cs' d = .ok (id, rest) d' → Adds d id d')
    {rest : Shorter cs} (sound : d.Sound) (run : piece macros cs d = .ok (id, rest) d₁) :
    Adds d id d₁ := by
  rw [piece, bind_eq_ok_iff] at run
  obtain ⟨_, _, ⟨⟩, run⟩ := run
  rw [bind_eq_ok_iff] at run
  obtain ⟨⟨body, le⟩, d₂, taken, run⟩ := run
  have before := alike_takeMarker taken
  rw [bind_eq_ok_iff] at run
  obtain ⟨⟨node, rest₁, h₁⟩, d₃, run₁, run⟩ := run
  have inner := atoms body le (sound.alike before) run₁
  rw [bind_eq_ok_iff] at run
  obtain ⟨_, d₄, set, run⟩ := run
  rw [bind_eq_ok_iff] at run
  obtain ⟨⟨rest₂, h₂⟩, d₅, taken', run⟩ := run
  have between := (alike_setMarking set).trans (alike_takeMarker taken')
  rw [bind_eq_ok_iff] at run
  obtain ⟨⟨node', rest₃, h₃⟩, d₆, run₂, run⟩ := run
  have outer := adds_quantified (inner.row.after between).single run₂
  rw [bind_eq_ok_iff] at run
  obtain ⟨_, d₇, set', run⟩ := run
  rw [bind_eq_ok_iff] at run
  obtain ⟨⟨rest₄, h₄⟩, d₈, taken'', run⟩ := run
  cases run
  have behind := (alike_setMarking set').trans (alike_takeClosingMarker taken'')
  exact ((outer.row.after behind).before before).single

/-- Pieces add a row of parts if the first one adds a part and readers of less do. -/
theorem adds_pieces_of {cs : List Char}
    (shorter : ∀ cs' : List Char, cs'.length < cs.length → ReadersAdd macros cs')
    (here : ∀ {d d' : Draft} {id : ℕ} {rest : Shorter cs}, d.Sound →
      piece macros cs d = .ok (id, rest) d' → Adds d id d')
    {rest : Rest cs} (sound : d.Sound) (run : pieces macros cs d = .ok (ids, rest) d₁) :
    AddsRow d ids d₁ := by
  rw [pieces] at run
  by_cases stop : atBranchEnd cs = true
  · rw [if_pos stop] at run
    cases run
    exact .nil sound
  · rw [if_neg stop, bind_eq_ok_iff] at run
    obtain ⟨⟨first, rest₁, h₁⟩, d₂, run₁, run⟩ := run
    rw [bind_eq_ok_iff] at run
    obtain ⟨⟨more, rest₂, h₂⟩, d₃, run₂, run⟩ := run
    cases run
    have head := here sound run₁
    exact .cons head ((shorter rest₁ h₁).pieces head.sound run₂)

/-- A branch adds one part if its pieces add a row. -/
theorem adds_branch_of {cs : List Char}
    (here : ∀ {d d' : Draft} {ids : List ℕ} {rest : Rest cs}, d.Sound →
      pieces macros cs d = .ok (ids, rest) d' → AddsRow d ids d')
    {rest : Rest cs} (sound : d.Sound) (run : branch macros cs d = .ok (id, rest) d₁) :
    Adds d id d₁ := by
  rw [branch, bind_eq_ok_iff] at run
  obtain ⟨⟨nodes, rest₁⟩, d₂, run₁, run⟩ := run
  rw [bind_eq_ok_iff] at run
  obtain ⟨_, _, planted, run⟩ := run
  cases run
  exact adds_plantBranch (here sound run₁) planted

/-- Branches behind bars add a row of parts if readers of less do. -/
theorem adds_furtherBranches_of {cs : List Char}
    (shorter : ∀ cs' : List Char, cs'.length < cs.length → ReadersAdd macros cs')
    {rest : Rest cs} (sound : d.Sound) (run : furtherBranches macros cs d = .ok (ids, rest) d₁) :
    AddsRow d ids d₁ := by
  generalize eq : furtherBranches macros cs = reader at run
  unfold furtherBranches at eq
  split at eq <;> subst eq
  · next tail =>
    rw [bind_eq_ok_iff] at run
    obtain ⟨⟨first, rest₁, h₁⟩, d₂, run₁, run⟩ := run
    rw [bind_eq_ok_iff] at run
    obtain ⟨⟨more, rest₂, h₂⟩, d₃, run₂, run⟩ := run
    cases run
    have lt : tail.length < tail.length + 1 := Nat.lt_succ_self _
    have head := (shorter tail lt).branch sound run₁
    exact .cons head ((shorter rest₁ (h₁.trans_lt lt)).further head.sound run₂)
  · cases run
    exact .nil sound

/-- The readers add parts, whatever is left of the text. -/
theorem readersAdd (known : AddMacros macros) (cs : List Char) : ReadersAdd macros cs := by
  induction length : cs.length using Nat.strong_induction_on generalizing cs with
  | _ n ih =>
    subst length
    have shorter (cs' : List Char) (lt : cs'.length < cs.length) : ReadersAdd macros cs' :=
      ih cs'.length lt cs' rfl
    have atoms (cs' : List Char) (le : cs'.length ≤ cs.length) {d d' : Draft} {id : ℕ}
        {rest : Shorter cs'} (sound : d.Sound) (run : atom macros cs' d = .ok (id, rest) d') :
        Adds d id d' :=
      adds_atom_of known (fun cs'' lt => shorter cs'' (lt.trans_le le)) sound run
    have piece {d d' : Draft} {id : ℕ} {rest : Shorter cs} (sound : d.Sound)
        (run : Reading.piece macros cs d = .ok (id, rest) d') : Adds d id d' :=
      adds_piece_of atoms sound run
    have pieces {d d' : Draft} {ids : List ℕ} {rest : Rest cs} (sound : d.Sound)
        (run : Reading.pieces macros cs d = .ok (ids, rest) d') : AddsRow d ids d' :=
      adds_pieces_of shorter piece sound run
    exact ⟨atoms cs le_rfl, piece, pieces, adds_branch_of pieces, adds_furtherBranches_of shorter⟩

/-- Reading alternatives adds one part. -/
theorem adds_alternatives (known : AddMacros macros) {cs : List Char} {rest : Rest cs}
    (sound : d.Sound) (run : alternatives macros cs d = .ok (id, rest) d₁) : Adds d id d₁ :=
  adds_alternatives_of (fun cs' _ => readersAdd known cs') sound run

/-- **A pattern adds one part**, that of its root. -/
theorem adds_wholePattern (known : AddMacros macros) {cs : List Char} (sound : d.Sound)
    (run : wholePattern macros cs d = .ok id d₁) : Adds d id d₁ := by
  rw [wholePattern, bind_eq_ok_iff] at run
  obtain ⟨⟨root, rest, h⟩, d₂, run₁, run⟩ := run
  have adds := adds_alternatives known sound run₁
  cases rest with
  | nil =>
    cases run
    exact adds
  | cons c others => cases run

/-- Macros are read in the same way as patterns, without macros of their own. -/
theorem addMacros_expandMacro : AddMacros expandMacro := by
  intro name reader found d id d' sound run
  obtain ⟨text, -, rfl⟩ := Option.map_eq_some_iff.1 found
  exact adds_wholePattern (fun _ _ none => by cases none) sound run

end Reading

end PatternSampler
