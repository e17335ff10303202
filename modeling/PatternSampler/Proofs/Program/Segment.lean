/-
# Stretches of code

A stretch of code goes from one instruction to another.  It realizes a passage if the places where a
run can leave it are exactly those to which the passage leads from the place where the run entered
it.  This is said in terms of acceptance, so that runs never have to be taken apart.

The slots that capturing groups write reflect the captured texts, except for the hidden numbers: a
group that is open has moved its start already, and what it kept before cannot be told any more.

* `Reflects` relates slots and captured texts.
* `Realizes` relates a stretch of code and a passage; stretches are put together by `Realizes.seq`,
  `Realizes.choice`, `Realizes.optional`, `Realizes.loop` and `Realizes.capture`.
-/
import PatternSampler.Proofs.Matching.Basic
import PatternSampler.Proofs.Program.Acceptance

namespace PatternSampler

variable {p : Program} {input : List Char} {hidden writes : Set ℕ}

/-! ## Slots and captured texts -/

/-- The text between the two positions that are kept for a capture number. -/
def keptText (input : List Char) (slots : Std.TreeMap ℕ ℕ) (n : ℕ) : Option (List Char) :=
  match slots[2 * n]?, slots[2 * n + 1]? with
  | some start, some stop => if start ≤ stop then some (input.extract start stop) else none
  | _, _ => none

theorem keptText_congr {slots slots' : Std.TreeMap ℕ ℕ} {n : ℕ}
    (start : slots[2 * n]? = slots'[2 * n]?) (stop : slots[2 * n + 1]? = slots'[2 * n + 1]?) :
    keptText input slots n = keptText input slots' n := by
  rw [keptText, keptText, start, stop]

theorem getElem?_insert_of_ne {slots : Std.TreeMap ℕ ℕ} {slot other pos : ℕ}
    (ne : slot ≠ other) : (slots.insert slot pos)[other]? = slots[other]? := by
  rw [Std.TreeMap.getElem?_insert, if_neg]
  rwa [Nat.compare_eq_eq]

/-- Slots that keep positions of the input, and for each number that is not hidden the text that has
been captured. -/
structure Reflects (input : List Char) (hidden : Set ℕ) (slots : Std.TreeMap ℕ ℕ)
    (captures : Captures) : Prop where
  inside : ∀ slot pos : ℕ, slots[slot]? = some pos → pos ≤ input.length
  kept : ∀ n ∉ hidden, keptText input slots n = captures n

/-- Before anything has been kept, nothing has been captured. -/
theorem reflects_empty (input : List Char) (hidden : Set ℕ) :
    Reflects input hidden ∅ (fun _ => none) where
  inside := by simp
  kept := by simp [keptText]

/-- Keeping a position in a slot that belongs to no visible number changes nothing that is
reflected. -/
theorem Reflects.insert {slots : Std.TreeMap ℕ ℕ} {captures : Captures} {slot pos : ℕ}
    (h : Reflects input hidden slots captures) (le : pos ≤ input.length)
    (free : ∀ n ∉ hidden, slot ≠ 2 * n ∧ slot ≠ 2 * n + 1) :
    Reflects input hidden (slots.insert slot pos) captures where
  inside := by
    intro other pos' look
    rw [Std.TreeMap.getElem?_insert] at look
    split at look
    · cases look
      exact le
    · exact h.inside other pos' look
  kept := by
    intro n hn
    rw [← h.kept n hn]
    exact keptText_congr (getElem?_insert_of_ne (free n hn).1) (getElem?_insert_of_ne (free n hn).2)

theorem Reflects.hide {slots : Std.TreeMap ℕ ℕ} {captures : Captures} {more : Set ℕ}
    (h : Reflects input hidden slots captures) (sub : hidden ⊆ more) :
    Reflects input more slots captures where
  inside := h.inside
  kept := fun n hn => h.kept n fun mem => hn (sub mem)

/-- How slots may have changed on the way to a place: they reflect what has been captured there, and
only those that may be written differ. -/
structure Update (input : List Char) (hidden writes : Set ℕ) (t : Place)
    (slots slots' : Std.TreeMap ℕ ℕ) : Prop where
  reflects : Reflects input hidden slots' t.captures
  others : ∀ slot ∉ writes, slots'[slot]? = slots[slot]?

theorem Update.trans {t u : Place} {slots slots' slots'' : Std.TreeMap ℕ ℕ}
    (first : Update input hidden writes t slots slots')
    (second : Update input hidden writes u slots' slots'') :
    Update input hidden writes u slots slots'' where
  reflects := second.reflects
  others := fun slot hs => (second.others slot hs).trans (first.others slot hs)

/-- A slot is written first, then a stretch is carried out, then another one. -/
theorem Update.after_insert {inner : Set ℕ} {slot pos : ℕ} {t u : Place}
    {slots slots' slots'' : Std.TreeMap ℕ ℕ}
    (first : Update input hidden inner t (slots.insert slot pos) slots')
    (second : Update input hidden writes u slots' slots'') (sub : insert slot inner ⊆ writes) :
    Update input hidden writes u slots slots'' where
  reflects := second.reflects
  others := by
    intro other ho
    have ne : slot ≠ other := fun eq => ho (sub (eq ▸ Set.mem_insert slot inner))
    have outside : other ∉ inner := fun mem => ho (sub (Set.mem_insert_of_mem slot mem))
    rw [second.others other ho, first.others other outside, getElem?_insert_of_ne ne]

theorem Update.refl {t : Place} {slots : Std.TreeMap ℕ ℕ}
    (h : Reflects input hidden slots t.captures) : Update input hidden writes t slots slots where
  reflects := h
  others := fun _ _ => rfl

/-! ## Slots of a group -/

/-- Where a group opens, its start is kept and its number hidden. -/
theorem reflects_opened {slots : Std.TreeMap ℕ ℕ} {captures : Captures} {pos : ℕ} (n : ℕ)
    (h : Reflects input hidden slots captures) (le : pos ≤ input.length) :
    Reflects input (insert n hidden) (slots.insert (2 * n) pos) captures := by
  refine (h.hide (Set.subset_insert n hidden)).insert le fun m hm => ?_
  have ne : m ≠ n := fun eq => hm (eq ▸ Set.mem_insert n hidden)
  omega

/-- Where a group closes, its end is kept, and if no inner group has written to its start, the slots
show the text in between. -/
theorem Update.closed {inner : Set ℕ} {n pos : ℕ} {t : Place} {slots slots' : Std.TreeMap ℕ ℕ}
    (update : Update input (insert n hidden) inner t (slots.insert (2 * n) pos) slots')
    (le : pos ≤ t.pos) (inside : t.pos ≤ input.length) (own : n ∈ hidden ∨ 2 * n ∉ inner)
    (sub : insert (2 * n) (insert (2 * n + 1) inner) ⊆ writes) :
    Update input hidden writes
      ⟨t.pos, Function.update t.captures n (some (input.extract pos t.pos))⟩ slots
      (slots'.insert (2 * n + 1) t.pos) := by
  have reflects :
      Reflects input (insert n hidden) (slots'.insert (2 * n + 1) t.pos) t.captures := by
    refine update.reflects.insert inside fun m hm => ?_
    have ne : m ≠ n := fun eq => hm (eq ▸ Set.mem_insert n hidden)
    omega
  refine ⟨⟨reflects.inside, fun m hm => ?_⟩, fun other ho => ?_⟩
  · show keptText input _ m = Function.update t.captures n _ m
    by_cases eq : m = n
    · subst eq
      -- the start that was written where the group opened is still there
      have first : (slots'.insert (2 * m + 1) t.pos)[2 * m]? = some pos := by
        rw [getElem?_insert_of_ne (by omega), update.others _ (own.resolve_left hm),
          Std.TreeMap.getElem?_insert_self]
      rw [keptText, first, Std.TreeMap.getElem?_insert_self, Function.update_self]
      exact if_pos le
    · rw [reflects.kept m (by simp [eq, hm]), Function.update_of_ne eq]
  · have ne₁ : 2 * n ≠ other := fun eq => ho (sub (by simp [eq]))
    have ne₂ : 2 * n + 1 ≠ other := fun eq => ho (sub (by simp [eq]))
    rw [getElem?_insert_of_ne ne₂, update.others other fun mem => ho (sub (by simp [mem])),
      getElem?_insert_of_ne ne₁]

/-! ## Realizing a passage -/

/-- The code from `a` up to `b` realizes a passage: a run that enters it at a place leaves it at
some place to which the passage leads, and it can do so at any such place. -/
structure Realizes (p : Program) (input : List Char) (hidden writes : Set ℕ) (a b : ℕ)
    (D : Passage) : Prop where
  /-- The passage leads on and stays inside the input. -/
  forward : ∀ {s t : Place}, s.pos ≤ input.length → D s t → s.pos ≤ t.pos ∧ t.pos ≤ input.length
  /-- An accepting run leaves the code at a place to which the passage leads. -/
  sound : ∀ {s : Place} {slots : Std.TreeMap ℕ ℕ}, s.pos ≤ input.length →
    Reflects input hidden slots s.captures → p.Accepts input.toArray ⟨a, s.pos, slots⟩ →
    ∃ t slots', D s t ∧ Update input hidden writes t slots slots' ∧
      p.Accepts input.toArray ⟨b, t.pos, slots'⟩
  /-- Where the passage leads, a run can leave the code and go on accepting. -/
  complete : ∀ {s t : Place} {slots : Std.TreeMap ℕ ℕ}, s.pos ≤ input.length →
    Reflects input hidden slots s.captures → D s t →
    ∃ slots', Update input hidden writes t slots slots' ∧
      (p.Accepts input.toArray ⟨b, t.pos, slots'⟩ → p.Accepts input.toArray ⟨a, s.pos, slots⟩)

namespace Realizes

variable {a b c : ℕ} {D D₁ D₂ : Passage}

theorem congr {D' : Passage} (h : Realizes p input hidden writes a b D)
    (iff : ∀ s t, D s t ↔ D' s t) : Realizes p input hidden writes a b D' := by
  have eq : D = D' := by
    funext s t
    exact propext (iff s t)
  rwa [← eq]

/-- Code may be said to write more slots than it does. -/
theorem mono {more : Set ℕ} (h : Realizes p input hidden writes a b D) (sub : writes ⊆ more) :
    Realizes p input hidden more a b D where
  forward := h.forward
  sound := by
    intro s slots inside reflects accepts
    obtain ⟨t, slots', passage, update, accepts⟩ := h.sound inside reflects accepts
    exact ⟨t, slots', passage,
      ⟨update.reflects, fun slot hs => update.others slot fun mem => hs (sub mem)⟩, accepts⟩
  complete := by
    intro s t slots inside reflects passage
    obtain ⟨slots', update, accepts⟩ := h.complete inside reflects passage
    exact ⟨slots', ⟨update.reflects, fun slot hs => update.others slot fun mem => hs (sub mem)⟩,
      accepts⟩

/-- No code stays where it is. -/
theorem skip (a : ℕ) : Realizes p input hidden writes a a (fun s t => s = t) where
  forward := by
    rintro s _ inside rfl
    exact ⟨le_rfl, inside⟩
  sound := fun {s slots} _ reflects accepts => ⟨s, slots, rfl, .refl reflects, accepts⟩
  complete := by
    rintro s _ slots - reflects rfl
    exact ⟨slots, .refl reflects, id⟩

/-- Code that reads characters and writes no slot. -/
theorem of_reads (chars : Place → List Char → Prop)
    (step : ∀ (s : Place) (slots : Std.TreeMap ℕ ℕ), s.pos ≤ input.length →
      Reflects input hidden slots s.captures →
      (p.Accepts input.toArray ⟨a, s.pos, slots⟩ ↔
        ∃ w, chars s w ∧ w <+: input.drop s.pos ∧
          p.Accepts input.toArray ⟨b, s.pos + w.length, slots⟩)) :
    Realizes p input hidden writes a b (fun s t => ∃ w, chars s w ∧ Reads input w s t) where
  forward := by
    rintro s t inside ⟨w, -, pre, rfl⟩
    have := pre.length_le
    rw [List.length_drop] at this
    simp only
    omega
  sound := by
    intro s slots inside reflects accepts
    obtain ⟨w, hw, pre, accepts⟩ := (step s slots inside reflects).1 accepts
    exact ⟨⟨s.pos + w.length, s.captures⟩, slots, ⟨w, hw, pre, rfl⟩, .refl reflects, accepts⟩
  complete := by
    rintro s t slots inside reflects ⟨w, hw, pre, rfl⟩
    exact ⟨slots, .refl reflects, fun accepts =>
      (step s slots inside reflects).2 ⟨w, hw, pre, accepts⟩⟩

/-- Instructions that read the characters of a text. -/
theorem chars {text : List Char}
    (insts : ∀ k x, text[k]? = some x → p.insts[a + k]? = some (.char x)) :
    Realizes p input hidden writes a (a + text.length) (Reads input text) := by
  have accepts (pos : ℕ) (slots : Std.TreeMap ℕ ℕ) :
      p.Accepts input.toArray ⟨a, pos, slots⟩ ↔ text <+: input.drop pos ∧
        p.Accepts input.toArray ⟨a + text.length, pos + text.length, slots⟩ := by
    induction text generalizing a pos with
    | nil => simp
    | cons x text ih =>
      have rest : ∀ k y, text[k]? = some y → p.insts[a + 1 + k]? = some (.char y) := by
        intro k y hy
        rw [Nat.add_assoc, Nat.add_comm 1]
        exact insts (k + 1) y (by simpa using hy)
      have first : p.insts[a]? = some (.char x) := insts 0 x rfl
      rw [Program.accepts_char first, ih rest, List.getElem?_toArray,
        List.length_cons, Nat.add_assoc, Nat.add_assoc, Nat.add_comm 1 text.length, ← and_assoc]
      refine and_congr_left fun _ => ?_
      rw [← List.head?_drop, ← List.tail_drop]
      rcases input.drop pos with _ | ⟨y, rest⟩
      · simp
      · simp [List.cons_prefix_cons, eq_comm]
  refine (of_reads (fun _ w => w = text) fun s slots _ _ => ?_).congr fun s t => ?_
  · rw [accepts]
    simp
  · simp

/-- An instruction that reads a character of a set. -/
theorem set {index : ℕ} {set : CharSet} (inst : p.insts[a]? = some (.set index))
    (listed : p.sets[index]? = some set) :
    Realizes p input hidden writes a (a + 1)
      (fun s t => ∃ c, set.accepts c = true ∧ Reads input [c] s t) := by
  refine (of_reads (fun _ w => ∃ c, set.accepts c = true ∧ w = [c])
    fun s slots _ _ => ?_).congr fun s t => ?_
  · rw [Program.accepts_set inst listed, List.getElem?_toArray, ← List.head?_drop]
    constructor
    · rintro ⟨⟨c, head, ok⟩, accepts⟩
      refine ⟨[c], ⟨c, ok, rfl⟩, ?_, accepts⟩
      rw [List.head?_eq_some_iff] at head
      obtain ⟨rest, eq⟩ := head
      exact ⟨rest, eq.symm⟩
    · rintro ⟨_, ⟨c, ok, rfl⟩, ⟨rest, eq⟩, accepts⟩
      exact ⟨⟨c, by rw [← eq]; rfl, ok⟩, accepts⟩
  · constructor
    · rintro ⟨_, ⟨c, ok, rfl⟩, reads⟩
      exact ⟨c, ok, reads⟩
    · rintro ⟨c, ok, reads⟩
      exact ⟨[c], ⟨c, ok, rfl⟩, reads⟩

/-- An instruction that reads the text of a visible group again. -/
theorem backref {n : ℕ} (inst : p.insts[a]? = some (.backref n))
    (lt : 2 * n + 1 < p.slotCount) (visible : n ∉ hidden) :
    Realizes p input hidden writes a (a + 1)
      (fun s t => ∃ w, s.captures n = some w ∧ Reads input w s t) := by
  refine of_reads _ fun s slots within reflects => ?_
  obtain ⟨first, last⟩ := Program.groupSlots_eq lt
  rw [Program.accepts_backref inst, first, last, ← reflects.kept n visible]
  constructor
  · rintro ⟨start, stop, first, second, ⟨le, again⟩, accepts⟩
    have inside := reflects.inside _ _ second
    refine ⟨input.extract start stop, ?_, (Program.repeats_iff le inside within).1 again, ?_⟩
    · rw [keptText, first, second]
      exact if_pos le
    · rwa [List.extract_eq_take_drop, List.length_take, List.length_drop,
        Nat.min_eq_left (Nat.sub_le_sub_right inside start)]
  · rintro ⟨w, kept, pre, accepts⟩
    unfold keptText at kept
    split at kept
    · next start stop first second =>
      split at kept
      · next le =>
        cases kept
        have inside := reflects.inside _ _ second
        refine ⟨start, stop, first, second, ⟨le, (Program.repeats_iff le inside within).2 pre⟩, ?_⟩
        rwa [List.extract_eq_take_drop, List.length_take, List.length_drop,
          Nat.min_eq_left (Nat.sub_le_sub_right inside start)] at accepts
      · cases kept
    · cases kept

/-- Two stretches one after the other. -/
theorem seq (first : Realizes p input hidden writes a b D₁)
    (second : Realizes p input hidden writes b c D₂) :
    Realizes p input hidden writes a c (Relation.Comp D₁ D₂) where
  forward := by
    rintro s u inside ⟨t, hst, htu⟩
    obtain ⟨le, inside⟩ := first.forward inside hst
    obtain ⟨le', inside⟩ := second.forward inside htu
    exact ⟨le.trans le', inside⟩
  sound := by
    intro s slots inside reflects accepts
    obtain ⟨t, slots', hst, update, accepts⟩ := first.sound inside reflects accepts
    obtain ⟨u, slots'', htu, update', accepts⟩ :=
      second.sound (first.forward inside hst).2 update.reflects accepts
    exact ⟨u, slots'', ⟨t, hst, htu⟩, update.trans update', accepts⟩
  complete := by
    rintro s u slots inside reflects ⟨t, hst, htu⟩
    obtain ⟨slots', update, back⟩ := first.complete inside reflects hst
    obtain ⟨slots'', update', back'⟩ :=
      second.complete (first.forward inside hst).2 update.reflects htu
    exact ⟨slots'', update.trans update', back ∘ back'⟩

/-- A split in front of one stretch, which a jump at its end takes past a second one. -/
theorem choice {first second : ℕ} (split : p.insts[a]? = some (.split (a + 1) second))
    (left : Realizes p input hidden writes (a + 1) first D₁)
    (jump : p.insts[first]? = some (.jump b))
    (right : Realizes p input hidden writes second b D₂) :
    Realizes p input hidden writes a b (fun s t => D₁ s t ∨ D₂ s t) where
  forward := by
    rintro s t inside (h | h)
    · exact left.forward inside h
    · exact right.forward inside h
  sound := by
    intro s slots inside reflects accepts
    rcases (Program.accepts_split split).1 accepts with accepts | accepts
    · obtain ⟨t, slots', h, update, accepts⟩ := left.sound inside reflects accepts
      exact ⟨t, slots', Or.inl h, update, (Program.accepts_jump jump).1 accepts⟩
    · obtain ⟨t, slots', h, update, accepts⟩ := right.sound inside reflects accepts
      exact ⟨t, slots', Or.inr h, update, accepts⟩
  complete := by
    rintro s t slots inside reflects (h | h)
    · obtain ⟨slots', update, back⟩ := left.complete inside reflects h
      exact ⟨slots', update, fun accepts => (Program.accepts_split split).2
        (Or.inl (back ((Program.accepts_jump jump).2 accepts)))⟩
    · obtain ⟨slots', update, back⟩ := right.complete inside reflects h
      exact ⟨slots', update, fun accepts => (Program.accepts_split split).2 (Or.inr (back accepts))⟩

/-- A split in front of a stretch that may be left out. -/
theorem optional (split : p.insts[a]? = some (.split (a + 1) b))
    (body : Realizes p input hidden writes (a + 1) b D) :
    Realizes p input hidden writes a b (fun s t => D s t ∨ s = t) where
  forward := by
    rintro s t inside (h | rfl)
    · exact body.forward inside h
    · exact ⟨le_rfl, inside⟩
  sound := by
    intro s slots inside reflects accepts
    rcases (Program.accepts_split split).1 accepts with accepts | accepts
    · obtain ⟨t, slots', h, update, accepts⟩ := body.sound inside reflects accepts
      exact ⟨t, slots', Or.inl h, update, accepts⟩
    · exact ⟨s, slots, Or.inr rfl, .refl reflects, accepts⟩
  complete := by
    rintro s t slots inside reflects (h | rfl)
    · obtain ⟨slots', update, back⟩ := body.complete inside reflects h
      exact ⟨slots', update, fun accepts => (Program.accepts_split split).2 (Or.inl (back accepts))⟩
    · exact ⟨slots, .refl reflects, fun accepts => (Program.accepts_split split).2 (Or.inr accepts)⟩

/-- A stretch carried out any number of times.  A slot of its own sees to it that each time reads
something. -/
theorem loop {R : Expr → Passage} {e : Expr} {inner : Set ℕ} {slot x : ℕ}
    (split : p.insts[a]? = some (.split (a + 1) b))
    (save : p.insts[a + 1]? = some (.save slot))
    (body : Realizes p input hidden inner (a + 2) x (R e))
    (progress : p.insts[x]? = some (.progress slot))
    (jump : p.insts[x + 1]? = some (.jump a))
    (own : slot ∉ inner) (free : ∀ n ∉ hidden, slot ≠ 2 * n ∧ slot ≠ 2 * n + 1)
    (sub : insert slot inner ⊆ writes) :
    Realizes p input hidden writes a b (fun s t => ∃ k, Advancing R (List.replicate k e) s t) where
  forward := by
    rintro s t inside ⟨k, h⟩
    induction k generalizing s with
    | zero =>
      cases h
      exact ⟨le_rfl, inside⟩
    | succ k ih =>
      cases h with
      | cons first _ others =>
        obtain ⟨le, inside⟩ := body.forward inside first
        obtain ⟨le', inside⟩ := ih inside others
        exact ⟨le.trans le', inside⟩
  sound := by
    -- by induction on what is left to read, which is less after each time
    intro s slots inside reflects accepts
    induction left : input.length - s.pos using Nat.strong_induction_on generalizing s slots with
    | _ left ih =>
      rcases (Program.accepts_split split).1 accepts with accepts | accepts
      · rw [Program.accepts_save save] at accepts
        obtain ⟨t, slots', first, update, accepts⟩ :=
          body.sound inside (reflects.insert inside free) accepts
        -- the slot still holds where this time began
        rw [Program.accepts_progress progress, Program.accepts_jump jump,
          update.others slot own, Std.TreeMap.getElem?_insert_self] at accepts
        obtain ⟨le, inside'⟩ := body.forward inside first
        have lt : s.pos < t.pos := by
          refine Nat.lt_of_le_of_ne le fun eq => accepts.1 ?_
          rw [eq]
        obtain ⟨u, slots'', ⟨k, others⟩, update', accepts⟩ :=
          ih _ (by omega) inside' update.reflects accepts.2 rfl
        exact ⟨u, slots'', ⟨k + 1, .cons first lt others⟩, update.after_insert update' sub, accepts⟩
      · exact ⟨s, slots, ⟨0, .nil s⟩, .refl reflects, accepts⟩
  complete := by
    rintro s u slots inside reflects ⟨k, h⟩
    induction k generalizing s slots with
    | zero =>
      cases h
      exact ⟨slots, .refl reflects, fun accepts =>
        (Program.accepts_split split).2 (Or.inr accepts)⟩
    | succ k ih =>
      cases h with
      | @cons _ _ _ t _ first lt others =>
        obtain ⟨slots', update, back⟩ :=
          body.complete inside (reflects.insert inside free) first
        obtain ⟨slots'', update', back'⟩ :=
          ih (body.forward inside first).2 update.reflects others
        refine ⟨slots'', update.after_insert update' sub, fun accepts => ?_⟩
        rw [Program.accepts_split split, Program.accepts_save save]
        refine Or.inl (back ?_)
        rw [Program.accepts_progress progress, Program.accepts_jump jump,
          update.others slot own, Std.TreeMap.getElem?_insert_self]
        refine ⟨fun eq => ?_, back' accepts⟩
        exact lt.ne (Option.some.inj eq)

/-- A stretch between two instructions that keep where it begins and where it ends.  Inside of it
the number is hidden. -/
theorem capture {inner : Set ℕ} {n x : ℕ} (start : p.insts[a]? = some (.save (2 * n)))
    (body : Realizes p input (insert n hidden) inner (a + 1) x D)
    (stop : p.insts[x]? = some (.save (2 * n + 1)))
    (own : n ∈ hidden ∨ 2 * n ∉ inner)
    (sub : insert (2 * n) (insert (2 * n + 1) inner) ⊆ writes) :
    Realizes p input hidden writes a (x + 1) (fun s u => ∃ t, D s t ∧
      u = ⟨t.pos, Function.update t.captures n (some (input.extract s.pos t.pos))⟩) where
  forward := by
    rintro s _ inside ⟨t, h, rfl⟩
    exact body.forward (t := t) inside h
  sound := by
    intro s slots inside reflects accepts
    rw [Program.accepts_save start] at accepts
    obtain ⟨t, slots', h, update, accepts⟩ :=
      body.sound inside (reflects_opened n reflects inside) accepts
    rw [Program.accepts_save stop] at accepts
    obtain ⟨le, inside'⟩ := body.forward inside h
    exact ⟨_, _, ⟨t, h, rfl⟩, update.closed le inside' own sub, accepts⟩
  complete := by
    rintro s _ slots inside reflects ⟨t, h, rfl⟩
    obtain ⟨slots', update, back⟩ := body.complete inside (reflects_opened n reflects inside) h
    obtain ⟨le, inside'⟩ := body.forward inside h
    refine ⟨_, update.closed le inside' own sub, fun accepts => ?_⟩
    rw [Program.accepts_save start]
    exact back ((Program.accepts_save stop).2 accepts)

end Realizes

end PatternSampler
