/-
# Generated texts are matched

Each step of the generator is mirrored by a step of the matcher, provided that no node breaks its
own rule.  The induction is over expressions; what the generator remembers and what the matcher has
captured need to agree for known groups only, so the statement also covers a text that was
generated once and is used again.

* `Expr.offers` : what a generated text offers.
-/
import PatternSampler.Proofs.Generation.Draws

namespace PatternSampler

variable {σ : Type} [RandomSource σ] {g g' : GenerationState σ}

/-! ## Repetition -/

variable {input : List Char} {known settled : Set GroupKey} {R : Expr → Passage} {e : Expr}

/-- What carrying out a repetition leaves behind: the texts of its occurrences, the last of which
left what is remembered now. -/
structure Occurs (input : List Char) (known settled : Set GroupKey) (R : Expr → Passage) (e : Expr)
    (before after : Texts) (count : ℕ) (occs : List (List Char × Texts)) : Prop where
  length : occs.length = count
  each : ∀ occ ∈ occs, Offers input known settled before occ.2 occ.1 (R e)
  last : after = (occs.getLast?.map Prod.snd).getD before

theorem Occurs.unchanged {before after : Texts} {count : ℕ} {occs : List (List Char × Texts)}
    (h : Occurs input known settled R e before after count occs) :
    Unchanged known before after := by
  rw [h.last]
  rcases found : occs.getLast? with _ | occ
  · exact fun _ _ => rfl
  · exact (h.each occ (List.mem_of_getLast? found)).unchanged

theorem Occurs.nil (before : Texts) : Occurs input known settled R e before before 0 [] where
  length := rfl
  each := by simp
  last := rfl

theorem Occurs.cons {before between after : Texts} {count : ℕ} {chars : List Char}
    {occs : List (List Char × Texts)}
    (first : Offers input known settled before between chars (R e))
    (others : Occurs input known settled R e between after count occs) :
    Occurs input known settled R e before after (count + 1) ((chars, between) :: occs) where
  length := by rw [List.length_cons, others.length]
  each := by
    intro occ mem
    rcases List.mem_cons.1 mem with rfl | mem
    · exact first
    · exact (others.each occ mem).congr first.unchanged
  last := by
    rw [others.last]
    cases occs with
    | nil => rfl
    | cons occ occs =>
      rw [List.getLast?_cons_cons, List.getLast?_eq_some_getLast (List.cons_ne_nil occ occs)]
      rfl

/-- The same text again and again; each occurrence leaves the same behind. -/
theorem Occurs.replicate {before after : Texts} {chars : List Char}
    (offer : Offers input known settled before after chars (R e)) (count : ℕ) :
    Occurs input known settled R e before after (count + 1)
      (List.replicate (count + 1) (chars, after)) where
  length := List.length_replicate
  each := by
    intro occ mem
    rw [List.eq_of_mem_replicate mem]
    exact offer
  last := by
    rw [List.getLast?_replicate, if_neg (Nat.succ_ne_zero count)]
    rfl

theorem joined_replicate (count : ℕ) (chars : List Char) (texts : Texts) :
    joined (List.replicate count (chars, texts)) = (List.replicate count chars).flatten := by
  rw [joined, List.map_replicate]

omit [RandomSource σ] in
/-- Occurrences that are generated one by one. -/
theorem collect_eq_ok {action : Generating σ (List Char)}
    (offers : ∀ {g g' : GenerationState σ} {chars : List Char}, Remembered known g.texts →
      action g = .ok chars g' → Offers input known settled g.texts g'.texts chars (R e))
    (remembered : Remembered known g.texts) {count : ℕ} {reversed chars : List Char}
    (run : Generating.collect action count reversed g = .ok chars g') :
    ∃ occs, Occurs input known settled R e g.texts g'.texts count occs ∧
      chars = reversed.reverse ++ joined occs := by
  induction count generalizing reversed g with
  | zero =>
    cases run
    exact ⟨[], .nil _, (List.append_nil _).symm⟩
  | succ count ih =>
    obtain ⟨first, g₁, run₁, run⟩ := bind_eq_ok_iff.1 run
    have offer := offers remembered run₁
    obtain ⟨occs, occurs, rfl⟩ := ih (remembered.congr offer.unchanged) run
    refine ⟨(first, g₁.texts) :: occs, .cons offer occurs, ?_⟩
    rw [List.reverseAux_eq, List.reverse_append, List.reverse_reverse, List.append_assoc]
    rfl

omit [RandomSource σ] in
/-- A repetition of anything but a fixed text. -/
theorem generateTimes_eq_ok {action : Generating σ (List Char)}
    (offers : ∀ {g g' : GenerationState σ} {chars : List Char}, Remembered known g.texts →
      action g = .ok chars g' → Offers input known settled g.texts g'.texts chars (R e))
    (remembered : Remembered known g.texts) {same : Bool} {count : ℕ} {chars : List Char}
    (run : Expr.generateTimes false same count action g = .ok chars g') :
    ∃ occs, Occurs input known settled R e g.texts g'.texts count occs ∧ chars = joined occs := by
  unfold Expr.generateTimes at run
  rw [if_neg Bool.false_ne_true] at run
  by_cases zero : count = 0
  · rw [if_pos zero] at run
    cases run
    rw [zero]
    exact ⟨[], .nil _, rfl⟩
  rw [if_neg zero] at run
  cases same with
  | true =>
    rw [if_pos rfl] at run
    obtain ⟨first, g₁, run₁, run⟩ := bind_eq_ok_iff.1 run
    cases run
    obtain ⟨fewer, rfl⟩ := Nat.exists_eq_succ_of_ne_zero zero
    refine ⟨_, .replicate (offers remembered run₁) fewer, ?_⟩
    rw [joined_replicate, repeatText_eq]
  | false =>
    rw [if_neg Bool.false_ne_true] at run
    exact collect_eq_ok offers remembered run

namespace Expr

variable {settings : Settings}

/-- A repetition of a fixed text. -/
theorem generateTimes_text {id : ℕ} {text chars : List Char} {same : Bool} {count : ℕ}
    (offers : ∀ {g g' : GenerationState σ} {chars : List Char}, Remembered known g.texts →
      (Expr.text id text).unit.generate settings {} g = .ok chars g' →
        Offers input known settled g.texts g'.texts chars (R (Expr.text id text).unit))
    (remembered : Remembered known g.texts)
    (run : generateTimes true same count ((Expr.text id text).generate settings {}) g =
      .ok chars g') :
    ∃ occs, Occurs input known settled R (Expr.text id text).unit g.texts g'.texts count occs ∧
      chars = text.dropLast ++ joined occs := by
  unfold generateTimes at run
  rw [if_pos rfl] at run
  obtain ⟨first, g₁, run₁, run⟩ := bind_eq_ok_iff.1 run
  rw [generate] at run₁
  cases run₁
  cases run
  have last : (Expr.text id text).unit.generate settings {} g = .ok text.getLast?.toList g := by
    rw [unit, generate]
    rfl
  have offer := offers remembered last
  rw [repeatLast_eq]
  cases count with
  | zero => exact ⟨[], .nil _, rfl⟩
  | succ count =>
    refine ⟨_, .replicate offer count, ?_⟩
    rw [joined_replicate]

theorem generateTimes_unit {body : Expr} {chars : List Char} {same : Bool} {count : ℕ}
    (offers : ∀ {g g' : GenerationState σ} {chars : List Char}, Remembered known g.texts →
      body.unit.generate settings {} g = .ok chars g' →
        Offers input known settled g.texts g'.texts chars (R body.unit))
    (remembered : Remembered known g.texts)
    (run : generateTimes body.isText same count (body.generate settings {}) g = .ok chars g') :
    ∃ occs, Occurs input known settled R body.unit g.texts g'.texts count occs ∧
      chars = body.lead ++ joined occs := by
  cases body with
  | text id text => exact generateTimes_text offers remembered run
  | _ => exact generateTimes_eq_ok offers remembered run

/-! ## Expressions -/

/-- The texts of expressions one after the other. -/
theorem offers_generateAll {parts : List Expr} (ready : InTurn (Ready settings) known parts)
    (each : ∀ e ∈ parts, ∀ {known : Set GroupKey} {g g' : GenerationState σ} {chars : List Char},
      Ready settings known e → Remembered known g.texts → e.generate settings {} g = .ok chars g' →
        Offers input known e.settled g.texts g'.texts chars (Matches input e))
    (remembered : Remembered known g.texts) {chars : List Char}
    (run : generateAll settings {} parts g = .ok chars g') :
    Offers input known (settledAll parts) g.texts g'.texts chars
      (InOrder (Matches input) parts) := by
  induction parts generalizing known g chars with
  | nil =>
    rw [generateAll] at run
    cases run
    refine (Offers.reads _ []).map fun s t => ?_
    rintro ⟨-, rfl⟩
    exact .nil s
  | cons e es ih =>
    rw [generateAll] at run
    obtain ⟨first, g₁, run₁, run⟩ := bind_eq_ok_iff.1 run
    obtain ⟨others, g₂, run₂, run⟩ := bind_eq_ok_iff.1 run
    cases run
    cases ready with
    | cons head tail =>
      have left := each e List.mem_cons_self head remembered run₁
      have remembered' : Remembered (known ∪ e.settled) g₁.texts := by
        rintro key (mem | mem)
        · exact remembered.congr left.unchanged key mem
        · exact left.remembered key mem
      have right := ih tail (fun e he => each e (List.mem_cons_of_mem _ he)) remembered' run₂
      refine (left.seq right).map fun s u => ?_
      rintro ⟨t, first, others⟩
      exact .cons first others

omit [RandomSource σ] in
/-- Taking up a text for a group: the generator remembers it where the matcher captures it. -/
theorem offers_capture {id n : ℕ} {body : Expr} {before : Texts} {chars : List Char}
    (own : ∀ key ∈ known ∪ body.settled, key.1 ≠ id ∧ key.2 ≠ n)
    (h : Offers input known body.settled before g.texts chars (Matches input body)) :
    Offers input known (insert (id, n) body.settled) before
      (GenerationState.texts { g with captures := g.captures.insert id chars }) chars
      (Matches input (group id body (some n))) := by
  have texts (other : ℕ) :
      GenerationState.texts { g with captures := g.captures.insert id chars } other =
        if id = other then some chars else g.texts other := by
    simp [GenerationState.texts, Std.TreeMap.getElem?_insert]
  refine ⟨fun key mem => ?_, ?_, fun s pre agrees => ?_⟩
  · rw [texts, if_neg (own key (Or.inl mem)).1.symm]
    exact h.unchanged key mem
  · rintro key (rfl | mem)
    · exact ⟨chars, by rw [texts, if_pos rfl]⟩
    · rw [texts, if_neg (own key (Or.inr mem)).1.symm]
      exact h.remembered key mem
  · obtain ⟨t, run, reached, agrees'⟩ := h.leads s pre agrees
    -- what the matcher captures is what was read, that is, what was generated
    have again : input.extract s.pos t.pos = chars := by
      rw [reached.pos, List.extract_eq_take_drop, Nat.add_sub_cancel_left]
      exact (List.prefix_iff_eq_take.1 pre).symm
    refine ⟨_, .capture run, ⟨reached.pos, fun key mem => ?_⟩, ?_⟩
    · show Function.update t.captures n _ key.2 = _
      rw [Function.update_of_ne (own key (Or.inl mem)).2]
      exact reached.captures key mem
    · intro key mem
      show ∃ chars', _ ∧ Function.update t.captures n _ key.2 = some chars'
      by_cases self : key = (id, n)
      · rw [self]
        refine ⟨chars, ?_, ?_⟩
        · rw [texts, if_pos rfl]
        · rw [Function.update_self, again]
      · have mem' : key ∈ known ∪ body.settled := by
          rcases mem with mem | mem | mem
          · exact Or.inl mem
          · exact absurd mem self
          · exact Or.inr mem
        obtain ⟨chars', remembered, captured⟩ := agrees' key mem'
        refine ⟨chars', ?_, ?_⟩
        · rw [texts, if_neg (own key mem').1.symm, remembered]
        · rw [Function.update_of_ne (own key mem').2, captured]

/-- The occurrences of a repetition are matched by the repetition. -/
theorem offers_repetition {id : ℕ} {body : Expr} {bounds : Bounds} {same : Bool}
    {before after : Texts} {count : ℕ} {occs : List (List Char × Texts)}
    (allows : bounds.Allows count)
    (occurs : Occurs input known body.settled (Matches input) body.unit before after count occs) :
    Offers input known (repetition id body bounds same).settled before after
      (body.lead ++ joined occs) (Matches input (repetition id body bounds same)) := by
  have length : bounds.Allows occs.length := occurs.length.symm ▸ allows
  -- if the repetition settles anything, it has a last occurrence
  have last (least : 0 < bounds.least) : ∃ occ ∈ occs.getLast?, occ ∈ occs ∧ after = occ.2 := by
    have ne : occs ≠ [] := List.length_pos_iff.1 (least.trans_le length.1)
    have found := List.getLast?_eq_some_getLast ne
    refine ⟨occs.getLast ne, found, List.getLast_mem ne, ?_⟩
    rw [occurs.last, found]
    rfl
  refine ⟨occurs.unchanged, ?_, fun s pre agrees => ?_⟩
  · rintro key ⟨mem, least, -⟩
    obtain ⟨occ, -, mem', eq⟩ := last least
    rw [eq]
    exact (occurs.each occ mem').remembered key mem
  · obtain ⟨pre₁, pre₂⟩ := append_prefix_drop.1 pre
    obtain ⟨t, repeats, reached, agrees'⟩ := exists_repeats
      (s := ⟨s.pos + body.lead.length, s.captures⟩) length occurs.each pre₂ agrees
    have whole : Reached known (body.lead ++ joined occs) s t :=
      Reached.trans (t := ⟨s.pos + body.lead.length, s.captures⟩) ⟨rfl, fun _ _ => rfl⟩ reached
    refine ⟨t, matches_repetition_iff.2 ⟨_, ⟨pre₁, rfl⟩, repeats⟩, whole, ?_⟩
    rintro key (mem | ⟨mem, least, kept⟩)
    · exact (agrees.reached whole).congr occurs.unchanged key mem
    · obtain ⟨occ, found, -, eq⟩ := last least
      have grows (fills : body.fills = true) (s t : Place) (run : Matches input body.unit s t) :
          s.pos < t.pos := by
        have goesOn := run.goesOn
        rw [fills_unit, fills] at goesOn
        exact goesOn.lt
      rw [eq]
      exact agrees' (kept.imp_right grows) occ found key (Or.inr mem)

/-- **A generated text can be matched**, wherever the input goes on with it and the known groups
have captured what the generator remembers of them. -/
theorem offers {e : Expr} (ready : e.Ready settings known) (remembered : Remembered known g.texts)
    {chars : List Char} (run : e.generate settings {} g = .ok chars g') :
    Offers input known e.settled g.texts g'.texts chars (Matches input e) := by
  induction e using Expr.unit_induct generalizing known g g' chars with
  | text id text =>
    rw [generate] at run
    cases run
    exact (Offers.reads g.texts text).map fun s t => .text
  | set id s =>
    rw [generate] at run
    obtain ⟨c, g₁, run₁, run⟩ := bind_eq_ok_iff.1 run
    cases run
    obtain ⟨mem, texts⟩ := pick_eq_ok run₁
    have ok : s.accepts c = true := (CharSet.toNat_mem_candidates.1 mem).2
    rw [texts]
    exact (Offers.reads g.texts [c]).map fun s t => .set ok
  | concat id parts ih =>
    rw [generate] at run
    cases ready with
    | concat inTurn =>
      have offer := offers_generateAll inTurn
        (fun e he {_ _ _ _} ready remembered run => ih e he ready remembered run) remembered run
      exact offer.map fun s t => .concat
  | alternation id branches ih =>
    cases ready with
    | alternation ne all =>
      rw [generate] at run
      obtain ⟨n, g₁, drawn, run⟩ := bind_eq_ok_iff.1 run
      obtain ⟨texts, mem⟩ := draw_eq_ok drawn
      have lt := Span.mem_below.1 (mem (List.length_pos_iff.2 ne))
      obtain ⟨e, he, run⟩ := exists_generateNth lt run
      -- drawing the branch has left what is remembered as it was
      rw [← texts] at remembered
      have offer := ih e he (all e he) remembered run
      rw [texts] at offer
      exact (offer.map fun s t => .alternation he).weaken (Set.empty_subset _)
  | repetition id body bounds same ih =>
    cases ready with
    | repetition inner =>
      rw [generate] at run
      obtain ⟨count, g₁, drawn, run⟩ := bind_eq_ok_iff.1 run
      obtain ⟨within, texts⟩ := drawValid_eq_ok drawn
      have allows := bounds.allows_of_within within
      rw [← texts] at remembered
      obtain ⟨occs, occurs, rfl⟩ := generateTimes_unit
        (fun remembered run => ih inner.unit remembered run) remembered run
      rw [texts, settled_unit] at occurs
      exact offers_repetition allows occurs
  | group id body capture ih =>
    rw [generate] at run
    obtain ⟨text, g₁, run₁, run⟩ := bind_eq_ok_iff.1 run
    cases ready with
    | group inner =>
      cases run
      exact (ih inner remembered run₁).map fun s t => .group
    | @capture _ _ n _ inner own =>
      cases run
      exact offers_capture own (ih inner remembered run₁)
  | backref id target =>
    cases ready with
    | @backref _ _ gid n body mode mem =>
      -- the text that is remembered of the group is replayed, and it has been captured as well
      obtain ⟨last, found⟩ := remembered (gid, n) mem
      rw [generate, mode] at run
      obtain ⟨_, g₁, run₁, run⟩ := bind_eq_ok_iff.1 run
      cases run₁
      have look : g.captures[(group gid body (some n)).id]? = some last := found
      simp only [look] at run
      cases run
      refine ⟨fun _ _ => rfl, fun _ mem => absurd mem (Set.notMem_empty _), fun s pre agrees => ?_⟩
      obtain ⟨again, found', captured⟩ := agrees (gid, n) mem
      rw [Option.some.inj (found'.symm.trans found)] at captured
      obtain ⟨t, reads, reached, agrees'⟩ := (Offers.reads g.texts chars).leads s pre agrees
      exact ⟨t, .backref captured reads, reached, agrees'⟩

end Expr

end PatternSampler
