/-
# Reading any text is safe

Whatever the text is, reading it ends, with a pattern or with a fault at a place in the text.  On
the way every call of a reader stands in the text, every piece that is read takes something away, a
marker is skipped only where there is one, and no operation on a set is given a character that sets
cannot hold or a range whose ends are not in order.  All this holds of readings that fail as well.

* `Call.text_of_mem_calls`, `Call.Within.text` : where calls stand, whether or not they end.
* `Reading.operations` : what is listed in a set while its brackets are read.
* `Call.Safe` : what holds of every call of a reading.
* `Compiled.ofPattern?_safe` : reading any text.
-/
import PatternSampler.Proofs.CharSet.Account
import PatternSampler.Proofs.Reading.Faults
import PatternSampler.Proofs.Reading.Items
import PatternSampler.Proofs.Reading.Position

namespace PatternSampler

namespace Reading

variable {cs rest : List Char}

namespace Call

variable {C C' : Call} {ids : List ℕ} {d : Draft}

/-! ## Where calls stand -/

/-- A call that is made goes on in the same text, or it is made on what a macro stands for. -/
theorem text_of_mem_calls (mem : C' ∈ C.calls) :
    (C'.expanding = C.expanding ∧ C'.text <:+ C.text) ∨
      (C'.expanding = true ∧ ∃ name text, expansion? name = some text ∧ C'.text = text.toList) := by
  obtain ⟨expanding, level, cs, d⟩ := C
  unfold calls at mem
  cases level with
  | atom =>
    dsimp only at mem
    split at mem
    · next tail =>
      left
      unfold onInside at mem
      split at mem
      · next kind inside head =>
        obtain ⟨_, -, rfl⟩ := List.mem_map.1 mem
        exact ⟨rfl, (readGroupHead_suffix head).trans (List.suffix_cons '(' tail)⟩
      · cases mem
    · right
      unfold onExpansion at mem
      split at mem
      · next name _ _ =>
        split at mem
        · cases mem
        · obtain ⟨text, expands, rfl⟩ := List.mem_map.1 mem
          exact ⟨rfl, name, text, Option.mem_toList.1 expands, rfl⟩
      · cases mem
  | piece =>
    rw [List.mem_singleton.1 mem]
    exact .inl ⟨rfl, skipMarker_suffix _ _⟩
  | pieces =>
    left
    dsimp only at mem
    split at mem
    · cases mem
    · rcases List.mem_cons.1 mem with rfl | mem
      · exact ⟨rfl, List.suffix_rfl⟩
      · obtain ⟨⟨ids, rest, d'⟩, outcome, rfl⟩ := List.mem_map.1 mem
        have ends := outcome?_eq_some_iff.1 (Option.mem_toList.1 outcome)
        exact ⟨rfl, ends.suffix⟩
  | branches =>
    left
    rcases List.mem_cons.1 mem with rfl | mem
    · exact ⟨rfl, List.suffix_rfl⟩
    · obtain ⟨⟨ids, rest, d'⟩, outcome, mem⟩ := List.mem_flatMap.1 mem
      have ends := outcome?_eq_some_iff.1 (Option.mem_toList.1 outcome)
      unfold onFurther at mem
      split at mem
      · next tail _ eq =>
        cases eq
        obtain ⟨_, -, rfl⟩ := List.mem_map.1 mem
        exact ⟨rfl, (List.suffix_cons '|' tail).trans ends.suffix⟩
      · cases mem

/-- **The calls of a reading stand in its text**, or in what a macro stands for, whether or not they
end. -/
theorem Within.text (within : C'.Within C) (outside : C.expanding = false) :
    (C'.expanding = false ∧ C'.text <:+ C.text) ∨
      (C'.expanding = true ∧ ∃ name text, expansion? name = some text ∧
        C'.text <:+ text.toList) := by
  induction within with
  | refl => exact .inl ⟨outside, List.suffix_rfl⟩
  | tail _ mem ih =>
    rcases text_of_mem_calls mem with ⟨same, text⟩ | ⟨on, name, text, expands, eq⟩
    · rcases ih with ⟨off, text'⟩ | ⟨on, name, expansion, expands, text'⟩
      · exact .inl ⟨same.trans off, text.trans text'⟩
      · exact .inr ⟨same.trans on, name, expansion, expands, text.trans text'⟩
    · exact .inr ⟨on, name, text, expands, eq ▸ List.suffix_rfl⟩

/-- A call meets a fault. -/
def Fails (C : Call) (e : Fault) (d : Draft) : Prop :=
  reader C.known C.text C.level C.draft = .error e d

/-- **A fault is noticed in the text of the call.** -/
theorem Fails.remaining_le {e : Fault} (h : C.Fails e d) : e.remaining ≤ C.text.length := by
  have faultsIn : Reader.FaultsIn C.text.length (reader C.known C.text C.level) := by
    cases C.level with
    | atom => exact (atom_faultsIn _ _).bind fun _ => .pure _
    | piece => exact (piece_faultsIn _ _).bind fun _ => .pure _
    | pieces => exact (pieces_faultsIn _ _).bind fun _ => .pure _
    | branches =>
      refine (branch_faultsIn _ _).bind fun (first, ⟨rest, le⟩) => ?_
      exact ((furtherBranches_faultsIn _ rest).mono le).bind fun _ => .pure _
  exact faultsIn C.draft e d h

end Call

/-- A marker is skipped only where there is one. -/
theorem exists_of_marker
    (h : atMarker cs = true ∨ atQuantifierMarker cs = true ∨ atClosingMarker cs = true) :
    ∃ rest, cs = '\\' :: 'i' :: rest := by
  rcases h with h | h | h
  · exact atMarker_iff.1 h
  · obtain ⟨c, rest, rfl, -⟩ := atQuantifierMarker_iff.1 h
    exact ⟨c :: rest, rfl⟩
  · obtain ⟨rest, rfl, -⟩ := atClosingMarker_iff.1 h
    exact ⟨rest, rfl⟩

/-! ## What is listed in sets -/

/-- The items that are read up to the closing bracket, to the first fault or to the end of the
text. -/
def itemsRead (cs : List Char) : List ClassItem :=
  match cs with
  | [] => []
  | ']' :: _ => []
  | c :: tail =>
    match _ : readItem (c :: tail) with
    | .error _ => []
    | .ok (item, rest) => item :: itemsRead rest
termination_by cs.length
decreasing_by exact readItem_length (by assumption)

/-- What is listed in the set while the text behind its opening bracket is read, whether or not the
set is closed. -/
def operations (cs : List Char) : List ClassItem :=
  (leadingItem (behindCaret cs)).1 ++ itemsRead (leadingItem (behindCaret cs)).2

theorem fits_itemsRead (cs : List Char) : ∀ item ∈ itemsRead cs, item.Fits := by
  fun_induction itemsRead cs with
  | case1 => exact List.forall_mem_nil _
  | case2 => exact List.forall_mem_nil _
  | case3 => exact List.forall_mem_nil _
  | case4 c tail _ item rest read ih => exact List.forall_mem_cons.2 ⟨fits_of_readItem read, ih⟩

/-- **Only what sets can hold is listed**, in a set that is closed or not. -/
theorem fits_operations (cs : List Char) : ∀ item ∈ operations cs, item.Fits := by
  have leading (cs : List Char) : ∀ item ∈ (leadingItem cs).1, item.Fits := by
    unfold leadingItem
    split
    · exact List.forall_mem_singleton.2 (by decide)
    · exact List.forall_mem_singleton.2 (by decide)
    · exact List.forall_mem_nil _
  exact List.forall_mem_append.2 ⟨leading _, fits_itemsRead _⟩

/-- The items of a set that is closed are those that have been read. -/
theorem eq_itemsRead {unclosed : Fault} {items : List ClassItem}
    (h : readItems unclosed cs = .ok (items, rest)) : items = itemsRead cs := by
  fun_induction readItems unclosed cs generalizing items with
  | case1 => cases h
  | case2 =>
    cases h
    rw [itemsRead]
  | case3 => cases h
  | case4 c tail closing item left read ih =>
    obtain ⟨⟨more, stop⟩, others, h⟩ := bind_eq_ok.1 h
    cases h
    rw [itemsRead]
    · split
      · next failed => cases read.symm.trans failed
      · next read' =>
        cases read.symm.trans read'
        rw [ih others]
    · exact closing

/-- The set of an atom was built by checked operations that did not fail. -/
structure BuiltSafely (set : CharSet) (origin : CharSet.Origin) (items : List ClassItem) : Prop where
  fits : ∀ item ∈ items, item.Fits
  build : CharSet.build? origin items = some set

theorem builtSafely_build (origin : CharSet.Origin) {items : List ClassItem}
    (fits : ∀ item ∈ items, item.Fits) :
    BuiltSafely (CharSet.build origin items) origin items :=
  ⟨fits, (CharSet.build?_eq_and_exact origin fits).1⟩

/-- The set in brackets is what the operations lead to. -/
theorem builtSafely_of_readBracket {unclosed : Fault} {set : CharSet}
    (h : readBracket unclosed cs = .ok (set, rest)) :
    BuiltSafely set (.empty (cs.head? != some '^')) (operations cs) := by
  obtain ⟨items, read, rfl⟩ := readBracket_eq_ok_iff.1 h
  rw [eq_itemsRead read]
  exact builtSafely_build (.empty (cs.head? != some '^')) (fits_operations cs)

/-- **The set of an atom is built safely**, be it that of a dot, a shorthand class or brackets. -/
theorem exists_builtSafely {set : CharSet} (h : readAtom cs = .ok (.set set, rest)) :
    ∃ origin items, BuiltSafely set origin items := by
  unfold readAtom at h
  split at h
  · cases h
  · obtain ⟨⟨name, left⟩, -, h⟩ := bind_eq_ok.1 h
    cases h
  · obtain ⟨⟨set', left⟩, read, h⟩ := bind_eq_ok.1 h
    cases h
    exact ⟨_, _, builtSafely_of_readBracket read⟩
  · obtain ⟨⟨escape, left⟩, -, h⟩ := bind_eq_ok.1 h
    cases escape with
    | shorthand kind =>
      obtain rfl := Atom.set.inj (Prod.mk.inj (Except.ok.inj h)).1
      have safe := builtSafely_build (.shorthand kind) (List.forall_mem_nil ClassItem.Fits)
      rw [CharSet.build, List.foldl_nil, CharSet.Origin.set] at safe
      exact ⟨.shorthand kind, [], safe⟩
    | _ => cases h
  · split at h
    · cases h
    split at h
    · obtain rfl := Atom.set.inj (Prod.mk.inj (Except.ok.inj h)).1
      have fits : ∀ item ∈ [ClassItem.range '\x00' '\x09', .range '\x0B' '\x7F'], item.Fits := by
        decide
      exact ⟨.empty true, _, builtSafely_build (.empty true) fits⟩
    split at h
    · cases h
    · cases h

end Reading

open Reading

/-! ## Whole patterns -/

/-- What holds of a call that is made while a pattern is read, whether the reading fails or not. -/
structure Reading.Call.Safe (pattern : String) (C : Call) : Prop where
  /-- The call stands in the pattern. -/
  text : C.expanding = false → C.text <:+ pattern.toList
  /-- Or it stands in what a macro stands for. -/
  expansion : C.expanding = true →
    ∃ name text, expansion? name = some text ∧ C.text <:+ text.toList
  /-- What it leaves is the end of its text. -/
  suffix : ∀ ids rest d, C.Ends ids rest d → rest <:+ C.text
  /-- A piece takes something away. -/
  shorter : C.level = .piece → ∀ ids rest d, C.Ends ids rest d → rest.length < C.text.length
  /-- A fault is noticed in the text. -/
  fault : ∀ e d, C.Fails e d → e.remaining ≤ C.text.length
  /-- Every operation on a set of brackets that begin here is one that sets allow, and up to any
  moment none of their checks fails. -/
  operations : ∀ cs, C.text = '[' :: cs → (∀ item ∈ operations cs, item.Fits) ∧
    ∀ count positive, ∃ set,
      CharSet.build? (.empty positive) ((Reading.operations cs).take count) = some set
  /-- The set of an atom is built by such operations. -/
  built : ∀ set rest, readAtom C.text = .ok (.set set, rest) →
    ∃ origin items, BuiltSafely set origin items

/-- Every call of a reading is safe. -/
theorem Reading.Call.Within.safe {pattern : String} {C : Call}
    (within : C.Within (Call.whole pattern)) : C.Safe pattern where
  text := by
    intro off
    rcases within.text rfl with ⟨-, text⟩ | ⟨on, -⟩
    · exact text
    · cases off.symm.trans on
  expansion := by
    intro on
    rcases within.text rfl with ⟨off, -⟩ | ⟨-, expansion⟩
    · cases off.symm.trans on
    · exact expansion
  suffix := fun _ _ _ ends => ends.suffix
  shorter := by
    obtain ⟨expanding, level, cs, d⟩ := C
    rintro rfl ids rest d' ends
    exact ends.length_lt
  fault := fun _ _ fails => fails.remaining_le
  operations := by
    intro cs _
    refine ⟨fits_operations cs, fun count positive => ?_⟩
    have fits : ∀ item ∈ (Reading.operations cs).take count, item.Fits :=
      fun item mem => fits_operations cs item (List.mem_of_mem_take mem)
    exact ⟨_, (builtSafely_build _ fits).build⟩
  built := fun _ _ read => exists_builtSafely read

/-- **Reading any text is safe.**  It ends with a pattern, and then all of the text has been read,
or with a fault, and then at a place in the text or at its end.  All calls on the way are safe, and
a marker is skipped only where there is one. -/
theorem Compiled.ofPattern?_safe (pattern : String) :
    ((∃ c ids d, ofPattern? pattern = .ok c ∧ (Call.whole pattern).Ends ids [] d) ∨
      ∃ position e d, ofPattern? pattern = .error (.unreadable position e.cause) ∧
        position ≤ pattern.length ∧ wholePattern expandMacro pattern.toList {} = .error e d ∧
        position + e.remaining = pattern.length) ∧
    (∀ C : Call, C.Within (Call.whole pattern) → C.Safe pattern) ∧
    ∀ cs, atMarker cs = true ∨ atQuantifierMarker cs = true ∨ atClosingMarker cs = true →
      ∃ rest, cs = '\\' :: 'i' :: rest := by
  refine ⟨?_, fun C within => within.safe, fun cs => exists_of_marker⟩
  have length : pattern.toList.length = pattern.length := String.length_toList
  rcases run : wholePattern expandMacro pattern.toList {} with ⟨root, d⟩ | ⟨e, d⟩
  · obtain ⟨first, more, d₁, ends, planted⟩ := Call.wholePattern_eq_ok_iff_runs.1 run
    exact .inl ⟨_, _, d₁, Call.ofPattern?_of_ends ends planted, ends⟩
  · have le := wholePattern_faultsIn expandMacro pattern.toList {} e d run
    refine .inr ⟨pattern.toList.length - e.remaining, e, d, ?_, by omega, rfl, by omega⟩
    rw [ofPattern?, Draft.read]
    simp only [run]

end PatternSampler
