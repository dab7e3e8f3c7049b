import Mathlib.Data.List.Pairwise
import Mathlib.Logic.Relation
import BlockLang.Proofs.TypeConstruction

/-!
# Parts of storage

Storage for a value is cut up by selecting fields and elements, again and again. Different
selections from the same storage lie apart, and a chain of selections never comes back to
a type that it has left, since components stand before what they make up. So two parts of
the same type are the same part or have no word in common: an aggregate that is copied
word by word is not overwritten before it is read, whatever names source and target go by.

`TypeTable.sameType_eq_or_apart` says so of every table that operations can make.

* One selection: it lies within what it is selected from
  (`TypeTable.Built.selects_within`), and two of them are the same or lie apart
  (`TypeTable.Built.selects_apart`), fields because they tile their record and elements
  because they stand a whole element apart.
* Chains: a part has a lower number than the whole, or the same, and then it is the whole
  (`TypeTable.Built.part_eq_of_type`). `TypeTable.Built.part_apart` is by induction on one
  of the two chains: if the first selections differ the parts lie apart with them, and if
  not the chains go on from the same storage.
-/

namespace BlockLang

/-- The storage for a value of a type, from a word on. -/
structure Region where
  type : TypeId
  offset : Int
  deriving DecidableEq

namespace TypeTable

/-- The word behind the last one of a region. -/
def regionEnd (t : TypeTable) (s : Region) : Int := s.offset + t.size s.type

/-- One selection: a field of a record, also one that a field of the same name hides, or an
element of an array at an index within the bounds. -/
inductive Selects (t : TypeTable) (s : Region) : Region → Prop where
  | field {fields size f} : t.get? s.type = some (.record fields size) → f ∈ fields →
      Selects t s ⟨f.type, s.offset + f.offset⟩
  | element {element low high size} {i : Int} :
      t.get? s.type = some (.array element low high size) → low.toInt ≤ i → i ≤ high.toInt →
      Selects t s ⟨element, s.offset + (i - low.toInt) * t.size element⟩

/-- A part of a region, which a chain of selections leads to. -/
abbrev Part (t : TypeTable) : Region → Region → Prop := Relation.ReflTransGen t.Selects

/-- One region ends before the other begins. -/
def Apart (t : TypeTable) (a b : Region) : Prop :=
  t.regionEnd a ≤ b.offset ∨ t.regionEnd b ≤ a.offset

variable {t : TypeTable} {s a b : Region}

/-- A field of a record is selected. -/
theorem Selects.of_field? {name : String} {f : Field} (h : t.field? s.type name = some f) :
    t.Selects s ⟨f.type, s.offset + f.offset⟩ := by
  obtain ⟨d, hget, hf⟩ := Option.bind_eq_some_iff.mp h
  cases d with
  | integer | char | boolean | array => cases hf
  | record fields size => exact .field hget (List.mem_of_find?_eq_some hf)

/-! ## One selection -/

/-- What is selected is a component. -/
theorem Selects.contains (h : t.Selects s a) : t.Contains a.type s.type := by
  cases h with
  | field hget hf => exact ⟨_, hget, List.mem_map_of_mem hf⟩
  | element hget _ _ => exact ⟨_, hget, List.mem_singleton_self _⟩

/-- An element ends before the next one begins. -/
theorem mul_add_le_mul {size k l : Int} (hsize : 0 ≤ size) (h : k < l) :
    k * size + size ≤ l * size :=
  calc k * size + size = (k + 1) * size := by rw [Int.add_mul, Int.one_mul]
    _ ≤ l * size := Int.mul_le_mul_of_nonneg_right h hsize

/-- What is selected lies within what it is selected from. -/
theorem Built.selects_within (h : t.Built) (hs : t.Selects s a) :
    s.offset ≤ a.offset ∧ t.regionEnd a ≤ t.regionEnd s := by
  cases hs with
  | @field fields size f hget hf =>
    have hinside := ((h.types hget).tiles rfl).inside _ (List.mem_map_of_mem hf)
    simp only [regionEnd, size_of_get? hget, TypeDescriptor.size]
    omega
  | @element element low high size i hget hlow hhigh =>
    have hsize := h.size_nonneg element
    obtain ⟨-, htotal⟩ := (h.types hget).elements rfl
    have hstart := Int.mul_nonneg (Int.sub_nonneg_of_le hlow) hsize
    have hend :=
      mul_add_le_mul hsize (Int.lt_add_one_of_le (Int.sub_le_sub_right hhigh low.toInt))
    simp only [regionEnd, size_of_get? hget, TypeDescriptor.size, htotal]
    omega

/-- Of two fields of a record one ends before the other begins. -/
theorem Built.fields_apart (h : t.Built) {id : TypeId} {fields : List Field} {size : Int}
    (hget : t.get? id = some (.record fields size)) {f g : Field}
    (hf : f ∈ fields) (hg : g ∈ fields) (hne : f ≠ g) :
    f.offset + t.size f.type ≤ g.offset ∨ g.offset + t.size g.type ≤ f.offset := by
  have hordered := List.pairwise_map.mp ((h.types hget).tiles rfl).apart
  have heither : fields.Pairwise fun f g =>
      f.offset + t.size f.type ≤ g.offset ∨ g.offset + t.size g.type ≤ f.offset :=
        hordered.imp .inl
  have : Std.Symm fun f g : Field => f.offset + t.size f.type ≤ g.offset ∨
      g.offset + t.size g.type ≤ f.offset :=
    ⟨fun _ _ => Or.symm⟩
  exact heither.forall hf hg hne

/-- Different selections from the same storage lie apart. -/
theorem Built.selects_apart (h : t.Built) (ha : t.Selects s a) (hb : t.Selects s b) :
    a = b ∨ t.Apart a b := by
  cases ha with
  | @field fields size f hget hf =>
    cases hb with
    | @field fields' size' g hget' hg =>
      cases hget.symm.trans hget'
      by_cases hfg : f = g
      · exact .inl (by rw [hfg])
      · have happart := h.fields_apart hget hf hg hfg
        simp only [Apart, regionEnd]
        omega
    | element hget' _ _ => cases hget.symm.trans hget'
  | @element element low high size i hget hlow hhigh =>
    cases hb with
    | field hget' _ => cases hget.symm.trans hget'
    | @element element' low' high' size' j hget' hlow' hhigh' =>
      cases hget.symm.trans hget'
      have hsize := h.size_nonneg element
      simp only [Apart, regionEnd]
      rcases Int.lt_trichotomy i j with hlt | rfl | hgt
      · have hnext := mul_add_le_mul hsize (Int.sub_lt_sub_right hlt low.toInt)
        omega
      · exact .inl rfl
      · have hnext := mul_add_le_mul hsize (Int.sub_lt_sub_right hgt low.toInt)
        omega

/-! ## Chains -/

/-- A part lies within the whole. -/
theorem Built.part_within (h : t.Built) (hs : t.Part s a) :
    s.offset ≤ a.offset ∧ t.regionEnd a ≤ t.regionEnd s := by
  induction hs with
  | refl => exact ⟨Int.le_refl _, Int.le_refl _⟩
  | tail _ hstep ih =>
    have hwithin := h.selects_within hstep
    omega

/-- A chain of selections leads to types ever earlier in the table. -/
theorem Built.part_index_le (h : t.Built) (hs : t.Part s a) :
    a.type.index ≤ s.type.index := by
  induction hs with
  | refl => exact Nat.le_refl _
  | tail _ hstep ih =>
    obtain ⟨d, hget, hmem⟩ := hstep.contains
    exact Nat.le_trans (Nat.le_of_lt ((h.types hget).earlier _ hmem)) ih

/-- A part of the type of the whole is the whole. -/
theorem Built.part_eq_of_type (h : t.Built) (hs : t.Part s a) (htype : a.type = s.type) :
    a = s := by
  rcases hs.cases_head with rfl | ⟨s', hstep, hrest⟩
  · rfl
  · obtain ⟨d, hget, hmem⟩ := hstep.contains
    have hlt := (h.types hget).earlier _ hmem
    have hle := h.part_index_le hrest
    rw [htype] at hle
    omega

/-- Two parts of one type are the same or lie apart. -/
theorem Built.part_apart (h : t.Built) (ha : t.Part s a)
    (hb : t.Part s b) (htype : a.type = b.type) :
    a = b ∨ t.Apart a b := by
  induction ha using Relation.ReflTransGen.head_induction_on with
  | refl => exact .inl (h.part_eq_of_type hb htype.symm).symm
  | @head s s₁ hfirst ha ih =>
    rcases hb.cases_head with rfl | ⟨s₂, hfirst', hb⟩
    · exact .inl (h.part_eq_of_type (.head hfirst ha) htype)
    · rcases h.selects_apart hfirst hfirst' with rfl | hapart
      · exact ih hb
      · have hwithin := h.part_within ha
        have hwithin' := h.part_within hb
        simp only [Apart] at hapart ⊢
        omega

/-- **Parts of one type never overlap partially.** In a table of types after whatever
admissible operations, take storage for a value of any type, and two parts of it that have the
same type. They are the same part, or one ends before the other begins. -/
theorem sameType_eq_or_apart (ops : List TypeOp) (hops : AdmissibleAll {} ops)
    (whole a b : Region) (ha : (performAll {} ops).Part whole a)
    (hb : (performAll {} ops).Part whole b) (htype : a.type = b.type) :
    a = b ∨ (performAll {} ops).Apart a b :=
  (built_empty.performAll hops).1.part_apart ha hb htype

/-- A pair of words, a record without fields, three pairs in an array, and a record of all of
them with fields of the same name. -/
def doubled : List TypeOp :=
  [.record [("x", .integer), ("y", .char)], .record [], .array ⟨3⟩ 0 2,
    .record [("e", ⟨4⟩), ("a", ⟨3⟩), ("a", ⟨5⟩), ("e", ⟨4⟩)]]

/-- The pair that is a field and the second pair of the array behind it, which the first field
of its name hides. -/
theorem doubled_sameType_eq_or_apart :
    let t := performAll {} doubled
    AdmissibleAll {} doubled ∧ t.size ⟨3⟩ = 2 ∧ t.Part ⟨⟨6⟩, 0⟩ ⟨⟨3⟩, 0⟩ ∧
      t.Part ⟨⟨6⟩, 0⟩ ⟨⟨3⟩, 4⟩ ∧
      t.Apart ⟨⟨3⟩, 0⟩ ⟨⟨3⟩, 4⟩ := by
  intro t
  have hops : AdmissibleAll {} doubled := by decide +kernel
  have hfield : t.field? ⟨6⟩ "a" = some ⟨"a", ⟨3⟩, 0⟩ := by decide +kernel
  have hrecord : t.get? ⟨6⟩ =
      some (.record [⟨"e", ⟨4⟩, 0⟩, ⟨"a", ⟨3⟩, 0⟩, ⟨"a", ⟨5⟩, 2⟩, ⟨"e", ⟨4⟩, 8⟩] 8) := by
    decide +kernel
  have harray : t.get? ⟨5⟩ = some (.array ⟨3⟩ 0 2 6) := by decide +kernel
  have hpair : t.Part ⟨⟨6⟩, 0⟩ ⟨⟨3⟩, 0⟩ := .single (.of_field? (s := ⟨⟨6⟩, 0⟩) hfield)
  have hhidden : t.Selects ⟨⟨6⟩, 0⟩ ⟨⟨5⟩, 2⟩ :=
    .field hrecord (f := ⟨"a", ⟨5⟩, 2⟩) (by decide)
  have hsize : t.size ⟨3⟩ = 2 := by decide +kernel
  have hsecond : t.Selects ⟨⟨5⟩, 2⟩ ⟨⟨3⟩, 4⟩ := by
    have hselects := Selects.element (s := ⟨⟨5⟩, 2⟩) (i := 1) harray (by decide) (by decide)
    rw [hsize] at hselects
    exact hselects
  have hpair' : t.Part ⟨⟨6⟩, 0⟩ ⟨⟨3⟩, 4⟩ := .head hhidden (.single hsecond)
  refine ⟨hops, hsize, hpair, hpair', ?_⟩
  exact (sameType_eq_or_apart doubled hops _ _ _ hpair hpair' rfl).resolve_left (by decide)

end TypeTable

end BlockLang
