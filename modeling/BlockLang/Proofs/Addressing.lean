import BlockLang.Proofs.ExpressionCode
import BlockLang.Proofs.TableInvariant

/-!
# Addresses within storage

The code of a reference computes an address with operations that wrap around: the lower
bound of an array is negated, and its negation need not be a word. All of them are
operations of the ring of words, though, so the address that comes out is the exact one,
modulo the number of words. It is the exact one if that is a word, and it is one if the
storage of the variable lies in the address range: the sizes that the type table holds are
exact, so the part that a reference selects lies within the variable.
`Program.addresses_exact` says so.

One address is out of reach. An empty part may stand at the very end of its variable, and
if the variable ends with the last address, this is one beyond it: `Analysis.Locates` has
this case, and `Program.brink_wraps_around` a program in which it comes up.

* Levels: every symbol belongs to a block of the program (`Program.exists_block`), so the
  level of every variable is a word (`Program.variable_level_le`).
* Parts: `Analysis.part?` selects a part of a variable with exact numbers. It lies within
  the variable (`Analysis.Consistent.part?_within`), and parts at different indices are
  disjoint (`Analysis.Consistent.part?_disjoint`).
* Wrapping around: `Reference.addressIn_of_part?` compares the exact number with what the
  words of a source give. The map from integers to words is a homomorphism, so this is a
  matter of the ring.
* Code: `Selector.code_split` and `Reference.code_split` cut the code of a reference at
  the point where the index is there, since the statement is about both halves.

None of this depends on the identities of the nodes. What is needed of an accepted program
is that its tables fit together and that the levels of its variables are words.
-/

namespace BlockLang

/-! ## Levels -/

/-- Every number that is given out belongs to a name. -/
theorem Names.exists_mem_number (names : List String) {next i : Nat}
    (hle : next ≤ i) (hlt : i < next + names.length) :
    ∃ name, (name, ⟨i⟩) ∈ Names.number next names := by
  induction names generalizing next with
  | nil => exact absurd hlt (by simp; omega)
  | cons name rest ih =>
    rcases Nat.eq_or_lt_of_le hle with rfl | hlt'
    · exact ⟨name, List.mem_append_right _ List.mem_cons_self⟩
    · rw [List.length_cons] at hlt
      obtain ⟨name', hmem⟩ := ih hlt' (by omega)
      exact ⟨name', List.mem_append_left _ hmem⟩

/-- Every declaration that is numbered on the way stands in the scope, or in that of a
block. -/
structure Outline.Covers (scope : Names) (next : Nat) (o : Outline) : Prop where
  scope : ∀ x ∈ scope, x ∈ o.scope
  number : ∀ i, next ≤ i → i < o.next →
    (∃ name, (name, ⟨i⟩) ∈ o.scope) ∨ ∃ b ∈ o.blocks, ∃ name, (name, ⟨i⟩) ∈ b.scope

mutual

/-- Every symbol that a declaration adds is in its scope or in a block. -/
theorem Decl.covers_outline : ∀ (d : Decl) (outer : List Names) (scope : Names) (next : Nat),
    (Decl.outline outer scope next d).Covers scope next
  | .types .., _, scope, next =>
    ⟨fun _ hx => hx, fun i hle hlt => absurd hlt (Nat.not_lt.mpr hle)⟩
  | .vars .., _, scope, next =>
    ⟨fun _ hx => hx, fun i hle hlt => absurd hlt (Nat.not_lt.mpr hle)⟩
  | .procedure ⟨node, name, params, decls, body, span⟩, outer, scope, next => by
    rw [Decl.outline]
    let own := ParamDecl.namesAll params ++ decls.flatMap Decl.sectionNames
    have hnested := Decl.covers_outlineAll decls (((name.name, ⟨next⟩) :: scope) :: outer)
      (Names.number (next + 1) own) (next + 1 + own.length)
    refine ⟨fun x hx => List.mem_cons_of_mem _ hx, fun i hle hlt => ?_⟩
    rcases Nat.eq_or_lt_of_le hle with rfl | hnext
    · exact .inl ⟨name.name, List.mem_cons_self⟩
    refine .inr ?_
    rcases Nat.lt_or_ge i (next + 1 + own.length) with hown | hothers
    · obtain ⟨name', hmem⟩ := Names.exists_mem_number own hnext hown
      exact ⟨_, List.mem_append_right _ List.mem_cons_self, name', hnested.scope _ hmem⟩
    · rcases hnested.number i hothers hlt with hscope | hblock
      · obtain ⟨name', hmem⟩ := hscope
        exact ⟨_, List.mem_append_right _ List.mem_cons_self, name', hmem⟩
      · obtain ⟨b, hb, name', hmem⟩ := hblock
        exact ⟨b, List.mem_append_left _ hb, name', hmem⟩

theorem Decl.covers_outlineAll :
    ∀ (ds : List Decl) (outer : List Names) (scope : Names) (next : Nat),
    (Decl.outlineAll outer scope next ds).Covers scope next
  | [], _, scope, next => ⟨fun _ hx => hx, fun i hle hlt => absurd hlt (Nat.not_lt.mpr hle)⟩
  | d :: rest, outer, scope, next => by
    rw [Decl.outlineAll]
    have hfirst := Decl.covers_outline d outer scope next
    have hrest := Decl.covers_outlineAll rest outer (Decl.outline outer scope next d).scope
      (Decl.outline outer scope next d).next
    refine ⟨fun x hx => hrest.scope x (hfirst.scope x hx), fun i hle hlt => ?_⟩
    rcases Nat.lt_or_ge i (Decl.outline outer scope next d).next with hbefore | hafter
    · rcases hfirst.number i hle hbefore with hscope | hblock
      · obtain ⟨name, hmem⟩ := hscope
        exact .inl ⟨name, hrest.scope _ hmem⟩
      · obtain ⟨b, hb, hmem⟩ := hblock
        exact .inr ⟨b, List.mem_append_left _ hb, hmem⟩
    · rcases hrest.number i hafter hlt with hscope | hblock
      · exact .inl hscope
      · obtain ⟨b, hb, hmem⟩ := hblock
        exact .inr ⟨b, List.mem_append_right _ hb, hmem⟩

end

/-- Every variable is declared in the scope of a block. -/
theorem Program.exists_block {p : Program} {a : Analysis} (h : p.analyze = .ok a)
    {id : SymbolId} {v : Variable} (hv : a.symbols.variableAt? id = some v) :
    ∃ b ∈ p.blocks, ∃ name, (name, id) ∈ b.scope := by
  have hlt : id.index < p.outline.next := by
    rw [← Program.length_symbols h]
    exact SymbolTable.has_of_meaning? (SymbolTable.variableAt?_eq_some_iff.mp hv)
  let own := p.decls.flatMap Decl.sectionNames
  have hcovers := Decl.covers_outlineAll p.decls [] (Names.number 0 own) own.length
  have hmain : ∀ {name}, (name, id) ∈ p.outline.scope →
      ∃ b ∈ p.blocks, ∃ name, (name, id) ∈ b.scope :=
    fun {name} hmem => ⟨p.mainBlock, List.mem_append_right _ List.mem_cons_self, name, hmem⟩
  rcases Nat.lt_or_ge id.index own.length with hown | hothers
  · obtain ⟨name, hmem⟩ := Names.exists_mem_number own (Nat.zero_le id.index) (by omega)
    exact hmain (hcovers.scope _ hmem)
  · rcases hcovers.number id.index hothers hlt with hscope | hblock
    · obtain ⟨name, hmem⟩ := hscope
      exact hmain hmem
    · obtain ⟨b, hb, name, hmem⟩ := hblock
      exact ⟨b, List.mem_append_left _ hb, name, hmem⟩

/-- The level of every variable is a word, since the display of its frame has a word for each
level. -/
theorem Program.variable_level_le {p : Program} {a : Analysis}
    (h : p.analyze = .ok a) {id : SymbolId} {v : Variable}
    (hv : a.symbols.variableAt? id = some v) : (v.level : Int) ≤ Word.greatest := by
  have hp := Program.analyzed_of_analyze h
  obtain ⟨b, hb, name, hmem⟩ := Program.exists_block h hv
  rw [((hp.laid b hb).places.1 _ hmem).var hv]
  exact Program.level_le hp.laid b hb

/-- The levels of all variables of an accepted program are words. -/
theorem Program.levelled {p : Program} {a : Analysis}
    (h : p.analyze = .ok a) (x : Source) (e : Expr) :
    e.Levelled a x := by
  intro r v w _ hv _
  obtain ⟨id, _, hid⟩ := Option.bind_eq_some_iff.mp hv
  exact Program.variable_level_le h hid

/-! ## Parts of a variable -/

/-- The index in a selector. -/
def Selector.index? : Selector Expr → Option Expr
  | .whole | .field _ => none
  | .element index | .fieldElement _ index => some index

namespace Analysis

/-- The element of an array at an index within the bounds: its distance from the start and its
type. -/
def element? (a : Analysis) (type : TypeId) (i : Int) : Option (Int × TypeId) :=
  match a.types.get? type with
  | some (.array element low high _) =>
    if low.toInt ≤ i ∧ i ≤ high.toInt
      then some ((i - low.toInt) * a.types.size element, element) else none
  | _ => none

/-- The part that a selector selects, when `i` is its index: its distance from the start and
its type. -/
def part? (a : Analysis) (type : TypeId) (i : Int) : Selector Expr → Option (Int × TypeId)
  | .whole => some (0, type)
  | .element _ => a.element? type i
  | .field field => (a.types.field? type field.name).map fun f => (f.offset, f.type)
  | .fieldElement field _ => (a.types.field? type field.name).bind fun f =>
      (a.element? f.type i).map fun x => (f.offset + x.1, x.2)

variable {a : Analysis} {type part part' : TypeId} {i j d d' : Int}

/-- An element that is selected has an index within the bounds. -/
theorem element?_eq_some (h : a.element? type i = some (d, part)) :
    ∃ low high size, a.types.get? type = some (.array part low high size) ∧ low.toInt ≤ i ∧
    i ≤ high.toInt ∧
      d = (i - low.toInt) * a.types.size part := by
  unfold element? at h
  split at h
  next element low high size hget =>
    simp only [Option.ite_none_right_eq_some, Option.some.injEq, Prod.mk.injEq] at h
    obtain ⟨⟨hlow, hhigh⟩, rfl, rfl⟩ := h
    exact ⟨low, high, size, hget, hlow, hhigh, rfl⟩
  · cases h

/-- An element lies within its array. -/
theorem Consistent.element?_within (ha : a.Consistent)
    (h : a.element? type i = some (d, part)) :
    0 ≤ d ∧ d + a.types.size part ≤ a.types.size type := by
  obtain ⟨low, high, size, hget, hlow, hhigh, rfl⟩ := element?_eq_some h
  have hsize := ha.size_nonneg part
  obtain ⟨-, htotal⟩ := (ha.types hget).elements rfl
  rw [TypeTable.size_of_get? hget, TypeDescriptor.size, htotal]
  refine ⟨Int.mul_nonneg (by omega) hsize, ?_⟩
  calc (i - low.toInt) * a.types.size part + a.types.size part =
        (i - low.toInt + 1) * a.types.size part := by
        rw [Int.add_mul, Int.one_mul]
    _ ≤ (high.toInt - low.toInt + 1) * a.types.size part :=
        Int.mul_le_mul_of_nonneg_right (by omega) hsize

/-- Of two elements one ends before the other begins. -/
theorem Consistent.element?_disjoint (ha : a.Consistent)
    (h : a.element? type i = some (d, part))
    (h' : a.element? type j = some (d', part')) (hne : i ≠ j) :
    d + a.types.size part ≤ d' ∨ d' + a.types.size part' ≤ d := by
  obtain ⟨low, high, size, hget, _, _, rfl⟩ := element?_eq_some h
  obtain ⟨low', high', size', hget', _, _, rfl⟩ := element?_eq_some h'
  cases hget.symm.trans hget'
  have hsize := ha.size_nonneg part
  have hstep : ∀ {k l : Int}, k < l → (k - low.toInt) * a.types.size part +
      a.types.size part ≤ (l - low.toInt) * a.types.size part := by
    intro k l hlt
    calc (k - low.toInt) * a.types.size part + a.types.size part =
          (k - low.toInt + 1) * a.types.size part := by
          rw [Int.add_mul, Int.one_mul]
      _ ≤ (l - low.toInt) * a.types.size part :=
          Int.mul_le_mul_of_nonneg_right (by omega) hsize
  rcases Int.lt_or_gt_of_ne hne with hlt | hgt
  · exact .inl (hstep hlt)
  · exact .inr (hstep hgt)

/-- A field lies within its record. -/
theorem Consistent.field?_within (ha : a.Consistent) {name : String} {f : Field}
    (h : a.types.field? type name = some f) :
    0 ≤ f.offset ∧ f.offset + a.types.size f.type ≤ a.types.size type := by
  obtain ⟨d, hget, hf⟩ := Option.bind_eq_some_iff.mp h
  rw [TypeTable.size_of_get? hget]
  exact (ha.types hget).field hf

/-- What a selector selects lies within the variable. -/
theorem Consistent.part?_within (ha : a.Consistent) {selector : Selector Expr}
    (h : a.part? type i selector = some (d, part)) :
    0 ≤ d ∧ d + a.types.size part ≤ a.types.size type := by
  cases selector with
  | whole =>
    cases h
    simp
  | element index => exact ha.element?_within h
  | field field =>
    obtain ⟨f, hf, heq⟩ := Option.map_eq_some_iff.mp h
    cases heq
    exact ha.field?_within hf
  | fieldElement field index =>
    obtain ⟨f, hf, h⟩ := Option.bind_eq_some_iff.mp h
    obtain ⟨⟨k, element⟩, helement, heq⟩ := Option.map_eq_some_iff.mp h
    cases heq
    have hfield := ha.field?_within hf
    have hwithin := ha.element?_within helement
    dsimp only
    omega

/-- With different indices a selector selects parts that have no word in common. -/
theorem Consistent.part?_disjoint (ha : a.Consistent) {selector : Selector Expr}
    (hindex : selector.index? ≠ none) (h : a.part? type i selector = some (d, part))
    (h' : a.part? type j selector = some (d', part')) (hne : i ≠ j) :
    d + a.types.size part ≤ d' ∨ d' + a.types.size part' ≤ d := by
  cases selector with
  | whole | field field => exact absurd rfl hindex
  | element index => exact ha.element?_disjoint h h' hne
  | fieldElement field index =>
    obtain ⟨f, hf, h⟩ := Option.bind_eq_some_iff.mp h
    obtain ⟨⟨k, element⟩, helement, heq⟩ := Option.map_eq_some_iff.mp h
    obtain ⟨f', hf', h'⟩ := Option.bind_eq_some_iff.mp h'
    obtain ⟨⟨k', element'⟩, helement', heq'⟩ := Option.map_eq_some_iff.mp h'
    cases hf.symm.trans hf'
    cases heq
    cases heq'
    have hdisjoint := ha.element?_disjoint helement helement' hne
    dsimp only
    omega

end Analysis

/-! ## Wrapping around -/

/-- Where the storage of a variable starts, as an integer. -/
def Source.base (x : Source) (v : Variable) : Except Stop Int := do
  let frame ← x.read (x.display + v.level)
  match v.access with
  | .direct => return frame.toInt + v.offset
  | .indirect => return (← x.read (frame.toInt + v.offset)).toInt

section

variable {a : Analysis} {x : Source} {v : Variable} {type part : TypeId} {i d base : Int}

/-- The offset of a variable is a word. -/
theorem Analysis.Consistent.fits_offset (ha : a.Consistent)
    {id : SymbolId} (hv : a.symbols.variableAt? id = some v) :
    Word.Fits v.offset := by
  have hlaid := ha.variable_laid hv
  have hoffset := hlaid.offset
  have hwords := hlaid.words
  have hsize := ha.slotSize_nonneg v.type v.access
  unfold Word.Fits Word.least
  omega

/-- The word that the code adds is that integer, modulo the number of words. -/
theorem Source.start_of_base (hoffset : Word.Fits v.offset) (h : x.base v = .ok base) :
    x.start v = .ok (Int64.ofInt base) := by
  obtain ⟨frame, hframe, h⟩ := Except.bind_eq_ok h
  cases haccess : v.access with
  | direct =>
    rw [haccess] at h
    cases h
    simp only [Source.start, hframe, haccess]
    rw [Int64.ofInt_add, Int64.ofInt_toInt]
    rfl
  | indirect =>
    rw [haccess] at h
    obtain ⟨w, hw, h⟩ := Except.bind_eq_ok h
    cases h
    rw [← Machine.toInt_ofInt hoffset] at hw
    simp only [Source.start, hframe, haccess]
    rw [Int64.ofInt_toInt, ← hw]
    rfl

/-- The distance of an element wraps around from the exact one. -/
theorem Analysis.elementDistance_of_element? {w : Word}
    (h : a.element? type w.toInt = some (d, part)) :
    a.elementDistance type w = .ok (Int64.ofInt d) := by
  obtain ⟨low, high, size, hget, _, _, rfl⟩ := Analysis.element?_eq_some h
  rw [Analysis.elementDistance_eq hget, Int64.ofInt_mul, Int64.ofInt_sub, Int64.ofInt_toInt,
    Int64.ofInt_toInt]

/-- The value of the index, if there is one. -/
def Selector.Indexed (a : Analysis) (x : Source) (i : Int) (s : Selector Expr) : Prop :=
  ∀ e, s.index? = some e → ∃ w, e.valueIn a x = .ok w ∧ w.toInt = i

theorem Analysis.field?_eq {fields : List Field} {size : Int} {name : String} {f : Field}
    (hget : a.types.get? type = some (.record fields size))
    (hf : fields.find? (·.name == name) = some f) :
    a.types.field? type name = some f := by
  simp [TypeTable.field?, hget, TypeDescriptor.field?, hf]

theorem Analysis.fieldNamed_of_field? {name : String}
    {f : Field} (h : a.types.field? type name = some f) :
    a.fieldNamed type name = .ok f := by
  obtain ⟨descriptor, hget, hf⟩ := Option.bind_eq_some_iff.mp h
  cases descriptor with
  | integer | char | boolean | array => cases hf
  | record fields size => exact Analysis.fieldNamed_eq hget hf

/-- The distance of a part wraps around from the exact one. -/
theorem Selector.distanceIn_of_part? {s : Selector Expr} (hindex : s.Indexed a x i)
    (h : a.part? type i s = some (d, part)) :
    s.distanceIn a x type = .ok (Int64.ofInt d) := by
  cases s with
  | whole =>
    cases h
    rw [Selector.distanceIn]
    rfl
  | element index =>
    obtain ⟨w, hw, rfl⟩ := hindex index rfl
    rw [Selector.distanceIn, hw]
    exact Analysis.elementDistance_of_element? h
  | field field =>
    obtain ⟨f, hf, heq⟩ := Option.map_eq_some_iff.mp h
    cases heq
    rw [Selector.distanceIn, Analysis.fieldNamed_of_field? hf]
    rfl
  | fieldElement field index =>
    obtain ⟨w, hw, rfl⟩ := hindex index rfl
    obtain ⟨f, hf, h⟩ := Option.bind_eq_some_iff.mp h
    obtain ⟨⟨k, element⟩, helement, heq⟩ := Option.map_eq_some_iff.mp h
    cases heq
    rw [Selector.distanceIn, hw, Int64.ofInt_add]
    simp only [bind, Except.bind, Analysis.fieldNamed_of_field? hf,
      Analysis.elementDistance_of_element? helement]
    rfl

/-- The address of a reference is the exact one, modulo the number of words. -/
theorem Reference.addressIn_of_part? {r : VarRef}
    (hv : a.variableFor? r.node = some v) (hoffset : Word.Fits v.offset)
    (hindex : r.selector.Indexed a x i) (hpart : a.part? v.type i r.selector = some (d, part))
    (hbase : x.base v = .ok base) : r.addressIn a x = .ok (Int64.ofInt (base + d)) := by
  rw [Reference.addressIn_eq hv, Selector.distanceIn_of_part? hindex hpart, Int64.ofInt_add]
  simp only [bind, Except.bind, Source.start_of_base hoffset hbase]
  rfl

end

/-! ## Code for addresses -/

/-- Code for the index in a selector, if there is one. -/
def Selector.indexCode (a : Analysis) (t : Int) (s : Selector Expr) : Except Defect Code :=
  s.index?.elim (.ok []) (Expr.code a t)

/-- The index stands in `ac`, if there is one. -/
def Machine.Indexes (m : Machine) (i : Int) (s : Selector Expr) : Prop :=
  s.index? ≠ none → (m.register .ac).toInt = i

section

variable {a : Analysis} {x : Source} {v : Variable} {t : Int} {name : Ident} {span : Span}
    {c : Code}

open Machine in
/-- Behind the code of the index stands code that makes a distance of it, or that makes a
distance of nothing. -/
theorem Selector.code_split {s : Selector Expr}
    (h : Selector.code a t v name span s = .ok c) :
    ∃ ci scale, s.indexCode a t = .ok ci ∧ c = ci ++ scale ∧
    ∀ {m : Machine} {i d : Int} {part : TypeId} (lo hi : Nat),
      m.Indexes i s → a.part? v.type i s = some (d, part) → ∃ m', m.Passes scale m' ∧
        m'.register .ac = Int64.ofInt (v.constantPart 0) + Int64.ofInt d ∧
        m.Same lo hi m' := by
  cases s with
  | whole =>
    cases h
    refine ⟨[], _, rfl, rfl, fun {m i d part} lo hi _ hpart => ?_⟩
    cases hpart
    refine ⟨_, passes_ldc m (by decide) _ _, ?_, .setRegister (.inl rfl) ..⟩
    rw [register_setRegister_self]
    exact (Int64.add_zero _).symm
  | element index =>
    obtain ⟨element, low, high, size, ci, hget, hci, rfl⟩ := Selector.code_element_eq_ok h
    refine ⟨ci, _, hci, rfl, fun {m i d part} lo hi hindex hpart => ?_⟩
    obtain rfl := hindex (Option.some_ne_none _)
    have hyields := m.yields_elementDistance hget (v.constantPart 0) lo hi
    rw [Analysis.elementDistance_of_element? hpart] at hyields
    exact hyields
  | field field =>
    obtain ⟨fields, size, f, hget, hf, rfl⟩ := Selector.code_field_eq_ok h
    refine ⟨[], _, rfl, rfl, fun {m i d part} lo hi _ hpart => ?_⟩
    obtain ⟨f', hf', heq⟩ := Option.map_eq_some_iff.mp hpart
    cases (Analysis.field?_eq hget hf).symm.trans hf'
    cases heq
    refine ⟨_, passes_ldc m (by decide) _ _, ?_, .setRegister (.inl rfl) ..⟩
    rw [register_setRegister_self, Variable.constantPart_eq]
  | fieldElement field index =>
    obtain ⟨fields, size, f, element, low, high, length, ci, hget, hf, harray, hci, rfl⟩ :=
      Selector.code_fieldElement_eq_ok h
    refine ⟨ci, _, hci, rfl, fun {m i d part} lo hi hindex hpart => ?_⟩
    obtain rfl := hindex (Option.some_ne_none _)
    obtain ⟨f', hf', hpart⟩ := Option.bind_eq_some_iff.mp hpart
    cases (Analysis.field?_eq hget hf).symm.trans hf'
    obtain ⟨⟨k, element'⟩, helement, heq⟩ := Option.map_eq_some_iff.mp hpart
    cases heq
    have hyields := m.yields_elementDistance harray (v.constantPart f.offset) lo hi
    rw [Analysis.elementDistance_of_element? helement] at hyields
    obtain ⟨m', hpass, hac, hsame⟩ := hyields
    refine ⟨m', hpass, ?_, hsame⟩
    rw [hac, Variable.constantPart_eq, Int64.ofInt_add, Int64.add_assoc]

/-- From the moment the index stands in `ac` the code of a reference computes the exact
address, modulo the number of words. -/
theorem Reference.code_split {r : VarRef} (h : r.code a t = .ok c) :
    ∃ v ci rest, a.variableFor? r.node = some v ∧ r.selector.indexCode a t = .ok ci ∧
    c = ci ++ rest ∧
      ∀ {m : Machine} {x : Source} {lo hi : Nat} {i d base : Int} {part : TypeId},
        m.Serves x lo hi →
        (v.level : Int) ≤ Word.greatest → Word.Fits v.offset → m.Indexes i r.selector →
        a.part? v.type i r.selector = some (d, part) → x.base v = .ok base →
        ∃ m', m.Passes rest m' ∧ m'.register .ac = Int64.ofInt (base + d) ∧
        m.Same lo hi m' := by
  obtain ⟨_, v, c', hid, hv, hc', rfl⟩ := Reference.code_eq_ok h
  obtain ⟨ci, scale, hci, rfl, hscale⟩ := Selector.code_split hc'
  refine ⟨v, ci, scale ++ Code.addBase v, Analysis.variableFor?_eq_some hid hv, hci,
    List.append_assoc .., ?_⟩
  intro m x lo hi i d base part hserves hlevel hoffset hindex hpart hbase
  obtain ⟨m₁, hpass, hac, hsame⟩ := hscale lo hi hindex hpart
  have hyields := (hserves.same hsame).yields_addBase (fun _ _ => hlevel) hac
  rw [Source.start_of_base hoffset hbase] at hyields
  obtain ⟨m₂, hpass', hac', hsame'⟩ := hyields
  exact ⟨m₂, hpass.append hpass', by rw [hac', Int64.ofInt_add], hsame.trans hsame'⟩

end

/-! ## Exact addresses -/

/-- All words of a variable's storage have addresses. -/
def Analysis.InRange (a : Analysis) (v : Variable) (base : Int) : Prop :=
  0 ≤ base ∧ base + a.types.size v.type ≤ Word.greatest + 1

/-- The word `w` is the exact address of a part. An empty part can stand behind the last word
of all, where there is no address any more: there the sum has wrapped around. -/
def Analysis.Locates (a : Analysis) (part : TypeId) (address : Int) (w : Word) : Prop :=
  w.toInt = address ∨
    a.types.size part = 0 ∧ address = Word.greatest + 1 ∧ w.toInt = Word.least

/-- The machine stands at `start`, with `t` for the temporaries in use. There are `n` more
words for temporaries, from `lo` up to `hi`, and they are in data memory. -/
structure Machine.Poised (m : Machine) (t : Int) (n start : Nat) (lo hi : Int) : Prop where
  pc : m.register .pc = Int64.ofNat start
  counter : t ≤ 0
  upper : hi = (m.register .mp).toInt + t
  lower : lo = hi - n
  window : ∀ i, lo ≤ i → i < hi → 0 ≤ i ∧ i < m.memory.size

/-- Without no address a source is the same. -/
theorem Source.without_self (x : Source) (lo : Int) : x.without lo lo = x := by
  have hread : (x.without lo lo).read = x.read := by
    funext address
    exact if_neg (by omega)
  calc x.without lo lo = ⟨(x.without lo lo).read, x.display⟩ := rfl
    _ = x := by rw [hread]

section

variable {a : Analysis} {m : Machine} {t lo hi : Int} {n start : Nat} {c : Code}

/-- A machine that is poised has its temporaries to spare. -/
theorem Machine.Poised.spares (h : m.Poised t n start lo hi) :
    m.Spares t lo.toNat hi.toNat n := by
  obtain ⟨_, _, rfl, rfl, hwindow⟩ := h
  exact Machine.spares_of_window hwindow

/-- The code of a reference computes the address that the data memory gives. -/
theorem Machine.Poised.addresses {r : VarRef} (h : m.Poised t r.depth start lo hi)
    (hlevels : (Expr.ref r).Levelled a (m.data.without lo hi)) (hm : Code.Addressable m.code)
    (hc : r.code a t = .ok c) (hat : Code.At m.code start c) {w : Word}
    (hw : r.addressIn a (m.data.without lo hi) = .ok w) :
    m.Computes (.ok w) lo hi fun _ => start + c.length := by
  have hyields :=
    (Expr.evaluates hlevels h.counter (m.serves_data lo hi) h.spares).2 r rfl c hc
  rw [hw] at hyields
  exact hyields.computes (.ok w) (by simp) hm hat h.pc fun _ _ => ⟨0, .refl⟩

/-- The wrapped sum locates the part. A part with a word ends in the storage, so it starts at
an address; only an empty one can start where the storage ends. -/
theorem Analysis.Consistent.locates (ha : a.Consistent) {v : Variable} {i d base : Int}
    {part : TypeId} {s : Selector Expr} (hpart : a.part? v.type i s = some (d, part))
    (hrange : a.InRange v base) : a.Locates part (base + d) (Int64.ofInt (base + d)) := by
  obtain ⟨hbase, hend⟩ := hrange
  obtain ⟨hd, hle⟩ := ha.part?_within hpart
  have hsize := ha.size_nonneg part
  by_cases hlast : base + d ≤ Word.greatest
  · have hfits : Word.Fits (base + d) := ⟨by unfold Word.least; omega, hlast⟩
    exact .inl (Machine.toInt_ofInt hfits)
  · have hbehind : base + d = Word.greatest + 1 := by omega
    refine .inr ⟨by omega, hbehind, ?_⟩
    rw [hbehind]
    decide

end

/-- **Addresses are exact.** Let code for the address of a reference be generated from the
analysis of an accepted program, as it is for every reference of the program if its nodes have
distinct identities. Whatever the index, the part that is selected lies within the variable,
and parts at different indices have no word in common. If the storage of the variable lies in
the address range, the code leaves the exact address of the part in `ac` (the least word for
an empty part behind the last address): from the moment the index stands there, and from the
start if the words that are read are in data memory and none of them is a temporary. -/
theorem Program.addresses_exact {p : Program} {a : Analysis} (ha : p.analyze = .ok a) :
    (p.DistinctNodes → ∀ b ∈ p.blocks, ∀ r, .ref r ∈ Stmt.partsAll b.body →
      ∀ s : GenState, s.emitter.AtEnd →
      ∃ s', (r.generateAddress a : Gen Unit).run s = .ok ((), s')) ∧
    ∀ (r : VarRef) (s s' : GenState), s.emitter.AtEnd →
      (r.generateAddress a : Gen Unit).run s = .ok ((), s') →
      ∃ v ci rest, a.variableFor? r.node = some v ∧
        r.selector.indexCode a s.temporaries = .ok ci ∧
        s.Grown (ci ++ rest) s' ∧ ∀ i d part, a.part? v.type i r.selector = some (d, part) →
          (0 ≤ d ∧ d + a.types.size part ≤ a.types.size v.type) ∧
          (∀ j d' part', r.selector.index? ≠ none →
            a.part? v.type j r.selector = some (d', part') → i ≠ j →
            d + a.types.size part ≤ d' ∨ d' + a.types.size part' ≤ d) ∧
          ∀ base, a.InRange v base → ∀ (m : Machine) (start : Nat), Code.Addressable m.code →
            (m.register .pc = Int64.ofNat start → Code.At m.code start rest →
                m.Indexes i r.selector →
              m.data.base v = .ok base → ∃ w, a.Locates part (base + d) w ∧
              m.Computes (.ok w) 0 0 fun _ => start + rest.length) ∧
            ∀ lo hi, m.Poised s.temporaries r.depth start lo hi →
              Code.At m.code start (ci ++ rest) →
              r.selector.Indexed a (m.data.without lo hi) i →
              (m.data.without lo hi).base v = .ok base →
              ∃ w, a.Locates part (base + d) w ∧
                m.Computes (.ok w) lo hi fun _ => start + (ci ++ rest).length := by
  have hp := Program.analyzed_of_analyze ha
  have hconsistent := Program.consistent_of_analyze ha
  constructor
  · intro hnodes b hb r hr s hs
    obtain ⟨type, hresolved⟩ := Stmt.Resolved.partsAll (hp.noted hnodes b hb).body _ hr
    obtain ⟨c, hc⟩ := hresolved.address_ok s.temporaries
    exact (Reference.generateAddress_completes a r hs).run_ok hc
  · intro r s s' hs hrun
    obtain ⟨c, hc, hgrown⟩ := (Reference.generateAddress_completes a r hs).grown hrun
    obtain ⟨v, ci, rest, hv, hci, rfl, hrest⟩ := Reference.code_split hc
    refine ⟨v, ci, rest, hv, hci, hgrown, ?_⟩
    intro i d part hpart
    obtain ⟨id, _, hid⟩ := Option.bind_eq_some_iff.mp hv
    have hoffset := hconsistent.fits_offset hid
    refine ⟨hconsistent.part?_within hpart, ?_, ?_⟩
    · intro j d' part' hindex hpart' hne
      exact hconsistent.part?_disjoint hindex hpart hpart' hne
    · intro base hrange m start hm
      have hlocates := hconsistent.locates hpart hrange
      constructor
      -- From the index on no temporary is used, so the range that may change is empty.
      · intro hpc hat hindex hbase
        have hserves : m.Serves m.data 0 0 := m.data.without_self 0 ▸ m.serves_data 0 0
        obtain ⟨m', hpass, hac, hsame⟩ :=
          hrest hserves (Program.variable_level_le ha hid) hoffset hindex hpart hbase
        have hyields : m.Yields rest (.ok (Int64.ofInt (base + d))) fun w m' =>
            m'.register .ac = w ∧ m.Same 0 0 m' :=
          ⟨m', hpass, hac, hsame⟩
        have hcomputes : m.Computes (.ok (Int64.ofInt (base + d))) 0 0 fun _ =>
            start + rest.length :=
          hyields.computes (.ok _) (by simp) hm hat hpc fun _ _ => ⟨0, .refl⟩
        exact ⟨_, hlocates, hcomputes⟩
      · intro lo hi hpoised hat hindex hbase
        exact ⟨_, hlocates, hpoised.addresses (Program.levelled ha _ _) hm hc hat
          (Reference.addressIn_of_part? hv hoffset hindex hpart hbase)⟩

open Build in
/-- An array whose lower bound is the least word, with a sum for an index. -/
def Build.lowest : Build Program := do
  let v ← varDecl ["v"] (← array (-9223372036854775808) (-9223372036854775807) (← integer))
  let k ← varDecl ["k"] (← integer)
  let next ← binary .add (.ref (← var "k")) (← const 1)
  program "lowest" [← vars [v, k]] [← assign (← index "v" next) (← const 5)]

def Program.lowest : Program := (StateT.run (m := Id) Build.lowest {}).1

/-- The memory of that program, with the least word for `k`. -/
def Program.lowestMemory : Memory where
  words := #[0, 0, -9223372036854775808, 0, 0, 0, 0, 0, 0, 0]

/-- Before anything is emitted. -/
def GenState.blank : GenState where
  emitter := { trace := false }

/-- Little code has addresses. -/
theorem GenState.Grown.addressable {s s' : GenState} {c : Code} (h : s.Grown c s')
    (hlt : s'.emitter.contents.length < 100) : Code.Addressable c.toArray := by
  have hcontents := congrArg List.length h.contents
  rw [List.length_append, List.length_map] at hcontents
  unfold Code.Addressable Word.greatest
  rw [List.size_toArray]
  omega

/-- An array with the lowest index there is, with the reference to an element of it. -/
theorem Program.lowest_target :
    ∃ (a : Analysis) (r : VarRef) (e : Expr) (v : Variable) (s' : GenState),
    Program.lowest.analyze = .ok a ∧
    (r.generateAddress a : Gen Unit).run .blank = .ok ((), s') ∧
      s'.emitter.contents.length < 100 ∧ r.selector.index? = some e ∧
      a.variableFor? r.node = some v ∧ r.depth = 1 ∧
      a.part? v.type (-9223372036854775807) r.selector = some (1, .integer) ∧
      a.types.size v.type = 2 ∧ a.types.size .integer = 1 ∧
      e.valueIn a ((Source.ofMemory Program.lowestMemory 3).without 8 9) =
      .ok (-9223372036854775807) ∧
      ((Source.ofMemory Program.lowestMemory 3).without 8 9).base v = .ok 0 := by
  have hcheck : (Program.lowest.analyze.toOption.any fun a =>
      (Stmt.partsAll Program.lowest.body).any fun e =>
      e.asRef?.any fun r => r.selector.index?.any fun e =>
          (a.variableFor? r.node).any fun v =>
        ((r.generateAddress a : Gen Unit).run .blank).toOption.any fun x =>
        decide (x.2.emitter.contents.length < 100 ∧ r.depth = 1 ∧
          a.part? v.type (-9223372036854775807) r.selector = some (1, .integer) ∧
          a.types.size v.type = 2 ∧ a.types.size .integer = 1 ∧
          e.valueIn a ((Source.ofMemory Program.lowestMemory 3).without 8 9) =
          .ok (-9223372036854775807) ∧
          ((Source.ofMemory Program.lowestMemory 3).without 8 9).base v = .ok 0)) =
          true := by decide +kernel
  obtain ⟨a, ha, hcheck⟩ := Except.exists_of_any_toOption hcheck
  obtain ⟨_, _, hcheck⟩ := List.any_eq_true.mp hcheck
  obtain ⟨r, _, hcheck⟩ := (Option.any_eq_true ..).mp hcheck
  obtain ⟨e, he, hcheck⟩ := (Option.any_eq_true ..).mp hcheck
  obtain ⟨v, hv, hcheck⟩ := (Option.any_eq_true ..).mp hcheck
  obtain ⟨x, hrun, hcheck⟩ := Except.exists_of_any_toOption hcheck
  obtain ⟨hlength, hfacts⟩ := of_decide_eq_true hcheck
  exact ⟨a, r, e, v, x.2, ha, hrun, hlength, he, hv, hfacts⟩

/-- The second element of `v` is the word at address 1, which the code computes with a
negation that wraps around. -/
theorem Program.lowest_addresses_exact :
    ∃ (a : Analysis) (r : VarRef) (v : Variable) (m : Machine) (c : Code),
    Program.lowest.analyze = .ok a ∧
      a.variableFor? r.node = some v ∧
      a.part? v.type (-9223372036854775807) r.selector = some (1, .integer) ∧
      r.selector.Indexed a (m.data.without 8 9) (-9223372036854775807) ∧
      (m.data.without 8 9).base v = .ok 0 ∧
      Code.At m.code 0 c ∧ m.Computes (.ok 1) 8 9 fun _ => c.length := by
  obtain ⟨a, r, e, v, s', ha, hrun, hlength, he, hv, hdepth, hpart, hsize, hinteger, hvalue,
      hbase⟩ :=
    Program.lowest_target
  obtain ⟨v', ci, rest, hv', _, hgrown, hall⟩ :=
    (Program.addresses_exact ha).2 r .blank s' ⟨rfl, rfl⟩ hrun
  cases hv.symm.trans hv'
  let m : Machine := { Machine.load ⟨[], []⟩ ⟨10, 0⟩ [] with
    code := (ci ++ rest).toArray, memory := Program.lowestMemory, registers :=
      { mp := 9, displayOff := 3 } }
  have hindexed : r.selector.Indexed a (m.data.without 8 9) (-9223372036854775807) := by
    intro e' he'
    cases he.symm.trans he'
    exact ⟨_, hvalue, rfl⟩
  have hwords : m.memory.size = 10 := by
    change Program.lowestMemory.size = 10
    decide
  have hpoised : m.Poised 0 r.depth 0 8 9 := by
    rw [hdepth]
    exact ⟨rfl, Int.le_refl 0, rfl, rfl, fun i hlo hhi => by omega⟩
  have hrange : a.InRange v 0 := by
    unfold Analysis.InRange
    rw [hsize]
    decide
  obtain ⟨w, hw | ⟨hempty, _, _⟩, hcomputes⟩ :=
    ((hall _ _ _ hpart).2.2 0 hrange m 0 (hgrown.addressable hlength)).2 8 9 hpoised
      (Code.at_self _) hindexed hbase
  case inr => omega
  obtain rfl : w = 1 := Int64.toInt_inj.mp hw
  exact ⟨a, r, v, m, ci ++ rest, ha, hv, hpart, hindexed, hbase, Code.at_self _,
    by simpa using hcomputes⟩

/-! ## Behind the last address -/

open Build in
/-- An assignment behind the end of `a` moves the frame to the end of the address range. Then
a word is read into `r.e`, which is empty and stands behind the only word of `r`. -/
def Build.brink : Build Program := do
  let a ← varDecl ["a"] (← array 0 0 (← integer))
  let x ← fieldGroup ["x"] (← integer)
  let e ← fieldGroup ["e"] (← record [])
  let r ← varDecl ["r"] (← record [x, e])
  program "brink" [← vars [a, r]] [← assign (← index "a" (← const 2))
    (← const 9223372036854775806), ← read (← field "r" "e")]

def Program.brink : Program := (StateT.run (m := Id) Build.brink {}).1

/-- The state of that program when it comes to `read`. -/
def Program.brinkState (code : ObjectCode) : Machine :=
  { Machine.load code ⟨10, 100⟩ [7] with
    memory := { words := #[0, 0, 9223372036854775806, 0, 0, 0, 0, 0, 0, 0] }
    registers := { mp := 9, displayOff := 2, pc := 18 } }

/-- The target of `read`. -/
def Stmt.reads? : Stmt → Option (VarRef × Span)
  | .read target span => some (target, span)
  | _ => none

theorem Stmt.eq_of_reads? {s : Stmt} {target : VarRef}
    {span : Span} (h : s.reads? = some (target, span)) :
    s = .read target span := by
  cases s with
  | read =>
    cases h
    rfl
  | assign | ifElse | whileDo | write | call | ret => cases h

/-- The storage of `r` is the last word of the address range, at `Word.greatest`, and `r.e`
stands one word further. The code leaves the least word in `ac`, and the store goes there. -/
theorem Program.brink_wraps_around : ∃ (a : Analysis) (code : ObjectCode) (r : VarRef)
    (span : Span) (v : Variable) (part : TypeId)
      (c : Code), Program.brink.analyze = .ok a ∧ Program.brink.DistinctNodes ∧
      Program.brink.compile {} = .ok code ∧ .read r span ∈ Program.brink.body ∧
      a.variableFor? r.node = some v ∧ a.part? v.type 0 r.selector = some (1, part) ∧
      r.selector.index? = none ∧ (Program.brinkState code).data.base v = .ok Word.greatest ∧
      a.InRange v Word.greatest ∧ r.code a 0 = .ok c ∧
      Code.At (Program.brinkState code).code 18 c ∧
      (Program.brinkState code).Poised 0 r.depth 18 9 9 ∧
      (Program.brinkState code).Computes (.ok (-9223372036854775808)) 9 9
        (fun _ => 18 + c.length) ∧
      Program.brink.run [7] {} ⟨10, 100⟩ =
        .error (.fault (.dataOutOfRange (-9223372036854775808) 23)) := by
  have hcheck : (Program.brink.analyze.toOption.any fun a =>
      (Program.brink.compile {}).toOption.any fun code => Program.brink.body.any fun st =>
        st.reads?.any fun y => (a.variableFor? y.1.node).any fun v =>
          (a.part? v.type 0 y.1.selector).any fun x => (y.1.code a 0).toOption.any fun c =>
            decide (x.1 = 1 ∧ y.1.selector.index? = none ∧
              y.1.depth = 0 ∧ a.types.size v.type = 1 ∧
              (Program.brinkState code).data.base v = .ok Word.greatest) &&
            decide (code.instructions.length < 100 ∧
              Code.At (Program.brinkState code).code 18 c)) =
      true := by
    decide +kernel
  obtain ⟨a, ha, hcheck⟩ := Except.exists_of_any_toOption hcheck
  obtain ⟨code, hcompile, hcheck⟩ := Except.exists_of_any_toOption hcheck
  obtain ⟨st, hst, hcheck⟩ := List.any_eq_true.mp hcheck
  obtain ⟨⟨r, span⟩, hreads, hcheck⟩ := (Option.any_eq_true ..).mp hcheck
  obtain ⟨v, hv, hcheck⟩ := (Option.any_eq_true ..).mp hcheck
  obtain ⟨⟨d, part⟩, hpart, hcheck⟩ := (Option.any_eq_true ..).mp hcheck
  obtain ⟨c, hc, hcheck⟩ := Except.exists_of_any_toOption hcheck
  simp only [Bool.and_eq_true, decide_eq_true_eq] at hcheck
  obtain ⟨⟨rfl, hindex, hdepth, hsize, hbase⟩, hlength, hat⟩ := hcheck
  rw [Stmt.eq_of_reads? hreads] at hst
  have hrange : a.InRange v Word.greatest := by
    unfold Analysis.InRange
    rw [hsize]
    decide
  have hpoised : (Program.brinkState code).Poised 0 r.depth 18 9 9 := by
    rw [hdepth]
    exact ⟨rfl, Int.le_refl 0, rfl, rfl, fun i hlo hhi => by omega⟩
  have haddressable : Code.Addressable (Program.brinkState code).code := by
    change (code.instructions.toArray.size : Int) ≤ Word.greatest
    unfold Word.greatest
    rw [List.size_toArray]
    omega
  obtain ⟨id, _, hid⟩ := Option.bind_eq_some_iff.mp hv
  have hindexed : r.selector.Indexed a (Program.brinkState code).data 0 := by
    intro e he
    cases hindex.symm.trans he
  have haddress := Reference.addressIn_of_part? hv
    ((Program.consistent_of_analyze ha).fits_offset hid) hindexed hpart hbase
  rw [← (Program.brinkState code).data.without_self 9] at haddress
  have hcomputes := hpoised.addresses (Program.levelled ha _ _) haddressable hc hat haddress
  exact ⟨a, code, r, span, v, part, c, ha, by decide +kernel, hcompile, hst, hv, hpart,
    hindex, hbase, hrange, hc, hat, hpoised, hcomputes, by decide +kernel⟩

end BlockLang
