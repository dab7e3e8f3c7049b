import BlockLang.Proofs.Declarations
import BlockLang.Proofs.Elaboration

/-!
# What the tables always hold

Every identity that is stored in a table or an annotation is itself in its table. Sizes
and offsets are words and lie within the storage they belong to: a field within its
record, a variable's words and a procedure's frame within the address range, parameters
and the display behind the frame header. The checks keep this up one by one, so it holds
of every analysis, whatever the identities of the nodes are. Only the symbol of a
procedure whose header is being checked is exempt, since its frame is not known yet.

* `TypeDescriptor.Laid`, `Variable.Laid` and `Procedure.Laid` say it of single entries.
  Each stays true as the tables grow (`TypeDescriptor.Laid.mono` and so on), and a
  procedure may change as long as types and variables do not (`Procedure.Laid.mono`).
* `Consistent t σ n pending` says it of all tables together; `pending` is the procedure
  that is exempt. It is kept by a new type (`Consistent.push`), a new symbol
  (`Consistent.add`), a note (`Consistent.recordSymbol`, `Consistent.recordType`) and, for
  the pending procedure, by a change of its entry (`Consistent.update`).
* One lemma for each check. Types: `TypeExpr.denote_consistent`. Sections:
  `Decl.checkSections_lays`, where `CheckState.Lays` adds that only types and variables
  have come in. Headers: `Check.header_consistent`, at whose end nothing is pending any
  more. Bodies: `Expr.check_consistent` and `Stmt.check_consistent`. Procedures, nested
  ones included: `Decl.checkProcedure_consistent`.
* `Program.consistent_of_analyze` puts them together.
-/

namespace BlockLang

open Check

/-! ## Identities in the tables -/

namespace TypeTable

/-- The identity is in the table. -/
def Has (t : TypeTable) (id : TypeId) : Prop := id.index < t.length

instance (t : TypeTable) (id : TypeId) : Decidable (t.Has id) :=
  inferInstanceAs (Decidable (_ < _))

theorem has_iff {t : TypeTable} {id : TypeId} : t.Has id ↔ ∃ d, t.get? id = some d := by
  refine ⟨fun h => ⟨_, Array.getElem?_eq_getElem h⟩, fun h => ?_⟩
  obtain ⟨_, hd⟩ := h
  exact lt_length_of_get? hd

theorem has_of_get? {t : TypeTable} {id : TypeId} {d : TypeDescriptor}
    (h : t.get? id = some d) : t.Has id :=
  has_iff.mpr ⟨d, h⟩

theorem Has.mono {t t' : TypeTable} {id : TypeId} (h : t.Has id) (ht : t ≤ t') :
    t'.Has id := by
  obtain ⟨d, hd⟩ := has_iff.mp h
  exact has_of_get? (ht id d hd)

/-- A type keeps its size in a table that grows. -/
theorem Has.size_eq {t t' : TypeTable} {id : TypeId} (h : t.Has id) (ht : t ≤ t') :
    t'.size id = t.size id := by
  obtain ⟨d, hd⟩ := has_iff.mp h
  rw [size_of_get? hd, size_of_get? (ht id d hd)]

/-- A type keeps the size of its slot in a table that grows. -/
theorem Has.slotSize_eq {t t' : TypeTable} {id : TypeId}
    (h : t.Has id) (ht : t ≤ t') (access : Access) :
    slotSize t' id access = slotSize t id access := by
  cases access with
  | direct => exact h.size_eq ht
  | indirect => rfl

end TypeTable

namespace SymbolTable

/-- The identity is in the table. -/
def Has (σ : SymbolTable) (id : SymbolId) : Prop := id.index < σ.length

instance (σ : SymbolTable) (id : SymbolId) : Decidable (σ.Has id) :=
  inferInstanceAs (Decidable (_ < _))

theorem Has.mono {σ σ' : SymbolTable} {id : SymbolId} (h : σ.Has id) (hσ : σ ≤ σ') :
    σ'.Has id :=
  Nat.lt_of_lt_of_le h (length_le hσ)

theorem length_mapProcedure (σ : SymbolTable) (id : SymbolId) (f : Procedure → Procedure) :
    (σ.mapProcedure id f).length = σ.length := by
  simp [mapProcedure, length]

theorem has_of_meaning? {σ : SymbolTable} {id : SymbolId} {m : Meaning}
    (h : σ.meaning? id = some m) : σ.Has id := by
  obtain ⟨symbol, hget, _⟩ := Option.map_eq_some_iff.mp h
  exact lt_length_of_get? hget

/-- A new symbol has the next number, and all others keep their meanings. -/
theorem meaning?_add (σ : SymbolTable) (symbol : Symbol) (id : SymbolId) :
    (σ.add symbol).2.meaning? id = if id.index = σ.length then some symbol.meaning
    else σ.meaning? id := by
  rw [meaning?, get?_add]
  split <;> rfl

/-- Only the meaning of the procedure changes. -/
theorem meaning?_mapProcedure {σ : SymbolTable} {id : SymbolId} {f : Procedure → Procedure}
    {id' : SymbolId} {m : Meaning} (h : (σ.mapProcedure id f).meaning? id' = some m) :
    (σ.meaning? id' = some m ∧ ∀ p, m = .proc p → id' ≠ id) ∨
      ∃ p, id' = id ∧ σ.procedureAt? id = some p ∧ m = .proc (f p) := by
  cases m with
  | type τ =>
    rw [← typeAt?_eq_some_iff, typeAt?_mapProcedure, typeAt?_eq_some_iff] at h
    exact .inl ⟨h, nofun⟩
  | var v =>
    rw [← variableAt?_eq_some_iff, variableAt?_mapProcedure, variableAt?_eq_some_iff] at h
    exact .inl ⟨h, nofun⟩
  | proc p =>
    rw [← procedureAt?_eq_some_iff, procedureAt?_mapProcedure] at h
    split at h
    next heq =>
      obtain ⟨q, hq, rfl⟩ := Option.map_eq_some_iff.mp h
      exact .inr ⟨q, heq, heq ▸ hq, rfl⟩
    next hne => exact .inl ⟨procedureAt?_eq_some_iff.mp h, fun _ _ => hne⟩

end SymbolTable

/-! ## Storage that is laid out -/

/-- The parts of a type are in the table, its size is a word, its fields lie within it, and
its elements fill it. -/
structure TypeDescriptor.Laid (t : TypeTable) (d : TypeDescriptor) : Prop where
  parts : ∀ id ∈ d.components, t.Has id
  size_nonneg : 0 ≤ d.size
  size_le : d.size ≤ Word.greatest
  field : ∀ {name f}, d.field? name = some f → 0 ≤ f.offset ∧
    f.offset + t.size f.type ≤ d.size
  elements : ∀ {element low high size}, d = .array element low high size →
    low ≤ high ∧ size = (high.toInt - low.toInt + 1) * t.size element

/-- The type of a field is a component of the record. -/
theorem TypeDescriptor.type_mem_components {d : TypeDescriptor} {name : String} {f : Field}
    (h : d.field? name = some f) : f.type ∈ d.components := by
  cases d with
  | integer | char | boolean | array => cases h
  | record fields size => exact List.mem_map_of_mem (List.mem_of_find?_eq_some h)

/-- A variable's words in the frame are in the address range. -/
structure Variable.Laid (t : TypeTable) (v : Variable) : Prop where
  type : t.Has v.type
  offset : 0 ≤ v.offset
  words : v.offset + slotSize t v.type v.access ≤ Word.greatest

/-- Parameters and display stand behind the header of the frame, and the frame's end is in the
address range. -/
structure Procedure.Laid (σ : SymbolTable) (p : Procedure) : Prop where
  params : ∀ id ∈ p.params, ∃ v, σ.variableAt? id = some v ∧ Frame.headerSize ≤ v.offset
  display : Frame.headerSize ≤ p.displayBase
  frame : p.displayBase + (p.level + 1) ≤ Word.greatest

/-- What a name stands for is laid out. A procedure may be exempt. -/
def Meaning.Laid (t : TypeTable) (σ : SymbolTable) (exempt : Prop) : Meaning → Prop
  | .type id => t.Has id
  | .var v => v.Laid t
  | .proc p => exempt ∨ p.Laid σ

theorem TypeDescriptor.Laid.mono {t t' : TypeTable} {d : TypeDescriptor} (h : d.Laid t)
    (ht : t ≤ t') : d.Laid t' :=
  { h with
    parts := fun id hid => (h.parts id hid).mono ht
    field := fun {name f} hf => by
      rw [(h.parts f.type (type_mem_components hf)).size_eq ht]
      exact h.field hf
    elements := fun {element low high size} hd => by
      rw [(h.parts element (by simp [hd, TypeDescriptor.components])).size_eq ht]
      exact h.elements hd }

theorem Variable.Laid.mono {t t' : TypeTable} {v : Variable} (h : v.Laid t) (ht : t ≤ t') :
    v.Laid t' where
  type := h.type.mono ht
  offset := h.offset
  words := by
    rw [h.type.slotSize_eq ht]
    exact h.words

/-- A procedure stays laid out as long as variables stay variables. -/
theorem Procedure.Laid.mono {σ σ' : SymbolTable} {p : Procedure} (h : p.Laid σ)
    (hσ : σ.Keeps σ') : p.Laid σ' :=
  { h with
    params := fun id hid => by
      obtain ⟨v, hv, hoffset⟩ := h.params id hid
      exact ⟨v, hσ.vars hv, hoffset⟩ }

theorem Meaning.Laid.mono {t t' : TypeTable} {σ σ' : SymbolTable} {E E' : Prop} {m : Meaning}
    (h : m.Laid t σ E) (ht : t ≤ t') (hσ : σ.Keeps σ') (hE : E → E') : m.Laid t' σ' E' := by
  cases m with
  | type id => exact TypeTable.Has.mono h ht
  | var v => exact Variable.Laid.mono h ht
  | proc p => exact Or.imp hE (fun hp => Procedure.Laid.mono hp hσ) h

/-! ## Tables that fit together -/

/-- The tables and annotations fit together. The procedure that is pending, if any, is
exempt. -/
structure Consistent (t : TypeTable) (σ : SymbolTable) (n : Annotations)
    (pending : Option SymbolId) : Prop where
  builtins : ({} : TypeTable) ≤ t
  types : ∀ {id d}, t.get? id = some d → d.Laid t
  symbols : ∀ {id m}, σ.meaning? id = some m → m.Laid t σ (pending = some id)
  symbolNotes : ∀ {node id}, n.symbol? node = some id → σ.Has id
  typeNotes : ∀ {node type}, n.type? node = some type → t.Has type

namespace Consistent

variable {t t' : TypeTable} {σ : SymbolTable} {n : Annotations} {pending : Option SymbolId}

/-- Every variable is laid out. -/
theorem variable_laid (h : Consistent t σ n pending) {id : SymbolId} {v : Variable}
    (hv : σ.variableAt? id = some v) : v.Laid t :=
  h.symbols (SymbolTable.variableAt?_eq_some_iff.mp hv)

/-- Where nothing is pending every procedure is laid out. -/
theorem procedure_laid (h : Consistent t σ n none) {id : SymbolId} {p : Procedure}
    (hp : σ.procedureAt? id = some p) : p.Laid σ := by
  rcases h.symbols (SymbolTable.procedureAt?_eq_some_iff.mp hp) with hnone | hlaid
  · cases hnone
  · exact hlaid

theorem has_integer (h : Consistent t σ n pending) : t.Has .integer :=
  TypeTable.has_of_get? (h.builtins .integer .integer rfl)

theorem has_char (h : Consistent t σ n pending) : t.Has .char :=
  TypeTable.has_of_get? (h.builtins .char .char rfl)

theorem has_boolean (h : Consistent t σ n pending) : t.Has .boolean :=
  TypeTable.has_of_get? (h.builtins .boolean .boolean rfl)

theorem size_nonneg (h : Consistent t σ n pending) (id : TypeId) : 0 ≤ t.size id := by
  cases hd : t.get? id with
  | none => simp [TypeTable.size, hd]
  | some d =>
    rw [TypeTable.size_of_get? hd]
    exact (h.types hd).size_nonneg

theorem size_le (h : Consistent t σ n pending) (id : TypeId) : t.size id ≤ Word.greatest := by
  cases hd : t.get? id with
  | none => simp [TypeTable.size, hd, Word.greatest]
  | some d =>
    rw [TypeTable.size_of_get? hd]
    exact (h.types hd).size_le

theorem slotSize_nonneg (h : Consistent t σ n pending) (id : TypeId) (access : Access) :
    0 ≤ slotSize t id access := by
  cases access with
  | direct => exact h.size_nonneg id
  | indirect => exact Int.one_nonneg

/-- The elements of an array have a type of the table. -/
theorem has_element (h : Consistent t σ n pending) {base element : TypeId} {low high : Word}
    {size : Int} (hget : t.get? base = some (.array element low high size)) : t.Has element :=
  (h.types hget).parts element List.mem_cons_self

/-- The fields of a record have types of the table. -/
theorem has_field (h : Consistent t σ n pending) {base : TypeId} {fields : List Field}
    {size : Int} (hget : t.get? base = some (.record fields size)) {name : String} {f : Field}
    (hfind : fields.find? (·.name == name) = some f) : t.Has f.type :=
  (h.types hget).parts f.type (TypeDescriptor.type_mem_components hfind)

/-- A new type that is laid out. -/
theorem push (h : Consistent t σ n pending) {d : TypeDescriptor} (hd : d.Laid t) :
    Consistent (t.push d).2 σ n pending where
  builtins := TypeTable.le_trans h.builtins (TypeTable.le_push t d)
  types {id d'} hget := by
    rw [TypeTable.get?_push] at hget
    split at hget
    · cases hget
      exact hd.mono (TypeTable.le_push t d)
    · exact (h.types hget).mono (TypeTable.le_push t d)
  symbols hid := (h.symbols hid).mono (TypeTable.le_push t d)
    (SymbolTable.keeps_of_le (SymbolTable.le_refl σ)) id
  symbolNotes := h.symbolNotes
  typeNotes hnode := (h.typeNotes hnode).mono (TypeTable.le_push t d)

/-- One more symbol, which may be the one that is pending from then on. -/
theorem add (h : Consistent t σ n pending) {pending' : Option SymbolId}
    (hpending : ∀ id, pending = some id → pending' = some id) (symbol : Symbol)
    (hsymbol : symbol.meaning.Laid t σ (pending' = some ⟨σ.length⟩)) :
    Consistent t (σ.add symbol).2 n pending' where
  builtins := h.builtins
  types := h.types
  symbols {id m} hid := by
    have hkeeps := SymbolTable.keeps_of_le (SymbolTable.le_add σ symbol)
    rw [SymbolTable.meaning?_add] at hid
    split at hid
    next hindex =>
      cases hid
      have hid : id = ⟨σ.length⟩ := by
        cases id
        exact congrArg SymbolId.mk hindex
      rw [hid]
      exact hsymbol.mono (TypeTable.le_refl t) hkeeps fun hexempt => hexempt
    · exact (h.symbols hid).mono (TypeTable.le_refl t) hkeeps (hpending id)
  symbolNotes hnode := (h.symbolNotes hnode).mono (SymbolTable.le_add σ symbol)
  typeNotes := h.typeNotes

/-- More is found out about the pending procedure. It is no longer pending once it is laid
out. -/
theorem update {id : SymbolId} (h : Consistent t σ n (some id)) (f : Procedure → Procedure)
    {pending' : Option SymbolId}
    (hf : ∀ p, σ.procedureAt? id = some p → pending' = some id ∨ (f p).Laid σ) :
    Consistent t (σ.mapProcedure id f) n pending' where
  builtins := h.builtins
  types := h.types
  symbols {id' m} hid := by
    have hkeeps := SymbolTable.keeps_mapProcedure σ id f
    rcases SymbolTable.meaning?_mapProcedure hid with hid' | hid'
    · obtain ⟨hmeaning, hne⟩ := hid'
      have hlaid := h.symbols hmeaning
      cases m with
      | type type => exact hlaid
      | var v => exact hlaid
      | proc p =>
        refine Or.imp (fun hexempt => ?_) (fun hp => Procedure.Laid.mono hp hkeeps) hlaid
        exact absurd (Option.some.inj hexempt).symm (hne p rfl)
    · obtain ⟨p, rfl, hp, rfl⟩ := hid'
      exact (hf p hp).imp_right fun hlaid => hlaid.mono hkeeps
  symbolNotes hnode := by
    rw [SymbolTable.Has, SymbolTable.length_mapProcedure]
    exact h.symbolNotes hnode
  typeNotes := h.typeNotes

/-- A note of a symbol that is in the table. -/
theorem recordSymbol (h : Consistent t σ n pending)
    (node : NodeId) {id : SymbolId} (hid : σ.Has id) :
    Consistent t σ (n.recordSymbol node id) pending :=
  { h with
    symbolNotes := fun {node' id'} hnode => by
      rw [Annotations.symbol?, Annotations.get_recordSymbol] at hnode
      split at hnode
      · cases hnode
        exact hid
      · exact h.symbolNotes hnode
    typeNotes := fun {node' type} hnode => by
      rw [Annotations.type?, Annotations.get_recordSymbol] at hnode
      split at hnode <;> exact h.typeNotes hnode }

/-- A note of a type that is in the table. -/
theorem recordType (h : Consistent t σ n pending)
    (node : NodeId) {type : TypeId} (htype : t.Has type) :
    Consistent t σ (n.recordType node type) pending :=
  { h with
    symbolNotes := fun {node' id'} hnode => by
      rw [Annotations.symbol?, Annotations.get_recordType] at hnode
      split at hnode <;> exact h.symbolNotes hnode
    typeNotes := fun {node' type'} hnode => by
      rw [Annotations.type?, Annotations.get_recordType] at hnode
      split at hnode
      · cases hnode
        exact htype
      · exact h.typeNotes hnode }

end Consistent

/-! ## Type expressions -/

/-- The tables fit together, and no frame starts before its base. -/
structure CheckState.Consistent (s : CheckState) (pending : Option SymbolId) : Prop where
  tables : BlockLang.Consistent s.types s.symbols s.annotations pending
  offsets : ∀ scope ∈ s.scopes.inner :: s.scopes.outer, 0 ≤ scope.offset

theorem CheckState.Types.refl (s : CheckState) : s.Types s fun _ => True :=
  ⟨rfl, TypeTable.le_refl _, fun _ _ _ => trivial⟩

/-- An array type that is accepted is laid out. -/
theorem TypeTable.addArray?_laid {t t' : TypeTable} {element type : TypeId} {low high : Word}
    (helement : t.Has element) (hsize : 0 ≤ t.size element) (hbounds : low ≤ high)
    (h : t.addArray? element low high = (some type, t')) :
    ∃ d : TypeDescriptor, (type, t') = t.push d ∧ d.Laid t := by
  obtain ⟨size, hwords, hpush⟩ := addArray?_eq_some h
  obtain ⟨rfl, hfits⟩ := arraySize?_eq_some hwords
  have hcount : 0 ≤ high.toInt - low.toInt + 1 := by
    have := Int64.le_iff_toInt_le.mp hbounds
    omega
  refine ⟨_, hpush, ?_, Int.mul_nonneg hcount hsize, hfits.2, ?_, ?_⟩
  · simpa [TypeDescriptor.components] using helement
  · rintro _ _ ⟨⟩
  · rintro _ _ _ _ ⟨⟩
    exact ⟨hbounds, rfl⟩

/-- The first field stands at the offset, and the others behind it. -/
theorem TypeTable.layFields?_cons_eq_some {t : TypeTable} {name : String} {type : TypeId}
    {rest : List (String × TypeId)} {offset size : Int} {fields : List Field}
    (h : t.layFields? offset ((name, type) :: rest) = some (fields, size)) :
    offset + t.size type ≤ Word.greatest ∧
      ∃ others, t.layFields? (offset + t.size type) rest = some (others, size) ∧
        fields = ⟨name, type, offset⟩ :: others := by
  simp only [layFields?, Option.bind_eq_bind, Option.bind_eq_some_iff, Word.checked,
    Option.ite_none_right_eq_some, Option.some.injEq] at h
  obtain ⟨_, ⟨hfits, rfl⟩, ⟨others, size'⟩, hrest, h⟩ := h
  cases h
  exact ⟨hfits.2, others, hrest, rfl⟩

/-- Fields lie one behind the other, from the first offset up to the size. -/
theorem TypeTable.layFields?_bounds {t : TypeTable}
    (hsize : ∀ id, 0 ≤ t.size id) {named : List (String × TypeId)}
    {offset size : Int} {fields : List Field} (hoffset : offset ≤ Word.greatest)
    (h : t.layFields? offset named = some (fields, size)) :
    offset ≤ size ∧ size ≤ Word.greatest ∧
      ∀ f ∈ fields, f.type ∈ named.map (·.2) ∧ offset ≤ f.offset ∧
      f.offset + t.size f.type ≤ size := by
  induction named generalizing offset size fields with
  | nil =>
    cases h
    simp [hoffset]
  | cons x rest ih =>
    obtain ⟨hfits, others, hrest, rfl⟩ := layFields?_cons_eq_some h
    obtain ⟨hle, hbound, hothers⟩ := ih hfits hrest
    have hnonneg := hsize x.2
    refine ⟨by omega, hbound, List.forall_mem_cons.mpr ⟨by simp; omega, fun f hf => ?_⟩⟩
    obtain ⟨hmem, hlower, hupper⟩ := hothers f hf
    exact ⟨List.mem_cons_of_mem _ hmem, by omega, hupper⟩

/-- A record type that is accepted is laid out. -/
theorem TypeTable.addRecord?_laid {t t' : TypeTable} {named : List (String × TypeId)}
    {type : TypeId} (hnamed : ∀ x ∈ named, t.Has x.2)
    (hsize : ∀ id, 0 ≤ t.size id) (h : t.addRecord? named = (some type, t')) :
    ∃ d : TypeDescriptor, (type, t') = t.push d ∧ d.Laid t := by
  obtain ⟨fields, size, hlay, hpush⟩ := addRecord?_eq_some h
  obtain ⟨hnonneg, hbound, hfields⟩ := layFields?_bounds hsize (by decide) hlay
  refine ⟨.record fields size, hpush, fun id hid => ?_, hnonneg, hbound,
    fun {name f} hf => ?_, by rintro _ _ _ _ ⟨⟩⟩
  · obtain ⟨f, hf, rfl⟩ := List.mem_map.mp hid
    obtain ⟨x, hx, hxf⟩ := List.mem_map.mp (hfields f hf).1
    exact hxf ▸ hnamed x hx
  · exact (hfields f (List.mem_of_find?_eq_some hf)).2

section

variable {s s' : CheckState} {pending : Option SymbolId}

theorem CheckState.Consistent.push (hs : s.Consistent pending) {type : TypeId} {t : TypeTable}
    (h : ∃ d : TypeDescriptor, (type, t) = s.types.push d ∧ d.Laid s.types) :
    { s with types := t }.Consistent pending ∧ s.Types { s with types := t } (fun _ => True) ∧
    t.Has type := by
  obtain ⟨d, hpush, hd⟩ := h
  cases hpush
  refine ⟨⟨hs.tables.push hd, hs.offsets⟩,
    ⟨rfl, TypeTable.le_push _ d, fun _ _ _ => trivial⟩, ?_⟩
  exact TypeTable.has_of_get? (TypeTable.get?_push_self _ d)

mutual

/-- Type expressions keep the tables consistent. -/
theorem TypeExpr.denote_consistent :
    ∀ (te : TypeExpr) {s s' : CheckState} {type : TypeId}, s.Consistent pending →
    te.denote.run s = .ok (type, s') →
    s'.Consistent pending ∧ s.Types s' (fun _ => True) ∧ s'.types.Has type
  | .integer span, s, s', type, hs, h => by
    rw [TypeExpr.denote] at h
    cases h
    exact ⟨hs, .refl s, hs.tables.has_integer⟩
  | .char span, s, s', type, hs, h => by
    rw [TypeExpr.denote] at h
    cases h
    exact ⟨hs, .refl s, hs.tables.has_char⟩
  | .named name, s, s', type, hs, h => by
    obtain ⟨rfl, _, _, htype⟩ := TypeExpr.denote_named_ok h
    exact ⟨hs, .refl s, hs.tables.symbols (SymbolTable.typeAt?_eq_some_iff.mp htype)⟩
  | .array low high element span, s, s', type, hs, h => by
    obtain ⟨hbounds, elementType, s₁, t, helement, hadd, rfl⟩ := TypeExpr.denote_array_ok h
    obtain ⟨hs₁, htypes₁, hhas⟩ := TypeExpr.denote_consistent element hs helement
    have hlaid := TypeTable.addArray?_laid hhas (hs₁.tables.size_nonneg _) hbounds hadd
    obtain ⟨hs', htypes', htype⟩ := hs₁.push hlaid
    exact ⟨hs', (htypes₁.andThen htypes').mono fun _ _ _ => trivial, htype⟩
  | .record groups span, s, s', type, hs, h => by
    obtain ⟨named, s₁, t, hnamed, hadd, rfl⟩ := TypeExpr.denote_record_ok h
    obtain ⟨hs₁, htypes₁, hhas⟩ := TypeExpr.denoteFields_consistent groups hs hnamed
    obtain ⟨hs', htypes', htype⟩ :=
      hs₁.push (TypeTable.addRecord?_laid hhas hs₁.tables.size_nonneg hadd)
    exact ⟨hs', (htypes₁.andThen htypes').mono fun _ _ _ => trivial, htype⟩

/-- The same for the fields of a record; their types are in the table. -/
theorem TypeExpr.denoteFields_consistent :
    ∀ (groups : List (FieldGroup TypeExpr)) {s s' : CheckState}
    {named : List (String × TypeId)}, s.Consistent pending →
    (TypeExpr.denoteFields groups).run s = .ok (named, s') →
    s'.Consistent pending ∧ s.Types s' (fun _ => True) ∧ ∀ x ∈ named, s'.types.Has x.2
  | [], s, s', _, hs, h => by
    rw [TypeExpr.denoteFields] at h
    cases h
    exact ⟨hs, .refl s, by simp⟩
  | ⟨names, type, span⟩ :: rest, s, s', _, hs, h => by
    obtain ⟨id, s₁, others, htype, hrest, rfl⟩ := TypeExpr.denoteFields_cons_ok h
    obtain ⟨hs₁, htypes₁, hhas⟩ := TypeExpr.denote_consistent type hs htype
    obtain ⟨hs₂, htypes₂, hothers⟩ := TypeExpr.denoteFields_consistent rest hs₁ hrest
    refine ⟨hs₂, (htypes₁.andThen htypes₂).mono fun _ _ _ => trivial, fun x hx => ?_⟩
    rcases List.mem_append.mp hx with hx | hx
    · obtain ⟨name, _, rfl⟩ := List.mem_map.mp hx
      exact hhas.mono htypes₂.le
    · exact hothers x hx

end

end

/-! ## Sections -/

/-- What declarations do to a state whose tables fit together. -/
structure CheckState.Lays (s : CheckState) (pending : Option SymbolId) (s' : CheckState) :
    Prop where
  consistent : s'.Consistent pending
  grows : s.Grows s'
  offset : s.scopes.offset ≤ s'.scopes.offset

/-- The innermost scope has variables only, and they stand behind the header of the frame. -/
structure CheckState.Headed (s : CheckState) : Prop where
  offset : Frame.headerSize ≤ s.scopes.offset
  entries : ∀ id ∈ s.scopes.entries, ∃ v, s.symbols.variableAt? id = some v ∧
    Frame.headerSize ≤ v.offset

section

variable {s s' s'' : CheckState} {pending : Option SymbolId}

theorem CheckState.Lays.refl (hs : s.Consistent pending) : s.Lays pending s :=
  ⟨hs, .refl s, Int.le_refl _⟩

theorem CheckState.Lays.trans (h : s.Lays pending s') (h' : s'.Lays pending s'') :
    s.Lays pending s'' :=
  ⟨h'.consistent, h.grows.trans h'.grows, Int.le_trans h.offset h'.offset⟩

/-- The check of a type adds types only. -/
theorem CheckState.Lays.of_types (hs : s'.Consistent pending)
    {P : Analysis → Prop} (h : s.Types s' P) :
    s.Lays pending s' := by
  refine ⟨hs, ⟨h.le, ?_, congrArg Scopes.outer h.scopes⟩,
    Int.le_of_eq (congrArg Scopes.offset h.scopes).symm⟩
  rw [h.rest]
  exact SymbolTable.le_refl _

theorem CheckState.Headed.of_types {P : Analysis → Prop} (h : s.Types s' P) (hs : s.Headed) :
    s'.Headed := by
  rw [h.rest]
  exact ⟨hs.offset, hs.entries⟩

/-- What every check of a sequence preserves. -/
theorem Check.forM_preserves {α : Type} {f : α → Check Unit} {I : CheckState → Prop}
    (hf : ∀ x {s s' : CheckState} {u : Unit}, I s → (f x).run s = .ok (u, s') → I s') :
    ∀ (xs : List α) {s s' : CheckState} {u : Unit}, I s →
    (xs.forM f).run s = .ok (u, s') → I s'
  | [], s, s', u, hs, h => by
    cases h
    exact hs
  | x :: rest, s, s', u, hs, h => by
    obtain ⟨_, s₁, hx, hrest⟩ := run_bind_eq_ok h
    exact forM_preserves hf rest (hf x hs hx) hrest

/-- One more name in the innermost scope. -/
theorem CheckState.Consistent.declared (hs : s.Consistent pending)
    {pending' : Option SymbolId} (hpending : ∀ id, pending = some id → pending' = some id)
    (name : Ident) {meaning : Meaning}
    (hmeaning : meaning.Laid s.types s.symbols (pending' = some ⟨s.symbols.length⟩)) :
    (s.declared name meaning).Consistent pending' where
  tables := hs.tables.add hpending _ hmeaning
  offsets := List.forall_mem_cons.mpr (List.forall_mem_cons.mp hs.offsets)

/-- A variable is laid out behind those before it. -/
theorem Check.declareVariable_lays {type : TypeId} {access : Access} {name : Ident} {u : Unit}
    (hs : s.Consistent pending) (htype : s.types.Has type)
    (h : (declareVariable type access name).run s = .ok (u, s')) :
    s.Lays pending s' ∧ (s.Headed → s'.Headed) := by
  obtain ⟨hfits, rfl⟩ := declareVariable_ok h
  let v : Variable := ⟨type, access, s.scopes.level, s.scopes.offset⟩
  have hoffset : 0 ≤ s.scopes.offset := hs.offsets _ List.mem_cons_self
  have hslot := hs.tables.slotSize_nonneg type access
  have hnext : s.scopes.offset ≤ (s.declaredVariable type access name).scopes.offset :=
    Int.le_add_of_nonneg_right hslot
  refine ⟨⟨⟨?_, ?_⟩, ⟨TypeTable.le_refl _, SymbolTable.le_add _ _, rfl⟩, hnext⟩,
    fun hheaded => ⟨?_, ?_⟩⟩
  · have hlaid : (Meaning.var v).Laid s.types s.symbols (pending = some ⟨s.symbols.length⟩) :=
      ⟨htype, hoffset, hfits.2⟩
    exact (hs.declared (fun _ hpending => hpending) name hlaid).tables
  · exact List.forall_mem_cons.mpr ⟨Int.le_trans hoffset hnext,
      (List.forall_mem_cons.mp hs.offsets).2⟩
  · exact Int.le_trans hheaded.offset hnext
  · intro id hid
    have hentries : (s.declaredVariable type access name).scopes.entries = s.scopes.entries ++
        [⟨s.symbols.length⟩] :=
      Array.toList_push
    rw [hentries] at hid
    rcases List.mem_append.mp hid with hid | hid
    · obtain ⟨w, hw, hbehind⟩ := hheaded.entries id hid
      exact ⟨w, SymbolTable.variableAt?_mono (SymbolTable.le_add _ _) hw, hbehind⟩
    · rw [List.mem_singleton.mp hid]
      exact ⟨v, SymbolTable.variableAt?_add_self s.symbols name v, hheaded.offset⟩

/-- Variables or parameters that share a type expression. -/
theorem Check.group_lays {type : TypeExpr} {access : Access}
    {names : List Ident} {u : Unit} (hs : s.Consistent pending)
    (h : (do declareVariables (← type.denote) access names : Check Unit).run s =
      .ok (u, s')) :
    s.Lays pending s' ∧ (s.Headed → s'.Headed) := by
  obtain ⟨id, s₁, htype, hnames⟩ := run_bind_eq_ok h
  obtain ⟨hs₁, htypes, hhas⟩ := type.denote_consistent hs htype
  have hall := forM_preserves (I := fun s' => s.Lays pending s' ∧
    (s.Headed → s'.Headed) ∧ s'.types.Has id) ?_ names
    ⟨.of_types hs₁ htypes, fun hheaded => hheaded.of_types htypes, hhas⟩ hnames
  · exact ⟨hall.1, hall.2.1⟩
  · intro name s₁ s₂ _ ⟨hlays, hheaded, hhas⟩ hname
    obtain ⟨hlays', hheaded'⟩ := declareVariable_lays hlays.consistent hhas hname
    exact ⟨hlays.trans hlays', fun hs => hheaded' (hheaded hs), hhas.mono hlays'.grows.types⟩

/-- Parameters are laid out behind the frame header. -/
theorem ParamDecl.check_lays {params : List ParamDecl} {u : Unit} (hs : s.Consistent pending)
    (h : (params.forM ParamDecl.check).run s = .ok (u, s')) :
    s.Lays pending s' ∧ (s.Headed → s'.Headed) := by
  refine forM_preserves (I := fun s' => s.Lays pending s' ∧ (s.Headed → s'.Headed)) ?_ params
    ⟨.refl hs, fun hheaded => hheaded⟩ h
  intro d s₁ s₂ _ ⟨hlays, hheaded⟩ hd
  obtain ⟨hlays', hheaded'⟩ := group_lays hlays.consistent hd
  exact ⟨hlays.trans hlays', fun hs => hheaded' (hheaded hs)⟩

theorem TypeDecl.check_lays {d : TypeDecl} {u : Unit} (hs : s.Consistent pending)
    (h : d.check.run s = .ok (u, s')) : s.Lays pending s' := by
  obtain ⟨type, s₁, htype, rfl⟩ := TypeDecl.check_ok h
  obtain ⟨hs₁, htypes, hhas⟩ := d.type.denote_consistent hs htype
  exact (CheckState.Lays.of_types hs₁ htypes).trans
    ⟨hs₁.declared (fun _ hpending => hpending) d.name hhas, .declared .., Int.le_refl _⟩

/-- Sections keep the tables consistent. -/
theorem Decl.checkSections_lays :
    ∀ (decls : List Decl) {afterProcedure : Bool} {s s' : CheckState} {u : Unit},
    s.Consistent pending → (Decl.checkSections afterProcedure decls).run s = .ok (u, s') →
    s.Lays pending s'
  | [], _, s, s', _, hs, h => by
    rw [Decl.checkSections] at h
    cases h
    exact .refl hs
  | .procedure _ :: rest, _, s, s', _, hs, h => by
    rw [Decl.checkSections] at h
    exact Decl.checkSections_lays rest hs h
  | .types decls span :: rest, _, s, s', _, hs, h => by
    obtain ⟨s₁, htypes, hrest⟩ := Decl.checkSections_types_ok h
    have hfirst := forM_preserves (I := s.Lays pending) (fun d _ _ _ hlays hd =>
      hlays.trans (TypeDecl.check_lays hlays.consistent hd)) decls (.refl hs) htypes
    exact hfirst.trans (Decl.checkSections_lays rest hfirst.consistent hrest)
  | .vars decls span :: rest, _, s, s', _, hs, h => by
    obtain ⟨s₁, hvars, hrest⟩ := Decl.checkSections_vars_ok h
    have hfirst := forM_preserves (I := s.Lays pending) (fun d _ _ _ hlays hd =>
      hlays.trans (group_lays hlays.consistent hd).1) decls (.refl hs) hvars
    exact hfirst.trans (Decl.checkSections_lays rest hfirst.consistent hrest)

/-! ## The header of a procedure -/

/-- A procedure that is entered is pending. -/
theorem CheckState.Consistent.entered (hs : s.Consistent none) (node : NodeId)
    (name : Ident) : (s.entered node name).Consistent (some ⟨s.symbols.length⟩) := by
  have hdeclared : (s.declared name s.header).Consistent (some ⟨s.symbols.length⟩) :=
    hs.declared nofun name (.inl rfl)
  refine ⟨hdeclared.tables.recordSymbol node ?_, ?_⟩
  · exact SymbolTable.lt_length_of_get? (SymbolTable.get?_add_self _ _)
  · exact List.forall_mem_cons.mpr ⟨show 0 ≤ Frame.headerSize by decide, hdeclared.offsets⟩

/-- The frame of a procedure that is entered has its header. -/
theorem CheckState.headed_entered (s : CheckState) (node : NodeId) (name : Ident) :
    (s.entered node name).Headed :=
  ⟨Int.le_refl _, by simp [CheckState.entered, Scopes.enter, Scopes.entries]⟩

/-- Behind its parameters the procedure is still pending. The parameters are those of its
scope. -/
theorem Check.openProcedure_consistent {node : NodeId}
    {name : Ident} {params : List ParamDecl} {id : SymbolId}
    (hs : s.Consistent none) (h : (openProcedure node name params).run s = .ok (id, s')) :
    s'.Consistent (some id) ∧ s'.Headed ∧ s'.scopes.level = s.scopes.level + 1 ∧
      s'.symbols.procedureAt? id = some ⟨s.scopes.level + 1, s'.scopes.entries, 0, 0⟩ := by
  obtain ⟨rfl, s₀, hparams, rfl⟩ := openProcedure_ok h
  obtain ⟨hlays, hheaded⟩ := ParamDecl.check_lays (hs.entered node name) hparams
  obtain ⟨hoffset, hentries⟩ := hheaded (s.headed_entered node name)
  refine ⟨⟨hlays.consistent.tables.update _ fun _ _ => .inl rfl, hlays.consistent.offsets⟩,
    ⟨hoffset, ?_⟩, hlays.grows.level, ?_⟩
  · intro id hid
    obtain ⟨v, hv, hbehind⟩ := hentries id hid
    exact ⟨v, by rw [SymbolTable.variableAt?_mapProcedure, hv], hbehind⟩
  · have hheader :=
      SymbolTable.procedureAt?_mono hlays.grows.symbols (s.procedureAt?_header name)
    rw [SymbolTable.procedureAt?_mapProcedure, if_pos rfl, hheader]
    rfl

/-- Behind its header the procedure is laid out like all others. -/
theorem Check.header_consistent {node : NodeId} {name : Ident}
    {params : List ParamDecl} {decls : List Decl} {u : Unit}
    (hs : s.Consistent none) (h : (header node name params decls).run s = .ok (u, s')) :
    s'.Consistent none := by
  obtain ⟨id, s₁, s₂, hopen, hsections, hfix⟩ := header_ok h
  obtain ⟨hs₁, ⟨hoffset, hentries⟩, hlevel, hown⟩ := openProcedure_consistent hs hopen
  obtain ⟨hfits, rfl⟩ := fixFrame_ok hfix
  have hlays := Decl.checkSections_lays decls hs₁ hsections
  refine ⟨hlays.consistent.tables.update _ fun p hp => .inr ?_, hlays.consistent.offsets⟩
  rw [SymbolTable.procedureAt?_mono hlays.grows.symbols hown] at hp
  cases hp
  refine ⟨fun id hid => ?_, Int.le_trans hoffset hlays.offset, ?_⟩
  · obtain ⟨v, hv, hbehind⟩ := hentries id hid
    exact ⟨v, SymbolTable.variableAt?_mono hlays.grows.symbols hv, hbehind⟩
  · rw [hlays.grows.level, hlevel] at hfits
    exact hfits.2

/-! ## Bodies -/

/-- What a reference has around its selector. -/
theorem Reference.check_consistent {node : NodeId} {name : Ident} {selector : Selector Expr}
    {span : Span} {type : TypeId} (hs : s.Consistent none)
    (hselector : ∀ {v : Variable} {s₁}, v.Laid s.types →
      (selector.check v.type name).run s = .ok (type, s₁) →
      s₁.Consistent none ∧ s.Notes s₁ ∧ s.types.Has type)
    (h : (Reference.check ⟨node, name, selector, span⟩).run s = .ok (type, s')) :
    s'.Consistent none ∧ s.Notes s' ∧ s'.types.Has type := by
  obtain ⟨id, v, s₁, _, hv, hcheck, rfl⟩ := Reference.check_ok h
  obtain ⟨hs₁, hnotes, hhas⟩ := hselector (hs.tables.variable_laid hv) hcheck
  rw [← hnotes.types] at hhas
  refine ⟨⟨(hs₁.tables.recordSymbol node ?_).recordType node hhas, hs₁.offsets⟩,
    hnotes.trans (.annotate ..), hhas⟩
  rw [hnotes.symbols]
  exact SymbolTable.has_of_meaning? (SymbolTable.variableAt?_eq_some_iff.mp hv)

/-- Expressions add notes, about symbols and types that are in the tables. -/
theorem Expr.check_consistent (e : Expr) {s s' : CheckState} {type : TypeId}
    (hs : s.Consistent none) (h : e.check.run s = .ok (type, s')) :
    s'.Consistent none ∧ s.Notes s' ∧ s'.types.Has type := by
  induction e generalizing s s' type with
  | const node value span =>
    cases h
    have hhas := hs.tables.has_integer
    exact ⟨⟨hs.tables.recordType node hhas, hs.offsets⟩, .annotate .., hhas⟩
  | whole node name span =>
    rw [Expr.check] at h
    refine Reference.check_consistent hs (fun hv hselector => ?_) h
    cases hselector
    exact ⟨hs, rfl, hv.type⟩
  | element node name index span ih =>
    rw [Expr.check] at h
    refine Reference.check_consistent hs (fun _ hselector => ?_) h
    obtain ⟨hindex, _, _, _, hget⟩ := Selector.check_element_ok hselector
    obtain ⟨hs₁, hnotes, _⟩ := ih hs hindex
    exact ⟨hs₁, hnotes, hs.tables.has_element hget⟩
  | field node name field span =>
    rw [Expr.check] at h
    refine Reference.check_consistent hs (fun _ hselector => ?_) h
    rw [Selector.check] at hselector
    obtain ⟨rfl, _, _, _, hget, hfind, rfl⟩ := fieldType_ok hselector
    exact ⟨hs, rfl, hs.tables.has_field hget hfind⟩
  | fieldElement node name field index span ih =>
    rw [Expr.check] at h
    refine Reference.check_consistent hs (fun _ hselector => ?_) h
    obtain ⟨hindex, _, _, _, _, _, _, _, _, hget⟩ := Selector.check_fieldElement_ok hselector
    obtain ⟨hs₁, hnotes, _⟩ := ih hs hindex
    exact ⟨hs₁, hnotes, hs.tables.has_element hget⟩
  | binary node op left right span ihl ihr =>
    obtain ⟨rfl, _, s₁, s₂, hleft, hright, _, rfl⟩ := Expr.check_binary_ok h
    obtain ⟨hs₁, hnotes₁, _⟩ := ihl hs hleft
    obtain ⟨hs₂, hnotes₂, _⟩ := ihr hs₁ hright
    have hhas : s₂.types.Has op.resultType := by
      cases op with
      | less | equal => exact hs₂.tables.has_boolean
      | add | sub | mul | div => exact hs₂.tables.has_integer
    exact ⟨⟨hs₂.tables.recordType node hhas, hs₂.offsets⟩,
      (hnotes₁.trans hnotes₂).trans (.annotate ..), hhas⟩

theorem Check.checkArguments_consistent (call : Call) (expected : Nat) :
    ∀ {params : List SymbolId} {args : List Expr} {s s' : CheckState} {u : Unit},
    s.Consistent none → (checkArguments call expected params args).run s = .ok (u, s') →
    s'.Consistent none
  | [], [], _, _, _, hs, h => by
    cases h
    exact hs
  | [], _ :: _, _, _, _, _, h => by cases h
  | _ :: _, [], _, _, _, _, h => by cases h
  | param :: params, arg :: args, s, s', _, hs, h => by
    obtain ⟨_, s₁, _, _, hcheck, hrest⟩ := checkArguments_cons_ok h
    exact checkArguments_consistent call expected (arg.check_consistent hs hcheck).1 hrest

/-- Calls keep the tables consistent. -/
theorem Call.check_consistent {call : Call} {u : Unit} (hs : s.Consistent none)
    (h : call.check.run s = .ok (u, s')) : s'.Consistent none := by
  obtain ⟨id, p, _, hp, hargs⟩ := Call.check_ok h
  have hhas : s.symbols.Has id :=
    SymbolTable.has_of_meaning? (SymbolTable.procedureAt?_eq_some_iff.mp hp)
  refine checkArguments_consistent call _ ?_ hargs
  exact ⟨hs.tables.recordSymbol call.node hhas, hs.offsets⟩

mutual

/-- Statements keep the tables consistent. -/
theorem Stmt.check_consistent :
    ∀ (stmt : Stmt) {s s' : CheckState} {u : Unit}, s.Consistent none →
    stmt.check.run s = .ok (u, s') → s'.Consistent none
  | .assign target value span, s, s', _, hs, h => by
    obtain ⟨_, s₁, htarget, hvalue⟩ := Stmt.check_assign_ok h
    exact (value.check_consistent ((Expr.ref target).check_consistent hs htarget).1 hvalue).1
  | .ifElse condition thenBranch elseBranch span, s, s', _, hs, h => by
    obtain ⟨s₁, s₂, hcondition, hthen, helse⟩ := Stmt.check_ifElse_ok h
    have hs₁ := (condition.check_consistent hs hcondition).1
    exact Stmt.checkAll_consistent elseBranch
      (Stmt.checkAll_consistent thenBranch hs₁ hthen) helse
  | .whileDo condition body span, s, s', _, hs, h => by
    obtain ⟨s₁, hcondition, hbody⟩ := Stmt.check_whileDo_ok h
    exact Stmt.checkAll_consistent body (condition.check_consistent hs hcondition).1 hbody
  | .read target span, s, s', _, hs, h => by
    obtain ⟨_, htarget⟩ := Stmt.check_read_ok h
    exact ((Expr.ref target).check_consistent hs htarget).1
  | .write value span, s, s', _, hs, h => by
    obtain ⟨_, hvalue, _⟩ := Stmt.check_write_ok h
    exact (value.check_consistent hs hvalue).1
  | .call c, s, s', _, hs, h => by
    rw [Stmt.check] at h
    exact Call.check_consistent hs h
  | .ret span, s, s', _, hs, h => by
    obtain ⟨rfl, _⟩ := Stmt.check_ret_ok h
    exact hs

theorem Stmt.checkAll_consistent :
    ∀ (stmts : List Stmt) {s s' : CheckState} {u : Unit}, s.Consistent none →
    (Stmt.checkAll stmts).run s = .ok (u, s') → s'.Consistent none
  | [], s, s', _, hs, h => by
    rw [Stmt.checkAll] at h
    cases h
    exact hs
  | stmt :: rest, s, s', _, hs, h => by
    obtain ⟨s₁, hstmt, hrest⟩ := Stmt.checkAll_cons_ok h
    exact Stmt.checkAll_consistent rest (Stmt.check_consistent stmt hs hstmt) hrest

end

/-! ## Programs -/

/-- The end of a procedure changes no table. -/
theorem Check.closeProcedure_consistent {name : Ident}
    {span : Span} {u : Unit} (hs : s.Consistent none)
    (h : (closeProcedure name span).run s = .ok (u, s')) : s'.Consistent none := by
  obtain ⟨scope, outer, houter, rfl⟩ := closeProcedure_ok h
  refine ⟨hs.tables, fun scope' hscope => hs.offsets scope' ?_⟩
  rw [houter]
  exact List.mem_cons_of_mem _ hscope

mutual

/-- Procedures keep the tables consistent, with all that is nested in them. -/
theorem Decl.checkProcedure_consistent :
    ∀ (d : Decl) {s s' : CheckState} {u : Unit}, s.Consistent none →
    d.checkProcedure.run s = .ok (u, s') → s'.Consistent none
  | .types .., s, s', _, hs, h => by
    rw [Decl.checkProcedure] at h
    cases h
    exact hs
  | .vars .., s, s', _, hs, h => by
    rw [Decl.checkProcedure] at h
    cases h
    exact hs
  | .procedure ⟨node, name, params, decls, body, span⟩, s, s', _, hs, h => by
    obtain ⟨s₁, s₂, s₃, hheader, hnested, hbody, hclose⟩ := Decl.checkProcedure_ok h
    have hs₂ := Decl.checkProcedures_consistent decls (header_consistent hs hheader) hnested
    exact closeProcedure_consistent (Stmt.checkAll_consistent body hs₂ hbody) hclose

theorem Decl.checkProcedures_consistent :
    ∀ (decls : List Decl) {s s' : CheckState} {u : Unit}, s.Consistent none →
    (Decl.checkProcedures decls).run s = .ok (u, s') → s'.Consistent none
  | [], s, s', _, hs, h => by
    rw [Decl.checkProcedures] at h
    cases h
    exact hs
  | d :: rest, s, s', _, hs, h => by
    obtain ⟨s₁, hd, hrest⟩ := Decl.checkProcedures_cons_ok h
    exact Decl.checkProcedures_consistent rest (Decl.checkProcedure_consistent d hs hd) hrest

end

end

/-- The built-in types have one word each. -/
theorem TypeTable.laid_empty {id : TypeId} {d : TypeDescriptor}
    (h : ({} : TypeTable).get? id = some d) :
    d.Laid ({} : TypeTable) := by
  have hmem : d ∈ [TypeDescriptor.integer, .char, .boolean] := by
    simpa using Array.mem_of_getElem? h
  simp only [List.mem_cons, List.not_mem_nil, or_false] at hmem
  rcases hmem with rfl | rfl | rfl <;> exact ⟨by simp [TypeDescriptor.components], by decide,
    by decide, by rintro _ _ ⟨⟩, by rintro _ _ _ _ ⟨⟩⟩

/-- Before anything is declared. -/
theorem CheckState.consistent_empty : ({} : CheckState).Consistent none := by
  have hempty : ∀ node, ({} : Annotations).get node = {} := fun _ => Std.TreeMap.getD_emptyc
  refine ⟨⟨TypeTable.le_refl _, TypeTable.laid_empty, nofun, fun {node id} hnode => ?_,
      fun {node type} hnode => ?_⟩, by simp⟩
  · rw [Annotations.symbol?, hempty] at hnode
    cases hnode
  · rw [Annotations.type?, hempty] at hnode
    cases hnode

/-- The tables of an analysis fit together. -/
def Analysis.Consistent (a : Analysis) : Prop :=
  BlockLang.Consistent a.types a.symbols a.annotations none

/-- The tables of every analysis fit together, whatever the identities of the nodes are. -/
theorem Program.consistent_of_analyze {p : Program} {a : Analysis} (h : p.analyze = .ok a) :
    a.Consistent := by
  obtain ⟨s₁, s₂, s₃, hsections, _, hprocedures, hbody, rfl⟩ := Program.analyze_ok h
  have hs₁ :=
    (Decl.checkSections_lays p.decls CheckState.consistent_empty hsections).consistent
  exact (Stmt.checkAll_consistent p.body
    (Decl.checkProcedures_consistent p.decls hs₁ hprocedures) hbody).tables

end BlockLang
