import BlockLang.Proofs.Elaboration
import BlockLang.Proofs.TableInvariant

/-!
# Renaming

A renaming gives other names and other nodes to a program, and keeps different ones
different. `Program.rename` applies it to a tree and takes all positions away, so that
trees which differ in their positions only become equal. `Program.RenamedTo` compares two
programs after both have lost their positions.

The tables that the analysis makes of a tree and of the renamed tree mirror each other:
the same types with other names for the fields, the same meanings under other names, the
same facts about other nodes. This module says what that means and that the operations on
the tables preserve it.

* Types: `TypeTable.rename` renames the fields. Sizes stay (`TypeTable.size_rename`), and
  a new type of the renamed table is the renamed new type, on success and on failure
  (`TypeTable.addArray?_rename`, `TypeTable.addRecord?_rename`).
* Symbols: `SymbolTable.Mirrors` asks for equal meanings at equal numbers. Positions are
  in symbols too, and differ, so this is a relation and not an equation.
* Annotations: `Annotations.Mirrors` compares the note at a node with that at the renamed
  node.
* Scopes: `Scopes.Mirrors`; a look-up of the renamed name finds the same symbol
  (`Scopes.Mirrors.lookup?`), where it is needed that different names stay different.
-/

namespace BlockLang

/-- Other names and other nodes; different ones stay different. -/
structure Renaming where
  name : String → String
  node : NodeId → NodeId
  name_injective : Function.Injective name
  node_injective : Function.Injective node

/-- Everything keeps its name. -/
def Renaming.refl : Renaming := ⟨id, id, Function.injective_id, Function.injective_id⟩

/-! ## Renamed trees -/

def Ident.rename (r : Renaming) (x : Ident) : Ident := ⟨r.name x.name, .none⟩

mutual

def Expr.rename (r : Renaming) : Expr → Expr
  | .const node value _ => .const (r.node node) value .none
  | .ref x => .ref (Reference.rename r x)
  | .binary node op left right _ =>
    .binary (r.node node) op (Expr.rename r left) (Expr.rename r right) .none

def Reference.rename (r : Renaming) : Reference Expr → Reference Expr
  | ⟨node, name, selector, _⟩ =>
    ⟨r.node node, name.rename r, Selector.rename r selector, .none⟩

def Selector.rename (r : Renaming) : Selector Expr → Selector Expr
  | .whole => .whole
  | .element index => .element (Expr.rename r index)
  | .field field => .field (field.rename r)
  | .fieldElement field index => .fieldElement (field.rename r) (Expr.rename r index)

end

def Call.rename (r : Renaming) (c : Call) : Call :=
  ⟨r.node c.node, c.callee.rename r, c.args.map (Expr.rename r), .none⟩

mutual

def Stmt.rename (r : Renaming) : Stmt → Stmt
  | .assign target value _ => .assign (target.rename r) (value.rename r) .none
  | .ifElse condition thenBranch elseBranch _ =>
    .ifElse (condition.rename r) (Stmt.renameAll r thenBranch)
      (Stmt.renameAll r elseBranch) .none
  | .whileDo condition body _ => .whileDo (condition.rename r) (Stmt.renameAll r body) .none
  | .read target _ => .read (target.rename r) .none
  | .write value _ => .write (value.rename r) .none
  | .call c => .call (c.rename r)
  | .ret _ => .ret .none

def Stmt.renameAll (r : Renaming) : List Stmt → List Stmt
  | [] => []
  | s :: rest => Stmt.rename r s :: Stmt.renameAll r rest

end

mutual

def TypeExpr.rename (r : Renaming) : TypeExpr → TypeExpr
  | .integer _ => .integer .none
  | .char _ => .char .none
  | .named name => .named (name.rename r)
  | .array low high element _ => .array low high (TypeExpr.rename r element) .none
  | .record fields _ => .record (TypeExpr.renameFields r fields) .none

def TypeExpr.renameFields (r : Renaming) : List (FieldGroup TypeExpr) →
    List (FieldGroup TypeExpr)
  | [] => []
  | ⟨names, type, _⟩ :: rest =>
    ⟨names.map (Ident.rename r), TypeExpr.rename r type, .none⟩ ::
      TypeExpr.renameFields r rest

end

def TypeDecl.rename (r : Renaming) (d : TypeDecl) : TypeDecl :=
  ⟨d.name.rename r, d.type.rename r, .none⟩

def VarDecl.rename (r : Renaming) (d : VarDecl) : VarDecl :=
  ⟨r.node d.node, d.names.map (Ident.rename r), d.type.rename r, .none⟩

def ParamDecl.rename (r : Renaming) (d : ParamDecl) : ParamDecl :=
  ⟨r.node d.node, d.mode, d.names.map (Ident.rename r), d.type.rename r, .none⟩

mutual

def Decl.rename (r : Renaming) : Decl → Decl
  | .types decls _ => .types (decls.map (TypeDecl.rename r)) .none
  | .vars decls _ => .vars (decls.map (VarDecl.rename r)) .none
  | .procedure ⟨node, name, params, decls, body, _⟩ =>
    .procedure ⟨r.node node, name.rename r, params.map (ParamDecl.rename r),
      Decl.renameAll r decls, Stmt.renameAll r body, .none⟩

def Decl.renameAll (r : Renaming) : List Decl → List Decl
  | [] => []
  | d :: rest => Decl.rename r d :: Decl.renameAll r rest

end

/-- The program with other names and nodes, and without positions. -/
def Program.rename (r : Renaming) (p : Program) : Program :=
  ⟨p.name.rename r, Decl.renameAll r p.decls, Stmt.renameAll r p.body, .none⟩

/-- `p'` is `p` with other names and nodes; its positions may be any. -/
def Program.RenamedTo (r : Renaming) (p p' : Program) : Prop := p'.rename .refl = p.rename r

/-! ## Renamed tables -/

def Field.rename (r : Renaming) (f : Field) : Field := ⟨r.name f.name, f.type, f.offset⟩

def TypeDescriptor.rename (r : Renaming) : TypeDescriptor → TypeDescriptor
  | .record fields size => .record (fields.map (Field.rename r)) size
  | d => d

/-- The types with other names for the fields. -/
def TypeTable.rename (r : Renaming) (t : TypeTable) : TypeTable :=
  ⟨t.descriptors.map (TypeDescriptor.rename r)⟩

section

variable {r : Renaming}

@[simp] theorem TypeDescriptor.size_rename (d : TypeDescriptor) :
    (d.rename r).size = d.size := by
  cases d <;> rfl

@[simp] theorem TypeDescriptor.isScalar_rename (d : TypeDescriptor) :
    (d.rename r).isScalar = d.isScalar := by
  cases d <;> rfl

/-- The renamed field is found under the renamed name. -/
theorem Field.find?_rename (fields : List Field) (name : String) :
    (fields.map (Field.rename r)).find? (·.name == r.name name) =
      (fields.find? (·.name == name)).map (Field.rename r) := by
  have hname : ((fun f : Field => f.name == r.name name) ∘ Field.rename r) = fun f =>
      f.name == name := by
    funext f
    simp [Field.rename, r.name_injective.eq_iff]
  rw [List.find?_map, hname]

namespace TypeTable

/-- Identities stay. -/
@[simp] theorem get?_rename (t : TypeTable) (id : TypeId) :
    (t.rename r).get? id = (t.get? id).map (TypeDescriptor.rename r) := by
  simp [get?, rename]

/-- Sizes stay. -/
@[simp] theorem size_rename (t : TypeTable) (id : TypeId) :
    (t.rename r).size id = t.size id := by
  unfold size
  rw [get?_rename]
  cases t.get? id <;> simp

@[simp] theorem isScalar_rename (t : TypeTable) (id : TypeId) :
    (t.rename r).isScalar id = t.isScalar id := by
  unfold isScalar
  rw [get?_rename]
  cases t.get? id <;> simp

/-- A new type is added under the same identity. -/
theorem push_rename (t : TypeTable) (d : TypeDescriptor) :
    (t.rename r).push (d.rename r) = ((t.push d).1, (t.push d).2.rename r) := by
  simp [push, rename]

/-- An array type is added or refused as before. -/
theorem addArray?_rename (t : TypeTable) (element : TypeId) (low high : Word) :
    (t.rename r).addArray? element low high =
      Prod.map id (TypeTable.rename r) (t.addArray? element low high) := by
  have hsize : (t.rename r).arraySize? element low high = t.arraySize? element low high := by
    unfold arraySize?
    rw [size_rename]
  unfold addArray?
  rw [hsize]
  cases t.arraySize? element low high with
  | none => rfl
  | some size =>
    exact congrArg (Prod.map some id) (push_rename t (.array element low high size))

/-- Fields have the same offsets under other names. -/
theorem layFields?_rename (t : TypeTable) :
    ∀ (fields : List (String × TypeId)) (offset : Int),
    (t.rename r).layFields? offset (fields.map (Prod.map r.name id)) =
      (t.layFields? offset fields).map (Prod.map (List.map (Field.rename r)) id)
  | [], _ => rfl
  | (name, type) :: rest, offset => by
    rw [List.map_cons, Prod.map_apply, id_eq, layFields?, layFields?, size_rename]
    cases Word.checked (offset + t.size type) with
    | none => rfl
    | some next =>
      dsimp only [Option.bind_eq_bind, Option.bind_some]
      rw [layFields?_rename t rest next]
      cases t.layFields? next rest <;> rfl

/-- A record type is added or refused as before. -/
theorem addRecord?_rename (t : TypeTable) (fields : List (String × TypeId)) :
    (t.rename r).addRecord? (fields.map (Prod.map r.name id)) =
      Prod.map id (TypeTable.rename r) (t.addRecord? fields) := by
  unfold addRecord?
  rw [layFields?_rename]
  cases t.layFields? 0 fields with
  | none => rfl
  | some laid => exact congrArg (Prod.map some id) (push_rename t (.record laid.1 laid.2))

end TypeTable

/-- The same meanings under other names. -/
structure SymbolTable.Mirrors (r : Renaming) (t t' : SymbolTable) : Prop where
  names : t'.names = t.names.map r.name
  meaning? : ∀ id, t'.meaning? id = t.meaning? id

/-- A change of a procedure does not look at its name. -/
theorem Symbol.meaning_mapProcedure {s s' : Symbol}
    (h : s'.meaning = s.meaning) (f : Procedure → Procedure) :
    (s'.mapProcedure f).meaning = (s.mapProcedure f).meaning := by
  unfold mapProcedure
  rw [h]
  cases hm : s.meaning <;> simp [h, hm]

namespace SymbolTable.Mirrors

variable {t t' : SymbolTable}

theorem length (h : t.Mirrors r t') : t'.length = t.length := by
  rw [← length_names, h.names, List.length_map, length_names]

theorem typeAt? (h : t.Mirrors r t') (id : SymbolId) : t'.typeAt? id = t.typeAt? id :=
  Option.ext fun _ => by rw [typeAt?_eq_some_iff, typeAt?_eq_some_iff, h.meaning?]

theorem variableAt? (h : t.Mirrors r t') (id : SymbolId) :
    t'.variableAt? id = t.variableAt? id :=
  Option.ext fun _ => by rw [variableAt?_eq_some_iff, variableAt?_eq_some_iff, h.meaning?]

theorem procedureAt? (h : t.Mirrors r t') (id : SymbolId) :
    t'.procedureAt? id = t.procedureAt? id :=
  Option.ext fun _ => by rw [procedureAt?_eq_some_iff, procedureAt?_eq_some_iff, h.meaning?]

/-- A new symbol with the same meaning. -/
theorem add (h : t.Mirrors r t') (name : String) (meaning : Meaning) (span span' : Span) :
    (t.add ⟨name, meaning, span⟩).2.Mirrors r (t'.add ⟨r.name name, meaning, span'⟩).2 := by
  refine ⟨?_, fun id => ?_⟩
  · rw [names_add, names_add, h.names, List.map_append, List.map_singleton]
  · rw [meaning?_add, meaning?_add, h.length, h.meaning?]

/-- The same change of a procedure. -/
theorem mapProcedure (h : t.Mirrors r t') (id : SymbolId) (f : Procedure → Procedure) :
    (t.mapProcedure id f).Mirrors r (t'.mapProcedure id f) := by
  refine ⟨?_, fun id' => ?_⟩
  · rw [names_mapProcedure, names_mapProcedure, h.names]
  · have hmeaning := h.meaning? id'
    unfold SymbolTable.meaning? at hmeaning ⊢
    rw [get?_mapProcedure, get?_mapProcedure]
    split
    · cases hs : t.get? id' with
      | none => simpa [hs] using hmeaning
      | some s =>
        obtain ⟨s', hs', hm⟩ : ∃ s', t'.get? id' = some s' ∧ s'.meaning = s.meaning := by
          simpa [hs] using hmeaning
        rw [hs']
        exact congrArg some (Symbol.meaning_mapProcedure hm f)
    · exact hmeaning

end SymbolTable.Mirrors

/-- The same facts about other nodes. -/
def Annotations.Mirrors (r : Renaming) (a a' : Annotations) : Prop :=
  ∀ node, a'.get (r.node node) = a.get node

namespace Annotations.Mirrors

variable {a a' : Annotations}

/-- The same symbol noted at the renamed node. -/
theorem recordSymbol (h : a.Mirrors r a') (node : NodeId) (symbol : SymbolId) :
    (a.recordSymbol node symbol).Mirrors r (a'.recordSymbol (r.node node) symbol) := by
  intro n
  rw [get_recordSymbol, get_recordSymbol, h, h]
  simp only [r.node_injective.eq_iff]

/-- The same type noted at the renamed node. -/
theorem recordType (h : a.Mirrors r a') (node : NodeId) (type : TypeId) :
    (a.recordType node type).Mirrors r (a'.recordType (r.node node) type) := by
  intro n
  rw [get_recordType, get_recordType, h, h]
  simp only [r.node_injective.eq_iff]

theorem symbol? (h : a.Mirrors r a') (node : NodeId) :
    a'.symbol? (r.node node) = a.symbol? node := by
  rw [Annotations.symbol?, Annotations.symbol?, h]

theorem type? (h : a.Mirrors r a') (node : NodeId) :
    a'.type? (r.node node) = a.type? node := by
  rw [Annotations.type?, Annotations.type?, h]

end Annotations.Mirrors

/-! ## Renamed scopes -/

/-- The same symbols under other names. -/
structure Scope.Mirrors (r : Renaming) (s s' : Scope) : Prop where
  names : ∀ name, s'.names[r.name name]? = s.names[name]?
  entries : s'.entries = s.entries
  offset : s'.offset = s.offset

structure Scopes.Mirrors (r : Renaming) (s s' : Scopes) : Prop where
  inner : s.inner.Mirrors r s'.inner
  outer : List.Forall₂ (Scope.Mirrors r) s.outer s'.outer

namespace Scopes.Mirrors

variable {s s' : Scopes}

theorem level (h : s.Mirrors r s') : s'.level = s.level := h.outer.length_eq.symm

theorem offset (h : s.Mirrors r s') : s'.offset = s.offset := h.inner.offset

theorem entries (h : s.Mirrors r s') : s'.entries = s.entries :=
  congrArg Array.toList h.inner.entries

/-- A renamed name is declared where the name is. -/
theorem contains (h : s.Mirrors r s') (name : String) :
    s'.inner.names.contains (r.name name) = s.inner.names.contains name := by
  rw [Std.TreeMap.contains_eq_isSome_getElem?, Std.TreeMap.contains_eq_isSome_getElem?,
    h.inner.names]

/-- A renamed name is found where the name is. -/
theorem lookup? (h : s.Mirrors r s') (name : String) :
    s'.lookup? (r.name name) = s.lookup? name := by
  have hall {l l' : List Scope} (h : List.Forall₂ (Scope.Mirrors r) l l') :
      l'.findSome? (·.names[r.name name]?) = l.findSome? (·.names[name]?) := by
    induction h with
    | nil => rfl
    | cons hscope _ ih => rw [List.findSome?_cons, List.findSome?_cons, hscope.names, ih]
  exact hall (.cons h.inner h.outer)

/-- The declaration of a renamed name. -/
theorem declared (h : s.Mirrors r s') (name : String) (id : SymbolId) :
    (s.declared name id).Mirrors r (s'.declared (r.name name) id) := by
  refine ⟨⟨fun name' => ?_, congrArg (·.push id) h.inner.entries, h.inner.offset⟩, h.outer⟩
  show (s'.inner.names.insert (r.name name) id)[r.name name']? =
    (s.inner.names.insert name id)[name']?
  rw [Std.TreeMap.getElem?_insert, Std.TreeMap.getElem?_insert, h.inner.names]
  simp [r.name_injective.eq_iff]

theorem allocated (h : s.Mirrors r s') (words : Int) :
    (s.allocated words).Mirrors r (s'.allocated words) :=
  ⟨⟨h.inner.names, h.inner.entries, congrArg (· + words) h.inner.offset⟩, h.outer⟩

/-- New scopes mirror each other. -/
theorem enter (h : s.Mirrors r s') : s.enter.Mirrors r s'.enter :=
  ⟨⟨fun _ => by simp [Scopes.enter], rfl, rfl⟩, .cons h.inner h.outer⟩

end Scopes.Mirrors

end

end BlockLang
