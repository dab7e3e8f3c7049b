import BlockLang.Proofs.Checking
import Mathlib.Data.List.Forall2

/-!
# Resolved programs

What the analysis finds out about a program, as judgements about the tree: which symbol
each name denotes, that the symbol's entry says what the declaration said, and that the
nodes are annotated accordingly. Names are looked up in a list of the symbols in scope,
the latest first. The judgements speak of the finished analysis only, so they are what the
proofs about generated code start from.

* `Expr.Resolved`, `Call.Resolved`, `Stmt.Resolved`: the nodes of a body.
* `TypeExpr.Resolved`: a type expression and its type in the table.
* `Layer.Declares`, `ParamDecl.Resolved`, `Decl.SectionsResolved`: declarations, which
  lead from one layer to the next. A `Layer` is a list of names with the first free offset
  of the frame.
* `ProcDecl.Resolved`, `Decl.ProceduresResolved`, `Program.Resolved`: procedures and
  programs.

Two things are proved about them here, by induction over the judgements. The offsets of a
frame only grow, and stay words (the lemmas `offset_mono` and `offset_le`). And a section
adds names in front of the others, none of which is a procedure's (`Names.Adds`), so that
procedures are declared by procedures alone.
-/

namespace BlockLang

/-! ## Nodes -/

mutual

def Expr.nodes : Expr → List NodeId
  | .const node _ _ => [node]
  | .ref r => Reference.nodes r
  | .binary node _ left right _ => node :: (Expr.nodes left ++ Expr.nodes right)

def Reference.nodes : Reference Expr → List NodeId
  | ⟨node, _, selector, _⟩ => node :: Selector.nodes selector

def Selector.nodes : Selector Expr → List NodeId
  | .whole | .field _ => []
  | .element index => Expr.nodes index
  | .fieldElement _ index => Expr.nodes index

end

def Call.nodes (c : Call) : List NodeId := c.node :: c.args.flatMap Expr.nodes

mutual

def Stmt.nodes : Stmt → List NodeId
  | .assign target value _ => Reference.nodes target ++ value.nodes
  | .ifElse condition thenBranch elseBranch _ =>
    condition.nodes ++ (Stmt.nodesAll thenBranch ++ Stmt.nodesAll elseBranch)
  | .whileDo condition body _ => condition.nodes ++ Stmt.nodesAll body
  | .read target _ => Reference.nodes target
  | .write value _ => value.nodes
  | .call c => c.nodes
  | .ret _ => []

def Stmt.nodesAll : List Stmt → List NodeId
  | [] => []
  | s :: rest => Stmt.nodes s ++ Stmt.nodesAll rest

end

mutual

def Decl.nodes : Decl → List NodeId
  | .types .. => []
  | .vars decls _ => decls.map (·.node)
  | .procedure ⟨node, _, params, decls, body, _⟩ =>
    node :: (params.map (·.node) ++ (Decl.nodesAll decls ++ Stmt.nodesAll body))

def Decl.nodesAll : List Decl → List NodeId
  | [] => []
  | d :: rest => Decl.nodes d ++ Decl.nodesAll rest

end

/-- The identities of the nodes of a program. -/
def Program.nodes (p : Program) : List NodeId := Decl.nodesAll p.decls ++ Stmt.nodesAll p.body

/-! ## Expressions -/

/-- A name that is found is in the list. -/
theorem Names.mem_of_lookup {Γ : Names} {name : String}
    {id : SymbolId} (h : Γ.lookup name = some id) :
    (name, id) ∈ Γ := by
  obtain ⟨before, after, rfl, _⟩ := List.lookup_eq_some_iff.mp h
  simp

/-- A reference node denotes a variable: the one that its name has, and the one that it is
annotated with. -/
def Analysis.Refers (a : Analysis) (Γ : Names) (node : NodeId) (name : Ident)
    (v : Variable) : Prop :=
  ∃ id, Γ.lookup name.name = some id ∧ a.symbols.variableAt? id = some v ∧
    a.annotations.symbol? node = some id

/-- An expression has a type, and its node is annotated with it. -/
inductive Expr.Resolved (a : Analysis) (Γ : Names) : Expr → TypeId → Prop where
  | const {node value span} : a.annotations.type? node = some .integer →
      Expr.Resolved a Γ (.const node value span) .integer
  | whole {node name span v} : a.Refers Γ node name v →
      a.annotations.type? node = some v.type →
      Expr.Resolved a Γ (.ref ⟨node, name, .whole, span⟩) v.type
  | element {node name index span v element low high size} : a.Refers Γ node name v →
      a.types.get? v.type = some (.array element low high size) →
      Expr.Resolved a Γ index .integer → a.annotations.type? node = some element →
      Expr.Resolved a Γ (.ref ⟨node, name, .element index, span⟩) element
  | field {node name field span v fields size f} : a.Refers Γ node name v →
      a.types.get? v.type = some (.record fields size) →
      fields.find? (·.name == field.name) = some f → a.annotations.type? node = some f.type →
      Expr.Resolved a Γ (.ref ⟨node, name, .field field, span⟩) f.type
  | fieldElement {node name field index span v fields size f element low high length} :
      a.Refers Γ node name v → a.types.get? v.type = some (.record fields size) →
      fields.find? (·.name == field.name) = some f →
      a.types.get? f.type = some (.array element low high length) →
      Expr.Resolved a Γ index .integer → a.annotations.type? node = some element →
      Expr.Resolved a Γ (.ref ⟨node, name, .fieldElement field index, span⟩) element
  | binary {node op left right span type} :
      Expr.Resolved a Γ left type → Expr.Resolved a Γ right type →
      a.types.isScalar type = true → a.annotations.type? node = some op.resultType →
      Expr.Resolved a Γ (.binary node op left right span) op.resultType

/-- The node of a resolved expression is annotated with its type. -/
theorem Expr.Resolved.type?_node {a : Analysis} {Γ : Names}
    {e : Expr} {type : TypeId} (h : e.Resolved a Γ type) :
    a.annotations.type? e.node = some type := by
  cases h <;> assumption

/-! ## Statements -/

/-- An argument for a parameter: it has the parameter's type, and an indirect parameter takes
a reference. -/
def Expr.ResolvedFor (a : Analysis) (Γ : Names) (param : SymbolId) (arg : Expr) : Prop :=
  ∃ v, a.symbols.variableAt? param = some v ∧ (v.access = .indirect → arg.asRef?.isSome) ∧
    arg.Resolved a Γ v.type

/-- A call denotes a procedure, and its arguments go with the parameters. -/
def Call.Resolved (a : Analysis) (Γ : Names) (c : Call) : Prop :=
  ∃ id p, Γ.lookup c.callee.name = some id ∧ a.symbols.procedureAt? id = some p ∧
    a.annotations.symbol? c.node = some id ∧
    List.Forall₂ (Expr.ResolvedFor a Γ) p.params c.args

/-- A statement of a body at a lexical level. -/
inductive Stmt.Resolved (a : Analysis) (Γ : Names) (level : Nat) : Stmt → Prop where
  | assign {target value span type} : Expr.Resolved a Γ (.ref target) type →
      value.Resolved a Γ type → Stmt.Resolved a Γ level (.assign target value span)
  | ifElse {condition thenBranch elseBranch span} : condition.Resolved a Γ .boolean →
      (∀ s ∈ thenBranch, Stmt.Resolved a Γ level s) →
      (∀ s ∈ elseBranch, Stmt.Resolved a Γ level s) →
      Stmt.Resolved a Γ level (.ifElse condition thenBranch elseBranch span)
  | whileDo {condition body span} : condition.Resolved a Γ .boolean →
      (∀ s ∈ body, Stmt.Resolved a Γ level s) →
      Stmt.Resolved a Γ level (.whileDo condition body span)
  | read {target span type} : Expr.Resolved a Γ (.ref target) type →
    Stmt.Resolved a Γ level (.read target span)
  | write {value span type} : value.Resolved a Γ type →
    Stmt.Resolved a Γ level (.write value span)
  | call {c} : c.Resolved a Γ → Stmt.Resolved a Γ level (.call c)
  | ret {span} : 0 < level → Stmt.Resolved a Γ level (.ret span)

/-! ## Declarations -/

mutual

/-- A type expression denotes a type of the table. -/
inductive TypeExpr.Resolved (a : Analysis) (Γ : Names) : TypeExpr → TypeId → Prop where
  | integer {span} : TypeExpr.Resolved a Γ (.integer span) .integer
  | char {span} : TypeExpr.Resolved a Γ (.char span) .char
  | named {name id type} : Γ.lookup name.name = some id → a.symbols.typeAt? id = some type →
      TypeExpr.Resolved a Γ (.named name) type
  | array {low high element span elementType type} :
      low ≤ high → TypeExpr.Resolved a Γ element elementType →
      a.types.get? type =
        some (.array elementType low high
          ((high.toInt - low.toInt + 1) * a.types.size elementType)) →
      TypeExpr.Resolved a Γ (.array low high element span) type
  | record {groups span named fields size type} : TypeExpr.ResolvedFields a Γ groups named →
      a.types.layFields? 0 named = some (fields, size) →
      a.types.get? type = some (.record fields size) →
      TypeExpr.Resolved a Γ (.record groups span) type

/-- The fields of a record with their types. -/
inductive TypeExpr.ResolvedFields (a : Analysis) (Γ : Names) :
    List (FieldGroup TypeExpr) → List (String × TypeId) → Prop where
  | nil : TypeExpr.ResolvedFields a Γ [] []
  | cons {names type span rest id fields} :
      TypeExpr.Resolved a Γ type id → TypeExpr.ResolvedFields a Γ rest fields →
      TypeExpr.ResolvedFields a Γ (⟨names, type, span⟩ :: rest)
      (names.map (fun name => (name.name, id)) ++ fields)

end

/-- The symbols in scope and the first free offset of the frame. -/
structure Layer where
  names : Names
  offset : Int

/-- Variables of one type stand side by side in the frame. -/
inductive Layer.Declares (a : Analysis) (level : Nat) (type : TypeId) (access : Access) :
    Layer → List Ident → Layer → Prop where
  | nil {l} : Layer.Declares a level type access l [] l
  | cons {Γ offset name names id l'} :
      a.symbols.variableAt? id = some ⟨type, access, level, offset⟩ →
      0 ≤ Check.slotSize a.types type access →
      Word.Fits (offset + Check.slotSize a.types type access) →
      Layer.Declares a level type access ⟨(name.name, id) :: Γ,
      offset + Check.slotSize a.types type access⟩ names l' →
      Layer.Declares a level type access ⟨Γ, offset⟩ (name :: names) l'

/-- Variables, or parameters of one mode, that share a type expression. -/
def Layer.DeclaresGroup (a : Analysis) (level : Nat) (l : Layer) (type : TypeExpr)
    (access : Access) (names : List Ident) (l' : Layer) : Prop :=
  ∃ id, type.Resolved a l.names id ∧ l.Declares a level id access names l'

inductive ParamDecl.Resolved (a : Analysis) (level : Nat) :
    Layer → List ParamDecl → Layer → Prop where
  | nil {l} : ParamDecl.Resolved a level l [] l
  | cons {l l' l'' d rest} : l.DeclaresGroup a level d.type d.mode.access d.names l' →
      ParamDecl.Resolved a level l' rest l'' → ParamDecl.Resolved a level l (d :: rest) l''

inductive TypeDecl.Resolved (a : Analysis) : Layer → List TypeDecl → Layer → Prop where
  | nil {l} : TypeDecl.Resolved a l [] l
  | cons {Γ offset d rest id type l'} :
      d.type.Resolved a Γ type → a.symbols.typeAt? id = some type →
      TypeDecl.Resolved a ⟨(d.name.name, id) :: Γ, offset⟩ rest l' →
      TypeDecl.Resolved a ⟨Γ, offset⟩ (d :: rest) l'

inductive VarDecl.Resolved (a : Analysis) (level : Nat) :
    Layer → List VarDecl → Layer → Prop where
  | nil {l} : VarDecl.Resolved a level l [] l
  | cons {l l' l'' d rest} : l.DeclaresGroup a level d.type .direct d.names l' →
      VarDecl.Resolved a level l' rest l'' → VarDecl.Resolved a level l (d :: rest) l''

/-- The sections of a declaration part; its procedures are passed over. -/
inductive Decl.SectionsResolved (a : Analysis) (level : Nat) :
    Layer → List Decl → Layer → Prop where
  | nil {l} : Decl.SectionsResolved a level l [] l
  | types {l l' l'' decls span rest} : TypeDecl.Resolved a l decls l' →
      Decl.SectionsResolved a level l' rest l'' →
      Decl.SectionsResolved a level l (.types decls span :: rest) l''
  | vars {l l' l'' decls span rest} : VarDecl.Resolved a level l decls l' →
      Decl.SectionsResolved a level l' rest l'' →
      Decl.SectionsResolved a level l (.vars decls span :: rest) l''
  | procedure {l l' p rest} : Decl.SectionsResolved a level l rest l' →
      Decl.SectionsResolved a level l (.procedure p :: rest) l'

/-- Variables are declared only while the end of the frame is a word. -/
theorem Layer.Declares.offset_le {a : Analysis} {level : Nat} {type : TypeId}
    {access : Access} {l l' : Layer} {names : List Ident}
    (h : l.Declares a level type access names l') (hl : l.offset ≤ Word.greatest) :
    l'.offset ≤ Word.greatest := by
  induction h with
  | nil => exact hl
  | cons _ _ hfits _ ih => exact ih hfits.2

theorem VarDecl.Resolved.offset_le {a : Analysis}
    {level : Nat} {l l' : Layer} {decls : List VarDecl}
    (h : VarDecl.Resolved a level l decls l') (hl : l.offset ≤ Word.greatest) :
    l'.offset ≤ Word.greatest := by
  induction h with
  | nil => exact hl
  | cons hd _ ih =>
    obtain ⟨_, _, hdeclares⟩ := hd
    exact ih (hdeclares.offset_le hl)

/-- Types take no words of a frame. -/
theorem TypeDecl.Resolved.offset_eq {a : Analysis} {l l' : Layer} {decls : List TypeDecl}
    (h : TypeDecl.Resolved a l decls l') : l'.offset = l.offset := by
  induction h with
  | nil => rfl
  | cons _ _ _ ih => exact ih

/-- The frame never grows beyond the words. -/
theorem Decl.SectionsResolved.offset_le {a : Analysis}
    {level : Nat} {l l' : Layer} {decls : List Decl}
    (h : Decl.SectionsResolved a level l decls l') (hl : l.offset ≤ Word.greatest) :
    l'.offset ≤ Word.greatest := by
  induction h with
  | nil => exact hl
  | types htypes _ ih => exact ih (htypes.offset_eq ▸ hl)
  | vars hvars _ ih => exact ih (hvars.offset_le hl)
  | procedure _ ih => exact ih hl

/-- Variables take words of a frame and give none back. -/
theorem Layer.Declares.offset_mono {a : Analysis} {level : Nat}
    {type : TypeId} {access : Access} {l l' : Layer}
    {names : List Ident} (h : l.Declares a level type access names l') :
    l.offset ≤ l'.offset := by
  induction h with
  | nil => exact Int.le_refl _
  | cons _ hslot _ _ ih => exact Int.le_trans (Int.le_add_of_nonneg_right hslot) ih

theorem VarDecl.Resolved.offset_mono {a : Analysis}
    {level : Nat} {l l' : Layer} {decls : List VarDecl}
    (h : VarDecl.Resolved a level l decls l') : l.offset ≤ l'.offset := by
  induction h with
  | nil => exact Int.le_refl _
  | cons hd _ ih =>
    obtain ⟨_, _, hdeclares⟩ := hd
    exact Int.le_trans hdeclares.offset_mono ih

/-- Declarations only ever add to a frame. -/
theorem Decl.SectionsResolved.offset_mono {a : Analysis}
    {level : Nat} {l l' : Layer} {decls : List Decl}
    (h : Decl.SectionsResolved a level l decls l') : l.offset ≤ l'.offset := by
  induction h with
  | nil => exact Int.le_refl _
  | types htypes _ ih => exact htypes.offset_eq ▸ ih
  | vars hvars _ ih => exact Int.le_trans hvars.offset_mono ih
  | procedure _ ih => exact ih

/-- `Γ'` has types and variables in front of the names of `Γ`. -/
def Names.Adds (a : Analysis) (Γ Γ' : Names) : Prop :=
  ∃ added, Γ' = added ++ Γ ∧ ∀ x ∈ added, a.symbols.procedureAt? x.2 = none

theorem Names.Adds.refl (a : Analysis) (Γ : Names) : Names.Adds a Γ Γ := ⟨[], rfl, by simp⟩

theorem Names.Adds.trans {a : Analysis} {Γ Γ' Γ'' : Names}
    (h : Names.Adds a Γ Γ') (h' : Names.Adds a Γ' Γ'') :
    Names.Adds a Γ Γ'' := by
  obtain ⟨added, rfl, hadded⟩ := h
  obtain ⟨added', rfl, hadded'⟩ := h'
  refine ⟨added' ++ added, (List.append_assoc ..).symm, fun x hx => ?_⟩
  exact (List.mem_append.mp hx).elim (hadded' x) (hadded x)

theorem Names.Adds.cons {a : Analysis} {Γ Γ' : Names} {name : String} {id : SymbolId}
    (hid : a.symbols.procedureAt? id = none) (h : Names.Adds a ((name, id) :: Γ) Γ') :
    Names.Adds a Γ Γ' :=
  .trans ⟨[(name, id)], rfl, by simpa using hid⟩ h

/-- Names that were there are there still. -/
theorem Names.Adds.subset {a : Analysis} {Γ Γ' : Names} (h : Names.Adds a Γ Γ') : Γ ⊆ Γ' := by
  obtain ⟨added, rfl, _⟩ := h
  exact List.subset_append_right ..

/-- A group of variables adds their names. -/
theorem Layer.Declares.adds {a : Analysis} {level : Nat} {type : TypeId} {access : Access}
    {l l' : Layer} {names : List Ident} (h : l.Declares a level type access names l') :
    Names.Adds a l.names l'.names := by
  induction h with
  | nil => exact .refl ..
  | cons hv _ _ _ ih => exact .cons (SymbolTable.procedureAt?_of_variableAt? hv) ih

/-- Parameters add their names. -/
theorem ParamDecl.Resolved.adds {a : Analysis}
    {level : Nat} {l l' : Layer} {params : List ParamDecl}
    (h : ParamDecl.Resolved a level l params l') : Names.Adds a l.names l'.names := by
  induction h with
  | nil => exact .refl ..
  | cons hd _ ih =>
    obtain ⟨_, _, hdeclares⟩ := hd
    exact hdeclares.adds.trans ih

theorem VarDecl.Resolved.adds {a : Analysis}
    {level : Nat} {l l' : Layer} {decls : List VarDecl}
    (h : VarDecl.Resolved a level l decls l') : Names.Adds a l.names l'.names := by
  induction h with
  | nil => exact .refl ..
  | cons hd _ ih =>
    obtain ⟨_, _, hdeclares⟩ := hd
    exact hdeclares.adds.trans ih

theorem TypeDecl.Resolved.adds {a : Analysis} {l l' : Layer} {decls : List TypeDecl}
    (h : TypeDecl.Resolved a l decls l') : Names.Adds a l.names l'.names := by
  induction h with
  | nil => exact .refl ..
  | cons _ hid _ ih => exact .cons (SymbolTable.procedureAt?_of_typeAt? hid) ih

/-- Sections add the names of types and variables, and no procedure. -/
theorem Decl.SectionsResolved.adds {a : Analysis}
    {level : Nat} {l l' : Layer} {decls : List Decl}
    (h : Decl.SectionsResolved a level l decls l') : Names.Adds a l.names l'.names := by
  induction h with
  | nil => exact .refl ..
  | types htypes _ ih => exact htypes.adds.trans ih
  | vars hvars _ ih => exact hvars.adds.trans ih
  | procedure _ ih => exact ih

mutual

/-- A procedure declared in a body of the given level, with its symbol. Its own name is
already in scope. -/
inductive ProcDecl.Resolved (a : Analysis) : Nat → Names → SymbolId → ProcDecl Decl →
    Prop where
  | intro {level : Nat} {Γ id p} {P : Procedure} {added l₁ l₂ Γ'} :
      a.annotations.symbol? p.node = some id →
      a.symbols.procedureAt? id = some P → P.level = level + 1 →
      ParamDecl.Resolved a (level + 1) ⟨Γ, Frame.headerSize⟩ p.params l₁ →
      l₁.names = added ++ Γ → P.params = (added.map (·.2)).reverse →
      Decl.SectionsResolved a (level + 1) l₁ p.decls l₂ → P.displayBase = l₂.offset →
      P.frameSize = l₂.offset + (level + 2) → Word.Fits P.frameSize →
      Decl.ProceduresResolved a (level + 1) l₂.names p.decls Γ' →
      (∀ s ∈ p.body, s.Resolved a Γ' (level + 1)) → ProcDecl.Resolved a level Γ id p

/-- The procedures of a declaration part; its sections are passed over. -/
inductive Decl.ProceduresResolved (a : Analysis) :
    Nat → Names → List Decl → Names → Prop where
  | nil {level Γ} : Decl.ProceduresResolved a level Γ [] Γ
  | types {level Γ decls span rest Γ'} : Decl.ProceduresResolved a level Γ rest Γ' →
      Decl.ProceduresResolved a level Γ (.types decls span :: rest) Γ'
  | vars {level Γ decls span rest Γ'} : Decl.ProceduresResolved a level Γ rest Γ' →
      Decl.ProceduresResolved a level Γ (.vars decls span :: rest) Γ'
  | procedure {level Γ p id rest Γ'} :
      ProcDecl.Resolved a level ((p.name.name, id) :: Γ) id p →
      Decl.ProceduresResolved a level ((p.name.name, id) :: Γ) rest Γ' →
      Decl.ProceduresResolved a level Γ (.procedure p :: rest) Γ'

end

mutual

/-- The symbols of the procedures in a declaration, each before those inside it. -/
def Decl.procedureSymbols (a : Analysis) : Decl → List SymbolId
  | .types .. | .vars .. => []
  | .procedure ⟨node, _, _, decls, _, _⟩ =>
    (a.annotations.symbol? node).toList ++ Decl.procedureSymbolsAll a decls

def Decl.procedureSymbolsAll (a : Analysis) : List Decl → List SymbolId
  | [] => []
  | d :: rest => Decl.procedureSymbols a d ++ Decl.procedureSymbolsAll a rest

end

/-- A program with what its analysis found out about it. -/
structure Program.Resolved (a : Analysis) (p : Program) (l : Layer) (Γ : Names) : Prop where
  builtins : ({} : TypeTable) ≤ a.types
  sections : Decl.SectionsResolved a 0 ⟨[], 0⟩ p.decls l
  offset : l.offset = a.mainDisplayBase
  bound : l.offset < Word.greatest
  procedures : Decl.ProceduresResolved a 0 l.names p.decls Γ
  distinct : (Decl.procedureSymbolsAll a p.decls).Nodup
  body : ∀ s ∈ p.body, s.Resolved a Γ 0

end BlockLang
