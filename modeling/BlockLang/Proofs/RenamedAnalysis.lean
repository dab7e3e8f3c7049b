import BlockLang.Proofs.Renaming

/-!
# Analysis of renamed programs

The analysis only asks whether two names or two nodes are the same, and it never asks
where something stands. So another choice of names, nodes and positions leads to an
analysis that mirrors the first one, or to an error of the same variant: this is
`Program.mirrors_analyze`.

`Check.Mirrors` says of two checks that they keep their states in step, and of every check
that it does so with the same check on the renamed tree.

* `Alike E R` relates two outcomes: both succeed with results in the relation `R`, or both
  fail with errors in the relation `E`. Two outcomes that are like a third are like each
  other (`Alike.join`), which is how positions are dealt with.
* `Check.Mirrors.bindRel`, `Check.Mirrors.bind`, `Check.Mirrors.ite` and
  `Check.Mirrors.forM` follow the ways in which checks are put together,
  `Check.Mirrors.refuse` and `Check.Mirrors.abort` the ways in which they fail.
* The small checks come one by one (`Check.Mirrors.resolve` to `Check.Mirrors.addType`),
  then the tree: `Expr.mirrors_check`, `Stmt.mirrors_check`, `TypeExpr.mirrors_denote`,
  `Decl.mirrors_checkSections` and `Decl.mirrors_checkProcedure`, by mutual recursion as
  the checks themselves.
-/

namespace BlockLang

section

variable {r : Renaming}

/-! ## Outcomes in step -/

/-- Defects of one variant; they may name other things and stand elsewhere. -/
def Defect.SameVariant (d d' : Defect) : Prop := d.ctorIdx = d'.ctorIdx

/-- Errors of one variant. -/
def CompileError.SameVariant : CompileError → CompileError → Prop
  | .diagnostic d, .diagnostic d' => d.problem.ctorIdx = d'.problem.ctorIdx
  | .defect d, .defect d' => d.SameVariant d'
  | _, _ => False

/-- Both succeed, with results that `R` relates, or both fail, with errors that `E`
relates. -/
inductive Alike {ε α β : Type} (E : ε → ε → Prop) (R : α → β → Prop) :
    Except ε α → Except ε β → Prop where
  | ok {x x'} : R x x' → Alike E R (.ok x) (.ok x')
  | error {e e'} : E e e' → Alike E R (.error e) (.error e')

theorem Alike.bind {ε α β α' β' : Type} {E : ε → ε → Prop}
    {R : α → α' → Prop} {S : β → β' → Prop} {x : Except ε α}
    {x' : Except ε α'} {f : α → Except ε β} {f' : α' → Except ε β'} (h : Alike E R x x')
    (hf : ∀ y y', R y y' → Alike E S (f y) (f' y')) : Alike E S (x >>= f) (x' >>= f') := by
  cases h with
  | ok hx => exact hf _ _ hx
  | error he => exact .error he

/-- What is alike to a third one is alike. -/
theorem Alike.join {ε α β γ : Type} {E : ε → ε → Prop} {R : α → γ → Prop} {S : β → γ → Prop}
    {T : α → β → Prop} {x : Except ε α} {y : Except ε β}
    {z : Except ε γ} (h : Alike E R x z) (h' : Alike E S y z)
    (hE : ∀ {e e' e''}, E e e'' → E e' e'' → E e e') (hR : ∀ {a b c}, R a c → S b c → T a b) :
    Alike E T x y := by
  cases h with
  | ok hx =>
    cases h' with
    | ok hy => exact .ok (hR hx hy)
  | error he =>
    cases h' with
    | error he' => exact .error (hE he he')

structure CheckState.Mirrors (r : Renaming) (s s' : CheckState) : Prop where
  types : s'.types = s.types.rename r
  symbols : s.symbols.Mirrors r s'.symbols
  scopes : s.scopes.Mirrors r s'.scopes
  annotations : s.annotations.Mirrors r s'.annotations
  closed : s'.closed = s.closed

/-- The states in which the analysis begins mirror each other. -/
theorem CheckState.mirrors_empty : CheckState.Mirrors r {} {} where
  types := by simp [TypeTable.rename, TypeDescriptor.rename]
  symbols := ⟨rfl, fun _ => rfl⟩
  scopes := ⟨⟨fun _ => by simp, rfl, rfl⟩, .nil⟩
  annotations := fun _ => by simp [Annotations.get]
  closed := rfl

namespace Check

/-- Run in states that mirror each other, `f` and `f'` succeed both or fail both, and their
states still mirror each other. -/
def Mirrors {α β : Type} (r : Renaming) (R : α → β → Prop) (f : Check α)
    (f' : Check β) : Prop :=
  ∀ ⦃s s' : CheckState⦄, s.Mirrors r s' → Alike CompileError.SameVariant
    (fun x x' => R x.1 x'.1 ∧ x.2.Mirrors r x'.2) (f.run s) (f'.run s')

namespace Mirrors

variable {α α' β β' : Type} {R : α → α' → Prop} {S : β → β' → Prop}

theorem pure {x : α} {x' : α'} (h : R x x') : Mirrors r R (Pure.pure x) (Pure.pure x') :=
  fun _ _ hs => .ok ⟨h, hs⟩

/-- Two steps, where the second depends on related results. -/
theorem bindRel {f : Check α} {f' : Check α'} {g : α → Check β} {g' : α' → Check β'}
    (hf : Mirrors r R f f') (hg : ∀ x x', R x x' → Mirrors r S (g x) (g' x')) :
    Mirrors r S (f >>= g) (f' >>= g') := by
  intro s s' hs
  rw [StateT.run_bind, StateT.run_bind]
  exact (hf hs).bind fun x x' hx => hg _ _ hx.1 hx.2

theorem bind {f f' : Check α} {g : α → Check β} {g' : α → Check β'} (hf : Mirrors r Eq f f')
    (hg : ∀ x, Mirrors r S (g x) (g' x)) : Mirrors r S (f >>= g) (f' >>= g') :=
  hf.bindRel fun x _ hx => hx ▸ hg x

theorem get : Mirrors r (CheckState.Mirrors r) get get := fun _ _ hs => .ok ⟨hs, hs⟩

theorem modify {f f' : CheckState → CheckState}
    (h : ∀ s s', s.Mirrors r s' → (f s).Mirrors r (f' s')) :
    Mirrors r Eq (modify f) (modify f') := fun s s' hs => .ok ⟨rfl, h s s' hs⟩

/-- A refusal for the same kind of problem. -/
theorem refuse {span span' : Span} {problem problem' : Problem}
    (h : problem.ctorIdx = problem'.ctorIdx) :
    Mirrors r R (refuse span problem) (refuse span' problem') := fun _ _ _ => .error h

/-- A defect of the same kind. -/
theorem abort {d d' : Defect} (h : d.ctorIdx = d'.ctorIdx) :
    Mirrors r R (abort d) (abort d') := fun _ _ _ => .error h

theorem ite {c : Prop} [Decidable c] {f g : Check α}
    {f' g' : Check α'} (hf : Mirrors r R f f')
    (hg : Mirrors r R g g') : Mirrors r R (if c then f else g) (if c then f' else g') := by
  split
  · exact hf
  · exact hg

/-- A check for each item of a list. -/
theorem forM {γ γ' : Type} {f : γ → Check Unit} {f' : γ' → Check Unit} {k : γ → γ'}
    (h : ∀ x, Mirrors r Eq (f x) (f' (k x))) :
    ∀ xs : List γ, Mirrors r Eq (xs.forM f) ((xs.map k).forM f')
  | [] => pure rfl
  | x :: xs => (h x).bind fun _ => forM h xs

/-! ## The small checks -/

/-- A renamed name is resolved to the same symbol. -/
theorem resolve (name : Ident) : Mirrors r Eq (resolve name) (resolve (name.rename r)) := by
  intro s s' hs
  have hlookup : s'.scopes.lookup? (name.rename r).name = s.scopes.lookup? name.name :=
    hs.scopes.lookup? name.name
  rw [resolve_run, resolve_run, hlookup]
  cases s.scopes.lookup? name.name with
  | none => exact .error rfl
  | some id => exact .ok ⟨rfl, hs⟩

theorem recordSymbol (node : NodeId) (symbol : SymbolId) :
    Mirrors r Eq (recordSymbol node symbol) (recordSymbol (r.node node) symbol) :=
  modify fun _ _ hs =>
    ⟨hs.types, hs.symbols, hs.scopes, hs.annotations.recordSymbol node symbol, hs.closed⟩

theorem recordType (node : NodeId) (type : TypeId) :
    Mirrors r Eq (recordType node type) (recordType (r.node node) type) :=
  modify fun _ _ hs =>
    ⟨hs.types, hs.symbols, hs.scopes, hs.annotations.recordType node type, hs.closed⟩

theorem variableType (symbol : SymbolId) (name : Ident) :
    Mirrors r Eq (variableType symbol name) (variableType symbol (name.rename r)) := by
  intro s s' hs
  rw [variableType_run, variableType_run, hs.symbols.variableAt?]
  cases s.symbols.variableAt? symbol with
  | none => exact .error rfl
  | some v => exact .ok ⟨rfl, hs⟩

theorem procedureParams (symbol : SymbolId) (name : Ident) :
    Mirrors r Eq (procedureParams symbol name) (procedureParams symbol (name.rename r)) := by
  intro s s' hs
  rw [procedureParams_run, procedureParams_run, hs.symbols.procedureAt?]
  cases s.symbols.procedureAt? symbol with
  | none => exact .error rfl
  | some p => exact .ok ⟨rfl, hs⟩

theorem elementType (base : TypeId) (name : Ident) :
    Mirrors r Eq (elementType base name) (elementType base (name.rename r)) := by
  intro s s' hs
  rw [elementType_run, elementType_run, hs.types, TypeTable.get?_rename]
  cases s.types.get? base with
  | none => exact .error rfl
  | some d =>
    cases d with
    | array element low high size => exact .ok ⟨rfl, hs⟩
    | _ => exact .error rfl

/-- A renamed field has the same type. -/
theorem fieldType (base : TypeId) (name field : Ident) :
    Mirrors r Eq (fieldType base name field)
    (fieldType base (name.rename r) (field.rename r)) := by
  intro s s' hs
  rw [fieldType_run, fieldType_run, hs.types, TypeTable.get?_rename]
  cases s.types.get? base with
  | none => exact .error rfl
  | some d =>
    cases d with
    | record fields size =>
      have hfind :
          (fields.map (Field.rename r)).find? (·.name == (field.rename r).name) = _ :=
        Field.find?_rename fields field.name
      simp only [Option.map_some, TypeDescriptor.rename]
      rw [hfind]
      cases fields.find? (·.name == field.name) with
      | none => exact .error rfl
      | some f => exact .ok ⟨rfl, hs⟩
    | _ => exact .error rfl

theorem requireInteger (type : TypeId) (span span' : Span) :
    Mirrors r Eq (requireInteger type span) (requireInteger type span') :=
  ite (pure rfl) (refuse rfl)

theorem requireOperands (left right : TypeId) (span span' : Span) :
    Mirrors r Eq (requireOperands left right span) (requireOperands left right span') := by
  intro s s' hs
  rw [requireOperands_run, requireOperands_run, hs.types, TypeTable.isScalar_rename]
  split
  · exact .ok ⟨rfl, hs⟩
  · exact .error rfl

theorem namedType (name : Ident) :
    Mirrors r Eq (namedType name) (namedType (name.rename r)) := by
  refine (resolve name).bind fun symbol => get.bindRel fun s s' hs => ?_
  rw [hs.symbols.typeAt?]
  cases s.symbols.typeAt? symbol with
  | none => exact refuse rfl
  | some type => exact pure rfl

/-- A new type is added or refused alike. -/
theorem addType {span span' : Span} {add add' : TypeTable → Option TypeId × TypeTable}
    (h : ∀ t : TypeTable, add' (t.rename r) = Prod.map id (TypeTable.rename r) (add t)) :
    Mirrors r Eq (addType span add) (addType span' add') := by
  intro s s' hs
  rw [addType_run, addType_run, hs.types, h]
  obtain ⟨type?, types⟩ := add s.types
  cases type? with
  | none => exact .error rfl
  | some type => exact .ok ⟨rfl, rfl, hs.symbols, hs.scopes, hs.annotations, hs.closed⟩

end Mirrors

end Check

/-! ## Expressions and statements -/

open Check

/-- A renamed reference is one. -/
theorem Expr.asRef?_rename (e : Expr) :
    (e.rename r).asRef? = e.asRef?.map (Reference.rename r) := by
  cases e <;> rw [Expr.rename] <;> rfl

mutual

/-- Expressions have the same type. -/
theorem Expr.mirrors_check : ∀ e : Expr, Mirrors r Eq e.check (e.rename r).check
  | .const node _ _ => by
    rw [Expr.rename, Expr.check, Expr.check]
    exact (Mirrors.recordType node _).bind fun _ => .pure rfl
  | .ref x => by
    rw [Expr.rename, Expr.check, Expr.check]
    exact Reference.mirrors_check x
  | .binary node op left right span => by
    rw [Expr.rename, Expr.check, Expr.check]
    exact (Expr.mirrors_check left).bind fun l => (Expr.mirrors_check right).bind fun r' =>
      (Mirrors.requireOperands l r' _ _).bind fun _ =>
        (Mirrors.recordType node _).bind fun _ => .pure rfl

/-- References have the same type. -/
theorem Reference.mirrors_check :
    ∀ x : Reference Expr, Mirrors r Eq x.check (x.rename r).check
  | ⟨node, name, selector, _⟩ => by
    rw [Reference.rename, Reference.check, Reference.check]
    exact (Mirrors.resolve name).bind fun symbol =>
        (Mirrors.variableType symbol name).bind fun declared =>
      (Selector.mirrors_check selector declared name).bind fun type =>
          (Mirrors.recordSymbol node symbol).bind fun _ =>
      (Mirrors.recordType node type).bind fun _ => .pure rfl

/-- Selected parts have the same type. -/
theorem Selector.mirrors_check :
    ∀ (selector : Selector Expr) (declared : TypeId) (name : Ident), Mirrors r Eq
    (selector.check declared name) ((selector.rename r).check declared (name.rename r))
  | .whole, _, _ => by
    rw [Selector.rename, Selector.check, Selector.check]
    exact .pure rfl
  | .element index, declared, name => by
    rw [Selector.rename, Selector.check, Selector.check]
    exact (Mirrors.elementType declared name).bind fun element =>
        (Expr.mirrors_check index).bind fun type =>
      (Mirrors.requireInteger type _ _).bind fun _ => .pure rfl
  | .field field, declared, name => by
    rw [Selector.rename, Selector.check, Selector.check]
    exact Mirrors.fieldType declared name field
  | .fieldElement field index, declared, name => by
    rw [Selector.rename, Selector.check, Selector.check]
    exact (Mirrors.fieldType declared name field).bind fun type =>
        (Mirrors.elementType type field).bind fun element =>
      (Expr.mirrors_check index).bind fun type =>
        (Mirrors.requireInteger type _ _).bind fun _ => .pure rfl

end

namespace Check.Mirrors

theorem checkCondition (keyword : String) (condition : Expr) :
    Mirrors r Eq (checkCondition keyword condition)
    (checkCondition keyword (condition.rename r)) :=
  (Expr.mirrors_check condition).bind fun _ => ite (pure rfl) (refuse rfl)

/-- Arguments are passed or refused alike; the name of the procedure is in the message
only. -/
theorem checkArgument (procedure procedure' : String) (param : SymbolId) (arg : Expr) :
    Mirrors r Eq (checkArgument procedure param arg)
    (checkArgument procedure' param (arg.rename r)) := by
  refine get.bindRel fun s s' hs => ?_
  dsimp only
  rw [hs.symbols.variableAt?]
  cases s.symbols.variableAt? param with
  | none => exact abort rfl
  | some v =>
    have hnone : (arg.rename r).asRef?.isNone = arg.asRef?.isNone := by
      rw [Expr.asRef?_rename, Option.isNone_map]
    dsimp only
    rw [hnone]
    exact ite (refuse rfl) ((Expr.mirrors_check arg).bind fun _ =>
      ite (pure rfl) (refuse rfl))

theorem checkArguments (call call' : Call) (expected : Nat) :
    ∀ (params : List SymbolId) (args : List Expr),
    Mirrors r Eq (checkArguments call expected params args)
      (checkArguments call' expected params (args.map (Expr.rename r)))
  | [], [] => pure rfl
  | [], _ :: _ => refuse rfl
  | _ :: _, [] => refuse rfl
  | param :: params, arg :: args =>
    (checkArgument _ _ param arg).bind fun _ => checkArguments call call' expected params args

end Check.Mirrors

/-- Calls are accepted or refused alike. -/
theorem Call.mirrors_check (call : Call) : Mirrors r Eq call.check (call.rename r).check :=
  (Mirrors.resolve call.callee).bind fun symbol =>
      (Mirrors.procedureParams symbol call.callee).bind fun params =>
    (Mirrors.recordSymbol call.node symbol).bind fun _ =>
    .checkArguments call (call.rename r) params.length params call.args

mutual

/-- Statements are accepted or refused alike. -/
theorem Stmt.mirrors_check : ∀ s : Stmt, Mirrors r Eq s.check (s.rename r).check
  | .assign target value _ => by
    rw [Stmt.rename, Stmt.check, Stmt.check]
    exact (Reference.mirrors_check target).bind fun _ =>
        (Expr.mirrors_check value).bind fun _ =>
      .ite (.pure rfl) (.refuse rfl)
  | .ifElse condition thenBranch elseBranch _ => by
    rw [Stmt.rename, Stmt.check, Stmt.check]
    exact (Mirrors.checkCondition "if" condition).bind fun _ =>
        (Stmt.mirrors_checkAll thenBranch).bind fun _ =>
      Stmt.mirrors_checkAll elseBranch
  | .whileDo condition body _ => by
    rw [Stmt.rename, Stmt.check, Stmt.check]
    exact (Mirrors.checkCondition "while" condition).bind fun _ => Stmt.mirrors_checkAll body
  | .read target _ => by
    rw [Stmt.rename, Stmt.check, Stmt.check]
    exact (Reference.mirrors_check target).bind fun _ => .pure rfl
  | .write value _ => by
    rw [Stmt.rename, Stmt.check, Stmt.check]
    exact (Expr.mirrors_check value).bind fun _ => .ite (.refuse rfl) (.pure rfl)
  | .call c => by
    rw [Stmt.rename, Stmt.check, Stmt.check]
    exact c.mirrors_check
  | .ret _ => by
    rw [Stmt.rename, Stmt.check, Stmt.check]
    refine Mirrors.get.bindRel fun s s' hs => ?_
    rw [hs.scopes.level]
    exact .ite (.refuse rfl) (.pure rfl)

theorem Stmt.mirrors_checkAll :
    ∀ ss : List Stmt, Mirrors r Eq (Stmt.checkAll ss) (Stmt.checkAll (Stmt.renameAll r ss))
  | [] => by
    rw [Stmt.renameAll, Stmt.checkAll]
    exact .pure rfl
  | s :: rest => by
    rw [Stmt.renameAll, Stmt.checkAll, Stmt.checkAll]
    exact (Stmt.mirrors_check s).bind fun _ => Stmt.mirrors_checkAll rest

end

/-! ## Declarations -/

mutual

/-- Type expressions denote the same type. -/
theorem TypeExpr.mirrors_denote : ∀ t : TypeExpr, Mirrors r Eq t.denote (t.rename r).denote
  | .integer _ => by
    rw [TypeExpr.rename, TypeExpr.denote, TypeExpr.denote]
    exact .pure rfl
  | .char _ => by
    rw [TypeExpr.rename, TypeExpr.denote, TypeExpr.denote]
    exact .pure rfl
  | .named name => by
    rw [TypeExpr.rename, TypeExpr.denote, TypeExpr.denote]
    exact .namedType name
  | .array low high element _ => by
    rw [TypeExpr.rename, TypeExpr.denote, TypeExpr.denote]
    refine .ite ((TypeExpr.mirrors_denote element).bind fun type => ?_) (.refuse rfl)
    exact .addType fun t => t.addArray?_rename type low high
  | .record fields _ => by
    rw [TypeExpr.rename, TypeExpr.denote, TypeExpr.denote]
    refine (TypeExpr.mirrors_denoteFields fields).bindRel fun fs fs' hfs => ?_
    rw [hfs]
    exact .addType fun t => t.addRecord?_rename fs

/-- Fields have the same types under other names. -/
theorem TypeExpr.mirrors_denoteFields : ∀ fields : List (FieldGroup TypeExpr),
    Mirrors r (fun fs fs' => fs' = fs.map (Prod.map r.name id)) (TypeExpr.denoteFields fields)
      (TypeExpr.denoteFields (TypeExpr.renameFields r fields))
  | [] => by
    rw [TypeExpr.renameFields, TypeExpr.denoteFields]
    exact .pure rfl
  | ⟨names, type, _⟩ :: rest => by
    rw [TypeExpr.renameFields, TypeExpr.denoteFields, TypeExpr.denoteFields]
    refine (TypeExpr.mirrors_denote type).bind fun τ =>
      (TypeExpr.mirrors_denoteFields rest).bindRel fun fs fs' hfs => ?_
    refine .pure ?_
    rw [hfs]
    simp [Ident.rename]

end

/-- States mirror each other after the declaration of a name. -/
theorem CheckState.Mirrors.declared {s s' : CheckState}
    (h : s.Mirrors r s') (name : Ident) (meaning : Meaning) :
    (s.declared name meaning).Mirrors r (s'.declared (name.rename r) meaning) where
  types := h.types
  symbols := h.symbols.add name.name meaning _ _
  scopes := by
    show (s.scopes.declared name.name ⟨s.symbols.length⟩).Mirrors r
      (s'.scopes.declared (r.name name.name) ⟨s'.symbols.length⟩)
    rw [h.symbols.length]
    exact h.scopes.declared name.name _
  annotations := h.annotations
  closed := h.closed

/-- They do so after the declaration of a variable. -/
theorem CheckState.Mirrors.declaredVariable {s s' : CheckState}
    (h : s.Mirrors r s') {type : TypeId} {access : Access}
    (hsize : slotSize s'.types type access = slotSize s.types type access) (name : Ident) :
    (s.declaredVariable type access name).Mirrors r
    (s'.declaredVariable type access (name.rename r)) := by
  unfold CheckState.declaredVariable
  dsimp only
  rw [hsize, h.scopes.level, h.scopes.offset]
  have hdeclared := h.declared name (.var ⟨type, access, s.scopes.level, s.scopes.offset⟩)
  exact ⟨hdeclared.types, hdeclared.symbols, hdeclared.scopes.allocated _,
    hdeclared.annotations, hdeclared.closed⟩

namespace Check.Mirrors

/-- A renamed name is declared or refused alike. -/
theorem declare (name : Ident) (meaning : Meaning) :
    Mirrors r Eq (declare name meaning) (declare (name.rename r) meaning) := by
  intro s s' hs
  have hcontains : s'.scopes.inner.names.contains (name.rename r).name =
      s.scopes.inner.names.contains name.name :=
    hs.scopes.contains name.name
  rw [declare_run, declare_run, hcontains, hs.symbols.length]
  split
  · exact .error rfl
  · exact .ok ⟨rfl, hs.declared name meaning⟩

/-- A variable is declared or refused alike. -/
theorem declareVariable (type : TypeId) (access : Access) (name : Ident) :
    Mirrors r Eq (declareVariable type access name)
    (declareVariable type access (name.rename r)) := by
  intro s s' hs
  have hcontains : s'.scopes.inner.names.contains (name.rename r).name =
      s.scopes.inner.names.contains name.name :=
    hs.scopes.contains name.name
  have hsize : slotSize s'.types type access = slotSize s.types type access := by
    rw [hs.types]
    cases access <;> simp [slotSize]
  rw [declareVariable_run, declareVariable_run, hcontains, hsize, hs.scopes.offset]
  split
  · exact .error rfl
  · split
    · exact .ok ⟨rfl, hs.declaredVariable hsize name⟩
    · exact .error rfl

theorem declareVariables (type : TypeId) (access : Access) (names : List Ident) :
    Mirrors r Eq (declareVariables type access names)
    (declareVariables type access (names.map (Ident.rename r))) :=
  forM (declareVariable type access) names

end Check.Mirrors

theorem TypeDecl.mirrors_check (d : TypeDecl) : Mirrors r Eq d.check (d.rename r).check :=
  (TypeExpr.mirrors_denote d.type).bind fun type =>
    (Mirrors.declare d.name (.type type)).bind fun _ => .pure rfl

theorem VarDecl.mirrors_check (d : VarDecl) : Mirrors r Eq d.check (d.rename r).check :=
  (TypeExpr.mirrors_denote d.type).bind fun type => .declareVariables type .direct d.names

theorem ParamDecl.mirrors_check (d : ParamDecl) : Mirrors r Eq d.check (d.rename r).check :=
  (TypeExpr.mirrors_denote d.type).bind fun type =>
    .declareVariables type d.mode.access d.names

/-- Sections are accepted or refused alike. -/
theorem Decl.mirrors_checkSections : ∀ (ds : List Decl) (afterProcedure : Bool),
    Mirrors r Eq (Decl.checkSections afterProcedure ds)
    (Decl.checkSections afterProcedure (Decl.renameAll r ds))
  | [], _ => by
    rw [Decl.renameAll, Decl.checkSections]
    exact .pure rfl
  | .procedure _ :: rest, _ => by
    rw [Decl.renameAll, Decl.rename, Decl.checkSections, Decl.checkSections]
    exact Decl.mirrors_checkSections rest true
  | .types decls _ :: rest, afterProcedure => by
    rw [Decl.renameAll, Decl.rename, Decl.checkSections, Decl.checkSections]
    have hrest := (Mirrors.forM TypeDecl.mirrors_check decls).bind fun _ =>
      Decl.mirrors_checkSections rest false
    exact .ite (.bind (.abort rfl) fun _ => hrest) hrest
  | .vars decls _ :: rest, afterProcedure => by
    rw [Decl.renameAll, Decl.rename, Decl.checkSections, Decl.checkSections]
    have hrest := (Mirrors.forM VarDecl.mirrors_check decls).bind fun _ =>
      Decl.mirrors_checkSections rest false
    exact .ite (.bind (.abort rfl) fun _ => hrest) hrest

/-! ## Procedures and programs -/

namespace Check.Mirrors

theorem updateProcedure (id : SymbolId) (f : Procedure → Procedure) :
    Mirrors r Eq (updateProcedure id f) (updateProcedure id f) := by
  intro s s' hs
  rw [updateProcedure_run, updateProcedure_run, hs.symbols.procedureAt?]
  cases s.symbols.procedureAt? id with
  | none => exact .error rfl
  | some p =>
    exact .ok ⟨rfl, hs.types, hs.symbols.mapProcedure id f, hs.scopes, hs.annotations,
      hs.closed⟩

theorem openProcedure (node : NodeId) (name : Ident) (params : List ParamDecl) :
    Mirrors r Eq (openProcedure node name params)
      (openProcedure (r.node node) (name.rename r) (params.map (ParamDecl.rename r))) := by
  refine get.bindRel fun s s' hs => ?_
  dsimp only
  rw [hs.scopes.level]
  refine (declare name _).bind fun id => (recordSymbol node id).bind fun _ =>
      (modify ?_).bind fun _ =>
    (forM ParamDecl.mirrors_check params).bind fun _ => get.bindRel fun t t' ht => ?_
  · intro t t' ht
    exact ⟨ht.types, ht.symbols, ht.scopes.enter, ht.annotations, ht.closed⟩
  · rw [ht.scopes.entries]
    exact (updateProcedure id _).bind fun _ => pure rfl

theorem fixFrame (id : SymbolId) (name : Ident) :
    Mirrors r Eq (fixFrame id name) (fixFrame id (name.rename r)) := by
  intro s s' hs
  rw [fixFrame_run, fixFrame_run, hs.scopes.level, hs.scopes.offset]
  split
  · exact updateProcedure id _ hs
  · exact .error rfl

theorem closeProcedure (name : Ident) (span : Span) :
    Mirrors r Eq (closeProcedure name span) (closeProcedure (name.rename r) .none) := by
  intro s s' hs
  have houter := hs.scopes.outer
  cases hscopes : s.scopes.outer with
  | nil =>
    rw [hscopes, List.forall₂_nil_left_iff] at houter
    rw [closeProcedure_run_of_nil name span hscopes,
      closeProcedure_run_of_nil (name.rename r) .none houter]
    exact .error rfl
  | cons scope outer =>
    rw [hscopes] at houter
    obtain ⟨scope', outer', hscope, houter, hscopes'⟩ := List.forall₂_cons_left_iff.mp houter
    rw [closeProcedure_run name span s hscopes,
      closeProcedure_run (name.rename r) .none s' hscopes',
      hs.scopes.level, hs.scopes.entries, hs.closed]
    exact .ok ⟨rfl, hs.types, hs.symbols, ⟨hscope, houter⟩, hs.annotations, rfl⟩

end Check.Mirrors

mutual

/-- Procedures are accepted or refused alike. -/
theorem Decl.mirrors_checkProcedure :
    ∀ d : Decl, Mirrors r Eq d.checkProcedure (d.rename r).checkProcedure
  | .types .. => by
    rw [Decl.rename, Decl.checkProcedure, Decl.checkProcedure]
    exact .pure rfl
  | .vars .. => by
    rw [Decl.rename, Decl.checkProcedure, Decl.checkProcedure]
    exact .pure rfl
  | .procedure ⟨node, name, params, decls, body, span⟩ => by
    rw [Decl.rename, Decl.checkProcedure, Decl.checkProcedure]
    exact (Mirrors.openProcedure node name params).bind fun id =>
        (Decl.mirrors_checkSections decls false).bind fun _ =>
      (Mirrors.fixFrame id name).bind fun _ =>
          (Decl.mirrors_checkProcedures decls).bind fun _ =>
      (Stmt.mirrors_checkAll body).bind fun _ => .closeProcedure name span

theorem Decl.mirrors_checkProcedures : ∀ ds : List Decl,
    Mirrors r Eq (Decl.checkProcedures ds) (Decl.checkProcedures (Decl.renameAll r ds))
  | [] => by
    rw [Decl.renameAll, Decl.checkProcedures]
    exact .pure rfl
  | d :: rest => by
    rw [Decl.renameAll, Decl.checkProcedures, Decl.checkProcedures]
    exact (Decl.mirrors_checkProcedure d).bind fun _ => Decl.mirrors_checkProcedures rest

end

/-- The scope of the main program is kept. -/
theorem Check.mirrors_closeMain : Mirrors r Eq (modify fun s =>
      { s with closed := s.closed ++ [ClosedScope.mk 0 s.scopes.entries] }) (modify fun s =>
      { s with closed := s.closed ++ [ClosedScope.mk 0 s.scopes.entries] }) := by
  refine .modify fun s s' hs => ?_
  rw [hs.closed, hs.scopes.entries]
  exact ⟨hs.types, hs.symbols, hs.scopes, hs.annotations, rfl⟩

/-- Programs are accepted or refused alike. -/
theorem Program.mirrors_check (p : Program) : Mirrors r Eq p.check (p.rename r).check := by
  refine (Decl.mirrors_checkSections p.decls false).bind fun _ =>
    Mirrors.get.bindRel fun s s' hs => ?_
  dsimp only
  rw [hs.scopes.offset]
  have hrest := (Decl.mirrors_checkProcedures (r := r) p.decls).bind fun _ =>
    (Stmt.mirrors_checkAll p.body).bind fun _ => mirrors_closeMain.bind fun _ =>
      Mirrors.pure (Eq.refl s.scopes.offset)
  exact .ite (.bind (.refuse rfl) fun _ => hrest) hrest

/-- Everything that the analysis of a program finds out, under other names and about other
nodes. -/
structure Analysis.Mirrors (r : Renaming) (a a' : Analysis) : Prop where
  types : a'.types = a.types.rename r
  symbols : a.symbols.Mirrors r a'.symbols
  annotations : a.annotations.Mirrors r a'.annotations
  mainDisplayBase : a'.mainDisplayBase = a.mainDisplayBase
  closedScopes : a'.closedScopes = a.closedScopes

/-- The analyses of a program and of the renamed program mirror each other, or both fail with
errors of one variant. -/
theorem Program.mirrors_analyze (p : Program) :
    Alike CompileError.SameVariant (Analysis.Mirrors r) p.analyze (p.rename r).analyze := by
  have hrun := p.mirrors_check (CheckState.mirrors_empty (r := r))
  unfold Program.analyze
  generalize p.check.run {} = x, (p.rename r).check.run {} = x' at hrun
  cases hrun with
  | ok h => exact .ok ⟨h.2.types, h.2.symbols, h.2.annotations, h.1.symm, h.2.closed⟩
  | error h => exact .error h

end

end BlockLang
