import BlockLang.Proofs.Checking

/-!
# Checks that succeed

What is known of a check that has succeeded: what it has found in the tables, the checks
it is made of, with the states between them, and the state it leaves. There is one lemma
for each small check and for each form of the tree, and its name ends in `_ok`.

* For the small checks: `Check.resolve_ok`, `Check.declareVariable_ok`,
  `Check.fixFrame_ok`, `Check.closeProcedure_ok` and others. Each names the entry of a
  table that was found, or the state that was left.
* For expressions and statements: `Reference.check_ok`, `Expr.check_binary_ok`,
  `Call.check_ok`, `Stmt.check_ifElse_ok` and others. Each names the parts that were
  checked, in their order, and the states between them.
* For declarations: `TypeExpr.denote_array_ok`, `Decl.checkProcedure_ok` and others.
* For programs: `Program.analyze_ok`.

A proof about accepted programs goes by induction over the tree and cites the lemma of
each form, so it never opens a check. All of them come from `Check.run_bind_eq_ok`, which
takes one step off a sequence of checks, and from the lemmas about runs of the small
checks.
-/

namespace BlockLang

/-! ## The small checks -/

namespace Check

variable {α β : Type} {s s' : CheckState}

/-- A sequence of checks that succeeds has a state between its two parts, and both of them
succeed. -/
theorem run_bind_eq_ok {f : Check α} {g : α → Check β}
    {y : β} (h : (f >>= g).run s = .ok (y, s')) :
    ∃ x s₁, f.run s = .ok (x, s₁) ∧ (g x).run s₁ = .ok (y, s') := by
  cases hf : f.run s with
  | error e =>
    rw [run_bind_of_error hf] at h
    cases h
  | ok r =>
    rw [run_bind_of_ok hf] at h
    exact ⟨r.1, r.2, rfl, h⟩

/-- A name that is resolved was found in the open scopes; the state is the same. -/
theorem resolve_ok {name : Ident} {id : SymbolId} (h : (resolve name).run s = .ok (id, s')) :
    s = s' ∧ s.scopes.lookup? name.name = some id := by
  rw [resolve_run] at h
  split at h <;> cases h
  exact ⟨rfl, by assumption⟩

theorem variableType_ok {symbol : SymbolId} {name : Ident} {type : TypeId}
    (h : (variableType symbol name).run s = .ok (type, s')) :
    s = s' ∧ ∃ v, s.symbols.variableAt? symbol = some v ∧ type = v.type := by
  rw [variableType_run] at h
  split at h <;> cases h
  exact ⟨rfl, _, by assumption, rfl⟩

/-- An element type belongs to an array, which is in the table under the identity of the
base. -/
theorem elementType_ok {base type : TypeId} {name : Ident}
    (h : (elementType base name).run s = .ok (type, s')) :
    s = s' ∧ ∃ low high size, s.types.get? base = some (.array type low high size) := by
  rw [elementType_run] at h
  split at h <;> cases h
  exact ⟨rfl, _, _, _, by assumption⟩

/-- A field type belongs to the first field of its name in a record of the table. -/
theorem fieldType_ok {base type : TypeId} {name field : Ident}
    (h : (fieldType base name field).run s = .ok (type, s')) :
    s = s' ∧ ∃ fields size f, s.types.get? base = some (.record fields size) ∧
      fields.find? (·.name == field.name) = some f ∧ type = f.type := by
  rw [fieldType_run] at h
  split at h
  · split at h <;> cases h
    exact ⟨rfl, _, _, _, by assumption, by assumption, rfl⟩
  · cases h

theorem requireInteger_ok {type : TypeId} {span : Span} {u : Unit}
    (h : (requireInteger type span).run s = .ok (u, s')) : s = s' ∧ type = .integer := by
  rw [requireInteger_run] at h
  split at h <;> cases h
  exact ⟨rfl, by assumption⟩

/-- Operands that are admitted have one type, and it is scalar. -/
theorem requireOperands_ok {left right : TypeId} {span : Span} {u : Unit}
    (h : (requireOperands left right span).run s = .ok (u, s')) :
    s = s' ∧ left = right ∧ s.types.isScalar left = true := by
  rw [requireOperands_run] at h
  split at h <;> cases h
  exact ⟨rfl, by assumption⟩

theorem procedureParams_ok {symbol : SymbolId} {name : Ident} {params : List SymbolId}
    (h : (procedureParams symbol name).run s = .ok (params, s')) :
    s = s' ∧ ∃ p, s.symbols.procedureAt? symbol = some p ∧ params = p.params := by
  rw [procedureParams_run] at h
  split at h <;> cases h
  exact ⟨rfl, _, by assumption, rfl⟩

/-- A type that is added comes from the function that makes it, together with the table that
is left. -/
theorem addType_ok {span : Span} {add : TypeTable → Option TypeId × TypeTable} {type : TypeId}
    (h : (addType span add).run s = .ok (type, s')) :
    ∃ t, add s.types = (some type, t) ∧ s' = { s with types := t } := by
  rw [addType_run] at h
  split at h <;> cases h
  exact ⟨_, by assumption, rfl⟩

/-- A declaration takes the next identity, and the state is the one after a declaration. -/
theorem declare_ok {name : Ident} {meaning : Meaning} {id : SymbolId}
    (h : (declare name meaning).run s = .ok (id, s')) :
    id = ⟨s.symbols.length⟩ ∧ s' = s.declared name meaning := by
  rw [declare_run] at h
  split at h <;> cases h
  exact ⟨rfl, rfl⟩

/-- A variable that is declared has room in its frame, which grows by its slot. -/
theorem declareVariable_ok {type : TypeId} {access : Access} {name : Ident} {u : Unit}
    (h : (declareVariable type access name).run s = .ok (u, s')) :
    Word.Fits (s.scopes.offset + slotSize s.types type access) ∧
    s' = s.declaredVariable type access name := by
  rw [declareVariable_run] at h
  split at h
  · cases h
  · split at h <;> cases h
    exact ⟨by assumption, rfl⟩

/-- An update that succeeds has changed the procedure in the table. -/
theorem updateProcedure_ok {id : SymbolId} {f : Procedure → Procedure} {u : Unit}
    (h : (updateProcedure id f).run s = .ok (u, s')) :
    s' = { s with symbols := s.symbols.mapProcedure id f } := by
  rw [updateProcedure_run] at h
  split at h <;> cases h
  rfl

/-- A frame that is fixed has room for its display, which stands behind the variables. -/
theorem fixFrame_ok {id : SymbolId} {name : Ident} {u : Unit}
    (h : (fixFrame id name).run s = .ok (u, s')) :
    Word.Fits (s.scopes.offset + (s.scopes.level + 1)) ∧
      s' = { s with symbols := s.symbols.mapProcedure id fun p =>
        { p with frameSize := s.scopes.offset + (s.scopes.level +
              1), displayBase := s.scopes.offset } } := by
  rw [fixFrame_run] at h
  split at h
  · next hfits => exact ⟨hfits, updateProcedure_ok h⟩
  · cases h

/-- A scope that is closed had one around it, and its symbols are kept with those of the
scopes closed before. -/
theorem closeProcedure_ok {name : Ident} {span : Span} {u : Unit}
    (h : (closeProcedure name span).run s = .ok (u, s')) :
    ∃ scope outer, s.scopes.outer = scope :: outer ∧ s' = { s with
      scopes := ⟨scope, outer⟩
      closed := s.closed ++ [ClosedScope.mk s.scopes.level s.scopes.entries] } := by
  cases houter : s.scopes.outer with
  | nil =>
    rw [closeProcedure_run_of_nil name span houter] at h
    cases h
  | cons scope outer =>
    rw [closeProcedure_run name span s houter] at h
    cases h
    exact ⟨scope, outer, rfl, rfl⟩

end Check

open Check

variable {s s' : CheckState} {u : Unit}

/-! ## Expressions -/

/-- The symbol and the type are noted once the selector is checked. -/
theorem Reference.check_ok {node : NodeId} {name : Ident}
    {selector : Selector Expr} {span : Span} {type : TypeId}
    (h : (Reference.check ⟨node, name, selector, span⟩).run s = .ok (type, s')) :
    ∃ id v s₁, s.scopes.lookup? name.name = some id ∧ s.symbols.variableAt? id = some v ∧
      (selector.check v.type name).run s = .ok (type, s₁) ∧ s' = { s₁ with
        annotations := (s₁.annotations.recordSymbol node id).recordType node type } := by
  rw [Reference.check] at h
  obtain ⟨id, _, hresolve, h₁⟩ := run_bind_eq_ok h
  obtain ⟨rfl, hid⟩ := resolve_ok hresolve
  obtain ⟨_, _, hvariable, h₂⟩ := run_bind_eq_ok h₁
  obtain ⟨rfl, v, hv, rfl⟩ := variableType_ok hvariable
  obtain ⟨_, s₁, hselector, h₃⟩ := run_bind_eq_ok h₂
  cases h₃
  exact ⟨id, v, s₁, hid, hv, hselector, rfl⟩

namespace Selector

variable {index : Expr} {field name : Ident} {declared type : TypeId}

/-- An index that is admitted is an integer, and what is given back is the element type. -/
theorem index_ok {element : TypeId}
    (h : (do requireInteger (← index.check) index.span; return element : Check TypeId).run s =
      .ok (type, s')) : type = element ∧ index.check.run s = .ok (.integer, s') := by
  obtain ⟨_, s₁, hindex, h₁⟩ := run_bind_eq_ok h
  obtain ⟨_, _, hinteger, h₂⟩ := run_bind_eq_ok h₁
  obtain ⟨rfl, rfl⟩ := requireInteger_ok hinteger
  cases h₂
  exact ⟨rfl, hindex⟩

/-- The array is looked up before the index is checked, in the same state. -/
theorem check_element_ok
    (h : (Selector.check (.element index) declared name).run s = .ok (type, s')) :
    index.check.run s = .ok (.integer, s') ∧
      ∃ low high size, s.types.get? declared = some (.array type low high size) := by
  rw [Selector.check] at h
  obtain ⟨_, _, helement, h₁⟩ := run_bind_eq_ok h
  obtain ⟨rfl, hget⟩ := elementType_ok helement
  obtain ⟨rfl, hindex⟩ := index_ok h₁
  exact ⟨hindex, hget⟩

/-- An element of an array field: the record, its field and the array that the field is are
all in the table. -/
theorem check_fieldElement_ok
    (h : (Selector.check (.fieldElement field index) declared name).run s = .ok (type, s')) :
    index.check.run s = .ok (.integer, s') ∧
      ∃ fields size f low high length, s.types.get? declared = some (.record fields size) ∧
        fields.find? (·.name == field.name) = some f ∧
        s.types.get? f.type = some (.array type low high length) := by
  rw [Selector.check] at h
  obtain ⟨_, _, hfield, h₁⟩ := run_bind_eq_ok h
  obtain ⟨rfl, fields, size, f, hget, hfind, rfl⟩ := fieldType_ok hfield
  obtain ⟨_, _, helement, h₂⟩ := run_bind_eq_ok h₁
  obtain ⟨rfl, low, high, length, hget'⟩ := elementType_ok helement
  obtain ⟨rfl, hindex⟩ := index_ok h₂
  exact ⟨hindex, fields, size, f, low, high, length, hget, hfind, hget'⟩

end Selector

/-- Both operands have succeeded, one after the other, with one scalar type between them. -/
theorem Expr.check_binary_ok {node : NodeId} {op : BinaryOp} {left right : Expr} {span : Span}
    {type : TypeId} (h : (Expr.binary node op left right span).check.run s = .ok (type, s')) :
    type = op.resultType ∧ ∃ operand s₁ s₂, left.check.run s = .ok (operand, s₁) ∧
      right.check.run s₁ = .ok (operand, s₂) ∧ s₂.types.isScalar operand = true ∧
      s' = { s₂ with annotations := s₂.annotations.recordType node op.resultType } := by
  rw [Expr.check] at h
  obtain ⟨operand, s₁, hleft, h₁⟩ := run_bind_eq_ok h
  obtain ⟨_, s₂, hright, h₂⟩ := run_bind_eq_ok h₁
  obtain ⟨_, _, hoperands, h₃⟩ := run_bind_eq_ok h₂
  obtain ⟨rfl, rfl, hscalar⟩ := requireOperands_ok hoperands
  cases h₃
  exact ⟨rfl, operand, s₁, s₂, hleft, hright, hscalar, rfl⟩

/-! ## Statements -/

theorem Check.checkCondition_ok {keyword : String} {condition : Expr}
    (h : (checkCondition keyword condition).run s = .ok (u, s')) :
    condition.check.run s = .ok (.boolean, s') := by
  unfold checkCondition at h
  obtain ⟨type, s₁, hcheck, h₁⟩ := run_bind_eq_ok h
  split at h₁ <;> cases h₁
  next htype => exact htype ▸ hcheck

/-- An argument that is accepted has the type of its parameter, and is a reference if the
parameter is indirect. -/
theorem Check.checkArgument_ok {procedure : String} {param : SymbolId} {arg : Expr}
    (h : (checkArgument procedure param arg).run s = .ok (u, s')) :
    ∃ v, s.symbols.variableAt? param = some v ∧
    (v.access = .indirect → arg.asRef?.isSome = true) ∧
      arg.check.run s = .ok (v.type, s') := by
  cases hv : s.symbols.variableAt? param with
  | none =>
    unfold checkArgument at h
    rw [run_get_bind] at h
    dsimp only at h
    rw [hv] at h
    cases h
  | some v =>
    rw [checkArgument_run procedure arg hv] at h
    split at h
    · cases h
    next hmode =>
      obtain ⟨type, s₁, hcheck, h₁⟩ := run_bind_eq_ok h
      split at h₁
      next htype =>
        cases h₁
        refine ⟨v, rfl, fun hindirect => ?_, htype ▸ hcheck⟩
        rw [Option.isNone_iff_eq_none] at hmode
        exact Option.isSome_iff_ne_none.mpr fun hnone => hmode ⟨hindirect, hnone⟩
      · cases h₁

/-- The first argument is accepted for the first parameter, and the others for the other
ones. -/
theorem Check.checkArguments_cons_ok {call : Call} {expected : Nat} {param : SymbolId}
    {params : List SymbolId} {arg : Expr} {args : List Expr}
    (h : (checkArguments call expected (param :: params) (arg :: args)).run s = .ok (u, s')) :
    ∃ v s₁, s.symbols.variableAt? param = some v ∧
    (v.access = .indirect → arg.asRef?.isSome = true) ∧
      arg.check.run s = .ok (v.type, s₁) ∧
      (checkArguments call expected params args).run s₁ = .ok ((), s') := by
  rw [checkArguments] at h
  obtain ⟨_, s₁, harg, hrest⟩ := run_bind_eq_ok h
  obtain ⟨v, hv, hmode, hcheck⟩ := checkArgument_ok harg
  exact ⟨v, s₁, hv, hmode, hcheck, hrest⟩

/-- The callee is noted before the arguments are checked. -/
theorem Call.check_ok {call : Call} (h : call.check.run s = .ok (u, s')) :
    ∃ id p, s.scopes.lookup? call.callee.name = some id ∧ s.symbols.procedureAt? id = some p ∧
      (checkArguments call p.params.length p.params call.args).run
        { s with annotations := s.annotations.recordSymbol call.node id } = .ok ((), s') := by
  unfold Call.check at h
  obtain ⟨id, _, hresolve, h₁⟩ := run_bind_eq_ok h
  obtain ⟨rfl, hid⟩ := resolve_ok hresolve
  obtain ⟨_, _, hparams, h₂⟩ := run_bind_eq_ok h₁
  obtain ⟨rfl, p, hp, rfl⟩ := procedureParams_ok hparams
  exact ⟨id, p, hid, hp, h₂⟩

namespace Stmt

variable {target : VarRef} {value condition : Expr} {span : Span}

/-- The target is checked before the value, and they have one type. -/
theorem check_assign_ok (h : (Stmt.assign target value span).check.run s = .ok (u, s')) :
    ∃ type s₁, (Expr.ref target).check.run s = .ok (type, s₁) ∧
    value.check.run s₁ = .ok (type, s') := by
  rw [Stmt.check] at h
  obtain ⟨type, s₁, htarget, h₁⟩ := run_bind_eq_ok h
  obtain ⟨type', s₂, hvalue, h₂⟩ := run_bind_eq_ok h₁
  split at h₂ <;> cases h₂
  next heq => exact ⟨type, s₁, htarget, heq ▸ hvalue⟩

/-- The condition is boolean, and both branches are checked, whichever will be taken. -/
theorem check_ifElse_ok {thenBranch elseBranch : List Stmt}
    (h : (Stmt.ifElse condition thenBranch elseBranch span).check.run s = .ok (u, s')) :
    ∃ s₁ s₂, condition.check.run s = .ok (.boolean, s₁) ∧
    (Stmt.checkAll thenBranch).run s₁ = .ok ((), s₂) ∧
      (Stmt.checkAll elseBranch).run s₂ = .ok ((), s') := by
  rw [Stmt.check] at h
  obtain ⟨_, s₁, hcondition, h₁⟩ := run_bind_eq_ok h
  obtain ⟨_, s₂, hthen, helse⟩ := run_bind_eq_ok h₁
  exact ⟨s₁, s₂, checkCondition_ok hcondition, hthen, helse⟩

theorem check_whileDo_ok {body : List Stmt}
    (h : (Stmt.whileDo condition body span).check.run s = .ok (u, s')) :
    ∃ s₁, condition.check.run s = .ok (.boolean, s₁) ∧
    (Stmt.checkAll body).run s₁ = .ok ((), s') := by
  rw [Stmt.check] at h
  obtain ⟨_, s₁, hcondition, hbody⟩ := run_bind_eq_ok h
  exact ⟨s₁, checkCondition_ok hcondition, hbody⟩

theorem check_read_ok (h : (Stmt.read target span).check.run s = .ok (u, s')) :
    ∃ type, (Expr.ref target).check.run s = .ok (type, s') := by
  rw [Stmt.check] at h
  obtain ⟨type, _, htarget, h₁⟩ := run_bind_eq_ok h
  cases h₁
  exact ⟨type, htarget⟩

theorem check_write_ok (h : (Stmt.write value span).check.run s = .ok (u, s')) :
    ∃ type, value.check.run s = .ok (type, s') ∧ type ≠ .boolean := by
  rw [Stmt.check] at h
  obtain ⟨type, _, hvalue, h₁⟩ := run_bind_eq_ok h
  split at h₁ <;> cases h₁
  next htype => exact ⟨type, hvalue, htype⟩

theorem check_ret_ok (h : (Stmt.ret span).check.run s = .ok (u, s')) :
    s = s' ∧ s.scopes.level ≠ 0 := by
  rw [Stmt.check, run_get_bind] at h
  split at h <;> cases h
  next hlevel => exact ⟨rfl, hlevel⟩

theorem checkAll_cons_ok {stmt : Stmt} {rest : List Stmt}
    (h : (Stmt.checkAll (stmt :: rest)).run s = .ok (u, s')) :
    ∃ s₁, stmt.check.run s = .ok ((), s₁) ∧ (Stmt.checkAll rest).run s₁ = .ok ((), s') := by
  rw [Stmt.checkAll] at h
  obtain ⟨_, s₁, hstmt, hrest⟩ := run_bind_eq_ok h
  exact ⟨s₁, hstmt, hrest⟩

end Stmt

/-! ## Type expressions and sections -/

namespace TypeExpr

variable {type : TypeId} {span : Span}

/-- A named type is found through the scopes, and its symbol is a type. -/
theorem denote_named_ok {name : Ident}
    (h : (TypeExpr.named name).denote.run s = .ok (type, s')) :
    s = s' ∧ ∃ id, s.scopes.lookup? name.name = some id ∧
    s.symbols.typeAt? id = some type := by
  rw [TypeExpr.denote, namedType_run] at h
  split at h
  next id hid =>
    split at h <;> cases h
    next htype => exact ⟨rfl, id, hid, htype⟩
  · cases h

/-- The bounds of an array are in order, and its type is the one that the table got for the
type of its elements. -/
theorem denote_array_ok {low high : Word} {element : TypeExpr}
    (h : (TypeExpr.array low high element span).denote.run s = .ok (type, s')) :
    low ≤ high ∧ ∃ elementType s₁ t, element.denote.run s = .ok (elementType, s₁) ∧
      s₁.types.addArray? elementType low high = (some type, t) ∧
      s' = { s₁ with types := t } := by
  rw [TypeExpr.denote] at h
  split at h
  next hbounds =>
    obtain ⟨elementType, s₁, helement, h₁⟩ := run_bind_eq_ok h
    obtain ⟨t, hadd, rfl⟩ := addType_ok h₁
    exact ⟨hbounds, elementType, s₁, t, helement, hadd, rfl⟩
  · cases h

/-- The type of a record is the one that the table got for its fields, in their order. -/
theorem denote_record_ok {groups : List (FieldGroup TypeExpr)}
    (h : (TypeExpr.record groups span).denote.run s = .ok (type, s')) :
    ∃ named s₁ t, (TypeExpr.denoteFields groups).run s = .ok (named, s₁) ∧
      s₁.types.addRecord? named = (some type, t) ∧ s' = { s₁ with types := t } := by
  rw [TypeExpr.denote] at h
  obtain ⟨named, s₁, hnamed, h₁⟩ := run_bind_eq_ok h
  obtain ⟨t, hadd, rfl⟩ := addType_ok h₁
  exact ⟨named, s₁, t, hnamed, hadd, rfl⟩

theorem denoteFields_cons_ok {names : List Ident} {te : TypeExpr}
    {rest : List (FieldGroup TypeExpr)} {named : List (String × TypeId)}
    (h : (TypeExpr.denoteFields (⟨names, te, span⟩ :: rest)).run s = .ok (named, s')) :
    ∃ type s₁ others, te.denote.run s = .ok (type, s₁) ∧
    (TypeExpr.denoteFields rest).run s₁ = .ok (others, s') ∧
      named = names.map (fun name => (name.name, type)) ++ others := by
  rw [TypeExpr.denoteFields] at h
  obtain ⟨type, s₁, htype, h₁⟩ := run_bind_eq_ok h
  obtain ⟨others, _, hrest, h₂⟩ := run_bind_eq_ok h₁
  cases h₂
  exact ⟨type, s₁, others, htype, hrest, rfl⟩

end TypeExpr

theorem TypeDecl.check_ok {d : TypeDecl} (h : d.check.run s = .ok (u, s')) :
    ∃ type s₁, d.type.denote.run s = .ok (type, s₁) ∧
    s' = s₁.declared d.name (.type type) := by
  unfold TypeDecl.check at h
  obtain ⟨type, s₁, htype, h₁⟩ := run_bind_eq_ok h
  obtain ⟨_, _, hdeclare, h₂⟩ := run_bind_eq_ok h₁
  obtain ⟨rfl, rfl⟩ := declare_ok hdeclare
  cases h₂
  exact ⟨type, s₁, htype, rfl⟩

theorem Decl.checkSections_types_ok {decls : List TypeDecl}
    {span : Span} {rest : List Decl} {afterProcedure : Bool}
    (h : (Decl.checkSections afterProcedure (.types decls span :: rest)).run s =
      .ok (u, s')) :
    ∃ s₁, (decls.forM TypeDecl.check).run s = .ok ((), s₁) ∧
      (Decl.checkSections false rest).run s₁ = .ok ((), s') := by
  cases afterProcedure with
  | true => cases h
  | false =>
    obtain ⟨_, s₁, hdecls, hrest⟩ := run_bind_eq_ok h
    exact ⟨s₁, hdecls, hrest⟩

theorem Decl.checkSections_vars_ok {decls : List VarDecl}
    {span : Span} {rest : List Decl} {afterProcedure : Bool}
    (h : (Decl.checkSections afterProcedure (.vars decls span :: rest)).run s = .ok (u, s')) :
    ∃ s₁, (decls.forM VarDecl.check).run s = .ok ((), s₁) ∧
      (Decl.checkSections false rest).run s₁ = .ok ((), s') := by
  cases afterProcedure with
  | true => cases h
  | false =>
    obtain ⟨_, s₁, hdecls, hrest⟩ := run_bind_eq_ok h
    exact ⟨s₁, hdecls, hrest⟩

/-! ## Procedures -/

/-- The header of a procedure: the procedure takes the next identity, and the parameters are
declared in the new scope. -/
theorem Check.openProcedure_ok {node : NodeId} {name : Ident} {params : List ParamDecl}
    {id : SymbolId} (h : (openProcedure node name params).run s = .ok (id, s')) :
    id = ⟨s.symbols.length⟩ ∧
    ∃ s₁, (params.forM ParamDecl.check).run (s.entered node name) = .ok ((), s₁) ∧
      s' = { s₁ with symbols := s₁.symbols.mapProcedure id fun p => { p with
          params := s₁.scopes.entries } } := by
  unfold openProcedure at h
  rw [run_get_bind] at h
  obtain ⟨_, _, hdeclare, h₁⟩ := run_bind_eq_ok h
  obtain ⟨rfl, rfl⟩ := declare_ok hdeclare
  obtain ⟨_, _, hrecord, h₂⟩ := run_bind_eq_ok h₁
  cases hrecord
  obtain ⟨_, _, henter, h₃⟩ := run_bind_eq_ok h₂
  cases henter
  obtain ⟨_, s₁, hparams, h₄⟩ := run_bind_eq_ok h₃
  rw [run_get_bind] at h₄
  obtain ⟨_, _, hupdate, h₅⟩ := run_bind_eq_ok h₄
  cases h₅
  exact ⟨rfl, s₁, hparams, updateProcedure_ok hupdate⟩

/-- The part of a procedure before its nested procedures: its header, its sections and its
frame. -/
def Check.header (node : NodeId) (name : Ident) (params : List ParamDecl)
    (decls : List Decl) : Check Unit := do
  let id ← openProcedure node name params
  Decl.checkSections false decls
  fixFrame id name

/-- The three steps before the nested procedures are looked at: the header, the sections, the
frame. -/
theorem Check.header_ok {node : NodeId} {name : Ident} {params : List ParamDecl}
    {decls : List Decl} (h : (header node name params decls).run s = .ok (u, s')) :
    ∃ id s₁ s₂, (openProcedure node name params).run s = .ok (id, s₁) ∧
      (Decl.checkSections false decls).run s₁ = .ok ((), s₂) ∧
      (fixFrame id name).run s₂ = .ok ((), s') := by
  obtain ⟨id, s₁, hopen, h₁⟩ := run_bind_eq_ok h
  obtain ⟨_, s₂, hsections, hfix⟩ := run_bind_eq_ok h₁
  exact ⟨id, s₁, s₂, hopen, hsections, hfix⟩

/-- A procedure is checked in four parts: its header, the procedures nested in it, its body,
and its end. -/
theorem Decl.checkProcedure_ok {node : NodeId} {name : Ident} {params : List ParamDecl}
    {decls : List Decl} {body : List Stmt} {span : Span}
    (h : (Decl.procedure ⟨node, name, params, decls, body, span⟩).checkProcedure.run s =
      .ok (u, s')) : ∃ s₁ s₂ s₃, (header node name params decls).run s = .ok ((), s₁) ∧
      (Decl.checkProcedures decls).run s₁ = .ok ((), s₂) ∧
      (Stmt.checkAll body).run s₂ = .ok ((), s₃) ∧
      (closeProcedure name span).run s₃ = .ok ((), s') := by
  have hparts : (Decl.procedure ⟨node, name, params, decls, body, span⟩).checkProcedure = (do
      header node name params decls
      Decl.checkProcedures decls
      Stmt.checkAll body
      closeProcedure name span) := by
    rw [Decl.checkProcedure, header]
    simp only [bind_assoc]
  rw [hparts] at h
  obtain ⟨_, s₁, hheader, h₁⟩ := run_bind_eq_ok h
  obtain ⟨_, s₂, hnested, h₂⟩ := run_bind_eq_ok h₁
  obtain ⟨_, s₃, hbody, hclose⟩ := run_bind_eq_ok h₂
  exact ⟨s₁, s₂, s₃, hheader, hnested, hbody, hclose⟩

theorem Decl.checkProcedures_cons_ok {d : Decl} {rest : List Decl}
    (h : (Decl.checkProcedures (d :: rest)).run s = .ok (u, s')) :
    ∃ s₁, d.checkProcedure.run s = .ok ((), s₁) ∧
    (Decl.checkProcedures rest).run s₁ = .ok ((), s') := by
  rw [Decl.checkProcedures] at h
  obtain ⟨_, s₁, hd, hrest⟩ := run_bind_eq_ok h
  exact ⟨s₁, hd, hrest⟩

/-! ## Programs -/

/-- An analysis is made in three parts: the sections, the procedures and the body. -/
theorem Program.analyze_ok {p : Program} {a : Analysis} (h : p.analyze = .ok a) :
    ∃ s₁ s₂ s₃, (Decl.checkSections false p.decls).run {} = .ok ((), s₁) ∧
    s₁.scopes.offset ≠ Word.greatest ∧
      (Decl.checkProcedures p.decls).run s₁ = .ok ((), s₂) ∧
      (Stmt.checkAll p.body).run s₂ = .ok ((), s₃) ∧
      a = ⟨s₃.types, s₃.symbols, s₃.annotations, s₁.scopes.offset,
        s₃.closed ++ [ClosedScope.mk 0 s₃.scopes.entries]⟩ := by
  unfold Program.analyze at h
  cases hrun : p.check.run {} with
  | error e =>
    rw [hrun] at h
    cases h
  | ok r =>
    obtain ⟨offset, s'⟩ := r
    rw [hrun] at h
    cases h
    unfold Program.check at hrun
    obtain ⟨_, s₁, hsections, h₁⟩ := run_bind_eq_ok hrun
    rw [run_get_bind] at h₁
    dsimp only at h₁
    split at h₁
    · cases h₁
    next hoffset =>
      obtain ⟨_, s₂, hprocedures, h₂⟩ := run_bind_eq_ok h₁
      obtain ⟨_, s₃, hbody, h₃⟩ := run_bind_eq_ok h₂
      cases h₃
      exact ⟨s₁, s₂, s₃, hsections, hoffset, hprocedures, hbody, rfl⟩

end BlockLang
