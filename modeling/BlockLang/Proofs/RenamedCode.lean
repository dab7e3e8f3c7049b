import BlockLang.Compiler
import BlockLang.Proofs.Generation
import BlockLang.Proofs.RenamedAnalysis

/-!
# Code of renamed programs

Code is made of addresses, sizes and offsets, in which no name, no node and no position
appears. So the code of a renamed program is the code of the program, and together with
the analysis this makes compilation depend on names, nodes and positions only as far as
they are equal or different: this is `Program.compile_renamed`.

* Look-ups: in two analyses that mirror each other a look-up and the same look-up for the
  renamed name or node give the same, or fail with defects of the same variant
  (`Defect.Alike`). A field has another name, but the same type and offset
  (`Analysis.Mirrors.field`).
* The tree: `Expr.alike_code`, `Stmt.alike_code`, `Decl.alike_code` and
  `Program.alike_code`, by mutual recursion as the making of code. What is compared is the
  code that is put together from its parts; the generator makes the same
  (`Program.alike_generate`).
* Positions: a renamed tree has none, so a program is compared with another one by way of
  the tree without positions, to which both are alike (`CompileError.SameVariant.join`,
  `Analysis.Mirrors.join`).
-/

namespace BlockLang

section

variable {r : Renaming} {a a' : Analysis}

/-! ## Look-ups -/

/-- The same result, or defects of one variant. -/
abbrev Defect.Alike {α : Type} (x x' : Except Defect α) : Prop :=
  BlockLang.Alike Defect.SameVariant Eq x x'

namespace Defect.Alike

theorem pure {α : Type} (x : α) : Defect.Alike (Pure.pure x) (Pure.pure x) := .ok rfl

theorem throw {α : Type} {d d' : Defect} (h : d.SameVariant d') :
    Defect.Alike (throw d : Except Defect α) (throw d') :=
  .error h

theorem bind {α β : Type} {x x' : Except Defect α}
    {f f' : α → Except Defect β} (h : Defect.Alike x x')
    (hf : ∀ y, Defect.Alike (f y) (f' y)) : Defect.Alike (x >>= f) (x' >>= f') :=
  BlockLang.Alike.bind h fun y _ hy => hy ▸ hf y

end Defect.Alike

namespace Analysis.Mirrors

/-- A symbol is found at the renamed node. -/
theorem symbol (h : a.Mirrors r a') (node : NodeId) :
    Defect.Alike (a.annotations.symbol node) (a'.annotations.symbol (r.node node)) := by
  unfold Annotations.symbol
  rw [h.annotations.symbol?]
  cases a.annotations.symbol? node with
  | none => exact .error rfl
  | some symbol => exact .ok rfl

theorem type (h : a.Mirrors r a') (node : NodeId) :
    Defect.Alike (a.annotations.type node) (a'.annotations.type (r.node node)) := by
  unfold Annotations.type
  rw [h.annotations.type?]
  cases a.annotations.type? node with
  | none => exact .error rfl
  | some type => exact .ok rfl

/-- A variable is found under the same symbol. -/
theorem variableOf (h : a.Mirrors r a') (symbol : SymbolId) :
    Defect.Alike (a.variableOf symbol) (a'.variableOf symbol) := by
  unfold Analysis.variableOf
  rw [h.symbols.variableAt?]
  cases a.symbols.variableAt? symbol with
  | none => exact .error rfl
  | some v => exact .ok rfl

theorem procedureOf (h : a.Mirrors r a') (symbol : SymbolId) :
    Defect.Alike (a.procedureOf symbol) (a'.procedureOf symbol) := by
  unfold Analysis.procedureOf
  rw [h.symbols.procedureAt?]
  cases a.symbols.procedureAt? symbol with
  | none => exact .error rfl
  | some p => exact .ok rfl

/-- Types have the same size. -/
theorem size (h : a.Mirrors r a') (type : TypeId) :
    a'.types.size type = a.types.size type := by
  rw [h.types, TypeTable.size_rename]

/-- Arrays have the same bounds and the same size of an element. -/
theorem arrayLayout (h : a.Mirrors r a') (type : TypeId)
    (name name' : Ident) (span span' : Span) :
    Defect.Alike (a.arrayLayout type name span) (a'.arrayLayout type name' span') := by
  unfold Analysis.arrayLayout
  rw [h.types, TypeTable.get?_rename]
  cases a.types.get? type with
  | none => exact .error rfl
  | some d =>
    cases d with
    | array element low high size =>
      refine .ok ?_
      rw [TypeTable.size_rename]
    | _ => exact .error rfl

/-- The renamed field is found, at the same offset. -/
theorem field (h : a.Mirrors r a') (type : TypeId)
    (name name' field : Ident) (span span' : Span) :
    Alike Defect.SameVariant (fun f f' => f' = f.rename r) (a.field type name field span)
      (a'.field type name' (field.rename r) span') := by
  have hfield : a'.types.field? type (field.rename r).name =
      (a.types.field? type field.name).map (Field.rename r) := by
    unfold TypeTable.field?
    rw [h.types, TypeTable.get?_rename]
    cases a.types.get? type with
    | none => rfl
    | some d =>
      cases d with
      | record fields size => exact Field.find?_rename fields field.name
      | _ => rfl
  unfold Analysis.field
  rw [hfield]
  cases a.types.field? type field.name with
  | none => exact .error rfl
  | some f => exact .ok rfl

end Analysis.Mirrors

/-! ## Expressions -/

mutual

/-- Expressions have the same code. -/
theorem Expr.alike_code (h : a.Mirrors r a') : ∀ (e : Expr) (t : Int),
    Defect.Alike (e.code a t) ((e.rename r).code a' t)
  | .const .., _ => by
    rw [Expr.rename, Expr.code, Expr.code]
    exact .pure _
  | .ref x, t => by
    rw [Expr.rename, Expr.code, Expr.code]
    exact (Reference.alike_code h x t).bind fun _ => .pure _
  | .binary _ op left right _, t => by
    rw [Expr.rename, Expr.code, Expr.code]
    exact (Expr.alike_code h left t).bind fun _ =>
      (Expr.alike_code h right (t - 1)).bind fun _ => .pure _

/-- References have the same code. -/
theorem Reference.alike_code (h : a.Mirrors r a') : ∀ (x : Reference Expr) (t : Int),
    Defect.Alike (x.code a t) ((x.rename r).code a' t)
  | ⟨node, name, selector, span⟩, t => by
    rw [Reference.rename, Reference.code, Reference.code]
    exact (h.symbol node).bind fun symbol => (h.variableOf symbol).bind fun v =>
      (Selector.alike_code h selector t v name span).bind fun _ => .pure _

/-- Selectors have the same code. -/
theorem Selector.alike_code (h : a.Mirrors r a') :
    ∀ (selector : Selector Expr) (t : Int) (v : Variable) (name : Ident) (span : Span),
    Defect.Alike (selector.code a t v name span)
    ((selector.rename r).code a' t v (name.rename r) .none)
  | .whole, _, _, _, _ => by
    rw [Selector.rename, Selector.code, Selector.code]
    exact .pure _
  | .element index, t, v, name, span => by
    rw [Selector.rename, Selector.code, Selector.code]
    exact (h.arrayLayout v.type name _ span _).bind fun _ =>
      (Expr.alike_code h index t).bind fun _ => .pure _
  | .field field, t, v, name, span => by
    rw [Selector.rename, Selector.code, Selector.code]
    refine Alike.bind (h.field v.type name _ field span _) fun f f' hf => ?_
    rw [hf]
    exact Defect.Alike.pure _
  | .fieldElement field index, t, v, name, span => by
    rw [Selector.rename, Selector.code, Selector.code]
    refine Alike.bind (h.field v.type name _ field span _) fun f f' hf => ?_
    rw [hf]
    exact (h.arrayLayout f.type name _ span _).bind fun _ =>
      (Expr.alike_code h index t).bind fun _ => .pure _

end

/-! ## Statements -/

theorem Expr.alike_argumentCode (h : a.Mirrors r a') (arg : Expr) (param : SymbolId) :
    Defect.Alike (arg.argumentCode a param) ((arg.rename r).argumentCode a' param) := by
  refine (h.variableOf param).bind fun v => ?_
  rw [Expr.asRef?_rename, h.size]
  cases v.access with
  | indirect =>
    cases arg.asRef? with
    | none => exact .throw rfl
    | some x => exact (Reference.alike_code h x 0).bind fun _ => .pure _
  | direct =>
    dsimp only
    split
    · exact (Expr.alike_code h arg 0).bind fun _ => .pure _
    · cases arg.asRef? with
      | none => exact .throw rfl
      | some x => exact (Reference.alike_code h x 0).bind fun _ => .pure _

theorem Expr.alike_argumentsCode (h : a.Mirrors r a') :
    ∀ (args : List Expr) (params : List SymbolId),
    Defect.Alike (Expr.argumentsCode a args params)
    (Expr.argumentsCode a' (args.map (Expr.rename r)) params)
  | [], _ => .pure _
  | _ :: _, [] => .pure _
  | arg :: args, param :: params =>
    (Expr.alike_argumentCode h arg param).bind fun _ =>
      (Expr.alike_argumentsCode h args params).bind fun _ => .pure _

theorem Call.alike_entry (call : Call) (entries : Entries) (symbol : SymbolId) :
    Defect.Alike (call.entry entries symbol) ((call.rename r).entry entries symbol) := by
  unfold Call.entry
  cases entries.lookup symbol with
  | none => exact .error rfl
  | some entry => exact .ok rfl

/-- Calls have the same code. -/
theorem Call.alike_code (h : a.Mirrors r a') (call : Call) (entries : Entries) (start : Nat) :
    Defect.Alike (call.code a entries start) ((call.rename r).code a' entries start) :=
  (h.symbol call.node).bind fun symbol => (h.procedureOf symbol).bind fun p =>
    (call.alike_entry entries symbol).bind fun _ =>
    (Expr.alike_argumentsCode h call.args p.params).bind fun _ => .pure _

/-- Assignments have the same code. -/
theorem Reference.alike_assignCode (h : a.Mirrors r a')
    (target : VarRef) (value : Expr) (span : Span) :
    Defect.Alike (target.assignCode a value span)
    ((target.rename r).assignCode a' (value.rename r) .none) := by
  obtain ⟨node, name, selector, span'⟩ := target
  refine (h.type node).bind fun type => (Reference.alike_code h _ 0).bind fun _ => ?_
  rw [Expr.asRef?_rename, h.size]
  dsimp only
  split
  · exact (Expr.alike_code h value 0).bind fun _ => .pure _
  · cases value.asRef? with
    | none => exact .throw rfl
    | some x => exact (Reference.alike_code h x 0).bind fun _ => .pure _

mutual

/-- Statements have the same code. -/
theorem Stmt.alike_code (h : a.Mirrors r a') : ∀ (s : Stmt) (entries : Entries) (start : Nat),
    Defect.Alike (s.code a entries start) ((s.rename r).code a' entries start)
  | .assign target value span, _, _ => by
    rw [Stmt.rename, Stmt.code, Stmt.code]
    exact Reference.alike_assignCode h target value span
  | .ifElse condition thenBranch elseBranch _, entries, _ => by
    rw [Stmt.rename, Stmt.code, Stmt.code]
    exact (Expr.alike_code h condition 0).bind fun _ =>
        (Stmt.alike_codeAll h thenBranch entries _).bind fun _ =>
      (Stmt.alike_codeAll h elseBranch entries _).bind fun _ => .pure _
  | .whileDo condition body _, entries, _ => by
    rw [Stmt.rename, Stmt.code, Stmt.code]
    exact (Expr.alike_code h condition 0).bind fun _ =>
      (Stmt.alike_codeAll h body entries _).bind fun _ => .pure _
  | .read target _, _, _ => by
    rw [Stmt.rename, Stmt.code, Stmt.code]
    exact (Reference.alike_code h target 0).bind fun _ => .pure _
  | .write value _, _, _ => by
    rw [Stmt.rename, Stmt.code, Stmt.code]
    exact (Expr.alike_code h value 0).bind fun _ => .pure _
  | .call c, entries, start => by
    rw [Stmt.rename, Stmt.code, Stmt.code]
    exact Call.alike_code h c entries start
  | .ret _, _, _ => by
    rw [Stmt.rename, Stmt.code, Stmt.code]
    exact .pure _

theorem Stmt.alike_codeAll (h : a.Mirrors r a') :
    ∀ (ss : List Stmt) (entries : Entries) (start : Nat), Defect.Alike
    (Stmt.codeAll a entries start ss) (Stmt.codeAll a' entries start (Stmt.renameAll r ss))
  | [], _, _ => by
    rw [Stmt.renameAll, Stmt.codeAll, Stmt.codeAll]
    exact .pure _
  | s :: rest, entries, start => by
    rw [Stmt.renameAll, Stmt.codeAll, Stmt.codeAll]
    exact (Stmt.alike_code h s entries start).bind fun _ =>
      (Stmt.alike_codeAll h rest entries _).bind fun _ => .pure _

end

/-! ## Procedures and programs -/

mutual

/-- Procedures have the same code and the same entries. -/
theorem Decl.alike_code (h : a.Mirrors r a') : ∀ (d : Decl) (entries : Entries) (start : Nat),
    Defect.Alike (d.code a entries start) ((d.rename r).code a' entries start)
  | .types .., _, _ => by
    rw [Decl.rename, Decl.code, Decl.code]
    exact .pure _
  | .vars .., _, _ => by
    rw [Decl.rename, Decl.code, Decl.code]
    exact .pure _
  | .procedure ⟨node, name, params, decls, body, span⟩, entries, start => by
    rw [Decl.rename, Decl.code, Decl.code]
    exact (h.symbol node).bind fun symbol => (h.procedureOf symbol).bind fun _ =>
      (Decl.alike_nestedCode h decls _ start).bind fun x =>
        (Stmt.alike_codeAll h body x.2 _).bind fun _ => .pure _

theorem Decl.alike_nestedCode (h : a.Mirrors r a') :
    ∀ (ds : List Decl) (entries : Entries) (start : Nat),
    Defect.Alike (Decl.nestedCode a entries start ds)
    (Decl.nestedCode a' entries start (Decl.renameAll r ds))
  | [], _, _ => by
    rw [Decl.renameAll, Decl.nestedCode, Decl.nestedCode]
    exact .pure _
  | .types .. :: rest, entries, start => by
    rw [Decl.renameAll, Decl.rename, Decl.nestedCode, Decl.nestedCode]
    · exact Decl.alike_nestedCode h rest entries start
    · intros; contradiction
    · intros; contradiction
  | .vars .. :: rest, entries, start => by
    rw [Decl.renameAll, Decl.rename, Decl.nestedCode, Decl.nestedCode]
    · exact Decl.alike_nestedCode h rest entries start
    · intros; contradiction
    · intros; contradiction
  | .procedure p :: rest, entries, start => by
    have hcode := Decl.alike_code h (.procedure p) entries (start + 1)
    obtain ⟨node, name, params, decls, body, span⟩ := p
    rw [Decl.rename] at hcode
    rw [Decl.renameAll, Decl.rename, Decl.nestedCode, Decl.nestedCode]
    exact hcode.bind fun x => (Decl.alike_nestedCode h rest x.2 _).bind fun _ => .pure _

end

theorem Decl.alike_codeAll (h : a.Mirrors r a') :
    ∀ (ds : List Decl) (entries : Entries) (start : Nat), Defect.Alike
    (Decl.codeAll a entries start ds) (Decl.codeAll a' entries start (Decl.renameAll r ds))
  | [], _, _ => by
    rw [Decl.renameAll]
    exact .pure _
  | d :: rest, entries, start => by
    rw [Decl.renameAll, Decl.codeAll, Decl.codeAll]
    exact (Decl.alike_code h d entries start).bind fun x =>
      (Decl.alike_codeAll h rest x.2 _).bind fun _ => .pure _

/-- A program and the renamed program have the same code. -/
theorem Program.alike_code (h : a.Mirrors r a') (p : Program) :
    Defect.Alike (p.code a) ((p.rename r).code a') := by
  have hprologue : Code.mainPrologue a' = Code.mainPrologue a := by
    unfold Code.mainPrologue
    rw [h.mainDisplayBase]
  unfold Program.code
  rw [hprologue]
  exact (Decl.alike_codeAll h p.decls [] _).bind fun x =>
    (Stmt.alike_codeAll h p.body x.2 _).bind fun _ => .pure _

/-! ## Compilation -/

/-- The same instructions; comments and notes may differ. -/
def ObjectCode.SameInstructions (code code' : ObjectCode) : Prop :=
  code'.instructions = code.instructions

/-- Where the parts make the same code, so does the generator. -/
theorem Program.alike_generate {p p' : Program}
    (h : Defect.Alike (p.code a) (p'.code a')) (o o' : Options) :
    Alike CompileError.SameVariant ObjectCode.SameInstructions
    ((p.generate a o).mapError .defect)
      ((p'.generate a' o').mapError .defect) := by
  rw [← Program.instructions_generate p a o, ← Program.instructions_generate p' a' o'] at h
  cases hg : p.generate a o with
  | error d =>
    cases hg' : p'.generate a' o' with
    | error d' =>
      rw [hg, hg'] at h
      cases h with
      | error hd => exact .error hd
    | ok code' =>
      rw [hg, hg'] at h
      cases h
  | ok code =>
    cases hg' : p'.generate a' o' with
    | error d' =>
      rw [hg, hg'] at h
      cases h
    | ok code' =>
      rw [hg, hg'] at h
      cases h with
      | ok hcode => exact .ok hcode.symm

/-- A program and the renamed program are compiled alike. -/
theorem Program.alike_compile (p : Program) (o o' : Options) :
    Alike CompileError.SameVariant ObjectCode.SameInstructions (p.compile o)
    ((p.rename r).compile o') := by
  have hanalyze := p.mirrors_analyze (r := r)
  unfold Program.compile
  generalize p.analyze = x, (p.rename r).analyze = x' at hanalyze
  cases hanalyze with
  | error he => exact .error he
  | ok ha => exact Program.alike_generate (Program.alike_code ha p) o o'

end

/-! ## Any positions -/

/-- Errors of the variant of a third one are of one variant. -/
theorem CompileError.SameVariant.join {e e' e'' : CompileError}
    (h : e.SameVariant e'') (h' : e'.SameVariant e'') :
    e.SameVariant e' := by
  cases e'' with
  | diagnostic d'' =>
    cases e with
    | defect d => exact h.elim
    | diagnostic d =>
      cases e' with
      | defect d' => exact h'.elim
      | diagnostic d' => exact Eq.trans h (Eq.symm h')
  | defect d'' =>
    cases e with
    | diagnostic d => exact h.elim
    | defect d =>
      cases e' with
      | diagnostic d' => exact h'.elim
      | defect d' => exact Eq.trans h (Eq.symm h')

theorem TypeDescriptor.rename_refl : TypeDescriptor.rename .refl = id := by
  have hfield : Field.rename .refl = id := rfl
  funext d
  cases d with
  | record fields size => rw [TypeDescriptor.rename, hfield, List.map_id, id_eq]
  | _ => rfl

theorem TypeTable.rename_refl (t : TypeTable) : t.rename .refl = t := by
  rw [TypeTable.rename, TypeDescriptor.rename_refl, Array.map_id]

/-- Analyses are compared by way of one without positions. -/
theorem Analysis.Mirrors.join {r : Renaming} {a a' a'' : Analysis}
    (h : a.Mirrors r a'') (h' : a'.Mirrors .refl a'') :
    a.Mirrors r a' where
  types := by rw [← TypeTable.rename_refl a'.types, ← h'.types, h.types]
  symbols := by
    refine ⟨?_, fun id => by rw [← h'.symbols.meaning?, h.symbols.meaning?]⟩
    rw [← h.symbols.names, h'.symbols.names]
    exact (List.map_id _).symm
  annotations := fun node => (h'.annotations (r.node node)).symm.trans (h.annotations node)
  mainDisplayBase := h'.mainDisplayBase.symm.trans h.mainDisplayBase
  closedScopes := h'.closedScopes.symm.trans h.closedScopes

/-- Compilation sees names and nodes only as far as they are equal or different, and positions
not at all. A program with other names and nodes, standing anywhere, has the same code or
fails with an error of the same variant, and the same types, symbols, frames and display of
the main program come out of its analysis. -/
theorem Program.compile_renamed {r : Renaming}
    {p p' : Program} (h : p.RenamedTo r p') (o o' : Options) :
    Alike CompileError.SameVariant ObjectCode.SameInstructions (p.compile o) (p'.compile o') ∧
      Alike CompileError.SameVariant (Analysis.Mirrors r) p.analyze p'.analyze := by
  have hcompile := p'.alike_compile (r := .refl) o' o
  have hanalyze := p'.mirrors_analyze (r := .refl)
  rw [h] at hcompile hanalyze
  constructor
  · exact (p.alike_compile o o).join hcompile CompileError.SameVariant.join fun hc hc' =>
      hc'.symm.trans hc
  · exact p.mirrors_analyze.join hanalyze CompileError.SameVariant.join Analysis.Mirrors.join

/-- Every name with a mark behind it, and every node with the next number. -/
def Renaming.marked : Renaming where
  name x := x ++ "_"
  node n := ⟨n.index + 1⟩
  name_injective x y h := by
    have hlist := congrArg String.toList h
    simp only [String.toList_append] at hlist
    exact String.toList_injective (List.append_cancel_right hlist)
  node_injective x y h := by
    cases x
    cases y
    simpa using h

/-- A procedure fills in a record. Names, nodes and positions are left open. -/
def Program.filling (name : String → String) (first : Nat) (span : Span) : Program :=
  let ident (x : String) : Ident := ⟨name x, span⟩
  let node (k : Nat) : NodeId := ⟨k + first⟩
  let pair : TypeExpr := .record [⟨[ident "a", ident "b"], .integer span, span⟩] span
  let fill : ProcDecl Decl :=
    ⟨node 1, ident "fill", [⟨node 2, .reference, [ident "y"], .named (ident "pair"), span⟩],
      [], [.assign ⟨node 3, ident "y", .field (ident "b"),
        span⟩ (.const (node 4) 1 span) span], span⟩
  { name := ident "filling"
    decls := [.types [⟨ident "pair", pair, span⟩] span,
      .vars [⟨node 0, [ident "x"], .named (ident "pair"), span⟩] span, .procedure fill]
    body := [.call ⟨node 5, ident "fill", [.ref ⟨node 6, ident "x", .whole, span⟩], span⟩,
      .write (.ref ⟨node 7, ident "x", .field (ident "b"), span⟩) span]
    span }

/-- A record type and a procedure with a parameter, under other names, at other nodes and in
other places. -/
theorem Program.filling_compile_renamed :
    (Program.filling id 0 (.ofLine 1)).RenamedTo .marked
    (Program.filling (· ++ "_") 1 (.ofLine 2)) ∧
      ∃ code code', (Program.filling id 0 (.ofLine 1)).compile {} = .ok code ∧
        (Program.filling (· ++ "_") 1 (.ofLine 2)).compile {} = .ok code' ∧
        code'.instructions = code.instructions := by
  have hrenamed : (Program.filling id 0 (.ofLine 1)).RenamedTo .marked
    (Program.filling (· ++ "_") 1 (.ofLine 2)) := rfl
  have hok : ((Program.filling id 0 (.ofLine 1)).compile {}).isOk = true := by decide +kernel
  refine ⟨hrenamed, ?_⟩
  have halike := (Program.compile_renamed hrenamed {} {}).1
  generalize (Program.filling id 0 (.ofLine 1)).compile {} = x,
    (Program.filling (· ++ "_") 1 (.ofLine 2)).compile {} = x' at hok halike ⊢
  cases halike with
  | ok hcode => exact ⟨_, _, rfl, rfl, hcode⟩
  | error => cases hok

end BlockLang
