import BlockLang.Proofs.Scoping
import BlockLang.Proofs.TableInvariant

/-!
# What is wrong with a call

The arguments of a call are checked from left to right, each against its parameter, and
the first one that does not fit decides: nothing behind it is looked at. Only when all
arguments that have a parameter fit does their number matter.

`Program.Reaches.call_first_problem` says this of every state between two declarations or
statements of a program.

* That an argument does not fit (`Expr.Unfit`) is said of the state in which the call is
  checked. The arguments before it have left their annotations by then, but checks of
  expressions do not read them: `Check.OnlyNotes` says that a check reads no annotation
  and changes nothing else, it is proved of every check of an expression
  (`Expr.check_onlyNotes`), and so the verdict on an argument can be moved from one state
  to the other (`Expr.Unfit.run_eq`, `Check.checkArgument_of_fits`).
* `Check.checkArgument_error_iff`: an argument is refused exactly if it does not fit. This
  needs that the parameter is a variable at all, which is known of every state that the
  analysis reaches (`Program.Reaches.paramsKnown`).
* The loop over the arguments: `Check.checkArguments_of_unfitAt` for one that does not
  fit, and `Check.checkArguments_of_fits` if there is none. Both are by induction on the
  arguments.
* A procedure has its parameters only after its header is checked. While its parameters
  and sections are declared it is in the table without them, which is why these two
  stretches have lemmas of their own (`ParamDecl.check_paramsKnown`,
  `Decl.checkSections_paramsKnown`).
-/

namespace BlockLang

open Check

/-! ## Checks that only take notes -/

/-- What the check finds depends on the tables and scopes of the state alone, and it leaves
nothing but annotations. -/
def Check.OnlyNotes {α : Type} (f : Check α) (s : CheckState) : Prop :=
  ∃ r : Except CompileError (α × (Annotations → Annotations)), ∀ n,
    f.run { s with annotations := n } = r.map fun x => (x.1, { s with annotations := x.2 n })

namespace Check.OnlyNotes

variable {α β : Type} {s s' : CheckState}

theorem pure (x : α) : OnlyNotes (Pure.pure x) s := ⟨.ok (x, id), fun _ => rfl⟩

theorem refuse (span : Span) (problem : Problem) :
    OnlyNotes (α := α) (refuse span problem) s :=
  ⟨.error (.diagnostic ⟨span, problem⟩), fun _ => rfl⟩

theorem abort (defect : Defect) : OnlyNotes (α := α) (abort defect) s :=
  ⟨.error (.defect defect), fun _ => rfl⟩

theorem bind {f : Check α} {g : α → Check β}
    (hf : f.OnlyNotes s) (hg : ∀ x, (g x).OnlyNotes s) :
    (f >>= g).OnlyNotes s := by
  obtain ⟨r, hr⟩ := hf
  cases r with
  | error e => exact ⟨.error e, fun n => run_bind_of_error (hr n)⟩
  | ok x =>
    obtain ⟨r', hr'⟩ := hg x.1
    refine ⟨r'.map fun y => (y.1, y.2 ∘ x.2), fun n => ?_⟩
    rw [run_bind_of_ok (hr n), hr']
    cases r' <;> rfl

/-- A check that reads something of the state that is no annotation. -/
theorem get_bind {g : CheckState → Check β}
    (hg : ∀ n, g { s with annotations := n } = g s) (h : (g s).OnlyNotes s) :
    (get >>= g).OnlyNotes s := by
  obtain ⟨r, hr⟩ := h
  exact ⟨r, fun n => by rw [run_get_bind, hg n, hr]⟩

/-- Other annotations make no difference to an error. -/
theorem error_of_notes {f : Check α} {e : CompileError} (h : f.OnlyNotes s) (hs : s.Notes s')
    (he : f.run s = .error e) : f.run s' = .error e := by
  obtain ⟨r, hr⟩ := h
  have hrun := (hr s.annotations).symm.trans he
  rw [hs, hr]
  cases r with
  | error e' =>
    cases hrun
    rfl
  | ok x => cases hrun

/-- A check that only takes notes gives the same result in a state with other notes. -/
theorem ok_of_notes {f : Check α} {x : α} {s₁ : CheckState}
    (h : f.OnlyNotes s) (hs : s.Notes s')
    (hx : f.run s = .ok (x, s₁)) : ∃ s₂, f.run s' = .ok (x, s₂) ∧ s.Notes s₂ := by
  obtain ⟨r, hr⟩ := h
  have hrun := (hr s.annotations).symm.trans hx
  rw [hs, hr]
  cases r with
  | error e => cases hrun
  | ok y =>
    cases hrun
    exact ⟨_, rfl, .annotate ..⟩

/-! ### Expressions -/

theorem recordSymbol (node : NodeId) (symbol : SymbolId) :
    (recordSymbol node symbol).OnlyNotes s :=
  ⟨.ok ((), (·.recordSymbol node symbol)), fun _ => rfl⟩

theorem recordType (node : NodeId) (type : TypeId) : (recordType node type).OnlyNotes s :=
  ⟨.ok ((), (·.recordType node type)), fun _ => rfl⟩

theorem resolve (name : Ident) : (resolve name).OnlyNotes s := by
  refine get_bind (fun _ => rfl) ?_
  cases s.scopes.resolve name.name name.span with
  | error d => exact ⟨.error (.diagnostic d), fun _ => rfl⟩
  | ok id => exact pure id

theorem variableType (symbol : SymbolId) (name : Ident) :
    (variableType symbol name).OnlyNotes s := by
  refine get_bind (fun _ => rfl) ?_
  cases s.symbols.variableAt? symbol with
  | none => exact refuse ..
  | some v => exact pure _

theorem elementType (base : TypeId) (name : Ident) : (elementType base name).OnlyNotes s := by
  refine get_bind (fun _ => rfl) ?_
  split
  · exact pure _
  · exact refuse ..

theorem fieldType (base : TypeId) (name field : Ident) :
    (fieldType base name field).OnlyNotes s := by
  refine get_bind (fun _ => rfl) ?_
  split
  · split
    · exact pure _
    · exact refuse ..
  · exact refuse ..

theorem requireInteger (type : TypeId) (span : Span) :
    (requireInteger type span).OnlyNotes s := by
  unfold Check.requireInteger
  split
  · exact pure _
  · exact refuse ..

theorem requireOperands (left right : TypeId) (span : Span) :
    (requireOperands left right span).OnlyNotes s := by
  refine get_bind (fun _ => rfl) ?_
  split
  · exact pure _
  · exact refuse ..

end Check.OnlyNotes

theorem Reference.check_onlyNotes {node : NodeId}
    {name : Ident} {selector : Selector Expr} {span : Span}
    {s : CheckState} (h : ∀ declared, (selector.check declared name).OnlyNotes s) :
    (Reference.check ⟨node, name, selector, span⟩).OnlyNotes s := by
  rw [Reference.check]
  refine .bind (.resolve name) fun symbol =>
    .bind (.variableType symbol name) fun declared => ?_
  exact (h declared).bind fun type => .bind (.recordSymbol node symbol) fun _ =>
    .bind (.recordType node type) fun _ => .pure type

/-- An index must be an integer, and selects an element. -/
theorem Check.index_onlyNotes {index : Expr} {s : CheckState}
    (h : index.check.OnlyNotes s) (element : TypeId) :
    OnlyNotes (do requireInteger (← index.check) index.span; return element) s :=
  h.bind fun type => .bind (.requireInteger type index.span) fun _ => .pure element

/-- The check of an expression only takes notes. -/
theorem Expr.check_onlyNotes (e : Expr) (s : CheckState) : e.check.OnlyNotes s := by
  induction e with
  | const node value span =>
    rw [Expr.check]
    exact .bind (.recordType node _) fun _ => .pure _
  | whole node name span =>
    rw [Expr.check]
    apply Reference.check_onlyNotes
    intro declared
    rw [Selector.check]
    exact .pure declared
  | element node name index span ih =>
    rw [Expr.check]
    apply Reference.check_onlyNotes
    intro declared
    rw [Selector.check]
    exact .bind (.elementType declared name) (index_onlyNotes ih)
  | field node name field span =>
    rw [Expr.check]
    apply Reference.check_onlyNotes
    intro declared
    rw [Selector.check]
    exact .fieldType declared name field
  | fieldElement node name field index span ih =>
    rw [Expr.check]
    apply Reference.check_onlyNotes
    intro declared
    rw [Selector.check]
    exact .bind (.fieldType declared name field) fun type =>
      .bind (.elementType type field) (index_onlyNotes ih)
  | binary node op left right span ihl ihr =>
    rw [Expr.check]
    refine ihl.bind fun l => ihr.bind fun r => .bind (.requireOperands l r span) fun _ => ?_
    exact .bind (.recordType node _) fun _ => .pure _

/-- The check of an argument only takes notes. -/
theorem Check.checkArgument_onlyNotes (procedure : String)
    (param : SymbolId) (arg : Expr) (s : CheckState) :
    (checkArgument procedure param arg).OnlyNotes s := by
  refine .get_bind (fun _ => rfl) ?_
  dsimp only
  cases s.symbols.variableAt? param with
  | none => exact .abort _
  | some v =>
    dsimp only
    split
    · exact .refuse ..
    · refine (arg.check_onlyNotes s).bind fun type => ?_
      split
      · exact .pure _
      · exact .refuse ..

/-! ## Arguments and parameters -/

/-- What is wrong with an argument for a parameter, by the first of three tests that fails: an
indirect parameter takes variables only, the argument must have a type, and it must be the
parameter's. -/
inductive Expr.Unfit (s : CheckState) (procedure : String) (param : SymbolId) (arg : Expr) :
    CompileError → Prop where
  | notAVariable {v : Variable} : s.symbols.variableAt? param = some v →
    v.access = .indirect → arg.asRef? = none →
    Unfit s procedure param arg (.diagnostic ⟨arg.span, .notAVariable arg.description⟩)
  | illTyped {v : Variable} {e : CompileError} : s.symbols.variableAt? param = some v →
    (v.access = .indirect → arg.asRef? ≠ none) → arg.check.run s = .error e →
    Unfit s procedure param arg e
  | incompatible {v : Variable} {type : TypeId} {s' : CheckState} :
    s.symbols.variableAt? param = some v → (v.access = .indirect → arg.asRef? ≠ none) →
    arg.check.run s = .ok (type, s') → type ≠ v.type → Unfit s procedure param arg
    (.diagnostic ⟨arg.span, .incompatibleArgument procedure (s.symbols.name param)⟩)

/-- The argument at position `k` does not fit the parameter at that position. -/
def Expr.UnfitAt (s : CheckState) (procedure : String) (params : List SymbolId)
    (args : List Expr) (k : Nat) (e : CompileError) : Prop :=
  ∃ param arg, params[k]? = some param ∧ args[k]? = some arg ∧ arg.Unfit s procedure param e

section

variable {s s' : CheckState} {procedure : String} {param : SymbolId} {params : List SymbolId}
  {arg : Expr} {args args' : List Expr} {e : CompileError}

/-- An argument is refused exactly if it does not fit. -/
theorem Check.checkArgument_error_iff {v : Variable}
    (hv : s.symbols.variableAt? param = some v) :
    (checkArgument procedure param arg).run s = .error e ↔ arg.Unfit s procedure param e := by
  rw [checkArgument_run procedure arg hv]
  constructor
  · intro h
    split at h
    next hmode =>
      cases h
      exact .notAVariable hv hmode.1 (Option.isNone_iff_eq_none.mp hmode.2)
    next hmode =>
      have hmode : v.access = .indirect → arg.asRef? ≠ none := by simpa using hmode
      cases hcheck : arg.check.run s with
      | error e' =>
        rw [run_bind_of_error hcheck] at h
        cases h
        exact .illTyped hv hmode hcheck
      | ok r =>
        rw [run_bind_of_ok hcheck] at h
        split at h
        · cases h
        next htype =>
          cases h
          exact .incompatible hv hmode hcheck htype
  · intro h
    cases h with
    | notAVariable hv' hindirect href =>
      cases hv.symm.trans hv'
      rw [if_pos ⟨hindirect, Option.isNone_iff_eq_none.mpr href⟩]
    | illTyped hv' hmode hcheck =>
      cases hv.symm.trans hv'
      rw [if_neg (by simpa using hmode), run_bind_of_error hcheck]
    | incompatible hv' hmode hcheck htype =>
      cases hv.symm.trans hv'
      rw [if_neg (by simpa using hmode), run_bind_of_ok hcheck, if_neg htype]
      rfl

/-- What has been recorded about the arguments before makes no difference. -/
theorem Expr.Unfit.run_eq (h : arg.Unfit s procedure param e) (hs : s.Notes s') :
    (checkArgument procedure param arg).run s' = .error e := by
  have hvar : ∃ v, s.symbols.variableAt? param = some v := by
    cases h <;> exact ⟨_, ‹_›⟩
  obtain ⟨v, hv⟩ := hvar
  exact (checkArgument_onlyNotes procedure param arg s).error_of_notes hs
    ((checkArgument_error_iff hv).mpr h)

/-- An argument that fits is accepted, whatever notes have been taken. -/
theorem Check.checkArgument_of_fits {v : Variable} (hv : s.symbols.variableAt? param = some v)
    (h : ∀ e, ¬ arg.Unfit s procedure param e) (hs : s.Notes s') :
    ∃ s₁, (checkArgument procedure param arg).run s' = .ok ((), s₁) ∧ s.Notes s₁ := by
  cases hrun : (checkArgument procedure param arg).run s with
  | error e => exact absurd ((checkArgument_error_iff hv).mp hrun) (h e)
  | ok r => exact (checkArgument_onlyNotes procedure param arg s).ok_of_notes hs hrun

theorem Expr.unfitAt_cons_zero :
    Expr.UnfitAt s procedure (param :: params) (arg :: args) 0 e ↔
    arg.Unfit s procedure param e := by
  simp [UnfitAt]

theorem Expr.unfitAt_cons_succ {k : Nat} :
    Expr.UnfitAt s procedure (param :: params) (arg :: args) (k + 1) e ↔
    Expr.UnfitAt s procedure params args k e := by
  simp [UnfitAt]

/-- Only an argument that has a parameter may not fit. -/
theorem Expr.UnfitAt.lt {k : Nat} (h : Expr.UnfitAt s procedure params args k e) :
    k < params.length := by
  obtain ⟨param, _, hparam, _⟩ := h
  exact (List.getElem?_eq_some_iff.mp hparam).1

/-- Positions below `n` are the same in lists that begin with the same `n` arguments. -/
theorem Expr.unfitAt_congr {k n : Nat} (h : args'.take n = args.take n) (hk : k < n) :
    Expr.UnfitAt s procedure params args' k e ↔ Expr.UnfitAt s procedure params args k e := by
  have hget : args'[k]? = args[k]? := by
    rw [← List.getElem?_take_of_lt hk, h, List.getElem?_take_of_lt hk]
  rw [UnfitAt, UnfitAt, hget]

/-- The first argument that does not fit decides. -/
theorem Check.checkArguments_of_unfitAt (call : Call) (expected : Nat) :
    ∀ {k : Nat} {params : List SymbolId} {args : List Expr} {s' : CheckState},
    (∀ param ∈ params, ∃ v, s.symbols.variableAt? param = some v) → s.Notes s' →
    Expr.UnfitAt s call.callee.name params args k e →
    (∀ j < k, ∀ e', ¬ Expr.UnfitAt s call.callee.name params args j e') →
    (checkArguments call expected params args).run s' = .error e
  | _, [], _, _, _, _, h, _ => by simp [Expr.UnfitAt] at h
  | _, _ :: _, [], _, _, _, h, _ => by simp [Expr.UnfitAt] at h
  | 0, param :: params, arg :: args, _, _, hs, h, _ => by
    rw [checkArguments]
    exact run_bind_of_error ((Expr.unfitAt_cons_zero.mp h).run_eq hs)
  | k + 1, param :: params, arg :: args, _, hvars, hs, h, hbefore => by
    obtain ⟨v, hv⟩ := hvars param List.mem_cons_self
    have hfits : ∀ e', ¬ arg.Unfit s call.callee.name param e' := fun e' hunfit =>
      hbefore 0 (Nat.succ_pos k) e' (Expr.unfitAt_cons_zero.mpr hunfit)
    obtain ⟨s₁, hrun, hs₁⟩ := checkArgument_of_fits hv hfits hs
    rw [checkArguments, run_bind_of_ok hrun]
    refine checkArguments_of_unfitAt call expected
      (fun id hid => hvars id (List.mem_cons_of_mem _ hid)) hs₁
      (Expr.unfitAt_cons_succ.mp h) fun j hj e' hunfit => ?_
    exact hbefore (j + 1) (Nat.succ_lt_succ hj) e' (Expr.unfitAt_cons_succ.mpr hunfit)

/-- Arguments that fit are counted. -/
theorem Check.checkArguments_of_fits (call : Call) (expected : Nat) :
    ∀ {params : List SymbolId} {args : List Expr} {s' : CheckState},
    (∀ param ∈ params, ∃ v, s.symbols.variableAt? param = some v) → s.Notes s' →
    (∀ k e, ¬ Expr.UnfitAt s call.callee.name params args k e) →
    (args.length < params.length → (checkArguments call expected params args).run s' =
      .error (.diagnostic ⟨call.span,
          .tooFewArguments call.callee.name expected call.args.length⟩)) ∧
    (params.length < args.length → (checkArguments call expected params args).run s' =
      .error (.diagnostic ⟨call.span,
          .tooManyArguments call.callee.name expected call.args.length⟩)) ∧
    (args.length = params.length →
      ∃ s₁, (checkArguments call expected params args).run s' = .ok ((), s₁))
  | [], [], s', _, _, _ => ⟨by simp, by simp, fun _ => ⟨s', rfl⟩⟩
  | [], _ :: _, _, _, _, _ => ⟨by simp, fun _ => rfl, by simp⟩
  | _ :: _, [], _, _, _, _ => ⟨fun _ => rfl, by simp, by simp⟩
  | param :: params, arg :: args, _, hvars, hs, h => by
    obtain ⟨v, hv⟩ := hvars param List.mem_cons_self
    obtain ⟨s₁, hrun, hs₁⟩ :=
      checkArgument_of_fits hv (fun e hunfit => h 0 e (Expr.unfitAt_cons_zero.mpr hunfit)) hs
    have hrest := checkArguments_of_fits call expected
      (fun id hid => hvars id (List.mem_cons_of_mem _ hid)) hs₁ fun k e hunfit =>
      h (k + 1) e (Expr.unfitAt_cons_succ.mpr hunfit)
    rw [checkArguments, run_bind_of_ok hrun]
    simpa using hrest

end

/-! ## Points of the analysis -/

/-- The statements before some point, which may stand in a branch or in a loop. Their checks
lead to that point. -/
inductive Stmt.Begins : List Stmt → List Stmt → Prop where
  | start (stmts : List Stmt) : Begins [] stmts
  | behind {part rest : List Stmt} (stmt : Stmt) :
    Begins part rest → Begins (stmt :: part) (stmt :: rest)
  | thenBranch {condition : Expr} {part thenBranch elseBranch rest : List Stmt}
    {span : Span} : Begins part thenBranch → Begins [.ifElse condition part [] span]
    (.ifElse condition thenBranch elseBranch span :: rest)
  | elseBranch {condition : Expr} {part thenBranch elseBranch rest : List Stmt}
    {span : Span} : Begins part elseBranch → Begins [.ifElse condition thenBranch part span]
    (.ifElse condition thenBranch elseBranch span :: rest)
  | loop {condition : Expr} {part body rest : List Stmt} {span : Span} : Begins part body →
    Begins [.whileDo condition part span] (.whileDo condition body span :: rest)

/-- The sections before some point, which may stand between two declarations of one
section. -/
inductive Decl.Begins : List Decl → List Decl → Prop where
  | start (decls : List Decl) : Begins [] decls
  | behind {part rest : List Decl} (d : Decl) :
    Begins part rest → Begins (d :: part) (d :: rest)
  | types {part decls : List TypeDecl} {rest : List Decl} {span : Span} : part <+: decls →
    Begins [.types part span] (.types decls span :: rest)
  | vars {part decls : List VarDecl} {rest : List Decl} {span : Span} : part <+: decls →
    Begins [.vars part span] (.vars decls span :: rest)

/-- Checking the procedures `decls` and then `body`, the analysis passes from `s` through
`s'`. The point may be between two procedures; behind some parameters, sections, or inner
procedures and statements of one of them; or in the body. -/
inductive Check.Visits : List Decl → List Stmt → CheckState → CheckState → Prop where
  | procedures {done rest : List Decl} {body : List Stmt} {s s' : CheckState} :
    (Decl.checkProcedures done).run s = .ok ((), s') → Visits (done ++ rest) body s s'
  | params {done rest : List Decl} {body : List Stmt} {p : ProcDecl Decl}
    {part : List ParamDecl} {id : SymbolId} {s s₁ s₂ s' : CheckState} :
    (Decl.checkProcedures done).run s = .ok ((), s₁) →
    (declare p.name s₁.header).run s₁ = .ok (id, s₂) → part <+: p.params →
    (part.forM ParamDecl.check).run (s₁.entered p.node p.name) = .ok ((), s') →
    Visits (done ++ .procedure p :: rest) body s s'
  | sections {done rest part : List Decl} {body : List Stmt}
    {p : ProcDecl Decl} {id : SymbolId} {s s₁ s₂ s' : CheckState} :
    (Decl.checkProcedures done).run s = .ok ((), s₁) →
    (openProcedure p.node p.name p.params).run s₁ = .ok (id, s₂) → Decl.Begins part p.decls →
    (Decl.checkSections false part).run s₂ = .ok ((), s') →
    Visits (done ++ .procedure p :: rest) body s s'
  | inner {done rest : List Decl} {body : List Stmt}
    {p : ProcDecl Decl} {s s₁ s₂ s' : CheckState} :
    (Decl.checkProcedures done).run s = .ok ((), s₁) →
    (header p.node p.name p.params p.decls).run s₁ = .ok ((), s₂) →
    Visits p.decls p.body s₂ s' → Visits (done ++ .procedure p :: rest) body s s'
  | body {decls : List Decl} {body part : List Stmt} {s s₁ s' : CheckState} :
    (Decl.checkProcedures decls).run s = .ok ((), s₁) → Stmt.Begins part body →
    (Stmt.checkAll part).run s₁ = .ok ((), s') → Visits decls body s s'

/-- The analysis of the program, whether it accepts the program or not, comes to a point with
this state. -/
inductive Program.Reaches (p : Program) (s : CheckState) : Prop where
  | sections {part : List Decl} : Decl.Begins part p.decls →
    (Decl.checkSections false part).run {} = .ok ((), s) →
    p.Reaches s
  | block {s₁ : CheckState} : (Decl.checkSections false p.decls).run {} = .ok ((), s₁) →
    s₁.scopes.offset ≠ Word.greatest → Visits p.decls p.body s₁ s → p.Reaches s

/-- The parameters of all procedures are variables. -/
def SymbolTable.ParamsKnown (σ : SymbolTable) : Prop :=
  ∀ id p, σ.procedureAt? id = some p → ∀ param ∈ p.params, ∃ v, σ.variableAt? param = some v

section

variable {s s' : CheckState}

/-- Between two procedures every parameter is a variable. -/
theorem CheckState.Consistent.paramsKnown (hs : s.Consistent none) :
    s.symbols.ParamsKnown := by
  intro id p hp param hparam
  obtain ⟨v, hv, _⟩ := (hs.tables.procedure_laid hp).params param hparam
  exact ⟨v, hv⟩

/-- While the header of a procedure is checked, its own parameters have to be known in another
way. -/
theorem CheckState.Consistent.paramsKnown_of_pending {own : SymbolId} {q : Procedure}
    (hs : s.Consistent (some own)) (hown : s.symbols.procedureAt? own = some q)
    (hq : ∀ param ∈ q.params, ∃ v, s.symbols.variableAt? param = some v) :
    s.symbols.ParamsKnown := by
  intro id p hp
  rcases hs.tables.symbols (SymbolTable.procedureAt?_eq_some_iff.mp hp) with hpending | hlaid
  · cases hpending
    cases hown.symm.trans hp
    exact hq
  · intro param hparam
    obtain ⟨v, hv, _⟩ := hlaid.params param hparam
    exact ⟨v, hv⟩

/-- Behind some of its parameters a procedure has none yet. -/
theorem ParamDecl.check_paramsKnown {params : List ParamDecl}
    {node : NodeId} {name : Ident} (hs : s.Consistent none)
    (h : (params.forM ParamDecl.check).run (s.entered node name) = .ok ((), s')) :
    s'.symbols.ParamsKnown := by
  have hlays := (ParamDecl.check_lays (hs.entered node name) h).1
  have hown := SymbolTable.procedureAt?_mono hlays.grows.symbols (s.procedureAt?_header name)
  exact hlays.consistent.paramsKnown_of_pending hown nofun

/-- Behind some of its sections a procedure has the parameters that its scope began with. -/
theorem Decl.checkSections_paramsKnown {decls : List Decl} {node : NodeId} {name : Ident}
    {params : List ParamDecl} {id : SymbolId} {s₁ : CheckState} (hs : s.Consistent none)
    (hopen : (openProcedure node name params).run s = .ok (id, s₁))
    (h : (Decl.checkSections false decls).run s₁ = .ok ((), s')) :
    s'.symbols.ParamsKnown := by
  obtain ⟨hs₁, hheaded, _, hown⟩ := openProcedure_consistent hs hopen
  have hlays := Decl.checkSections_lays decls hs₁ h
  refine hlays.consistent.paramsKnown_of_pending
    (SymbolTable.procedureAt?_mono hlays.grows.symbols hown) ?_
  intro param hparam
  obtain ⟨v, hv, _⟩ := hheaded.entries param hparam
  exact ⟨v, SymbolTable.variableAt?_mono hlays.grows.symbols hv⟩

/-- Parameters are variables wherever the analysis gets to within declarations and
statements. -/
theorem Check.Visits.paramsKnown {decls : List Decl} {body : List Stmt}
    (h : Visits decls body s s') (hs : s.Consistent none) : s'.symbols.ParamsKnown := by
  induction h with
  | procedures hdone => exact (Decl.checkProcedures_consistent _ hs hdone).paramsKnown
  | params hdone _ _ hparams =>
    exact ParamDecl.check_paramsKnown (Decl.checkProcedures_consistent _ hs hdone) hparams
  | sections hdone hopen _ hsections =>
    exact Decl.checkSections_paramsKnown
      (Decl.checkProcedures_consistent _ hs hdone) hopen hsections
  | inner hdone hheader _ ih =>
    exact ih (header_consistent (Decl.checkProcedures_consistent _ hs hdone) hheader)
  | body hprocedures _ hbody =>
    exact (Stmt.checkAll_consistent _ (Decl.checkProcedures_consistent _ hs hprocedures)
      hbody).paramsKnown

/-- Parameters are variables in every state that the analysis of a program reaches. -/
theorem Program.Reaches.paramsKnown {p : Program} (h : p.Reaches s) :
    s.symbols.ParamsKnown := by
  cases h with
  | sections _ hsections =>
    exact (Decl.checkSections_lays _ CheckState.consistent_empty
      hsections).consistent.paramsKnown
  | block hsections _ hvisits =>
    exact hvisits.paramsKnown
      (Decl.checkSections_lays _ CheckState.consistent_empty hsections).consistent

/-! ## Calls -/

section

variable (call : Call) {id : SymbolId} {P : Procedure}
  (hid : s.scopes.lookup? call.callee.name = some id)
  (hP : s.symbols.procedureAt? id = some P)

include hid hP

/-- A call of a procedure comes down to its arguments. -/
theorem Call.check_run :
    call.check.run s = (checkArguments call P.params.length P.params call.args).run
      { s with annotations := s.annotations.recordSymbol call.node id } := by
  have hresolve : (resolve call.callee).run s = .ok (id, s) := by rw [resolve_run, hid]
  have hparams : (procedureParams id call.callee).run s = .ok (P.params, s) := by
    rw [procedureParams_run, hP]
  rw [Call.check, run_bind_of_ok hresolve, run_bind_of_ok hparams]
  rfl

/-- A call is refused for the first argument that does not fit. -/
theorem Call.check_of_unfitAt (hvars : s.symbols.ParamsKnown) {k : Nat} {e : CompileError}
    (h : Expr.UnfitAt s call.callee.name P.params call.args k e)
    (hbefore : ∀ j < k, ∀ e', ¬ Expr.UnfitAt s call.callee.name P.params call.args j e') :
    call.check.run s = .error e := by
  rw [call.check_run hid hP]
  exact checkArguments_of_unfitAt call _ (hvars id P hP) (.annotate ..) h hbefore

/-- A call of which all arguments fit is refused for their number only. -/
theorem Call.check_of_fits (hvars : s.symbols.ParamsKnown)
    (h : ∀ k e, ¬ Expr.UnfitAt s call.callee.name P.params call.args k e) :
    (call.check.run s = .error (.diagnostic ⟨call.span,
      .tooFewArguments call.callee.name P.params.length call.args.length⟩) ↔
      call.args.length < P.params.length) ∧
    (call.check.run s = .error (.diagnostic ⟨call.span,
      .tooManyArguments call.callee.name P.params.length call.args.length⟩) ↔
      P.params.length < call.args.length) ∧
    ((∃ s', call.check.run s = .ok ((), s')) ↔ call.args.length = P.params.length) := by
  obtain ⟨hfew, hmany, hok⟩ := checkArguments_of_fits call P.params.length (hvars id P hP)
    (.annotate s (s.annotations.recordSymbol call.node id)) h
  rw [call.check_run hid hP]
  rcases Nat.lt_trichotomy call.args.length P.params.length with hlt | heq | hgt
  · rw [hfew hlt]
    simp [hlt, Nat.lt_asymm hlt, Nat.ne_of_lt hlt]
  · obtain ⟨s₁, hrun⟩ := hok heq
    rw [hrun]
    simp [heq]
  · rw [hmany hgt]
    simp [hgt, Nat.lt_asymm hgt, Nat.ne_of_gt hgt]

end

end

/-- In every state that the analysis of a program reaches, a call of a procedure is refused
for the first argument that does not fit its parameter, whatever stands behind this argument.
When all arguments that have a parameter fit, it is refused for their number, whatever the
surplus ones are, or accepted when the number is right. -/
theorem Program.Reaches.call_first_problem {p : Program}
    {s : CheckState} (hs : p.Reaches s) (call : Call)
    {id : SymbolId} {P : Procedure} (hid : s.scopes.lookup? call.callee.name = some id)
    (hP : s.symbols.procedureAt? id = some P) :
    (∀ k e, Expr.UnfitAt s call.callee.name P.params call.args k e →
      (∀ j < k, ∀ e', ¬ Expr.UnfitAt s call.callee.name P.params call.args j e') →
      ∀ args : List Expr, args.take (k + 1) = call.args.take (k + 1) →
        ({ call with args := args } : Call).check.run s = .error e) ∧
    ((∀ k e, ¬ Expr.UnfitAt s call.callee.name P.params call.args k e) →
      (call.check.run s = .error (.diagnostic ⟨call.span,
        .tooFewArguments call.callee.name P.params.length call.args.length⟩) ↔
        call.args.length < P.params.length) ∧
      (call.check.run s = .error (.diagnostic ⟨call.span,
        .tooManyArguments call.callee.name P.params.length call.args.length⟩) ↔
        P.params.length < call.args.length) ∧
      ((∃ s', call.check.run s = .ok ((), s')) ↔ call.args.length = P.params.length) ∧
      ∀ args : List Expr, args.take P.params.length = call.args.take P.params.length →
      P.params.length < args.length →
        ({ call with args := args } : Call).check.run s = .error (.diagnostic ⟨call.span,
          .tooManyArguments call.callee.name P.params.length args.length⟩)) := by
  have hvars := hs.paramsKnown
  constructor
  · intro k e hunfit hbefore args hargs
    apply Call.check_of_unfitAt { call with args := args } hid hP hvars
    · exact (Expr.unfitAt_congr hargs (Nat.lt_succ_self k)).mpr hunfit
    · intro j hj e' hunfit'
      exact hbefore j hj e' ((Expr.unfitAt_congr hargs (Nat.lt_succ_of_lt hj)).mp hunfit')
  · intro hfits
    obtain ⟨hfew, hmany, hok⟩ := call.check_of_fits hid hP hvars hfits
    refine ⟨hfew, hmany, hok, ?_⟩
    intro args hargs hlt
    have hfits' : ∀ k e, ¬ Expr.UnfitAt s call.callee.name P.params args k e :=
        fun k e hunfit =>
      hfits k e ((Expr.unfitAt_congr hargs hunfit.lt).mp hunfit)
    exact (Call.check_of_fits { call with args := args } hid hP hvars hfits').2.1.mpr hlt

/-- A call of `fill` on some line of the main program of the nesting program. -/
def Call.fill (args : List Expr) : Call := ⟨⟨90⟩, ⟨"fill", ⟨9, 1, 4⟩⟩, args, ⟨9, 1, 13⟩⟩

/-- The second of these arguments is no variable, and the third is not declared. -/
def Call.fillArgs : List Expr :=
  [.ref ⟨⟨91⟩, ⟨"v", ⟨9, 6, 1⟩⟩, .whole, ⟨9, 6, 1⟩⟩, .const ⟨92⟩ 1 ⟨9, 9, 1⟩,
    .ref ⟨⟨93⟩, ⟨"z", ⟨9, 12, 1⟩⟩, .whole, ⟨9, 12, 1⟩⟩]

/-- Behind the declarations of the nesting program, `fill(v, 1, z)` is refused for the
constant, and `fill(v)` for the number of arguments. -/
theorem Program.nesting_call_first_problem :
    ∃ s id P, Program.nesting.Reaches s ∧ s.scopes.lookup? "fill" = some id ∧
    s.symbols.procedureAt? id = some P ∧
      (Call.fill Call.fillArgs).check.run s =
      .error (.diagnostic ⟨⟨9, 9, 1⟩, .notAVariable "1"⟩) ∧
      (Call.fill (Call.fillArgs.take 1)).check.run s =
        .error (.diagnostic ⟨⟨9, 1, 13⟩, .tooFewArguments "fill" 2 1⟩) := by
  have hcheck :
      (((Decl.checkSections false Program.nesting.decls).run {}).toOption.any fun x =>
      ((Decl.checkProcedures Program.nesting.decls).run x.2).toOption.any fun y =>
      (y.2.scopes.lookup? "fill").any fun id => (y.2.symbols.procedureAt? id).any fun P =>
      P.params[0]?.any fun a => P.params[1]?.any fun b =>
          (y.2.symbols.variableAt? b).any fun v =>
      decide (x.2.scopes.offset ≠ Word.greatest ∧ P.params.length = 2 ∧ v.access = .indirect ∧
        ((checkArgument "fill" a (Call.fillArgs[0])).run y.2).toOption.isSome = true)) =
        true := by decide +kernel
  obtain ⟨x, hsections, hcheck⟩ := Except.exists_of_any_toOption hcheck
  obtain ⟨y, hprocedures, hcheck⟩ := Except.exists_of_any_toOption hcheck
  simp only [Option.any_eq_true, decide_eq_true_eq] at hcheck
  obtain ⟨id, hid, P, hP, a, ha, b, hb, v, hv, hoffset, hlength, haccess, hfirst⟩ := hcheck
  have hreaches : Program.nesting.Reaches y.2 :=
    .block hsections hoffset (.body hprocedures (.start _) (by rw [Stmt.checkAll]; rfl))
  -- the variable fits, and there is nothing to fit behind it
  have hfits :
      ∀ e args, ¬ Expr.UnfitAt y.2 "fill" P.params (Call.fillArgs[0] :: args) 0 e := by
    intro e args hunfitAt
    obtain ⟨param, arg, hparam, harg, hunfit⟩ := hunfitAt
    cases ha.symm.trans hparam
    cases harg
    rw [hunfit.run_eq (.annotate y.2 y.2.annotations)] at hfirst
    cases hfirst
  refine ⟨y.2, id, P, hreaches, hid, hP, ?_, ?_⟩
  · obtain ⟨hfirstProblem, _⟩ :=
      hreaches.call_first_problem (.fill (Call.fillArgs.take 2)) hid hP
    refine hfirstProblem 1 _ ⟨b, _, hb, rfl,
      .notAVariable hv haccess rfl⟩ ?_ Call.fillArgs rfl
    intro j hj e
    obtain rfl : j = 0 := by omega
    exact hfits e _
  · obtain ⟨_, hcount⟩ := hreaches.call_first_problem (.fill (Call.fillArgs.take 1)) hid hP
    have hall : ∀ k e, ¬ Expr.UnfitAt y.2 "fill" P.params (Call.fillArgs.take 1) k e := by
      intro k e
      cases k with
      | zero => exact hfits e _
      | succ k =>
        intro hunfitAt
        obtain ⟨_, _, _, harg, _⟩ := hunfitAt
        simp [Call.fillArgs] at harg
    obtain ⟨hfew, _⟩ := hcount hall
    rw [hlength] at hfew
    exact hfew.mpr (by decide)

end BlockLang
