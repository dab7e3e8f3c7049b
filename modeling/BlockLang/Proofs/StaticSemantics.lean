import Mathlib.Data.List.Forall2
import BlockLang.Static.Frame
import BlockLang.Tree.Program

/-!
# Static semantics

When is a program well-formed? The rules below say so without tables, identities or an
order of checks. A context lists what the names in scope stand for, the latest declaration
first, and is split at the border of the innermost scope: there a name is declared at most
once, and a use means the first entry of the whole list.

Types have an identity. A built-in type is itself; an array or record type is the
occurrence of the type expression that it stems from. Occurrences are numbered in the
order in which they end in the program text, so the judgements about declarations carry
the number of the next occurrence along. They also carry the first free offset of the
frame, because storage must have its place among the words.

* `TypeExpr.Denotes`: a type expression stands for a type.
* `Expr.HasType`, `Stmt.WellTyped`: the typing rules, one for each form. The level of a
  statement matters for `return` alone.
* `TypeDecl.WellFormed`, `VarDecl.WellFormed`, `ParamDecl.WellFormed`: declarations, which
  lead from one site to the next. A `Site` is a context with the two counters.
* `ProcDecl.WellFormed`, `Decl.ProceduresWellFormed`, `Program.WellFormed`: procedures,
  which see what stands before them, and programs.

Nothing here says in which order things are to be looked at, or what a program is refused
with.
-/

namespace BlockLang

/-! ## Types -/

/-- What makes two types the same. -/
inductive TypeIdentity where
  | integer
  | char
  | boolean
  /-- The array or record type expression with this number. -/
  | occurrence (n : Nat)
  deriving DecidableEq, Repr

inductive Ty where
  | integer
  | char
  | boolean
  | array (occurrence : Nat) (low high : Word) (element : Ty)
  | record (occurrence : Nat) (fields : List (String × Ty))

namespace Ty

def identity : Ty → TypeIdentity
  | .integer => .integer
  | .char => .char
  | .boolean => .boolean
  | .array n .. => .occurrence n
  | .record n _ => .occurrence n

/-- Only identity counts, not structure. -/
def Same (τ σ : Ty) : Prop := τ.identity = σ.identity

/-- Values of a scalar type fit into a register. -/
def IsScalar : Ty → Prop
  | .integer | .char | .boolean => True
  | .array .. | .record .. => False

/-- The number of elements of an array with these bounds. -/
def count (low high : Word) : Int := high.toInt - low.toInt + 1

mutual

/-- Words that a value of the type takes. -/
def size : Ty → Int
  | .integer | .char | .boolean => 1
  | .array _ low high element => count low high * element.size
  | .record _ fields => sizeAll fields

/-- Words that fields take together. -/
def sizeAll : List (String × Ty) → Int
  | [] => 0
  | (_, τ) :: rest => τ.size + sizeAll rest

end

end Ty

/-! ## Contexts -/

/-- What a name was declared as. -/
inductive Declared where
  | type (τ : Ty)
  | var (τ : Ty)
  | proc (formals : List (ParamMode × Ty))

/-- The declarations in scope, the latest first. -/
structure Context where
  /-- The innermost scope. -/
  scope : List (String × Declared) := []
  /-- The scopes around it. -/
  around : List (String × Declared) := []

namespace Context

/-- The innermost declaration of a name. -/
def lookup (Γ : Context) (name : String) : Option Declared :=
  (Γ.scope ++ Γ.around).lookup name

/-- The name may still be declared in the innermost scope. -/
def Fresh (Γ : Context) (name : String) : Prop := name ∉ Γ.scope.map (·.1)

def declare (Γ : Context) (name : String) (d : Declared) : Context :=
  { Γ with scope := (name, d) :: Γ.scope }

/-- A new scope inside the innermost one. -/
def enter (Γ : Context) : Context := { scope := [], around := Γ.scope ++ Γ.around }

end Context

/-! ## Type expressions -/

mutual

/-- In a context, a type expression whose occurrences are numbered from the first number on
denotes a type; the second number is the next free one. -/
inductive TypeExpr.Denotes (Γ : Context) : Nat → TypeExpr → Ty → Nat → Prop where
  | integer {n span} : TypeExpr.Denotes Γ n (.integer span) .integer n
  | char {n span} : TypeExpr.Denotes Γ n (.char span) .char n
  | named {n name τ} : Γ.lookup name.name = some (.type τ) →
    TypeExpr.Denotes Γ n (.named name) τ n
  | array {n n' low high element span τ} : low ≤ high → TypeExpr.Denotes Γ n element τ n' →
      Word.Fits (Ty.count low high) → Word.Fits (Ty.count low high * τ.size) →
      TypeExpr.Denotes Γ n (.array low high element span) (.array n' low high τ) (n' + 1)
  | record {n n' fields span φs} :
      TypeExpr.DenotesFields Γ n fields φs n' → Word.Fits (Ty.sizeAll φs) →
      TypeExpr.Denotes Γ n (.record fields span) (.record n' φs) (n' + 1)

/-- The fields of a record with their types; the names of a group share one. -/
inductive TypeExpr.DenotesFields (Γ : Context) :
    Nat → List (FieldGroup TypeExpr) → List (String × Ty) → Nat → Prop where
  | nil {n} : TypeExpr.DenotesFields Γ n [] [] n
  | cons {n n' n'' names type span rest τ φs} : TypeExpr.Denotes Γ n type τ n' →
      TypeExpr.DenotesFields Γ n' rest φs n'' →
      TypeExpr.DenotesFields Γ n (⟨names, type, span⟩ :: rest)
      (names.map (fun name => (name.name, τ)) ++ φs) n''

end

/-! ## Expressions -/

/-- The type of an operation's result. -/
def BinaryOp.resultTy (op : BinaryOp) : Ty := if op.isComparison then .boolean else .integer

inductive Expr.HasType (Γ : Context) : Expr → Ty → Prop where
  | const {node value span} : Expr.HasType Γ (.const node value span) .integer
  | whole {node name span τ} : Γ.lookup name.name = some (.var τ) →
      Expr.HasType Γ (.ref ⟨node, name, .whole, span⟩) τ
  | element {node name index span n low high τ} :
      Γ.lookup name.name = some (.var (.array n low high τ)) → Expr.HasType Γ index .integer →
      Expr.HasType Γ (.ref ⟨node, name, .element index, span⟩) τ
  | field {node name field span n φs τ} : Γ.lookup name.name = some (.var (.record n φs)) →
      φs.lookup field.name = some τ → Expr.HasType Γ (.ref ⟨node, name, .field field, span⟩) τ
  | fieldElement {node name field index span n φs m low high τ} :
      Γ.lookup name.name = some (.var (.record n φs)) →
      φs.lookup field.name = some (.array m low high τ) → Expr.HasType Γ index .integer →
      Expr.HasType Γ (.ref ⟨node, name, .fieldElement field index, span⟩) τ
  | binary {node op left right span τ σ} : Expr.HasType Γ left τ →
      Expr.HasType Γ right σ → τ.Same σ → τ.IsScalar →
      Expr.HasType Γ (.binary node op left right span) op.resultTy

/-- An argument fits a formal parameter: it has the parameter's type, and a `var` parameter
takes a variable. -/
def Expr.Passes (Γ : Context) (formal : ParamMode × Ty) (arg : Expr) : Prop :=
  (formal.1 = .reference → arg.asRef?.isSome) ∧ ∃ τ, arg.HasType Γ τ ∧ τ.Same formal.2

/-! ## Statements -/

/-- A statement of a body at a lexical level; the main program's body has level 0. -/
inductive Stmt.WellTyped (Γ : Context) (level : Nat) : Stmt → Prop where
  | assign {target value span τ σ} : Expr.HasType Γ (.ref target) τ → value.HasType Γ σ →
      τ.Same σ → Stmt.WellTyped Γ level (.assign target value span)
  | ifElse {condition thenBranch elseBranch span} : condition.HasType Γ .boolean →
      (∀ s ∈ thenBranch, Stmt.WellTyped Γ level s) →
      (∀ s ∈ elseBranch, Stmt.WellTyped Γ level s) →
      Stmt.WellTyped Γ level (.ifElse condition thenBranch elseBranch span)
  | whileDo {condition body span} : condition.HasType Γ .boolean →
      (∀ s ∈ body, Stmt.WellTyped Γ level s) →
      Stmt.WellTyped Γ level (.whileDo condition body span)
  | read {target span τ} : Expr.HasType Γ (.ref target) τ →
    Stmt.WellTyped Γ level (.read target span)
  | write {value span τ} : value.HasType Γ τ → ¬ τ.Same .boolean →
    Stmt.WellTyped Γ level (.write value span)
  | call {c formals} : Γ.lookup c.callee.name = some (.proc formals) →
      List.Forall₂ (Expr.Passes Γ) formals c.args →
      Stmt.WellTyped Γ level (.call c)
  | ret {span} : 0 < level → Stmt.WellTyped Γ level (.ret span)

/-! ## Declarations -/

/-- How far the declarations of a scope have come. -/
structure Site where
  context : Context
  /-- The number of the next array or record type expression. -/
  occurrences : Nat
  /-- The first free offset of the frame. -/
  offset : Int

/-- Variables of one type are declared side by side. -/
inductive Site.Declares (τ : Ty) (words : Int) : Site → List Ident → Site → Prop where
  | nil {s} : Site.Declares τ words s [] s
  | cons {Γ n offset name names s'} : Γ.Fresh name.name → Word.Fits (offset + words) →
      Site.Declares τ words ⟨Γ.declare name.name (.var τ), n, offset + words⟩ names s' →
      Site.Declares τ words ⟨Γ, n, offset⟩ (name :: names) s'

/-- Words of the frame that a parameter takes. -/
def ParamMode.words (τ : Ty) : ParamMode → Int
  | .value => τ.size
  | .reference => 1

inductive TypeDecl.WellFormed : Site → TypeDecl → Site → Prop where
  | intro {Γ n n' offset name type span τ} : type.Denotes Γ n τ n' → Γ.Fresh name.name →
      TypeDecl.WellFormed ⟨Γ, n, offset⟩ ⟨name, type, span⟩ ⟨Γ.declare name.name (.type τ),
      n', offset⟩

inductive VarDecl.WellFormed : Site → VarDecl → Site → Prop where
  | intro {Γ n n' offset node names type span τ s'} : type.Denotes Γ n τ n' →
      Site.Declares τ τ.size ⟨Γ, n', offset⟩ names s' →
      VarDecl.WellFormed ⟨Γ, n, offset⟩ ⟨node, names, type, span⟩ s'

/-- Parameters are declared like variables; each is a formal of its procedure. -/
inductive ParamDecl.WellFormed : Site → List ParamDecl → List (ParamMode × Ty) → Site →
    Prop where
  | nil {s} : ParamDecl.WellFormed s [] [] s
  | cons {Γ n n' offset node mode names type span rest τ s' formals s''} :
      type.Denotes Γ n τ n' → Site.Declares τ (mode.words τ) ⟨Γ, n', offset⟩ names s' →
      ParamDecl.WellFormed s' rest formals s'' →
      ParamDecl.WellFormed ⟨Γ, n, offset⟩ (⟨node, mode, names, type, span⟩ :: rest)
        (names.map (fun _ => (mode, τ)) ++ formals) s''

/-- Each item of a list takes its turn. -/
inductive Site.Chain {α : Type} (step : Site → α → Site → Prop) :
    Site → List α → Site → Prop where
  | nil {s} : Site.Chain step s [] s
  | cons {s s' s'' item rest} : step s item s' → Site.Chain step s' rest s'' →
    Site.Chain step s (item :: rest) s''

/-- A type or variable section. -/
inductive Decl.SectionWellFormed : Site → Decl → Site → Prop where
  | types {s s' decls span} : Site.Chain TypeDecl.WellFormed s decls s' →
    Decl.SectionWellFormed s (.types decls span) s'
  | vars {s s' decls span} : Site.Chain VarDecl.WellFormed s decls s' →
    Decl.SectionWellFormed s (.vars decls span) s'

mutual

/-- A procedure whose body has the given level, in a context in which its own name is declared
already. Its sections stand before its nested procedures. The numbers are those of the first
occurrence in it and of the first one behind it. -/
inductive ProcDecl.WellFormed : Nat → Context → Nat → ProcDecl Decl → List (ParamMode × Ty) →
    Nat → Prop where
  | intro {level : Nat}
      {Γ n node name params sections procedures body span formals s₁ s₂ Γ' n'} :
      ParamDecl.WellFormed ⟨Γ.enter, n, Frame.headerSize⟩ params formals s₁ →
      Site.Chain Decl.SectionWellFormed s₁ sections s₂ →
      Word.Fits (s₂.offset + (level + 1 : Nat)) →
      Decl.ProceduresWellFormed level s₂.context s₂.occurrences procedures Γ' n' →
      (∀ s ∈ body, Stmt.WellTyped Γ' level s) →
      ProcDecl.WellFormed level Γ n ⟨node, name, params, sections ++ procedures, body,
      span⟩ formals n'

/-- Procedures declared in a body of the given level, in order. A procedure's name is declared
before the procedure itself is looked at, and stays declared for those behind it. -/
inductive Decl.ProceduresWellFormed : Nat → Context → Nat → List Decl → Context → Nat →
    Prop where
  | nil {level Γ n} : Decl.ProceduresWellFormed level Γ n [] Γ n
  | cons {level Γ n p rest formals n' Γ' n''} : Γ.Fresh p.name.name →
      ProcDecl.WellFormed (level + 1) (Γ.declare p.name.name (.proc formals)) n p formals n' →
      Decl.ProceduresWellFormed level (Γ.declare p.name.name (.proc formals)) n' rest Γ' n'' →
      Decl.ProceduresWellFormed level Γ n (.procedure p :: rest) Γ' n''

end

/-- A well-formed program. The word behind its variables must be one that has a word behind
it. -/
inductive Program.WellFormed : Program → Prop where
  | intro {name sections procedures body span s Γ n} :
      Site.Chain Decl.SectionWellFormed ⟨{}, 0, 0⟩ sections s → s.offset < Word.greatest →
      Decl.ProceduresWellFormed 0 s.context s.occurrences procedures Γ n →
      (∀ s ∈ body, Stmt.WellTyped Γ 0 s) →
      Program.WellFormed ⟨name, sections ++ procedures, body, span⟩

end BlockLang
