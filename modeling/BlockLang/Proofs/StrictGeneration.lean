import BlockLang.Proofs.Generation
import BlockLang.Proofs.TableInvariant

/-!
# Generation never breaks the tables

Generating code means looking up symbols and types under identities that the analysis
stored, and adding up offsets. The strict generator does what the generator does, but it
stops at a look-up of an identity that is not in its table and at a sum that no word
holds. With the tables of an analysis it never comes to that, whatever tree it works on:
strict generation and generation agree. The defects that are left are a missing
annotation, a symbol of the wrong kind and a malformed tree; none of them comes from the
emitter or from the temporaries.

`Program.generate_safe` has both parts.

* The strict generator is the generator in another monad: `Lookups StrictGen` checks what
  it looks up and adds, and every other step is one of `Gen` (`Gen.strictly`). So there is
  no second traversal of the tree that could differ from the first.
* Look-ups: with consistent tables each checked look-up is the plain one
  (`StrictGen.variableOf_eq`, `StrictGen.arrayLayout_eq`, `StrictGen.sum_eq`). The sums
  that occur are constant parts of addresses (`Variable.Laid.fits_constantPart`) and
  offsets within copies and displays, all within storage that is laid out.
* The tree: `Expr.generate_strictly`, `Stmt.generate_strictly`, `Decl.generate_strictly`,
  by mutual recursion as the generator. Two steps in a row agree if each does
  (`Gen.strictly_bind`), and what a look-up has found may be used in the second
  (`Gen.strictly_lookup`).
* Defects: `Defect.OnlyOfTree` follows the code of the parts, with which the generator
  agrees, through the tree.
-/

namespace BlockLang

open Gen

/-! ## The strict generator -/

/-- Why the strict generator stops. -/
inductive Breach where
  /-- The generator stops as well. -/
  | defect (d : Defect)
  /-- A symbol is looked up that is not in its table. -/
  | danglingSymbol (id : SymbolId)
  /-- A type is looked up that is not in its table. -/
  | danglingType (id : TypeId)
  /-- No word holds a sum of offsets. -/
  | inexactSum (sum : Int)
  deriving DecidableEq, Repr

abbrev StrictGen := StateT GenState (Except Breach)

/-- A step of the generator, as a step of the strict one. -/
def Gen.strictly {α : Type} (g : Gen α) : StrictGen α :=
  fun s => (g.run s).mapError Breach.defect

instance : MonadLift Gen StrictGen := ⟨Gen.strictly⟩

namespace StrictGen

/-- Insists that a symbol is in the table. -/
def requireSymbol (a : Analysis) (id : SymbolId) : StrictGen Unit :=
  if a.symbols.Has id then pure () else throw (.danglingSymbol id)

/-- Insists that a type is in the table. -/
def requireType (a : Analysis) (id : TypeId) : StrictGen Unit :=
  if a.types.Has id then pure () else throw (.danglingType id)

/-- Insists that a sum is exact. -/
def requireSum (sum : Int) : StrictGen Unit := if Word.Fits sum then pure ()
    else throw (.inexactSum sum)

/-- The size of a type. -/
def sizeOf (a : Analysis) (type : TypeId) : StrictGen Int := do
  requireType a type
  Lookups.sizeOf (m := Gen) a type

/-- The layout of an array depends on two types: its own and that of its elements. -/
def arrayLayout (a : Analysis) (type : TypeId) (name : Ident) (span : Span) :
    StrictGen (Word × Int) := do
  requireType a type
  match a.types.get? type with
  | some (.array element low ..) => return (low, ← sizeOf a element)
  | _ => Lookups.arrayLayout (m := Gen) a type name span

end StrictGen

/-- The strict generator is the generator with look-ups that insist on the tables. -/
instance : Lookups StrictGen where
  variableOf a id := do
    StrictGen.requireSymbol a id
    Lookups.variableOf (m := Gen) a id
  procedureOf a id := do
    StrictGen.requireSymbol a id
    Lookups.procedureOf (m := Gen) a id
  sizeOf := StrictGen.sizeOf
  arrayLayout := StrictGen.arrayLayout
  field a type name field span := do
    StrictGen.requireType a type
    Lookups.field (m := Gen) a type name field span
  sum n := do
    StrictGen.requireSum n
    return n

/-- Object code for a program, or a look-up or sum that must not happen. -/
def Program.generateStrictly (p : Program) (a : Analysis) (o : Options) :
    Except Breach ObjectCode := do
  let (_, s) ← (p.generateCode a o.checks : StrictGen Unit).run
    { emitter := { trace := o.trace } }
  s.emitter.finish.mapError .defect

/-! ## Steps that both generators take -/

section

variable {α β : Type}

@[simp] theorem StrictGen.liftM_gen (g : Gen α) : (liftM g : StrictGen α) = g.strictly := rfl

@[simp] theorem Gen.liftM_gen (g : Gen α) : (liftM g : Gen α) = g := rfl

@[simp] theorem Gen.strictly_bind (g : Gen α) (f : α → Gen β) :
    (g >>= f).strictly = g.strictly >>= fun x => (f x).strictly := by
  funext s
  show ((g >>= f).run s).mapError Breach.defect =
    (g.strictly >>= fun x => (f x).strictly).run s
  rw [StateT.run_bind, StateT.run_bind]
  show _ = (g.run s).mapError Breach.defect >>= _
  cases g.run s <;> rfl

/-- A step for each item of a list, which both generators take. -/
theorem Gen.strictly_forM {f : α → StrictGen Unit} {g : α → Gen Unit} {xs : List α}
    (h : ∀ x ∈ xs, f x = (g x).strictly) : xs.forM f = (xs.forM g).strictly := by
  induction xs with
  | nil => rfl
  | cons x rest ih =>
    obtain ⟨hx, hrest⟩ := List.forall_mem_cons.mp h
    show (f x >>= fun _ => rest.forM f) = (g x >>= fun _ => rest.forM g).strictly
    rw [strictly_bind, hx, ih hrest]

@[simp] theorem Gen.strictly_pure (x : α) : (pure x : Gen α).strictly = pure x := rfl

/-- What follows a look-up agrees if it agrees for what the look-up gives. -/
theorem Gen.strictly_lookup {e : Except Defect α} {f : α → StrictGen β} {g : α → Gen β}
    (h : ∀ x, e = .ok x → f x = (g x).strictly) :
    ((liftM e : Gen α).strictly >>= f) = ((liftM e : Gen α) >>= g).strictly := by
  cases e with
  | error d => rfl
  | ok x => exact h x rfl

end

/-! ## Look-ups in the tables of an analysis -/

section

variable {a : Analysis}

/-- An annotated symbol is in the table. -/
theorem Analysis.Consistent.has_symbol (ha : a.Consistent) {node : NodeId} {id : SymbolId}
    (h : a.annotations.symbol node = .ok id) : a.symbols.Has id :=
  ha.symbolNotes (Annotations.symbol_ok h)

/-- An annotated type is in the table. -/
theorem Analysis.Consistent.has_type (ha : a.Consistent) {node : NodeId} {type : TypeId}
    (h : a.annotations.type node = .ok type) : a.types.Has type :=
  ha.typeNotes (Annotations.type_ok h)

/-- A field lies within its record. -/
theorem Analysis.field_bounds (ha : a.Consistent) {type : TypeId} {name field : Ident}
    {span : Span} {f : Field} (h : a.field type name field span = .ok f) :
    a.types.Has f.type ∧ 0 ≤ f.offset ∧ f.offset ≤ a.types.size type := by
  obtain ⟨fields, size, hget, hf⟩ := Analysis.field_ok h
  have hsize := ha.size_nonneg f.type
  obtain ⟨hnonneg, hle⟩ := (ha.types hget).field hf
  rw [TypeTable.size_of_get? hget]
  exact ⟨ha.has_field hget hf, hnonneg, by omega⟩

end

namespace StrictGen

variable {a : Analysis}

/-- A variable in the table is looked up without a check that fails. -/
theorem variableOf_eq {id : SymbolId} (h : a.symbols.Has id) :
    (Lookups.variableOf a id : StrictGen Variable) =
    (liftM (a.variableOf id) : Gen _).strictly := by
  simp [Lookups.variableOf, requireSymbol, h]

theorem procedureOf_eq {id : SymbolId} (h : a.symbols.Has id) :
    (Lookups.procedureOf a id : StrictGen Procedure) =
      (liftM (a.procedureOf id) : Gen _).strictly := by
  simp [Lookups.procedureOf, requireSymbol, h]

theorem sizeOf_eq {type : TypeId} (h : a.types.Has type) :
    (Lookups.sizeOf a type : StrictGen Int) = pure (a.types.size type) := by
  simp [Lookups.sizeOf, sizeOf, requireType, h]

theorem field_eq {type : TypeId} (h : a.types.Has type) (name f : Ident) (span : Span) :
    (Lookups.field a type name f span : StrictGen Field) =
      (liftM (a.field type name f span) : Gen _).strictly := by
  simp [Lookups.field, requireType, h]

/-- An array in the table is looked up without a check that fails, and so is the type of its
elements. -/
theorem arrayLayout_eq (ha : a.Consistent) {type : TypeId}
    (h : a.types.Has type) (name : Ident) (span : Span) :
    (Lookups.arrayLayout a type name span : StrictGen (Word × Int)) =
      (liftM (a.arrayLayout type name span) : Gen _).strictly := by
  show arrayLayout a type name span = _
  simp only [arrayLayout, requireType, h, if_true, pure_bind]
  split
  next element low high size hget =>
    have hsize : sizeOf a element = pure (a.types.size element) :=
      sizeOf_eq (ha.has_element hget)
    rw [hsize]
    simp [Analysis.arrayLayout, hget]
    rfl
  · rfl

/-- A sum that is a word is exact. -/
theorem sum_eq {n : Int} (h : Word.Fits n) : (Lookups.sum n : StrictGen Int) = pure n := by
  simp [Lookups.sum, requireSum, h]

end StrictGen

/-- The constant part of an address is exact wherever it points within the variable. -/
theorem Variable.Laid.fits_constantPart {a : Analysis}
    (ha : a.Consistent) {v : Variable} (hv : v.Laid a.types)
    {offset : Int} (hnonneg : 0 ≤ offset) (hsize : offset ≤ a.types.size v.type) :
    Word.Fits (v.constantPart offset) := by
  have hoffset := hv.offset
  have hwords := hv.words
  have hle := ha.size_le v.type
  unfold Variable.constantPart Word.Fits Word.least
  cases haccess : v.access with
  | direct =>
    rw [haccess, Check.slotSize] at hwords
    exact ⟨by simp only; omega, by simp only; omega⟩
  | indirect => exact ⟨by simp only; omega, by simp only; omega⟩

/-! ## Strict generation agrees -/

mutual

/-- Expressions are generated strictly. -/
theorem Expr.generate_strictly {a : Analysis} (ha : a.Consistent) : ∀ e : Expr,
    (e.generate a : StrictGen Unit) = (e.generate a : Gen Unit).strictly
  | .const node value span => by
    rw [Expr.generate, Expr.generate]
    rfl
  | .ref r => by
    rw [Expr.generate, Expr.generate, Reference.generateAddress_strictly ha r]
    simp
  | .binary node op left right span => by
    rw [Expr.generate, Expr.generate, Expr.generate_strictly ha left,
      Expr.generate_strictly ha right]
    simp

/-- Addresses are generated strictly. -/
theorem Reference.generateAddress_strictly {a : Analysis} (ha : a.Consistent) :
    ∀ r : Reference Expr,
      (r.generateAddress a : StrictGen Unit) = (r.generateAddress a : Gen Unit).strictly
  | ⟨node, name, selector, span⟩ => by
    rw [Reference.generateAddress, Reference.generateAddress]
    refine strictly_lookup (e := a.annotations.symbol node) fun symbol hsymbol => ?_
    rw [StrictGen.variableOf_eq (ha.has_symbol hsymbol)]
    refine strictly_lookup (e := a.variableOf symbol) fun v hv => ?_
    rw [Selector.generateRelative_strictly ha (ha.variable_laid (Analysis.variableOf_ok hv))
      name span selector]
    simp

/-- Offsets within a variable are generated strictly. -/
theorem Selector.generateRelative_strictly {a : Analysis} (ha : a.Consistent) {v : Variable}
    (hv : v.Laid a.types) (name : Ident) (span : Span) : ∀ selector : Selector Expr,
      (selector.generateRelative a v name span : StrictGen Unit) =
        (selector.generateRelative a v name span : Gen Unit).strictly
  | .whole => by
    have hsum := hv.fits_constantPart ha (Int.le_refl 0) (ha.size_nonneg v.type)
    rw [Selector.generateRelative, Selector.generateRelative, StrictGen.sum_eq hsum]
    rfl
  | .element index => by
    have hsum := hv.fits_constantPart ha (Int.le_refl 0) (ha.size_nonneg v.type)
    rw [Selector.generateRelative, Selector.generateRelative, StrictGen.sum_eq hsum,
      StrictGen.arrayLayout_eq ha hv.type, Expr.generate_strictly ha index]
    refine strictly_lookup (e := a.arrayLayout v.type name span) fun layout _ => ?_
    simp [Gen.sum_eq]
  | .field field => by
    rw [Selector.generateRelative, Selector.generateRelative, StrictGen.field_eq hv.type]
    refine strictly_lookup (e := a.field v.type name field span) fun f hf => ?_
    obtain ⟨_, hnonneg, hsize⟩ := Analysis.field_bounds ha hf
    rw [StrictGen.sum_eq (hv.fits_constantPart ha hnonneg hsize)]
    rfl
  | .fieldElement field index => by
    rw [Selector.generateRelative, Selector.generateRelative, StrictGen.field_eq hv.type]
    refine strictly_lookup (e := a.field v.type name field span) fun f hf => ?_
    obtain ⟨htype, hnonneg, hsize⟩ := Analysis.field_bounds ha hf
    rw [StrictGen.sum_eq (hv.fits_constantPart ha hnonneg hsize),
      StrictGen.arrayLayout_eq ha htype, Expr.generate_strictly ha index]
    refine strictly_lookup (e := a.arrayLayout f.type name span) fun layout _ => ?_
    simp [Gen.sum_eq]

end

section

variable {a : Analysis}

/-- The words of a copy have exact offsets if the end of the copy has. -/
theorem Gen.copyWords_strictly {count start : Int} (hstart : 0 ≤ start)
    (hend : start + count ≤ Word.greatest) (base : Register) (comment : String) :
    (copyWords count start base comment : StrictGen Unit) =
      (copyWords count start base comment : Gen Unit).strictly := by
  refine strictly_forM fun k hk => ?_
  have hlt := List.mem_range.mp hk
  rw [StrictGen.sum_eq ⟨by unfold Word.least; omega, by omega⟩]
  simp [Gen.sum_eq]

/-- Arguments are passed strictly. -/
theorem Gen.passArgument_strictly (ha : a.Consistent) (arg : Expr) {param : SymbolId}
    (hparam : a.symbols.Has param) : (passArgument a arg param : StrictGen Unit) =
    (passArgument a arg param : Gen Unit).strictly := by
  rw [passArgument, passArgument, StrictGen.variableOf_eq hparam]
  refine strictly_lookup (e := a.variableOf param) fun v hv => ?_
  have hlaid := ha.variable_laid (Analysis.variableOf_ok hv)
  have hwords := hlaid.words
  cases haccess : v.access with
  | indirect =>
    cases arg.asRef? with
    | none => rfl
    | some r => simp [Reference.generateAddress_strictly ha]
  | direct =>
    rw [haccess, Check.slotSize] at hwords
    simp only [StrictGen.sizeOf_eq hlaid.type, Gen.sizeOf_eq, pure_bind]
    split
    · simp [Expr.generate_strictly ha]
    · cases arg.asRef? with
      | none => rfl
      | some r =>
        simp [Reference.generateAddress_strictly ha, copyWords_strictly hlaid.offset hwords]

theorem Gen.passArguments_strictly (ha : a.Consistent) :
    ∀ {args : List Expr} {params : List SymbolId}, (∀ id ∈ params, a.symbols.Has id) →
      (passArguments a args params : StrictGen Unit) =
        (passArguments a args params : Gen Unit).strictly
  | [], _, _ => rfl
  | _ :: _, [], _ => rfl
  | arg :: args, param :: params, hparams => by
    obtain ⟨hparam, hparams⟩ := List.forall_mem_cons.mp hparams
    rw [passArguments, passArguments, passArgument_strictly ha arg hparam,
      passArguments_strictly ha hparams]
    simp

/-- Displays are built strictly. -/
theorem Gen.buildDisplay_strictly {p : Procedure} (hp : p.Laid a.symbols) :
    (buildDisplay p : StrictGen Unit) = (buildDisplay p : Gen Unit).strictly := by
  have hdisplay : 7 ≤ p.displayBase := hp.display
  have hframe := hp.frame
  have hfits {k : Nat} (hk : k ≤ p.level) : Word.Fits (p.displayBase + k) :=
    ⟨by unfold Word.least; omega, by omega⟩
  rw [buildDisplay, buildDisplay, strictly_bind, StrictGen.sum_eq (hfits (Nat.le_refl _))]
  refine congrArg₂ bind (strictly_forM fun k hk => ?_) rfl
  rw [StrictGen.sum_eq (hfits (Nat.le_of_lt (List.mem_range.mp hk)))]
  simp [Gen.sum_eq]

/-- Calls are generated strictly. -/
theorem Call.generate_strictly (ha : a.Consistent) (call : Call) :
    (call.generate a : StrictGen Unit) = (call.generate a : Gen Unit).strictly := by
  rw [Call.generate, Call.generate]
  refine strictly_lookup (e := a.annotations.symbol call.node) fun symbol hsymbol => ?_
  rw [StrictGen.procedureOf_eq (ha.has_symbol hsymbol)]
  refine strictly_lookup (e := a.procedureOf symbol) fun p hp => ?_
  have hlaid := ha.procedure_laid (Analysis.procedureOf_ok hp)
  have hparams : ∀ id ∈ p.params, a.symbols.Has id := by
    intro id hid
    obtain ⟨v, hv, _⟩ := hlaid.params id hid
    exact SymbolTable.has_of_meaning? (SymbolTable.variableAt?_eq_some_iff.mp hv)
  rw [passArguments_strictly ha hparams, buildDisplay_strictly hlaid]
  simp

/-- Assignments are generated strictly. -/
theorem Gen.storeValue_strictly (ha : a.Consistent)
    (target : VarRef) (value : Expr) (span : Span) :
    (storeValue a target value span : StrictGen Unit) =
      (storeValue a target value span : Gen Unit).strictly := by
  rw [storeValue, storeValue]
  refine strictly_lookup (e := a.annotations.type target.node) fun type htype => ?_
  have hend : 0 + a.types.size type ≤ Word.greatest := by
    rw [Int.zero_add]
    exact ha.size_le type
  simp only [StrictGen.sizeOf_eq (ha.has_type htype), Gen.sizeOf_eq, pure_bind,
    Reference.generateAddress_strictly ha, StrictGen.liftM_gen, Gen.liftM_gen, strictly_bind]
  congr
  funext _
  congr
  funext _
  split
  · simp [Expr.generate_strictly ha]
  · cases value.asRef? with
    | none => rfl
    | some r => simp [copyWords_strictly (Int.le_refl 0) hend]

end

mutual

/-- Statements are generated strictly. -/
theorem Stmt.generate_strictly {a : Analysis}
    (ha : a.Consistent) (checks : Checks) : ∀ s : Stmt,
    (s.generate a checks : StrictGen Unit) = (s.generate a checks : Gen Unit).strictly
  | .assign target value span => by
    rw [Stmt.generate, Stmt.generate, storeValue_strictly ha]
    simp
  | .ifElse condition thenBranch elseBranch span => by
    rw [Stmt.generate, Stmt.generate, Expr.generate_strictly ha,
      Stmt.generateAll_strictly ha checks thenBranch,
      Stmt.generateAll_strictly ha checks elseBranch]
    simp
  | .whileDo condition body span => by
    rw [Stmt.generate, Stmt.generate, Expr.generate_strictly ha,
      Stmt.generateAll_strictly ha checks body]
    simp
  | .read target span => by
    rw [Stmt.generate, Stmt.generate, Reference.generateAddress_strictly ha]
    simp
  | .write value span => by
    rw [Stmt.generate, Stmt.generate, Expr.generate_strictly ha]
    simp
  | .call c => by
    rw [Stmt.generate, Stmt.generate, Call.generate_strictly ha]
  | .ret span => by
    rw [Stmt.generate, Stmt.generate]
    rfl

theorem Stmt.generateAll_strictly {a : Analysis} (ha : a.Consistent) (checks : Checks) :
    ∀ ss : List Stmt,
      (Stmt.generateAll a checks ss : StrictGen Unit) =
        (Stmt.generateAll a checks ss : Gen Unit).strictly
  | [] => by
    rw [Stmt.generateAll, Stmt.generateAll]
    rfl
  | s :: rest => by
    rw [Stmt.generateAll, Stmt.generateAll, Stmt.generate_strictly ha checks s,
      Stmt.generateAll_strictly ha checks rest]
    simp

end

mutual

/-- Procedures are generated strictly. -/
theorem Decl.generate_strictly {a : Analysis}
    (ha : a.Consistent) (checks : Checks) : ∀ d : Decl,
    (d.generate a checks : StrictGen Unit) = (d.generate a checks : Gen Unit).strictly
  | .types .. => by
    rw [Decl.generate, Decl.generate]
    rfl
  | .vars .. => by
    rw [Decl.generate, Decl.generate]
    rfl
  | .procedure ⟨node, name, params, decls, body, span⟩ => by
    rw [Decl.generate, Decl.generate]
    refine strictly_lookup (e := a.annotations.symbol node) fun symbol hsymbol => ?_
    rw [StrictGen.procedureOf_eq (ha.has_symbol hsymbol)]
    refine strictly_lookup (e := a.procedureOf symbol) fun _ _ => ?_
    rw [Decl.generateNested_strictly ha checks decls,
      Stmt.generateAll_strictly ha checks body]
    simp

theorem Decl.generateNested_strictly {a : Analysis} (ha : a.Consistent) (checks : Checks) :
    ∀ ds : List Decl,
      (Decl.generateNested a checks ds : StrictGen Unit) =
        (Decl.generateNested a checks ds : Gen Unit).strictly
  | [] => by
    rw [Decl.generateNested, Decl.generateNested]
    rfl
  | d :: rest => by
    rw [Decl.generateNested, Decl.generateNested, Decl.generateNested_strictly ha checks rest]
    cases d.asProcedure? with
    | none => rfl
    | some p => simp [Decl.generate_strictly ha checks d]

end

/-- Programs are generated strictly. -/
theorem Program.generateCode_strictly {a : Analysis} (ha : a.Consistent) (p : Program)
    (checks : Checks) : (p.generateCode a checks : StrictGen Unit) =
    (p.generateCode a checks : Gen Unit).strictly := by
  rw [Program.generateCode, Program.generateCode,
    strictly_forM fun d _ => Decl.generate_strictly ha checks d,
    Stmt.generateAll_strictly ha checks p.body]
  simp

/-- Strict generation gives the same code, or stops with the same defect. -/
theorem Program.generateStrictly_eq {a : Analysis}
    (ha : a.Consistent) (p : Program) (o : Options) :
    p.generateStrictly a o = (p.generate a o).mapError Breach.defect := by
  rw [Program.generateStrictly, Program.generate, Program.generateWith,
    Program.generateCode_strictly ha]
  show ((p.generateCode a o.checks : Gen Unit).run _).mapError Breach.defect >>= _ = _
  cases (p.generateCode a o.checks : Gen Unit).run { emitter := { trace := o.trace } } <;> rfl

/-! ## Defects that a tree can cause -/

/-- The defect lies in the tree: it lacks an annotation, uses a symbol as what it is not, or
is malformed. -/
def Defect.OfTree : Defect → Prop
  | .unannotated .. | .unexpectedSymbol .. | .malformedTree .. => True
  | .patchOutOfRange .. | .unfilledSlot .. | .unbalancedTemporaries .. => False

/-- If there is a defect, it lies in the tree. -/
def Defect.OnlyOfTree {α : Type} (e : Except Defect α) : Prop := ∀ d, e = .error d → d.OfTree

namespace Defect.OnlyOfTree

variable {α β : Type}

theorem pure (x : α) : OnlyOfTree (Pure.pure x) := nofun

theorem error {d : Defect} (h : d.OfTree) : OnlyOfTree (.error d : Except Defect α) := by
  intro d' hd
  cases hd
  exact h

theorem bind {e : Except Defect α} {f : α → Except Defect β}
    (he : OnlyOfTree e) (hf : ∀ x, OnlyOfTree (f x)) :
    OnlyOfTree (e >>= f) := by
  cases e with
  | error d => exact error (he d rfl)
  | ok x => exact hf x

variable {a : Analysis}

theorem symbol (node : NodeId) : OnlyOfTree (a.annotations.symbol node) := by
  unfold Annotations.symbol
  split
  · exact pure _
  · exact error trivial

theorem type (node : NodeId) : OnlyOfTree (a.annotations.type node) := by
  unfold Annotations.type
  split
  · exact pure _
  · exact error trivial

theorem variableOf (id : SymbolId) : OnlyOfTree (a.variableOf id) := by
  unfold Analysis.variableOf
  split
  · exact pure _
  · exact error trivial

theorem procedureOf (id : SymbolId) : OnlyOfTree (a.procedureOf id) := by
  unfold Analysis.procedureOf
  split
  · exact pure _
  · exact error trivial

theorem arrayLayout (type : TypeId) (name : Ident) (span : Span) :
    OnlyOfTree (a.arrayLayout type name span) := by
  unfold Analysis.arrayLayout
  split
  · exact pure _
  · exact error trivial

theorem field (type : TypeId) (name field : Ident) (span : Span) :
    OnlyOfTree (a.field type name field span) := by
  unfold Analysis.field
  split
  · exact pure _
  · exact error trivial

theorem entry (call : Call) (entries : Entries) (id : SymbolId) :
    OnlyOfTree (call.entry entries id) := by
  unfold Call.entry
  split
  · exact pure _
  · exact error trivial

mutual

/-- The code of an expression fails because of the tree only. -/
theorem expr : ∀ (t : Int) (e : Expr), OnlyOfTree (e.code a t)
  | t, .const node value span => by
    rw [Expr.code]
    exact pure _
  | t, .ref r => by
    rw [Expr.code]
    exact (reference t r).bind fun _ => pure _
  | t, .binary node op left right span => by
    rw [Expr.code]
    exact (expr t left).bind fun _ => (expr (t - 1) right).bind fun _ => pure _

theorem reference : ∀ (t : Int) (r : Reference Expr), OnlyOfTree (r.code a t)
  | t, ⟨node, name, selector, span⟩ => by
    rw [Reference.code]
    exact (symbol node).bind fun id => (variableOf id).bind fun v =>
      (selection t v name span selector).bind fun _ => pure _

theorem selection :
    ∀ (t : Int) (v : Variable) (name : Ident) (span : Span) (selector : Selector Expr),
    OnlyOfTree (selector.code a t v name span)
  | t, v, name, span, .whole => by
    rw [Selector.code]
    exact pure _
  | t, v, name, span, .element index => by
    rw [Selector.code]
    exact (arrayLayout v.type name span).bind fun _ => (expr t index).bind fun _ => pure _
  | t, v, name, span, .field f => by
    rw [Selector.code]
    exact (field v.type name f span).bind fun _ => pure _
  | t, v, name, span, .fieldElement f index => by
    rw [Selector.code]
    exact (field v.type name f span).bind fun g =>
        (arrayLayout g.type name span).bind fun _ =>
      (expr t index).bind fun _ => pure _

end

theorem argument (arg : Expr) (param : SymbolId) : OnlyOfTree (arg.argumentCode a param) := by
  refine (variableOf param).bind fun v => ?_
  cases v.access with
  | indirect =>
    cases arg.asRef? with
    | none => exact error trivial
    | some r => exact (reference 0 r).bind fun _ => pure _
  | direct =>
    dsimp only
    split
    · exact (expr 0 arg).bind fun _ => pure _
    · cases arg.asRef? with
      | none => exact error trivial
      | some r => exact (reference 0 r).bind fun _ => pure _

theorem arguments : ∀ (args : List Expr) (params : List SymbolId),
    OnlyOfTree (Expr.argumentsCode a args params)
  | [], _ => pure _
  | _ :: _, [] => pure _
  | arg :: args, param :: params => by
    rw [Expr.argumentsCode]
    exact (argument arg param).bind fun _ => (arguments args params).bind fun _ => pure _

theorem call (entries : Entries) (start : Nat) (c : Call) :
    OnlyOfTree (c.code a entries start) :=
  (symbol c.node).bind fun id => (procedureOf id).bind fun p =>
      (entry c entries id).bind fun _ =>
    (arguments c.args p.params).bind fun _ => pure _

theorem assignment (target : VarRef) (value : Expr) (span : Span) :
    OnlyOfTree (target.assignCode a value span) := by
  refine (type target.node).bind fun τ => (reference 0 target).bind fun _ => ?_
  dsimp only
  split
  · exact (expr 0 value).bind fun _ => pure _
  · cases value.asRef? with
    | none => exact error trivial
    | some r => exact (reference 0 r).bind fun _ => pure _

mutual

/-- The code of a statement fails because of the tree only. -/
theorem stmt : ∀ (entries : Entries) (start : Nat) (s : Stmt),
    OnlyOfTree (s.code a entries start)
  | _, _, .assign target value span => by
    rw [Stmt.code]
    exact assignment target value span
  | entries, start, .ifElse condition thenBranch elseBranch span => by
    rw [Stmt.code]
    exact (expr 0 condition).bind fun _ => (stmts entries _ thenBranch).bind fun _ =>
      (stmts entries _ elseBranch).bind fun _ => pure _
  | entries, start, .whileDo condition body span => by
    rw [Stmt.code]
    exact (expr 0 condition).bind fun _ => (stmts entries _ body).bind fun _ => pure _
  | _, _, .read target span => by
    rw [Stmt.code]
    exact (reference 0 target).bind fun _ => pure _
  | _, _, .write value span => by
    rw [Stmt.code]
    exact (expr 0 value).bind fun _ => pure _
  | entries, start, .call c => by
    rw [Stmt.code]
    exact call entries start c
  | _, _, .ret span => by
    rw [Stmt.code]
    exact pure _

theorem stmts : ∀ (entries : Entries) (start : Nat) (ss : List Stmt),
    OnlyOfTree (Stmt.codeAll a entries start ss)
  | _, _, [] => by
    rw [Stmt.codeAll]
    exact pure _
  | entries, start, s :: rest => by
    rw [Stmt.codeAll]
    exact (stmt entries start s).bind fun _ => (stmts entries _ rest).bind fun _ => pure _

end

mutual

/-- The code of a procedure fails because of the tree only. -/
theorem decl : ∀ (entries : Entries) (start : Nat) (d : Decl),
    OnlyOfTree (d.code a entries start)
  | _, _, .types .. => by
    rw [Decl.code]
    exact pure _
  | _, _, .vars .. => by
    rw [Decl.code]
    exact pure _
  | entries, start, .procedure ⟨node, name, params, decls, body, span⟩ => by
    rw [Decl.code]
    exact (symbol node).bind fun id => (procedureOf id).bind fun _ =>
        (nested _ start decls).bind fun r =>
      (stmts r.2 _ body).bind fun _ => pure _

theorem nested : ∀ (entries : Entries) (start : Nat) (ds : List Decl),
    OnlyOfTree (Decl.nestedCode a entries start ds)
  | _, _, [] => by
    rw [Decl.nestedCode]
    exact pure _
  | entries, start, .types .. :: rest => by
    rw [Decl.nestedCode]
    · exact nested entries start rest
    · intros; contradiction
  | entries, start, .vars .. :: rest => by
    rw [Decl.nestedCode]
    · exact nested entries start rest
    · intros; contradiction
  | entries, start, .procedure p :: rest => by
    rw [Decl.nestedCode]
    exact (decl entries (start + 1) (.procedure p)).bind fun r =>
      (nested r.2 _ rest).bind fun _ => pure _

end

theorem decls : ∀ (entries : Entries) (start : Nat) (ds : List Decl),
    OnlyOfTree (Decl.codeAll a entries start ds)
  | _, _, [] => pure _
  | entries, start, d :: rest => by
    rw [Decl.codeAll]
    exact (decl entries start d).bind fun r => (decls r.2 _ rest).bind fun _ => pure _

/-- The code of a program fails because of the tree only. -/
theorem program (p : Program) (a : Analysis) : OnlyOfTree (p.code a) :=
  (decls [] _ p.decls).bind fun r => (stmts r.2 _ p.body).bind fun _ => pure _

end Defect.OnlyOfTree

/-- Generating code is safe with the tables of an analysis, for the analysed tree and for any
other one. No symbol or type is looked up outside of its table and every sum of offsets is
exact, so strict generation gives the same code or stops with the same defect. Such a defect
lies in the tree. -/
theorem Program.generate_safe {p : Program} {a : Analysis}
    (h : p.analyze = .ok a) (q : Program) (o : Options) :
    q.generateStrictly a o = (q.generate a o).mapError Breach.defect ∧
      ∀ d, q.generate a o = .error d → (∃ node what, d = .unannotated node what) ∨
        (∃ name expected, d = .unexpectedSymbol name expected) ∨
        ∃ reason span, d = .malformedTree reason span := by
  refine ⟨Program.generateStrictly_eq (Program.consistent_of_analyze h) q o, fun d hd => ?_⟩
  have hcode : q.code a = .error d := by
    rw [← Program.instructions_generate q a o, hd]
    rfl
  have htree := Defect.OnlyOfTree.program q a d hcode
  cases d with
  | unannotated node what => exact .inl ⟨node, what, rfl⟩
  | unexpectedSymbol name expected => exact .inr (.inl ⟨name, expected, rfl⟩)
  | malformedTree reason span => exact .inr (.inr ⟨reason, span, rfl⟩)
  | patchOutOfRange | unfilledSlot | unbalancedTemporaries => exact htree.elim

/-- The analysis of one program with the tree of another. -/
theorem Program.doubling_generate_safe : ∃ a, Program.doubling.analyze = .ok a ∧
    Program.nesting.generateStrictly a {} =
    (Program.nesting.generate a {}).mapError Breach.defect ∧
      ∀ d, Program.nesting.generate a {} = .error d →
        (∃ node what, d = .unannotated node what) ∨
        (∃ name expected, d = .unexpectedSymbol name expected) ∨
        ∃ reason span, d = .malformedTree reason span := by
  obtain ⟨a, ha⟩ := Program.doubling_accepted
  exact ⟨a, ha, Program.generate_safe ha Program.nesting {}⟩

end BlockLang
