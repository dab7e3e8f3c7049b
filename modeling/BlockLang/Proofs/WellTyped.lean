import BlockLang.Proofs.Representation

/-!
# Expressions and statements that are accepted

The checks of expressions and statements against their typing rules. Every check is looked
at twice: if it succeeds in a state that represents a context, then the judgement of the
static semantics holds in that context; and if the judgement holds, the check succeeds.
Either way only records about nodes are added to the state.

* `Expr.check_sound`, `Expr.check_succeeds`: an expression is accepted if and only if it
  has a type, and the check gives the identity of this type.
* `Stmt.check_sound`, `Stmt.check_passes`: a statement is accepted if and only if it is
  well typed at its level.
* `Call.check_sound`, `Call.check_passes`: the same for calls, whose arguments are taken
  one by one together with the parameters.

The proofs go by induction over the expression, or over the typing derivation, and by
mutual recursion over statements and lists of statements. In each case the small checks
are replaced by what they do (`resolve_sound`, `elementType_sound`, `fieldType_sound` and
others), and the representation of types does the rest: two identities are equal if and
only if the types are the same.
-/

namespace BlockLang

open Check

variable {s : CheckState} {site : Site} {inner outer : Names}

/-! ## Expressions that are accepted -/

namespace Check

/-- A name that is found has a declaration in the context, and the symbol means it. -/
theorem resolve_sound (h : s.Models site inner outer) (name : Ident) :
    Sound (resolve name) s fun id s' => s' = s ∧
      ∃ d, site.context.lookup name.name = some d ∧ d.Means s.types s.symbols id := by
  rcases h.lookup name.name with ⟨_, hid⟩ | ⟨d, id, hd, hid, hmeans⟩
  · exact .of_refusal (by rw [resolve_run, hid])
  · exact .of_run (by rw [resolve_run, hid]) ⟨rfl, d, hd, hmeans⟩

/-- A symbol that is a variable stands for a variable of the context, with its type. -/
theorem variableType_sound {d : Declared} {id : SymbolId}
    (hd : d.Means s.types s.symbols id) (name : Ident) :
    Sound (variableType id name) s fun type s' => s' = s ∧ ∃ τ, d = .var τ ∧ type = τ.id ∧
    τ.In s.types := by
  cases hv : s.symbols.variableAt? id with
  | none => exact .of_refusal (by rw [variableType_run, hv])
  | some v =>
    refine .of_run (by rw [variableType_run, hv]) ⟨rfl, ?_⟩
    cases d with
    | type τ =>
      have h₁ := SymbolTable.typeAt?_eq_some_iff.mp hd.2
      rw [SymbolTable.variableAt?_eq_some_iff.mp hv] at h₁
      cases h₁
    | var τ =>
      obtain ⟨hτ, v', hv', htype⟩ := hd
      rw [hv] at hv'
      cases hv'
      exact ⟨τ, rfl, htype, hτ⟩
    | proc formals =>
      obtain ⟨p, hp, _⟩ := hd
      have h₁ := SymbolTable.procedureAt?_eq_some_iff.mp hp
      rw [SymbolTable.variableAt?_eq_some_iff.mp hv] at h₁
      cases h₁

/-- An element type belongs to an array type of the semantics. -/
theorem elementType_sound {σ : Ty} (hσ : σ.In s.types) (name : Ident) :
    Sound (elementType σ.id name) s fun type s' => s' = s ∧
      ∃ n low high τ, σ = .array n low high τ ∧ type = τ.id ∧ τ.In s.types := by
  cases σ with
  | integer =>
    exact .of_refusal
      (by rw [elementType_run, show s.types.get? (Ty.id .integer) = _ from hσ])
  | char =>
    exact .of_refusal (by rw [elementType_run, show s.types.get? (Ty.id .char) = _ from hσ])
  | boolean =>
    exact .of_refusal
      (by rw [elementType_run, show s.types.get? (Ty.id .boolean) = _ from hσ])
  | array n low high τ =>
    refine .of_run ?_ ⟨rfl, n, low, high, τ, rfl, rfl, hσ.1⟩
    rw [elementType_run, show s.types.get? (Ty.id (.array n low high τ)) = _ from hσ.2.2]
  | record n φs =>
    obtain ⟨_, fields, hget, _⟩ := hσ
    exact .of_refusal
      (by rw [elementType_run, show s.types.get? (Ty.id (.record n φs)) = _ from hget])

/-- A field type belongs to a record type of the semantics, where the field is found under its
name. -/
theorem fieldType_sound {σ : Ty} (hσ : σ.In s.types) (name field : Ident) :
    Sound (fieldType σ.id name field) s fun type s' => s' = s ∧
      ∃ n φs τ, σ = .record n φs ∧ φs.lookup field.name = some τ ∧ type = τ.id ∧
      τ.In s.types := by
  cases σ with
  | integer =>
    exact .of_refusal (by rw [fieldType_run, show s.types.get? (Ty.id .integer) = _ from hσ])
  | char =>
    exact .of_refusal (by rw [fieldType_run, show s.types.get? (Ty.id .char) = _ from hσ])
  | boolean =>
    exact .of_refusal (by rw [fieldType_run, show s.types.get? (Ty.id .boolean) = _ from hσ])
  | array n low high τ =>
    exact .of_refusal
      (by rw [fieldType_run, show s.types.get? (Ty.id (.array n low high τ)) = _ from hσ.2.2])
  | record n φs =>
    obtain ⟨hφs, fields, hget, hmap⟩ := hσ
    have hrun := fieldType_run (Ty.id (.record n φs)) name field s
    rw [show s.types.get? (Ty.id (.record n φs)) = _ from hget] at hrun
    dsimp only at hrun
    have hfind := find?_fields hmap field.name
    cases hf : fields.find? (·.name == field.name) with
    | none => exact .of_refusal (by rw [hrun, hf])
    | some f =>
      rw [hf] at hfind
      obtain ⟨τ, hτ, htype⟩ := Option.map_eq_some_iff.mp hfind.symm
      exact .of_run (by rw [hrun, hf]) ⟨rfl, n, φs, τ, rfl, hτ, htype.symm, hφs.lookup hτ⟩

theorem requireInteger_sound (σ : Ty) (span : Span) :
    Sound (requireInteger σ.id span) s fun _ s' => s' = s ∧ σ = .integer := by
  by_cases h : σ.id = .integer
  · exact .of_run (by rw [requireInteger_run, if_pos h]) ⟨rfl, Ty.eq_integer_of_id h⟩
  · exact .of_refusal (by rw [requireInteger_run, if_neg h])

/-- Operands that are admitted are of the same scalar type. -/
theorem requireOperands_sound {τ σ : Ty} (hτ : τ.In s.types) (span : Span) :
    Sound (requireOperands τ.id σ.id span) s fun _ s' => s' = s ∧ τ.Same σ ∧ τ.IsScalar := by
  by_cases h : τ.id = σ.id ∧ s.types.isScalar τ.id = true
  · refine .of_run (by rw [requireOperands_run, if_pos h]) ⟨rfl, Ty.id_eq_iff.mp h.1,
      hτ.isScalar_iff.mp h.2⟩
  · exact .of_refusal (by rw [requireOperands_run, if_neg h])

/-- A check yields a type of the table that has the property. -/
def Yields (s : CheckState) (P : Ty → Prop) (type : TypeId) (s' : CheckState) : Prop :=
  s.Notes s' ∧ ∃ τ, type = τ.id ∧ τ.In s.types ∧ P τ

end Check

theorem Ty.in_integer (h : s.Models site inner outer) : Ty.In s.types .integer :=
  h.builtins _ _ rfl

theorem Ty.in_char (h : s.Models site inner outer) : Ty.In s.types .char :=
  h.builtins _ _ rfl

theorem Ty.in_boolean (h : s.Models site inner outer) : Ty.In s.types .boolean :=
  h.builtins _ _ rfl

theorem BinaryOp.id_resultTy (op : BinaryOp) : op.resultTy.id = op.resultType := by
  cases op <;> rfl

/-- The result of an operation is of a built-in type. -/
theorem BinaryOp.in_resultTy (h : s.Models site inner outer) (op : BinaryOp) :
    op.resultTy.In s.types := by
  unfold BinaryOp.resultTy
  split
  · exact Ty.in_boolean h
  · exact Ty.in_integer h

/-- What a reference has around its selector: the variable is found first, and the findings
are recorded last. -/
theorem Reference.check_sound (h : s.Models site inner outer) {r : VarRef} {P : Ty → Prop}
    (hselector : ∀ σ, site.context.lookup r.name.name = some (.var σ) → σ.In s.types →
      Sound (r.selector.check σ.id r.name) s (Yields s P)) :
    Sound r.check s (Yields s P) := by
  obtain ⟨node, name, selector, span⟩ := r
  rw [Reference.check]
  refine .bind (resolve_sound h name) ?_
  rintro id _ ⟨rfl, d, hlookup, hd⟩
  refine .bind (variableType_sound hd name) ?_
  rintro _ _ ⟨rfl, σ, rfl, rfl, hσ⟩
  refine .bind (hselector σ hlookup hσ) ?_
  rintro _ s' ⟨hnotes, τ, rfl, hτ, hP⟩
  exact .of_run rfl ⟨hnotes.trans rfl, τ, rfl, hτ, hP⟩

/-- An index that is accepted is an integer. -/
theorem Check.index_sound {index : Expr} {element : TypeId} {P : Ty → Prop}
    (hindex : Sound index.check s (Yields s (index.HasType site.context)))
    (hP : index.HasType site.context .integer → ∃ τ, element = τ.id ∧ τ.In s.types ∧ P τ) :
    Sound (do requireInteger (← index.check) index.span; return element) s (Yields s P) := by
  refine .bind hindex ?_
  rintro _ s' ⟨hnotes, σ, rfl, _, htype⟩
  refine .bind (requireInteger_sound σ index.span) ?_
  rintro _ _ ⟨rfl, rfl⟩
  exact .pure ⟨hnotes, hP htype⟩

/-- An expression that is accepted has a type, whose identity the check gives. -/
theorem Expr.check_sound (e : Expr) {s : CheckState} (h : s.Models site inner outer) :
    Sound e.check s (Yields s (e.HasType site.context)) := by
  induction e generalizing s with
  | const node value span =>
    exact .of_run rfl ⟨rfl, .integer, rfl, Ty.in_integer h, .const⟩
  | whole node name span =>
    rw [Expr.check]
    refine Reference.check_sound h fun σ hσ hin => ?_
    exact .pure ⟨rfl, σ, rfl, hin, .whole hσ⟩
  | element node name index span ih =>
    rw [Expr.check]
    refine Reference.check_sound h fun σ hσ hin => ?_
    refine .bind (elementType_sound hin name) ?_
    rintro _ _ ⟨rfl, n, low, high, τ, rfl, rfl, hτ⟩
    exact index_sound (ih h) fun hindex => ⟨τ, rfl, hτ, .element hσ hindex⟩
  | field node name field span =>
    rw [Expr.check]
    refine Reference.check_sound h fun σ hσ hin => ?_
    refine (fieldType_sound hin name field).mono ?_ (fun _ h => h)
    rintro _ _ ⟨rfl, n, φs, τ, rfl, hfield, rfl, hτ⟩
    exact ⟨rfl, τ, rfl, hτ, .field hσ hfield⟩
  | fieldElement node name field index span ih =>
    rw [Expr.check]
    refine Reference.check_sound h fun σ hσ hin => ?_
    refine .bind (fieldType_sound hin name field) ?_
    rintro _ _ ⟨rfl, n, φs, ρ, rfl, hfield, rfl, hρ⟩
    refine .bind (elementType_sound hρ field) ?_
    rintro _ _ ⟨rfl, m, low, high, τ, rfl, rfl, hτ⟩
    exact index_sound (ih h) fun hindex => ⟨τ, rfl, hτ, .fieldElement hσ hfield hindex⟩
  | binary node op left right span ihl ihr =>
    rw [Expr.check]
    refine .bind (ihl h) ?_
    rintro _ s₁ ⟨hnotes₁, τ, rfl, hτ, hl⟩
    refine .bind (ihr (h.notes hnotes₁)) ?_
    rintro _ s₂ ⟨hnotes₂, σ, rfl, hσ, hr⟩
    have hnotes := hnotes₁.trans hnotes₂
    refine .bind (requireOperands_sound (hnotes.types ▸ hτ) span) ?_
    rintro _ _ ⟨rfl, hsame, hscalar⟩
    refine .of_run rfl ⟨hnotes.trans rfl, op.resultTy, op.id_resultTy.symm,
      op.in_resultTy h, ?_⟩
    exact .binary hl hr hsame hscalar

/-! ## Expressions that are well typed -/

/-- The check ends with the given type. -/
def Check.Gives (s : CheckState) (τ : Ty) (type : TypeId) (s' : CheckState) : Prop :=
  type = τ.id ∧ s.Notes s'

/-- The element type of an array is found. -/
theorem Check.elementType_array {n : Nat} {low high : Word}
    {τ : Ty} (h : (Ty.array n low high τ).In s.types)
    (name : Ident) : (elementType (Ty.array n low high τ).id name).run s = .ok (τ.id, s) := by
  rw [elementType_run, show s.types.get? (Ty.id (.array n low high τ)) = _ from h.2.2]

/-- The type of a field is found. -/
theorem Check.fieldType_record {n : Nat} {φs : List (String × Ty)}
    {τ : Ty} (h : (Ty.record n φs).In s.types)
    (name : Ident) {field : Ident} (hfield : φs.lookup field.name = some τ) :
    (fieldType (Ty.record n φs).id name field).run s = .ok (τ.id, s) := by
  obtain ⟨_, fields, hget, hmap⟩ := h
  rw [fieldType_run, show s.types.get? (Ty.id (.record n φs)) = _ from hget]
  have hfind := find?_fields hmap field.name
  rw [hfield] at hfind
  obtain ⟨f, hf, htype⟩ := Option.map_eq_some_iff.mp hfind
  dsimp only
  rw [hf, ← htype]

/-- A reference to a variable of the context succeeds if its selector does. -/
theorem Reference.check_succeeds (h : s.Models site inner outer) {r : VarRef} {σ τ : Ty}
    (hσ : site.context.lookup r.name.name = some (.var σ)) (hselector : σ.In s.types →
      τ.In s.types ∧ Succeeds (r.selector.check σ.id r.name) s (Gives s τ)) :
    τ.In s.types ∧ Succeeds r.check s (Gives s τ) := by
  obtain ⟨node, name, selector, span⟩ := r
  obtain ⟨id, hid, hin, v, hv, htype⟩ := h.lookup_of_some hσ
  obtain ⟨hτ, hsucceeds⟩ := hselector hin
  refine ⟨hτ, ?_⟩
  rw [Reference.check]
  have htypeRun : (variableType id name).run s = .ok (σ.id, s) := by
    rw [variableType_run, hv, ← htype]
  refine .step (by rw [resolve_run, hid]) (.step htypeRun ?_)
  refine .bind hsucceeds ?_
  rintro _ s' ⟨rfl, hnotes⟩
  exact ⟨_, _, rfl, rfl, hnotes.trans rfl⟩

/-- An index of type integer is admitted. -/
theorem Check.index_succeeds {index : Expr} {τ : Ty}
    (hindex : Succeeds index.check s (Gives s .integer)) :
    Succeeds (do requireInteger (← index.check) index.span; return τ.id) s (Gives s τ) := by
  refine .bind hindex ?_
  rintro _ s' ⟨rfl, hnotes⟩
  exact .step ((requireInteger_run _ _ _).trans (if_pos rfl)) (.pure ⟨rfl, hnotes⟩)

/-- An expression with a type is accepted, and its type is in the table. -/
theorem Expr.check_succeeds {e : Expr} {τ : Ty}
    (he : e.HasType site.context τ) {s : CheckState}
    (h : s.Models site inner outer) : τ.In s.types ∧ Succeeds e.check s (Gives s τ) := by
  induction he generalizing s with
  | const => exact ⟨Ty.in_integer h, _, _, rfl, rfl, rfl⟩
  | whole hσ =>
    rw [Expr.check]
    exact Reference.check_succeeds h hσ fun hin => ⟨hin, .pure ⟨rfl, rfl⟩⟩
  | @element node name index span n low high τ hσ _ ih =>
    rw [Expr.check]
    refine Reference.check_succeeds h hσ fun hin => ⟨hin.1, ?_⟩
    exact .step (elementType_array hin name) (index_succeeds (ih h).2)
  | @field node name field span n φs τ hσ hfield =>
    rw [Expr.check]
    refine Reference.check_succeeds h hσ fun hin => ⟨hin.1.lookup hfield, ?_⟩
    exact ⟨τ.id, s, fieldType_record hin name hfield, rfl, rfl⟩
  | @fieldElement node name field index span n φs m low high τ hσ hfield _ ih =>
    rw [Expr.check]
    refine Reference.check_succeeds h hσ fun hin => ?_
    have harray := hin.1.lookup hfield
    refine ⟨harray.1, .step (fieldType_record hin name hfield) ?_⟩
    exact .step (elementType_array harray field) (index_succeeds (ih h).2)
  | @binary node op left right span τ σ _ _ hsame hscalar ihl ihr =>
    refine ⟨op.in_resultTy h, ?_⟩
    rw [Expr.check]
    obtain ⟨hτ, hl⟩ := ihl h
    refine .bind hl ?_
    rintro _ s₁ ⟨rfl, hnotes₁⟩
    refine .bind (ihr (h.notes hnotes₁)).2 ?_
    rintro _ s₂ ⟨rfl, hnotes₂⟩
    have hnotes := hnotes₁.trans hnotes₂
    have hoperands : τ.id = σ.id ∧ s₂.types.isScalar τ.id = true :=
      ⟨Ty.id_eq_iff.mpr hsame, hnotes.types ▸ hτ.isScalar_iff.mpr hscalar⟩
    refine .step (by rw [requireOperands_run, if_pos hoperands]) ?_
    exact ⟨_, _, rfl, op.id_resultTy.symm, hnotes.trans rfl⟩

/-! ## Statements that are accepted -/

/-- Parameters passed by reference are the indirect ones. -/
theorem ParamMode.access_eq_indirect {mode : ParamMode} :
    mode.access = .indirect ↔ mode = .reference := by
  cases mode <;> simp [ParamMode.access]

/-- A comparison of two types, which refuses if they differ. -/
theorem Check.compare_sound (τ σ : Ty) (span : Span) (problem : Problem) :
    Sound (if τ.id = σ.id then pure () else refuse span problem : Check Unit) s
      fun _ s' => s' = s ∧ τ.Same σ := by
  by_cases h : τ.id = σ.id
  · rw [if_pos h]
    exact .pure ⟨rfl, Ty.id_eq_iff.mp h⟩
  · rw [if_neg h]
    exact .of_refusal rfl

/-- An argument that is accepted can be passed to its parameter. -/
theorem Check.checkArgument_sound (h : s.Models site inner outer)
    {formal : ParamMode × Ty} {param : SymbolId}
    (hformal : FormalMeans s.types s.symbols formal param) (procedure : String) (arg : Expr) :
    Sound (checkArgument procedure param arg) s fun _ s' => s.Notes s' ∧
    arg.Passes site.context formal := by
  obtain ⟨_, v, hv, htype, haccess⟩ := hformal
  have hrun := checkArgument_run procedure arg hv
  by_cases hmode : v.access = .indirect ∧ arg.asRef?.isNone = true
  · rw [if_pos hmode] at hrun
    exact .of_refusal hrun
  · rw [if_neg hmode, htype] at hrun
    unfold Sound
    rw [hrun]
    refine Sound.bind (arg.check_sound h) ?_
    rintro _ s' ⟨hnotes, τ, rfl, _, hτ⟩
    refine (compare_sound τ formal.2 _ _).mono ?_ (fun _ h => h)
    rintro _ _ ⟨rfl, hsame⟩
    refine ⟨hnotes, fun hreference => ?_, τ, hτ, hsame⟩
    rw [haccess, ParamMode.access_eq_indirect, Option.isNone_iff_eq_none] at hmode
    exact Option.isSome_iff_ne_none.mpr fun hnone => hmode ⟨hreference, hnone⟩

/-- Arguments that are accepted are as many as the parameters, and each can be passed to its
own. -/
theorem Check.checkArguments_sound {site : Site} (call : Call) (expected : Nat) :
    ∀ {formals : List (ParamMode × Ty)} {params : List SymbolId} (args : List Expr)
    {s : CheckState},
      s.Models site inner outer →
      List.Forall₂ (FormalMeans s.types s.symbols) formals params →
      Sound (checkArguments call expected params args) s
        fun _ s' => s.Notes s' ∧ List.Forall₂ (Expr.Passes site.context) formals args
  | [], [], [], _, _, .nil => .pure ⟨rfl, .nil⟩
  | [], [], _ :: _, _, _, .nil => .of_refusal rfl
  | _ :: _, _ :: _, [], _, _, .cons _ _ => .of_refusal rfl
  | _ :: _, _ :: _, arg :: args, s, h, .cons hformal hformals => by
    rw [checkArguments]
    refine .bind (checkArgument_sound h hformal _ arg) ?_
    rintro _ s' ⟨hnotes, hpasses⟩
    have hformals' := hformals
    rw [← hnotes.types, ← hnotes.symbols] at hformals'
    refine (checkArguments_sound call expected args (h.notes hnotes) hformals').mono ?_
      (fun _ h => h)
    rintro _ s'' ⟨hnotes', hrest⟩
    exact ⟨hnotes.trans hnotes', .cons hpasses hrest⟩

/-- A symbol that is a procedure stands for a procedure of the context, and its parameters for
the formal ones. -/
theorem Check.procedureParams_sound {d : Declared} {id : SymbolId}
    (hd : d.Means s.types s.symbols id) (name : Ident) :
    Sound (procedureParams id name) s fun params s' => s' = s ∧
      ∃ formals, d = .proc formals ∧
      List.Forall₂ (FormalMeans s.types s.symbols) formals params := by
  cases hp : s.symbols.procedureAt? id with
  | none => exact .of_refusal (by rw [procedureParams_run, hp])
  | some p =>
    refine .of_run (by rw [procedureParams_run, hp]) ⟨rfl, ?_⟩
    have hproc := SymbolTable.procedureAt?_eq_some_iff.mp hp
    cases d with
    | type τ =>
      rw [SymbolTable.typeAt?_eq_some_iff.mp hd.2] at hproc
      cases hproc
    | var τ =>
      obtain ⟨_, v, hv, _⟩ := hd
      rw [SymbolTable.variableAt?_eq_some_iff.mp hv] at hproc
      cases hproc
    | proc formals =>
      obtain ⟨p', hp', hformals⟩ := hd
      rw [hp] at hp'
      cases hp'
      exact ⟨formals, rfl, hformals⟩

/-- A call that is accepted is well typed, at whatever level it stands. -/
theorem Call.check_sound (h : s.Models site inner outer) (call : Call) {level : Nat} :
    Sound call.check s fun _ s' => s.Notes s' ∧
    (Stmt.call call).WellTyped site.context level := by
  unfold Call.check
  refine .bind (resolve_sound h call.callee) ?_
  rintro id _ ⟨rfl, d, hlookup, hd⟩
  refine .bind (procedureParams_sound hd call.callee) ?_
  rintro params _ ⟨rfl, formals, rfl, hformals⟩
  refine .step rfl ?_
  refine .mono (checkArguments_sound call _ call.args (h.notes rfl) hformals) ?_
    (fun _ h => h)
  rintro _ s' ⟨hnotes, hargs⟩
  exact ⟨(CheckState.Notes.annotate ..).trans hnotes, .call hlookup hargs⟩

/-- A condition that is accepted is boolean. -/
theorem Check.checkCondition_sound (h : s.Models site inner outer)
    (keyword : String) (condition : Expr) :
    Sound (checkCondition keyword condition) s fun _ s' => s.Notes s' ∧
    condition.HasType site.context .boolean := by
  unfold checkCondition
  refine .bind (condition.check_sound h) ?_
  rintro _ s' ⟨hnotes, τ, rfl, _, hτ⟩
  by_cases hboolean : τ.id = .boolean
  · rw [if_pos hboolean]
    obtain rfl := Ty.eq_boolean_of_id hboolean
    exact .pure ⟨hnotes, hτ⟩
  · rw [if_neg hboolean]
    exact .of_refusal rfl

mutual

/-- A statement that is accepted is well typed. -/
theorem Stmt.check_sound {level : Nat} :
    ∀ (stmt : Stmt) {s : CheckState}, s.Models site inner outer →
    s.scopes.level = level → Sound stmt.check s fun _ s' => s.Notes s' ∧
    stmt.WellTyped site.context level
  | .assign target value span, s, h, _ => by
    -- Checks only take notes, so each part is checked in a state that models the same site.
    rw [Stmt.check]
    refine .bind ((Expr.ref target).check_sound h) ?_
    rintro _ s₁ ⟨hnotes₁, τ, rfl, _, hτ⟩
    refine .bind (value.check_sound (h.notes hnotes₁)) ?_
    rintro _ s₂ ⟨hnotes₂, σ, rfl, _, hσ⟩
    refine (compare_sound τ σ _ _).mono ?_ (fun _ h => h)
    rintro _ _ ⟨rfl, hsame⟩
    exact ⟨hnotes₁.trans hnotes₂, .assign hτ hσ hsame⟩
  | .ifElse condition thenBranch elseBranch span, s, h, hlevel => by
    rw [Stmt.check]
    refine .bind (checkCondition_sound h "if" condition) ?_
    rintro _ s₁ ⟨hnotes₁, hcondition⟩
    have h₁ := h.notes hnotes₁
    refine .bind (Stmt.checkAll_sound thenBranch h₁ (hnotes₁.scopes ▸ hlevel)) ?_
    rintro _ s₂ ⟨hnotes₂, hthen⟩
    have hnotes := hnotes₁.trans hnotes₂
    refine (Stmt.checkAll_sound elseBranch (h.notes hnotes) (hnotes.scopes ▸ hlevel)).mono ?_
      (fun _ h => h)
    rintro _ s₃ ⟨hnotes₃, helse⟩
    exact ⟨hnotes.trans hnotes₃, .ifElse hcondition hthen helse⟩
  | .whileDo condition body span, s, h, hlevel => by
    rw [Stmt.check]
    refine .bind (checkCondition_sound h "while" condition) ?_
    rintro _ s₁ ⟨hnotes₁, hcondition⟩
    refine (Stmt.checkAll_sound body (h.notes hnotes₁) (hnotes₁.scopes ▸ hlevel)).mono ?_
      (fun _ h => h)
    rintro _ s₂ ⟨hnotes₂, hbody⟩
    exact ⟨hnotes₁.trans hnotes₂, .whileDo hcondition hbody⟩
  | .read target span, s, h, _ => by
    rw [Stmt.check]
    refine .bind ((Expr.ref target).check_sound h) ?_
    rintro _ s₁ ⟨hnotes, τ, rfl, _, hτ⟩
    exact .pure ⟨hnotes, .read hτ⟩
  | .write value span, s, h, _ => by
    rw [Stmt.check]
    refine .bind (value.check_sound h) ?_
    rintro _ s₁ ⟨hnotes, τ, rfl, _, hτ⟩
    by_cases hboolean : τ.id = .boolean
    · rw [if_pos hboolean]
      exact .of_refusal rfl
    · rw [if_neg hboolean]
      exact .pure ⟨hnotes, .write hτ fun hsame => hboolean (Ty.id_eq_iff.mpr hsame)⟩
  | .call c, s, h, _ => by
    rw [Stmt.check]
    exact c.check_sound h
  | .ret span, s, h, hlevel => by
    rw [Stmt.check]
    refine .step rfl ?_
    rw [hlevel]
    -- Outside of procedures there is nothing to return from.
    by_cases hzero : level = 0
    · rw [if_pos hzero]
      exact .of_refusal rfl
    · rw [if_neg hzero]
      exact .pure ⟨rfl, .ret (Nat.pos_of_ne_zero hzero)⟩

/-- Statements that are accepted are well typed, all in one context: statements declare
nothing. -/
theorem Stmt.checkAll_sound {level : Nat} :
    ∀ (stmts : List Stmt) {s : CheckState}, s.Models site inner outer →
    s.scopes.level = level → Sound (Stmt.checkAll stmts) s fun _ s' => s.Notes s' ∧
    ∀ stmt ∈ stmts, stmt.WellTyped site.context level
  | [], s, _, _ => by
    rw [Stmt.checkAll]
    exact .pure ⟨rfl, by simp⟩
  | stmt :: rest, s, h, hlevel => by
    rw [Stmt.checkAll]
    refine .bind (Stmt.check_sound stmt h hlevel) ?_
    rintro _ s₁ ⟨hnotes₁, hstmt⟩
    refine (Stmt.checkAll_sound rest (h.notes hnotes₁) (hnotes₁.scopes ▸ hlevel)).mono ?_
      (fun _ h => h)
    rintro _ s₂ ⟨hnotes₂, hrest⟩
    exact ⟨hnotes₁.trans hnotes₂, List.forall_mem_cons.mpr ⟨hstmt, hrest⟩⟩

end

/-! ## Statements that are well typed -/

/-- The check succeeds and leaves the tables and scopes as they are. -/
abbrev Check.Passes (f : Check Unit) (s : CheckState) : Prop :=
  Succeeds f s fun _ s' => s.Notes s'

/-- One check after another. -/
theorem Check.Passes.andThen {f g : Check Unit}
    (hf : f.Passes s) (hg : ∀ s', s.Notes s' → g.Passes s') :
    (do f; g : Check Unit).Passes s :=
  .bind hf fun _ s' hnotes => (hg s' hnotes).mono fun _ _ hnotes' => hnotes.trans hnotes'

/-- An argument that can be passed to its parameter is accepted. -/
theorem Check.checkArgument_passes (h : s.Models site inner outer)
    {formal : ParamMode × Ty} {param : SymbolId}
    (hformal : FormalMeans s.types s.symbols formal param) (procedure : String) {arg : Expr}
    (harg : arg.Passes site.context formal) :
    (checkArgument procedure param arg).Passes s := by
  obtain ⟨_, v, hv, htype, haccess⟩ := hformal
  obtain ⟨hreference, τ, hτ, hsame⟩ := harg
  have hmode : ¬ (v.access = .indirect ∧ arg.asRef?.isNone = true) := by
    rw [haccess, ParamMode.access_eq_indirect, Option.isNone_iff_eq_none]
    exact fun ⟨hmode, hnone⟩ => Option.isSome_iff_ne_none.mp (hreference hmode) hnone
  unfold Passes Succeeds
  rw [checkArgument_run procedure arg hv, if_neg hmode, htype]
  refine Succeeds.bind (Expr.check_succeeds hτ h).2 ?_
  rintro _ s' ⟨rfl, hnotes⟩
  rw [if_pos (Ty.id_eq_iff.mpr hsame)]
  exact .pure hnotes

/-- Arguments that can be passed to their parameters are accepted. -/
theorem Check.checkArguments_passes {site : Site} (call : Call) (expected : Nat) :
    ∀ {formals : List (ParamMode × Ty)} {params : List SymbolId} {args : List Expr}
    {s : CheckState},
      s.Models site inner outer →
      List.Forall₂ (FormalMeans s.types s.symbols) formals params →
      List.Forall₂ (Expr.Passes site.context) formals args →
      (checkArguments call expected params args).Passes s
  | [], [], [], _, _, .nil, .nil => .pure rfl
  | _ :: _, _ :: _, _ :: _, s, h, .cons hformal hformals, .cons harg hargs => by
    rw [checkArguments]
    refine .andThen (checkArgument_passes h hformal _ harg) fun s' hnotes => ?_
    rw [← hnotes.types, ← hnotes.symbols] at hformals
    exact checkArguments_passes call expected (h.notes hnotes) hformals hargs

theorem Call.check_passes (h : s.Models site inner outer)
    {call : Call} {formals : List (ParamMode × Ty)}
    (hlookup : site.context.lookup call.callee.name = some (.proc formals))
    (hargs : List.Forall₂ (Expr.Passes site.context) formals call.args) :
    call.check.Passes s := by
  obtain ⟨id, hid, p, hp, hformals⟩ := h.lookup_of_some hlookup
  unfold Call.check
  refine .step (by rw [resolve_run, hid]) (.step (by rw [procedureParams_run, hp]) ?_)
  exact Passes.andThen ⟨(), _, rfl, .annotate ..⟩ fun s' hnotes =>
    checkArguments_passes call _ (h.notes hnotes)
      (by rwa [hnotes.types, hnotes.symbols]) hargs

theorem Check.checkCondition_passes (h : s.Models site inner outer) (keyword : String)
    {condition : Expr} (hcondition : condition.HasType site.context .boolean) :
    (checkCondition keyword condition).Passes s := by
  unfold checkCondition
  refine .bind (Expr.check_succeeds hcondition h).2 ?_
  rintro _ s' ⟨rfl, hnotes⟩
  rw [if_pos (show Ty.id .boolean = .boolean from rfl)]
  exact .pure hnotes

mutual

/-- A statement that is well typed is accepted. -/
theorem Stmt.check_passes {level : Nat} : ∀ {stmt : Stmt}, stmt.WellTyped site.context level →
    ∀ {s : CheckState}, s.Models site inner outer → s.scopes.level = level →
    stmt.check.Passes s
  | .assign target value span, .assign hτ hσ hsame, s, h, _ => by
    rw [Stmt.check]
    refine .bind (Expr.check_succeeds hτ h).2 ?_
    rintro _ s₁ ⟨rfl, hnotes₁⟩
    refine .bind (Expr.check_succeeds hσ (h.notes hnotes₁)).2 ?_
    rintro _ s₂ ⟨rfl, hnotes₂⟩
    rw [if_pos (Ty.id_eq_iff.mpr hsame)]
    exact .pure (hnotes₁.trans hnotes₂)
  | .ifElse condition thenBranch elseBranch span, .ifElse hcondition hthen helse, s, h,
      hlevel => by
    rw [Stmt.check]
    refine .andThen (checkCondition_passes h "if" hcondition) fun s₁ hnotes₁ => ?_
    refine .andThen (Stmt.checkAll_passes hthen (h.notes hnotes₁) (hnotes₁.scopes ▸ hlevel))
      fun s₂ hnotes₂ => ?_
    have hnotes := hnotes₁.trans hnotes₂
    exact Stmt.checkAll_passes helse (h.notes hnotes) (hnotes.scopes ▸ hlevel)
  | .whileDo condition body span, .whileDo hcondition hbody, s, h, hlevel => by
    rw [Stmt.check]
    refine .andThen (checkCondition_passes h "while" hcondition) fun s₁ hnotes₁ => ?_
    exact Stmt.checkAll_passes hbody (h.notes hnotes₁) (hnotes₁.scopes ▸ hlevel)
  | .read target span, .read hτ, s, h, _ => by
    rw [Stmt.check]
    refine .bind (Expr.check_succeeds hτ h).2 ?_
    rintro _ s₁ ⟨_, hnotes⟩
    exact .pure hnotes
  | .write value span, .write hτ hboolean, s, h, _ => by
    rw [Stmt.check]
    refine .bind (Expr.check_succeeds hτ h).2 ?_
    rintro _ s₁ ⟨rfl, hnotes⟩
    have hne : Ty.id _ ≠ Ty.id .boolean := fun heq => hboolean (Ty.id_eq_iff.mp heq)
    rw [if_neg (show ¬ Ty.id _ = TypeId.boolean from hne)]
    exact .pure hnotes
  | .call c, .call hlookup hargs, s, h, _ => by
    rw [Stmt.check]
    exact Call.check_passes h hlookup hargs
  | .ret span, .ret hpos, s, h, hlevel => by
    rw [Stmt.check]
    refine .step rfl ?_
    rw [if_neg (by omega)]
    exact .pure rfl

/-- Statements that are well typed are accepted. -/
theorem Stmt.checkAll_passes {level : Nat} : ∀ {stmts : List Stmt},
    (∀ stmt ∈ stmts, stmt.WellTyped site.context level) →
    ∀ {s : CheckState}, s.Models site inner outer → s.scopes.level = level →
    (Stmt.checkAll stmts).Passes s
  | [], _, s, _, _ => by
    rw [Stmt.checkAll]
    exact .pure rfl
  | stmt :: rest, hall, s, h, hlevel => by
    rw [Stmt.checkAll]
    obtain ⟨hstmt, hrest⟩ := List.forall_mem_cons.mp hall
    refine .andThen (Stmt.check_passes hstmt h hlevel) fun s₁ hnotes₁ => ?_
    exact Stmt.checkAll_passes hrest (h.notes hnotes₁) (hnotes₁.scopes ▸ hlevel)

end

end BlockLang
