import BlockLang.Proofs.Declarations

/-!
# Acceptance

The analysis accepts exactly the well-formed programs. As for declarations, every check is
looked at twice: what its success means, and when it succeeds. The first half says as well
which defects the analysis may run into: none but a section that stands behind a
procedure.

* `Program.analyze_ok_iff_wellFormed`: there is an analysis if and only if the program is
  well-formed.
* `Program.check_sound`: the check of a program ends with a well-formed program, with a
  diagnostic, or with the defect of a misplaced section. In particular the updates of a
  procedure never meet another symbol: `CheckState.Inside` keeps in mind that the
  procedure is one, from its header to the end of its body
  (`CheckState.Inside.procedure`).

The difficulty is the header of a procedure. While the parameters are checked, the
procedure is declared without parameters. In the rules the procedure is in the context
only when they are known. A type expression cannot tell the two contexts apart, since it
looks for types only (`Declared.TypesOf`, `TypeExpr.Denotes.withAround`), and so neither
can the parameters (`ParamDecl.WellFormed.withAround`). When the header is finished, the
entry of the procedure is changed to what it means (`CheckState.Inside.opened`), and
nothing declared before refers to it.

The rest is recursion over the tree: a procedure is a header, sections, a frame,
procedures and a body, and each part leaves a state for the next.
-/

namespace BlockLang

open Check

variable {s : CheckState} {site : Site} {inner outer : Names}

/-! ## The header of a procedure

While the parameters of a procedure are checked, its symbol has none yet. So the parameters
are first checked in a context in which the procedure takes no parameters. That is as good as
the context with the right ones, because a type expression asks the context for types only. -/

/-- The site with other scopes around the innermost one. -/
def Site.withAround (site : Site) (around : List (String × Declared)) : Site :=
  { site with context := { site.context with around } }

/-- The first list of declarations has no types that the second one lacks. -/
def Declared.TypesOf (around around' : List (String × Declared)) : Prop :=
  ∀ name τ, around.lookup name = some (.type τ) → around'.lookup name = some (.type τ)

/-- What a procedure takes does not matter to those who look for types. -/
theorem Declared.typesOf_proc (name : String) (formals formals' : List (ParamMode × Ty))
    (rest : List (String × Declared)) :
    Declared.TypesOf ((name, .proc formals) :: rest) ((name, .proc formals') :: rest) := by
  intro name' τ h
  rw [List.lookup_cons] at h ⊢
  cases hname : name' == name with
  | true =>
    rw [hname] at h
    cases h
  | false => rwa [hname] at h

/-- A type is found around the innermost scope under either of the two lists. -/
theorem Declared.TypesOf.lookup {around' : List (String × Declared)} {Γ : Context}
    (h : Declared.TypesOf Γ.around around') {name : String}
    {τ : Ty} (hτ : Γ.lookup name = some (.type τ)) :
    Context.lookup { Γ with around := around' } name = some (.type τ) := by
  unfold Context.lookup at hτ ⊢
  rw [List.lookup_append] at hτ ⊢
  cases hscope : Γ.scope.lookup name with
  | none =>
    rw [hscope] at hτ
    exact h name τ hτ
  | some d => rwa [hscope] at hτ

mutual

/-- A type expression denotes the same type where the same types are around. -/
theorem TypeExpr.Denotes.withAround {around' : List (String × Declared)} {Γ : Context}
    (hΓ : Declared.TypesOf Γ.around around') :
    ∀ {te : TypeExpr} {n n' : Nat} {τ : Ty}, te.Denotes Γ n τ n' →
    te.Denotes { Γ with around := around' } n τ n'
  | _, _, _, _, .integer => .integer
  | _, _, _, _, .char => .char
  | _, _, _, _, .named hlookup => .named (hΓ.lookup hlookup)
  | _, _, _, _, .array hbounds h hcount hsize => .array hbounds (h.withAround hΓ) hcount hsize
  | _, _, _, _, .record h hsize => .record (h.withAround hΓ) hsize

theorem TypeExpr.DenotesFields.withAround {around' : List (String × Declared)} {Γ : Context}
    (hΓ : Declared.TypesOf Γ.around around') :
    ∀ {groups : List (FieldGroup TypeExpr)} {n n' : Nat} {φs : List (String × Ty)},
    TypeExpr.DenotesFields Γ n groups φs n' →
    TypeExpr.DenotesFields { Γ with around := around' } n groups φs n'
  | _, _, _, _, .nil => .nil
  | _, _, _, _, .cons h hrest => .cons (h.withAround hΓ) (hrest.withAround hΓ)

end

/-- Names are declared in the innermost scope, whatever is around it. -/
theorem Site.Declares.withAround {τ : Ty} {words : Int} {names : List Ident} {site' : Site}
    (h : site.Declares τ words names site') (around' : List (String × Declared)) :
    (site.withAround around').Declares τ words names (site'.withAround around') := by
  induction h with
  | nil => exact .nil
  | cons hfresh hfits _ ih => exact .cons hfresh hfits ih

theorem ParamDecl.WellFormed.around {params : List ParamDecl}
    {formals : List (ParamMode × Ty)} {site' : Site}
    (h : ParamDecl.WellFormed site params formals site') :
    site'.context.around = site.context.around := by
  induction h with
  | nil => rfl
  | cons _ hdeclares _ ih => exact ih.trans hdeclares.around

/-- Parameters are well-formed where the same types are around. -/
theorem ParamDecl.WellFormed.withAround {params : List ParamDecl}
    {formals : List (ParamMode × Ty)} {site' : Site}
    (h : ParamDecl.WellFormed site params formals site') {around' : List (String × Declared)}
    (hsite : Declared.TypesOf site.context.around around') :
    ParamDecl.WellFormed (site.withAround around') params formals
    (site'.withAround around') := by
  induction h with
  | nil => exact .nil
  | cons hdenotes hdeclares _ ih =>
    exact .cons (hdenotes.withAround hsite) (hdeclares.withAround around')
      (ih (hdeclares.around ▸ hsite))

/-- A change to one procedure leaves the other symbols with their meaning. -/
theorem Declared.Means.mapProcedure {t : TypeTable} {σ : SymbolTable}
    {d : Declared} {id id' : SymbolId} (h : d.Means t σ id')
    (f : Procedure → Procedure) (hf : id' = id → ∀ p, (f p).params = p.params) :
    d.Means t (σ.mapProcedure id f) id' := by
  cases d with
  | type τ => exact ⟨h.1, by rw [SymbolTable.typeAt?_mapProcedure, h.2]⟩
  | var τ =>
    obtain ⟨hτ, v, hv, htype⟩ := h
    exact ⟨hτ, v, by rw [SymbolTable.variableAt?_mapProcedure, hv], htype⟩
  | proc formals =>
    obtain ⟨p, hp, hformals⟩ := h
    have hformals' : List.Forall₂ (FormalMeans t (σ.mapProcedure id f)) formals p.params := by
      refine hformals.imp fun formal param ⟨hτ, v, hv, hrest⟩ => ⟨hτ, v, ?_, hrest⟩
      rw [SymbolTable.variableAt?_mapProcedure, hv]
    by_cases hid : id' = id
    · refine ⟨f p, by rw [SymbolTable.procedureAt?_mapProcedure, if_pos hid, hp]; rfl, ?_⟩
      rwa [hf hid p]
    · exact ⟨p, by rw [SymbolTable.procedureAt?_mapProcedure, if_neg hid, hp], hformals'⟩

/-- Every parameter is a variable. -/
theorem FormalMeans.variable {t : TypeTable}
    {σ : SymbolTable} {formals : List (ParamMode × Ty)}
    {params : List SymbolId} (h : List.Forall₂ (FormalMeans t σ) formals params) :
    ∀ id ∈ params, ∃ v, σ.variableAt? id = some v := by
  induction h with
  | nil => simp
  | cons hformal _ ih =>
    obtain ⟨_, v, hv, _⟩ := hformal
    exact List.forall_mem_cons.mpr ⟨⟨v, hv⟩, ih⟩

/-- The scopes around the body of a procedure. -/
def Context.aroundBody (Γ : Context) (name : Ident) (formals : List (ParamMode × Ty)) :
    List (String × Declared) :=
  (name.name, .proc formals) :: (Γ.scope ++ Γ.around)

/-- The state behind the header of a procedure, before its parameters: a scope without
declarations, and room for the frame header. -/
theorem CheckState.Models.entered (h : s.Models site inner outer) (node : NodeId)
    (name : Ident) : (s.entered node name).Models
      ⟨⟨[], site.context.aroundBody name []⟩, site.occurrences, Frame.headerSize⟩ []
      ((name.name, ⟨s.symbols.length⟩) :: (inner ++ outer)) := by
  have hdeclared := h.declared name s.header (.proc []) ⟨_, s.procedureAt?_header name, .nil⟩
  have hentered := hdeclared.enter
  exact ⟨hentered.builtins, hentered.occurrences, hentered.offset, hentered.shows,
    hentered.scope, hentered.around⟩

/-- While the parameters are declared, the symbol of the procedure stays as its header made
it. -/
theorem Check.procedureAt?_of_declaresAll (node : NodeId) (name : Ident) {names : Names}
    {formals : List (ParamMode × Ty)} {site' : Site} {s' : CheckState}
    (hall : DeclaresAll (s.entered node name) [] names formals site' s') :
    s'.symbols.procedureAt? ⟨s.symbols.length⟩ = some ⟨s.scopes.level + 1, [], 0, 0⟩ := by
  obtain ⟨_, _, hgrows, _⟩ := hall
  exact SymbolTable.procedureAt?_mono hgrows.symbols (s.procedureAt?_header name)

/-- The state inside of a procedure: the site is that of its body, and nothing around it has
changed but the procedure's own symbol. -/
structure CheckState.Inside (s : CheckState)
    (site : Site) (inner outer : Names) (name : Ident)
    (formals : List (ParamMode × Ty)) (site' : Site) (inner' : Names) (s' : CheckState) :
    Prop where
  models : s'.Models site' inner' ((name.name, ⟨s.symbols.length⟩) :: (inner ++ outer))
  around : site'.context.around = site.context.aroundBody name formals
  types : s.types ≤ s'.types
  symbols : s.symbols ≤ s'.symbols
  scopes :
    s'.scopes.outer = (s.scopes.declared name.name ⟨s.symbols.length⟩).inner :: s.scopes.outer

namespace CheckState.Inside

variable {name : Ident} {formals : List (ParamMode × Ty)} {site' : Site} {inner' : Names}
    {s' : CheckState}

/-- The parameters are declared, and the procedure's symbol gets them. -/
theorem opened (h : s.Models site inner outer) (node : NodeId)
    (hall : DeclaresAll (s.entered node name) [] ((name.name, ⟨s.symbols.length⟩) ::
        (inner ++ outer)) formals site' s') : ∃ inner', s.Inside site inner outer name formals
    (site'.withAround (site.context.aroundBody name formals)) inner'
      { s' with
        symbols := s'.symbols.mapProcedure ⟨s.symbols.length⟩ fun p =>
            { p with params := s'.scopes.entries } } := by
  obtain ⟨added, hmodels, hgrows, hformals⟩ := hall
  rw [List.append_nil] at hmodels
  let f : Procedure → Procedure := fun p => { p with params := s'.scopes.entries }
  have hsymbols : s.symbols ≤ s'.symbols :=
    SymbolTable.le_trans (SymbolTable.le_add _ _) hgrows.symbols
  have hupdated : s.symbols ≤ s'.symbols.mapProcedure ⟨s.symbols.length⟩ f :=
    SymbolTable.le_mapProcedure hsymbols (Nat.le_refl _) _
  have hproc :=
    procedureAt?_of_declaresAll node name ⟨added, by rwa [List.append_nil], hgrows, hformals⟩
  have hparams : List.Forall₂ (FormalMeans s'.types
      (s'.symbols.mapProcedure ⟨s.symbols.length⟩ f)) formals s'.scopes.entries := by
    rw [hmodels.shows.entries]
    refine hformals.imp fun formal param ⟨hτ, v, hv, hrest⟩ => ⟨hτ, v, ?_, hrest⟩
    rw [SymbolTable.variableAt?_mapProcedure, hv]
  refine ⟨added, ⟨?_, rfl, hgrows.types, hupdated, hgrows.outer⟩⟩
  refine ⟨hmodels.builtins, hmodels.occurrences, hmodels.offset, hmodels.shows, ?_, ?_⟩
  · -- the names of the scope are parameters, so none of them is the procedure
    refine List.forall₂_iff_zip.mpr ⟨hmodels.scope.length_eq, fun {entry named} hmem => ?_⟩
    have hentry := (List.forall₂_iff_zip.mp hmodels.scope).2 hmem
    have hnamed : named.2 ∈ (added.map (·.2)).reverse :=
      List.mem_reverse.mpr (List.mem_map_of_mem (List.of_mem_zip hmem).2)
    obtain ⟨v, hv⟩ := FormalMeans.variable hformals _ hnamed
    refine ⟨hentry.1, hentry.2.mapProcedure f fun hid => ?_⟩
    rw [hid, SymbolTable.variableAt?_eq_some_iff,
      SymbolTable.procedureAt?_eq_some_iff.mp hproc] at hv
    cases hv
  · have hproc' :=
      SymbolTable.procedureAt?_mapProcedure s'.symbols ⟨s.symbols.length⟩ f ⟨s.symbols.length⟩
    rw [if_pos rfl, hproc] at hproc'
    exact .cons ⟨rfl, _, hproc', hparams⟩
      ((List.rel_append h.scope h.around).imp fun _ _ he => he.mono hgrows.types hupdated)

/-- The frame is fixed. -/
theorem frame (h : s.Inside site inner outer name formals site' inner' s')
    {f : Procedure → Procedure} (hf : ∀ p, (f p).params = p.params) :
    s.Inside site inner outer name formals site' inner'
      { s' with symbols := s'.symbols.mapProcedure ⟨s.symbols.length⟩ f } := by
  have hentry : ∀ entry named, Declared.Entry s'.types s'.symbols entry named →
      Declared.Entry s'.types (s'.symbols.mapProcedure ⟨s.symbols.length⟩ f) entry named :=
    fun _ _ he => ⟨he.1, he.2.mapProcedure f fun _ => hf⟩
  exact ⟨⟨h.models.builtins, h.models.occurrences, h.models.offset, h.models.shows,
      h.models.scope.imp hentry, h.models.around.imp hentry⟩, h.around, h.types,
    SymbolTable.le_mapProcedure h.symbols (Nat.le_refl _) _, h.scopes⟩

/-- More declarations. -/
theorem grows (h : s.Inside site inner outer name formals site' inner' s')
    {site'' : Site} {inner'' : Names}
    {s'' : CheckState} (haround : site''.context.around = site'.context.around)
    (hmodels : s''.Models site'' inner''
      ((name.name, ⟨s.symbols.length⟩) :: (inner ++ outer))) (hgrows : s'.Grows s'') :
    s.Inside site inner outer name formals site'' inner'' s'' :=
  ⟨hmodels, haround.trans h.around, TypeTable.le_trans h.types hgrows.types,
    SymbolTable.le_trans h.symbols hgrows.symbols, hgrows.outer.trans h.scopes⟩

/-- Annotating a node does not lead out of the procedure. -/
theorem notes (h : s.Inside site inner outer name formals site' inner' s')
    {s'' : CheckState} (hnotes : s'.Notes s'') :
    s.Inside site inner outer name formals site' inner' s'' :=
  h.grows rfl (h.models.notes hnotes) (.of_notes hnotes)

/-- The body of a procedure is one level further in. -/
theorem level (h : s.Inside site inner outer name formals site' inner' s') :
    s'.scopes.level = s.scopes.level + 1 := by
  unfold Scopes.level
  rw [h.scopes]
  rfl

/-- The symbol that was declared for the procedure is still one. -/
theorem procedure (h : s.Inside site inner outer name formals site' inner' s') :
    ∃ p, s'.symbols.procedureAt? ⟨s.symbols.length⟩ = some p := by
  have haround := h.models.around
  rw [h.around] at haround
  cases haround with
  | cons hhead _ =>
    obtain ⟨_, p, hp, _⟩ := hhead
    exact ⟨p, hp⟩

/-- The procedure is closed, and its name stays declared. -/
theorem closed (hs : s.Models site inner outer)
    (h : s.Inside site inner outer name formals site' inner' s') (closed : List ClosedScope) :
    CheckState.Models { s' with
      scopes := s.scopes.declared name.name ⟨s.symbols.length⟩, closed }
      ⟨site.context.declare name.name (.proc formals), site'.occurrences, site.offset⟩
      ((name.name, ⟨s.symbols.length⟩) :: inner) outer := by
  have haround := h.models.around
  rw [h.around] at haround
  cases haround with
  | cons hhead _ =>
    exact ⟨h.models.builtins, h.models.occurrences, hs.offset, hs.shows.declared _ _,
      .cons hhead (hs.scope.imp fun _ _ he => he.mono h.types h.symbols),
      hs.around.imp fun _ _ he => he.mono h.types h.symbols⟩

end CheckState.Inside

/-- A header that is accepted has well-formed parameters, and the state is inside the
procedure. -/
theorem Check.openProcedure_sound (h : s.Models site inner outer)
    (node : NodeId) (name : Ident) (params : List ParamDecl) :
    Sound (openProcedure node name params) s fun id s' => id = ⟨s.symbols.length⟩ ∧
    site.context.Fresh name.name ∧
      ∃ formals site' inner', ParamDecl.WellFormed
        ⟨(site.context.declare name.name (.proc formals)).enter,
          site.occurrences, Frame.headerSize⟩ params formals site' ∧
        s.Inside site inner outer name formals site' inner' s' := by
  unfold openProcedure
  refine .step rfl ?_
  rcases declare_cases h name s.header with ⟨hfresh, hrun⟩ | ⟨_, d, hrun⟩
  · refine .step hrun
      (.step rfl (.step rfl (.bind (ParamDecl.check_sound params (h.entered node name)) ?_)))
    rintro _ s' ⟨formals, site', hparams, hall⟩
    obtain ⟨inner', hinside⟩ := CheckState.Inside.opened h node hall
    refine .step rfl (.step (updateProcedure_run_of_procedure
        (procedureAt?_of_declaresAll (s := s) node name hall) _) (.pure ?_))
    exact ⟨rfl, hfresh, formals, _, inner',
      hparams.withAround (Declared.typesOf_proc _ _ _ _), hinside⟩
  · exact .of_refusal (run_bind_of_error hrun)

/-- A header with well-formed parameters and a free name is accepted. -/
theorem Check.openProcedure_succeeds (h : s.Models site inner outer) (node : NodeId)
    {name : Ident} {params : List ParamDecl} {formals : List (ParamMode × Ty)} {site' : Site}
    (hfresh : site.context.Fresh name.name) (hparams : ParamDecl.WellFormed
      ⟨(site.context.declare name.name (.proc formals)).enter, site.occurrences,
        Frame.headerSize⟩ params formals site') :
    Succeeds (openProcedure node name params) s fun id s' => id = ⟨s.symbols.length⟩ ∧
      ∃ inner', s.Inside site inner outer name formals site' inner' s' := by
  unfold openProcedure
  refine .step rfl ?_
  rcases declare_cases h name s.header with ⟨_, hrun⟩ | ⟨hnot, _⟩
  · have hparams' := hparams.withAround (Declared.typesOf_proc name.name formals [] _)
    refine .step hrun (.step rfl
      (.step rfl (.bind (ParamDecl.check_succeeds (h.entered node name) hparams') ?_)))
    rintro _ s' hall
    obtain ⟨inner', hinside⟩ := CheckState.Inside.opened h node hall
    have hsite : (site'.withAround (site.context.aroundBody name [])).withAround
        (site.context.aroundBody name formals) = site' := by
      have haround : site'.context.around = site.context.aroundBody name formals :=
        hparams.around
      unfold Site.withAround
      rw [← haround]
    exact .step rfl (.step (updateProcedure_run_of_procedure (procedureAt?_of_declaresAll
        (s := s) node name hall) _) (.pure ⟨rfl, inner', hsite ▸ hinside⟩))
  · exact absurd hfresh hnot

/-! ## Procedures -/

/-- The procedures of a declaration part. -/
def Decl.procedures (decls : List Decl) : List Decl := decls.filter (·.asProcedure?.isSome)

/-- Sections are left out when the procedures of a declaration part are gone through. -/
theorem Decl.procedures_append {sections procedures : List Decl}
    (hprocedures : ∀ d ∈ procedures, d.asProcedure?.isSome = true) {site site' : Site}
    (hsections : site.Chain Decl.SectionWellFormed sections site') :
    Decl.procedures (sections ++ procedures) = procedures := by
  have hnone : Decl.procedures sections = [] := by
    induction hsections with
    | nil => rfl
    | cons hsection _ ih => cases hsection <;> exact ih
  unfold Decl.procedures at hnone ⊢
  rw [List.filter_append, hnone, List.filter_eq_self.mpr hprocedures]
  rfl

/-- A section that stands behind a procedure, in the list or in a procedure of it. -/
inductive Decl.Misplaced : List Decl → Span → Prop where
  | here {decls span} : Decl.SectionBehind false decls span → Decl.Misplaced decls span
  | within {decls p span} : Decl.procedure p ∈ decls → Decl.Misplaced p.decls span →
    Decl.Misplaced decls span

theorem Decl.ProceduresWellFormed.append {level : Nat} {Γ Γ' Γ'' : Context} {n n' n'' : Nat}
    {ds ds' : List Decl} (h : Decl.ProceduresWellFormed level Γ n ds Γ' n')
    (h' : Decl.ProceduresWellFormed level Γ' n' ds' Γ'' n'') :
    Decl.ProceduresWellFormed level Γ n (ds ++ ds') Γ'' n'' := by
  induction ds generalizing Γ n with
  | nil =>
    cases h
    exact h'
  | cons d rest ih =>
    cases h with
    | cons hfresh hproc hrest => exact .cons hfresh hproc (ih hrest)

/-- A frame that is fixed has room for its display. The symbol is a procedure, so the update
cannot stop. -/
theorem Check.fixFrame_sound {id : SymbolId} {p : Procedure}
    (hp : s.symbols.procedureAt? id = some p) (name : Ident) :
    Sound (fixFrame id name) s fun _ s' =>
    Word.Fits (s.scopes.offset + (s.scopes.level + 1 : Nat)) ∧
      ∃ f : Procedure → Procedure, (∀ p, (f p).params = p.params) ∧
        s' = { s with symbols := s.symbols.mapProcedure id f } := by
  have hrun := fixFrame_run id name s
  by_cases hfits : Word.Fits (s.scopes.offset + (s.scopes.level + 1 : Nat))
  · rw [if_pos (by exact_mod_cast hfits), updateProcedure_run_of_procedure hp] at hrun
    exact .of_run hrun ⟨hfits, fun p => { p with
      frameSize := s.scopes.offset + (s.scopes.level + 1), displayBase :=
        s.scopes.offset }, fun _ => rfl, rfl⟩
  · rw [if_neg (by exact_mod_cast hfits)] at hrun
    exact .of_refusal hrun

mutual

/-- A procedure that is accepted is well-formed; a defect is that of a misplaced section in
it. -/
theorem Decl.checkProcedure_sound :
    ∀ (d : Decl) {site : Site} {inner outer : Names} {s : CheckState},
    s.Models site inner outer → Sound d.checkProcedure s
      (fun _ => Leaves s site.context.around outer fun site' =>
          Decl.ProceduresWellFormed s.scopes.level site.context
        site.occurrences (Decl.procedures [d]) site'.context site'.occurrences)
      (fun defect => ∃ span, defect = .misplacedSection span ∧ ∃ p, d = .procedure p ∧
        Decl.Misplaced p.decls span)
  | .types .., site, inner, outer, s, h => .pure ⟨site, inner, .nil, rfl, h, .refl s⟩
  | .vars .., site, inner, outer, s, h => .pure ⟨site, inner, .nil, rfl, h, .refl s⟩
  | .procedure ⟨node, name, params, decls, body, span⟩, site, inner, outer, s, h => by
    rw [Decl.checkProcedure]
    refine .bind
      (.mono (openProcedure_sound h node name params) (fun _ _ h => h) (fun _ h => h.elim)) ?_
    rintro _ s₁ ⟨rfl, hfresh, formals, site₁, inner₁, hparams, hin₁⟩
    refine .bind
      (.mono (Decl.checkSections_sound decls false hin₁.models) (fun _ _ h => h) ?_) ?_
    · rintro _ ⟨span, rfl, hbehind⟩
      exact ⟨span, rfl, _, rfl, .here hbehind⟩
    rintro _ s₂ ⟨site₂, inner₂, ⟨sections, procedures, hdecls, hsections, hprocedures, _⟩,
      haround₂, h₂, hgrows₂⟩
    have hin₂ := hin₁.grows haround₂ h₂ hgrows₂
    -- The symbol is still that of a procedure, so its frame can be fixed.
    obtain ⟨own, hown⟩ := hin₂.procedure
    refine .bind (.mono (fixFrame_sound hown name) (fun _ _ h => h) (fun _ h => h.elim)) ?_
    rintro _ _ ⟨hfits, f, hf, rfl⟩
    have hin₃ := hin₂.frame hf
    refine .bind (.mono (Decl.checkProcedures_sound decls hin₃.models) (fun _ _ h => h) ?_) ?_
    · rintro _ ⟨span, rfl, p, hp, hmisplaced⟩
      exact ⟨span, rfl, _, rfl, .within hp hmisplaced⟩
    rintro _ s₄ ⟨site₄, inner₄, hnested, haround₄, h₄, hgrows₄⟩
    have hin₄ := hin₃.grows haround₄ h₄ hgrows₄
    refine .bind
      (.mono (Stmt.checkAll_sound body h₄ hin₄.level) (fun _ _ h => h) (fun _ h => h.elim)) ?_
    rintro _ s₅ ⟨hnotes, hbody⟩
    have hin₅ := hin₄.notes hnotes
    refine .of_run (closeProcedure_run name span s₅ hin₅.scopes)
      ⟨⟨site.context.declare name.name (.proc formals), site₄.occurrences, site.offset⟩, _,
      ?_, rfl,
        hin₅.closed h _, hin₅.types, hin₅.symbols, rfl⟩
    rw [hin₃.level, hdecls, Decl.procedures_append hprocedures hsections] at hnested
    rw [h₂.offset, hin₂.level] at hfits
    subst hdecls
    exact .cons hfresh (.intro hparams hsections hfits hnested hbody) .nil

/-- Procedures that are accepted are well-formed, each in the context that the ones before it
leave. -/
theorem Decl.checkProcedures_sound :
    ∀ (decls : List Decl) {site : Site} {inner outer : Names} {s : CheckState},
    s.Models site inner outer → Sound (Decl.checkProcedures decls) s
      (fun _ => Leaves s site.context.around outer fun site' =>
          Decl.ProceduresWellFormed s.scopes.level site.context
        site.occurrences (Decl.procedures decls) site'.context site'.occurrences)
      (fun defect => ∃ span, defect = .misplacedSection span ∧
        ∃ p, Decl.procedure p ∈ decls ∧ Decl.Misplaced p.decls span)
  | [], site, inner, outer, s, h => .pure ⟨site, inner, .nil, rfl, h, .refl s⟩
  | d :: rest, site, inner, outer, s, h => by
    rw [Decl.checkProcedures]
    refine .bind (.mono (Decl.checkProcedure_sound d h) (fun _ _ h => h) ?_) ?_
    · rintro _ ⟨span, rfl, p, rfl, hmisplaced⟩
      exact ⟨span, rfl, p, List.mem_cons_self, hmisplaced⟩
    rintro _ s₁ ⟨site₁, inner₁, hd, haround₁, h₁, hgrows₁⟩
    refine .mono (Decl.checkProcedures_sound rest h₁) ?_ ?_
    · rintro _ s₂ ⟨site₂, inner₂, hrest, haround₂, h₂, hgrows₂⟩
      rw [hgrows₁.level] at hrest
      refine ⟨site₂, inner₂, ?_, haround₂.trans haround₁, h₂, hgrows₁.trans hgrows₂⟩
      have happend := hd.append hrest
      rwa [Decl.procedures, Decl.procedures, ← List.filter_append] at happend
    · rintro _ ⟨span, rfl, p, hp, hmisplaced⟩
      exact ⟨span, rfl, p, List.mem_cons_of_mem _ hp, hmisplaced⟩

end

theorem Decl.ProceduresWellFormed.isProcedure {level : Nat} {decls : List Decl}
    {Γ Γ' : Context} {n n' : Nat} (h : Decl.ProceduresWellFormed level Γ n decls Γ' n') :
    ∀ d ∈ decls, d.asProcedure?.isSome = true := by
  induction decls generalizing Γ n with
  | nil => simp
  | cons d rest ih =>
    cases h with
    | cons _ _ hrest => exact List.forall_mem_cons.mpr ⟨rfl, ih hrest⟩

/-- The procedures are accepted, and the context is the one behind them. -/
abbrev Check.LeavesContext (s : CheckState) (site : Site) (outer : Names) (Γ : Context)
    (n : Nat) (s' : CheckState) : Prop :=
  Leaves s site.context.around outer (fun site' => site'.context = Γ ∧
    site'.occurrences = n) s'

mutual

/-- A well-formed procedure is accepted. -/
theorem Decl.checkProcedure_succeeds : ∀ (d : Decl) {p : ProcDecl Decl}, d = .procedure p →
    ∀ {site : Site} {inner outer : Names} {s : CheckState}, s.Models site inner outer →
    ∀ {formals : List (ParamMode × Ty)} {n : Nat}, site.context.Fresh p.name.name →
    ProcDecl.WellFormed (s.scopes.level + 1)
    (site.context.declare p.name.name (.proc formals)) site.occurrences p
      formals n →
    Succeeds d.checkProcedure s fun _ =>
      LeavesContext s site outer (site.context.declare p.name.name (.proc formals)) n
  | .procedure ⟨node, name, params, decls, body, span⟩, _, rfl, site, inner, outer, s, h,
      formals, n, hfresh, hproc => by
    obtain ⟨sections, procedures, site₁, site₂, Γ', hdecls,
        hparams, hsections, hfits, hnested, hbody⟩ :
        ∃ sections procedures site₁ site₂ Γ', decls = sections ++ procedures ∧
          ParamDecl.WellFormed ⟨(site.context.declare name.name (.proc formals)).enter,
              site.occurrences,
            Frame.headerSize⟩ params formals site₁ ∧
          site₁.Chain Decl.SectionWellFormed sections site₂ ∧
          Word.Fits (site₂.offset + (s.scopes.level + 1 + 1 : Nat)) ∧
          Decl.ProceduresWellFormed
          (s.scopes.level + 1) site₂.context site₂.occurrences procedures Γ' n ∧
          ∀ stmt ∈ body, stmt.WellTyped Γ' (s.scopes.level + 1) := by
      cases hproc with
      | intro hparams hsections hfits hnested hbody =>
        exact ⟨_, _, _, _, _, rfl, hparams, hsections, hfits, hnested, hbody⟩
    rw [Decl.checkProcedure]
    refine .bind (openProcedure_succeeds h node hfresh hparams) ?_
    rintro _ s₁ ⟨rfl, inner₁, hin₁⟩
    -- The declarations are gone through twice, for the sections and for the procedures; each
    -- pass skips what belongs to the other.
    have hsectionsRun := Decl.checkSections_succeeds hnested.isProcedure hin₁.models hsections
    rw [← hdecls] at hsectionsRun
    refine .bind hsectionsRun ?_
    rintro _ s₂ ⟨_, inner₂, rfl, haround₂, h₂, hgrows₂⟩
    have hin₂ := hin₁.grows haround₂ h₂ hgrows₂
    have hframe : Word.Fits (s₂.scopes.offset + (s₂.scopes.level + 1)) := by
      rw [h₂.offset, hin₂.level]
      exact_mod_cast hfits
    obtain ⟨own, hown⟩ := hin₂.procedure
    -- The frame is fixed before anything that is nested is looked at.
    refine .step (((fixFrame_run _ name s₂).trans (if_pos hframe)).trans
      (updateProcedure_run_of_procedure hown _)) ?_
    have hin₃ := hin₂.frame (f := fun p => { p with
      frameSize := s₂.scopes.offset + (s₂.scopes.level + 1), displayBase :=
        s₂.scopes.offset }) fun _ => rfl
    rw [← Decl.procedures_append hnested.isProcedure hsections, ← hdecls, ← hin₃.level]
      at hnested
    refine .bind (Decl.checkProcedures_succeeds decls hin₃.models hnested) ?_
    rintro _ s₄ ⟨site₄, inner₄, ⟨rfl, rfl⟩, haround₄, h₄, hgrows₄⟩
    have hin₄ := hin₃.grows haround₄ h₄ hgrows₄
    refine .bind (Stmt.checkAll_passes hbody h₄ hin₄.level) ?_
    rintro _ s₅ hnotes
    have hin₅ := hin₄.notes hnotes
    exact ⟨_, _, closeProcedure_run name span s₅ hin₅.scopes,
      ⟨site.context.declare name.name (.proc formals), site₄.occurrences, site.offset⟩, _,
      ⟨rfl, rfl⟩, rfl,
        hin₅.closed h _, hin₅.types, hin₅.symbols, rfl⟩

/-- Well-formed procedures are accepted. -/
theorem Decl.checkProcedures_succeeds :
    ∀ (decls : List Decl) {site : Site} {inner outer : Names} {s : CheckState},
    s.Models site inner outer → ∀ {Γ : Context} {n : Nat}, Decl.ProceduresWellFormed
    s.scopes.level site.context site.occurrences (Decl.procedures decls) Γ n →
    Succeeds (Decl.checkProcedures decls) s fun _ => LeavesContext s site outer Γ n
  | [], site, inner, _, s, h, _, _, .nil => .pure ⟨site, inner, ⟨rfl, rfl⟩, rfl, h, .refl s⟩
  | .types .. :: rest, site, inner, _, s, h, _, _, hrest =>
    Decl.checkProcedures_succeeds rest h hrest
  | .vars .. :: rest, site, inner, _, s, h, _, _, hrest =>
    Decl.checkProcedures_succeeds rest h hrest
  | .procedure p :: rest, site, inner, _, s, h, _, _, .cons hfresh hproc hrest => by
    rw [Decl.checkProcedures]
    refine .bind (Decl.checkProcedure_succeeds (.procedure p) rfl h hfresh hproc) ?_
    rintro _ s₁ ⟨site₁, inner₁, ⟨hcontext, rfl⟩, haround₁, h₁, hgrows₁⟩
    rw [← hcontext, ← hgrows₁.level] at hrest
    refine .mono (Decl.checkProcedures_succeeds rest h₁ hrest) ?_
    rintro _ s₂ ⟨site₂, inner₂, hsite₂, haround₂, h₂, hgrows₂⟩
    exact ⟨site₂, inner₂, hsite₂, haround₂.trans haround₁, h₂, hgrows₁.trans hgrows₂⟩

end

/-! ## Programs -/

theorem Site.Declares.offset_le {τ : Ty} {words : Int} {names : List Ident} {site' : Site}
    (h : site.Declares τ words names site') (hsite : site.offset ≤ Word.greatest) :
    site'.offset ≤ Word.greatest := by
  induction h with
  | nil => exact hsite
  | cons _ hfits _ ih => exact ih hfits.2

theorem Site.Chain.offset_le {α : Type} {step : Site → α → Site → Prop}
    (hstep : ∀ {site item site'}, step site item site' → site.offset ≤ Word.greatest →
      site'.offset ≤ Word.greatest) {items : List α} {site' : Site}
    (h : site.Chain step items site') (hsite : site.offset ≤ Word.greatest) :
    site'.offset ≤ Word.greatest := by
  induction h with
  | nil => exact hsite
  | cons hitem _ ih => exact ih (hstep hitem hsite)

/-- The frame never grows beyond the words. -/
theorem Decl.SectionWellFormed.offset_le {d : Decl}
    {site' : Site} (h : Decl.SectionWellFormed site d site')
    (hsite : site.offset ≤ Word.greatest) : site'.offset ≤ Word.greatest := by
  cases h with
  | types hchain =>
    refine hchain.offset_le (fun hd hle => ?_) hsite
    cases hd
    exact hle
  | vars hchain =>
    refine hchain.offset_le (fun hd hle => ?_) hsite
    cases hd with
    | intro _ hdeclares => exact hdeclares.offset_le hle

/-- An analysis starts at the beginning of a program. -/
theorem CheckState.models_initial : ({} : CheckState).Models ⟨{}, 0, 0⟩ [] [] where
  builtins := TypeTable.le_refl _
  occurrences := rfl
  offset := rfl
  shows := ⟨fun _ => Std.TreeMap.getElem?_emptyc, rfl, fun _ => rfl⟩
  scope := .nil
  around := .nil

/-- A program that is accepted is well-formed, and the only defect is that of a misplaced
section. -/
theorem Program.check_sound (p : Program) :
    Sound p.check {} (fun _ _ => p.WellFormed)
      fun defect => ∃ span, defect = .misplacedSection span ∧
      Decl.Misplaced p.decls span := by
  obtain ⟨name, decls, body, span⟩ := p
  unfold Program.check
  refine .bind (.mono (Decl.checkSections_sound decls false CheckState.models_initial)
    (fun _ _ h => h) ?_) ?_
  · rintro _ ⟨span, rfl, hbehind⟩
    exact ⟨span, rfl, .here hbehind⟩
  rintro _ s₁ ⟨site₁, inner₁, ⟨sections, procedures, rfl, hsections, hprocedures, _⟩, _, h₁,
    hgrows₁⟩
  refine .step rfl ?_
  by_cases hoffset : s₁.scopes.offset = Word.greatest
  · dsimp only
    rw [if_pos hoffset]
    exact .of_refusal rfl
  dsimp only
  rw [if_neg hoffset]
  refine .bind (.mono (Decl.checkProcedures_sound _ h₁) (fun _ _ h => h) ?_) ?_
  · rintro _ ⟨span, rfl, p, hp, hmisplaced⟩
    exact ⟨span, rfl, .within hp hmisplaced⟩
  rintro _ s₂ ⟨site₂, inner₂, hnested, _, h₂, hgrows₂⟩
  have hlevel : s₁.scopes.level = 0 := hgrows₁.level
  refine .bind (.mono (Stmt.checkAll_sound body h₂ (hgrows₂.level.trans hlevel)) (fun _ _ h =>
      h) (fun _ h => h.elim)) ?_
  rintro _ s₃ ⟨_, hbody⟩
  rw [hlevel, Decl.procedures_append hprocedures hsections] at hnested
  have hle := hsections.offset_le Decl.SectionWellFormed.offset_le (by decide)
  rw [h₁.offset] at hoffset
  exact .of_run rfl (.intro hsections (Int.lt_iff_le_and_ne.mpr ⟨hle, hoffset⟩) hnested hbody)

/-- A well-formed program is accepted. -/
theorem Program.check_succeeds {p : Program} (h : p.WellFormed) :
    Succeeds p.check {} fun _ _ => True := by
  cases h with
  | @intro name sections procedures body span site Γ n hsections hoffset hprocedures hbody =>
    unfold Program.check
    refine .bind (Decl.checkSections_succeeds hprocedures.isProcedure
      CheckState.models_initial hsections) ?_
    rintro _ s₁ ⟨_, inner₁, rfl, _, h₁, hgrows₁⟩
    have hlevel : s₁.scopes.level = 0 := hgrows₁.level
    refine .step rfl ?_
    dsimp only
    rw [if_neg (by rw [h₁.offset]; exact Int.ne_of_lt hoffset)]
    rw [← Decl.procedures_append hprocedures.isProcedure hsections, ← hlevel] at hprocedures
    refine .bind (Decl.checkProcedures_succeeds _ h₁ hprocedures) ?_
    rintro _ s₂ ⟨site₂, inner₂, ⟨rfl, _⟩, _, h₂, hgrows₂⟩
    refine .bind (Stmt.checkAll_passes hbody h₂ (hgrows₂.level.trans hlevel)) ?_
    rintro _ s₃ _
    exact ⟨_, _, rfl, trivial⟩

/-- The analysis accepts exactly the well-formed programs. -/
theorem Program.analyze_ok_iff_wellFormed (p : Program) :
    (∃ a, p.analyze = .ok a) ↔ p.WellFormed := by
  have hsound := p.check_sound
  unfold Sound at hsound
  unfold Program.analyze
  constructor
  · rintro ⟨a, ha⟩
    cases hrun : p.check.run {} with
    | error e =>
      rw [hrun] at ha
      cases ha
    | ok r =>
      rw [hrun] at hsound
      exact hsound
  · intro h
    obtain ⟨offset, s, hrun, _⟩ := Program.check_succeeds h
    rw [hrun]
    exact ⟨_, rfl⟩

end BlockLang
