import BlockLang.Proofs.Acceptance
import BlockLang.Proofs.Elaboration

/-!
# Annotations are complete and exact

The analysis of an accepted program annotates the nodes of expressions, calls and
procedures, and no others. What it notes is what the rules say: the symbol of a name is
the declaration that lexical scoping gives it, and the type of an expression is the one
that it has in the context of the body it stands in. A body only ever uses what is
declared at its own level or further out, and it calls procedures at most one level
deeper.

`Program.annotations_exact` is the statement. It is put together from three parts.

* The context of a body (`ProcDecl.BodyIn`, `Program.BodyIn`) is read off the rules for
  programs. `Program.agrees_of_analyze` shows that the names which a body sees mean there
  what the context says, since the state of the check represents the context when the body
  comes (`Decl.checkProcedure_contextual`).
* An expression that is resolved has its type in that context (`Expr.Resolved.hasType`),
  and every part of a body is resolved (`Stmt.Resolved.partsAll`,
  `Stmt.Resolved.callsAll`).
* No check annotates another node than its own (`Expr.check_annotates`,
  `Stmt.checkAll_annotates`, `Program.annotates_of_analyze`). This direction does not need
  the identities of nodes to be distinct.
-/

namespace BlockLang

open Check

/-! ## The context of a body -/

mutual

/-- The rules check the body of `q` in the context `Δ`, and `q` is the given procedure or one
nested in it. The level, the context, the number and the formals are those of
`ProcDecl.WellFormed`. -/
inductive ProcDecl.BodyIn : Nat → Context → Nat → ProcDecl Decl → List (ParamMode × Ty) →
    ProcDecl Decl → Context → Prop where
  | own {level Γ n node name params sections procedures body span formals s₁ s₂ Δ n'} :
      ParamDecl.WellFormed ⟨Γ.enter, n, Frame.headerSize⟩ params formals s₁ →
      Site.Chain Decl.SectionWellFormed s₁ sections s₂ →
      Decl.ProceduresWellFormed level s₂.context s₂.occurrences procedures Δ n' →
      ProcDecl.BodyIn level Γ n ⟨node, name, params, sections ++ procedures, body,
      span⟩ formals
        ⟨node, name, params, sections ++ procedures, body, span⟩ Δ
  | nested {level Γ n node name params sections procedures body span formals s₁ s₂ q Δ} :
      ParamDecl.WellFormed ⟨Γ.enter, n, Frame.headerSize⟩ params formals s₁ →
      Site.Chain Decl.SectionWellFormed s₁ sections s₂ →
      Decl.BodyIn level s₂.context s₂.occurrences procedures q Δ →
      ProcDecl.BodyIn level Γ n ⟨node, name, params, sections ++ procedures, body,
      span⟩ formals q Δ

/-- The same for the procedures of a declaration part. -/
inductive Decl.BodyIn : Nat → Context → Nat → List Decl → ProcDecl Decl → Context → Prop where
  | here {level Γ n p rest formals q Δ} :
      ProcDecl.BodyIn (level + 1) (Γ.declare p.name.name (.proc formals)) n p formals q Δ →
      Decl.BodyIn level Γ n (.procedure p :: rest) q Δ
  | behind {level Γ n p rest formals n' q Δ} :
      ProcDecl.WellFormed (level + 1) (Γ.declare p.name.name (.proc formals)) n p formals n' →
      Decl.BodyIn level (Γ.declare p.name.name (.proc formals)) n' rest q Δ →
      Decl.BodyIn level Γ n (.procedure p :: rest) q Δ

end

/-- The context in which the rules check the body of a procedure, or the main program's
body. -/
inductive Program.BodyIn : Program → Option (ProcDecl Decl) → Context → Prop where
  | main {name sections procedures body span s Δ n} :
      Site.Chain Decl.SectionWellFormed ⟨{}, 0, 0⟩ sections s →
      Decl.ProceduresWellFormed 0 s.context s.occurrences procedures Δ n →
      Program.BodyIn ⟨name, sections ++ procedures, body, span⟩ none Δ
  | procedure {name sections procedures body span s q Δ} :
      Site.Chain Decl.SectionWellFormed ⟨{}, 0, 0⟩ sections s →
      Decl.BodyIn 0 s.context s.occurrences procedures q Δ →
      Program.BodyIn ⟨name, sections ++ procedures, body, span⟩ (some q) Δ

/-- The body of a procedure has its context whatever comes behind it. -/
theorem Decl.BodyIn.append {level : Nat} {Γ Δ : Context} {n : Nat} {ds : List Decl}
    {q : ProcDecl Decl} (h : Decl.BodyIn level Γ n ds q Δ) (ds' : List Decl) :
    Decl.BodyIn level Γ n (ds ++ ds') q Δ := by
  induction ds generalizing Γ n with
  | nil => cases h
  | cons d rest ih =>
    cases h with
    | here hp => exact .here hp
    | behind hp hrest => exact .behind hp (ih hrest)

/-- The body of a later procedure has its context behind the procedures before it. -/
theorem Decl.ProceduresWellFormed.bodyIn {level : Nat}
    {Γ Γ' Δ : Context} {n n' : Nat} {ds ds' : List Decl}
    {q : ProcDecl Decl} (h : Decl.ProceduresWellFormed level Γ n ds Γ' n')
    (h' : Decl.BodyIn level Γ' n' ds' q Δ) :
    Decl.BodyIn level Γ n (ds ++ ds') q Δ := by
  induction ds generalizing Γ n with
  | nil =>
    cases h
    exact h'
  | cons d rest ih =>
    cases h with
    | cons _ hp hrest => exact .behind hp (ih hrest)

/-- The context and the list of names say the same about every name. -/
def Analysis.Agrees (a : Analysis) (Δ : Context) (names : Names) : Prop :=
  ∀ name, (Δ.lookup name = none ∧ names.lookup name = none) ∨
    ∃ d id, Δ.lookup name = some d ∧ names.lookup name = some id ∧
    d.Means a.types a.symbols id

/-- A state that represents a context agrees with it about every name, and so does the
analysis in which it ends. -/
theorem CheckState.Models.agrees {s : CheckState} {site : Site}
    {inner outer scope around : Names} {a : Analysis} (h : s.Models site inner outer)
    (hshows : s.scopes.Shows scope around) (htypes : s.types ≤ a.types)
    (hsymbols : s.symbols ≤ a.symbols) : a.Agrees site.context (scope ++ around) := by
  intro name
  rw [← hshows.lookup?]
  rcases h.lookup name with hnone | ⟨d, id, hd, hid, hmeans⟩
  · exact .inl hnone
  · exact .inr ⟨d, id, hd, hid, hmeans.mono htypes hsymbols⟩

/-- A block of a procedure stands in the context that the rules give the procedure's body. -/
def Block.Contextual (b : Block) (BodyIn : ProcDecl Decl → Context → Prop)
    (s' : CheckState) : Prop :=
  ∃ id q Δ, b.owner = some (id, q) ∧ BodyIn q Δ ∧
    ∀ a : Analysis, s'.types ≤ a.types → s'.symbols ≤ a.symbols → a.Agrees Δ b.names

theorem Block.Contextual.mono {b : Block} {P Q : ProcDecl Decl → Context → Prop}
    {s s' : CheckState} (h : b.Contextual P s) (hPQ : ∀ q Δ, P q Δ → Q q Δ)
    (htypes : s.types ≤ s'.types) (hsymbols : s.symbols ≤ s'.symbols) :
    b.Contextual Q s' := by
  obtain ⟨id, q, Δ, howner, hbody, hagrees⟩ := h
  exact ⟨id, q, Δ, howner, hPQ q Δ hbody, fun a ht hσ =>
    hagrees a (TypeTable.le_trans htypes ht) (SymbolTable.le_trans hsymbols hσ)⟩

mutual

/-- When a body is checked, the state represents the context that the rules give to this
body. -/
theorem Decl.checkProcedure_contextual :
    ∀ (d : Decl) {site : Site} {inner around scope : Names} {outer : List Names}
    {s s' : CheckState} {u : Unit}, s.Models site inner around → s.Ready scope outer →
    d.checkProcedure.run s = .ok (u, s') →
    ∀ b ∈ (d.outline outer scope s.symbols.length).blocks, b.Contextual
    (Decl.BodyIn s.scopes.level site.context site.occurrences (Decl.procedures [d])) s'
  | .types .., _, _, _, _, _, _, _, _, _, _, _ => nofun
  | .vars .., _, _, _, _, _, _, _, _, _, _, _ => nofun
  | .procedure ⟨node, name, params, decls, body, span⟩, site, inner, around, scope, outer, s,
      s', _, hm, hs, h => by
    obtain ⟨s₃, s₄, s₅, hheader, hnested, hbody, hclose⟩ := Decl.checkProcedure_ok h
    obtain ⟨displayBase, offset, _, hopened⟩ := header_opens hs.tidy hs.shows hheader
    have hready := hopened.ready hs
    -- the header once more, for the context
    obtain ⟨_, s₁, s₂, hopen, hdecls, hfix⟩ := header_ok hheader
    obtain ⟨rfl, _, formals, site₁, inner₁, hparams, hin₁⟩ :=
      (openProcedure_sound hm node name params).of_ok hopen
    obtain ⟨site₂, inner₂, ⟨sections, procedures, rfl, hsections, hprocedures, _⟩, haround₂,
        hm₂, hgrows₂⟩ :=
      (Decl.checkSections_sound decls false hin₁.models).of_ok hdecls
    have hin₂ := hin₁.grows haround₂ hm₂ hgrows₂
    obtain ⟨own, hown⟩ := hin₂.procedure
    obtain ⟨_, f, hf, rfl⟩ := (fixFrame_sound hown name).of_ok hfix
    have hin₃ := hin₂.frame hf
    have hinner :=
      Decl.checkProcedures_contextual (sections ++ procedures) hin₃.models hready hnested
    obtain ⟨site₄, inner₄, hwell, _, hm₄, _⟩ :=
      (Decl.checkProcedures_sound _ hin₃.models).of_ok hnested
    have helaborates := Decl.checkProcedures_elaborates _ hready hnested
    rw [hin₃.level, Decl.procedures_append hprocedures hsections] at hinner hwell
    have hsettles := Stmt.checkAll_settles body helaborates.ready.shows.finds rfl hbody
    obtain ⟨_, _, _, rfl⟩ := closeProcedure_ok hclose
    rw [hopened.length] at hinner helaborates
    rw [Decl.outline_procedure]
    refine List.forall_mem_append.mpr ⟨fun b hb => ?_, List.forall_mem_singleton.mpr ?_⟩
    · exact (hinner b hb).mono (fun q Δ hq =>
        .here (.nested hparams hsections hq)) hsettles.moves.types hsettles.moves.symbols
    · refine ⟨_, _, site₄.context, rfl, .here (.own hparams hsections hwell),
        fun a htypes hsymbols => ?_⟩
      exact hm₄.agrees helaborates.ready.shows
        (TypeTable.le_trans hsettles.moves.types htypes)
        (SymbolTable.le_trans hsettles.moves.symbols hsymbols)

/-- The same for procedures in a row, each in the context that the ones before it leave. -/
theorem Decl.checkProcedures_contextual :
    ∀ (decls : List Decl) {site : Site} {inner around scope : Names}
    {outer : List Names} {s s' : CheckState} {u : Unit}, s.Models site inner around →
    s.Ready scope outer → (Decl.checkProcedures decls).run s = .ok (u, s') →
    ∀ b ∈ (Decl.outlineAll outer scope s.symbols.length decls).blocks, b.Contextual
    (Decl.BodyIn s.scopes.level site.context site.occurrences (Decl.procedures decls)) s'
  | [], _, _, _, _, _, _, _, _, _, _, _ => nofun
  | d :: rest, site, inner, around, scope, outer, s, s', _, hm, hs, h => by
    obtain ⟨s₁, hd, hrest⟩ := Decl.checkProcedures_cons_ok h
    have hfirst := Decl.checkProcedure_contextual d hm hs hd
    have helaborates := Decl.checkProcedure_elaborates d hs hd
    obtain ⟨site₁, inner₁, hwell, _, hm₁, hgrows₁⟩ :=
      (Decl.checkProcedure_sound d hm).of_ok hd
    have hothers := Decl.checkProcedures_contextual rest hm₁ helaborates.ready hrest
    have hmoves := (Decl.checkProcedures_elaborates rest helaborates.ready hrest).moves
    rw [helaborates.next, hgrows₁.level] at hothers
    have happend :
        Decl.procedures (d :: rest) = Decl.procedures [d] ++ Decl.procedures rest :=
      List.filter_append [d] rest
    rw [happend]
    refine List.forall_mem_append.mpr ⟨fun b hb => ?_, fun b hb => ?_⟩
    · exact (hfirst b hb).mono (fun q Δ hq => hq.append _) hmoves.types hmoves.symbols
    · exact (hothers b hb).mono (fun q Δ hq => hwell.bodyIn hq) (TypeTable.le_refl _)
        (SymbolTable.le_refl _)

end

/-- Every block of an accepted program stands in the context that the rules give its body. -/
theorem Program.agrees_of_analyze {p : Program} {a : Analysis} (h : p.analyze = .ok a) :
    ∀ b ∈ p.blocks, ∃ Δ, p.BodyIn (b.owner.map (·.2)) Δ ∧ a.Agrees Δ b.names := by
  obtain ⟨s₁, s₂, s₃, hdecls, _, hprocedures, hbody, rfl⟩ := Program.analyze_ok h
  have hready := (Decl.checkSections_main hdecls).2
  have hlength := Decl.length_checkSections_main hdecls
  obtain ⟨site₁, inner₁, ⟨sections, procedures, hp, hsections, hare, _⟩, _, hm₁, hgrows₁⟩ :=
    (Decl.checkSections_sound p.decls false CheckState.models_initial).of_ok hdecls
  have hinner := Decl.checkProcedures_contextual p.decls hm₁ hready hprocedures
  obtain ⟨site₂, inner₂, hwell, _, hm₂, _⟩ :=
    (Decl.checkProcedures_sound _ hm₁).of_ok hprocedures
  have helaborates := Decl.checkProcedures_elaborates p.decls hready hprocedures
  have hsettles := Stmt.checkAll_settles p.body helaborates.ready.shows.finds rfl hbody
  have hlevel : s₁.scopes.level = 0 := hgrows₁.level
  obtain ⟨name, decls, body, span⟩ := p
  dsimp only at hp
  subst hp
  rw [hlevel, Decl.procedures_append hare hsections] at hinner hwell
  rw [hlength] at hinner helaborates
  refine List.forall_mem_append.mpr ⟨fun b hb => ?_, List.forall_mem_singleton.mpr ?_⟩
  · obtain ⟨id, q, Δ, howner, hq, hagrees⟩ := hinner b hb
    rw [howner]
    exact ⟨Δ, .procedure hsections hq, hagrees _ hsettles.moves.types hsettles.moves.symbols⟩
  · exact ⟨site₂.context, .main hsections hwell,
      hm₂.agrees helaborates.ready.shows hsettles.moves.types hsettles.moves.symbols⟩

/-! ## Expressions in their context -/

namespace Ty

variable {t : TypeTable} {τ : Ty} {size : Int}

/-- A type that the table describes as an array is one. -/
theorem In.eq_array (h : τ.In t) {element : TypeId} {low high : Word}
    (hget : t.get? τ.id = some (.array element low high size)) :
    ∃ n σ, τ = .array n low high σ ∧ σ.In t ∧ σ.id = element := by
  cases τ with
  | integer => cases hget.symm.trans h
  | char => cases hget.symm.trans h
  | boolean => cases hget.symm.trans h
  | array n low high σ =>
    cases hget.symm.trans h.2.2
    exact ⟨n, σ, rfl, h.1, rfl⟩
  | record n φs =>
    obtain ⟨_, fields, hrecord, _⟩ := h
    cases hget.symm.trans hrecord

/-- A type that the table describes as a record is one, and its fields are found under their
names. -/
theorem In.eq_record (h : τ.In t) {fields : List Field}
    (hget : t.get? τ.id = some (.record fields size))
    {name : String} {f : Field} (hf : fields.find? (·.name == name) = some f) :
    ∃ n φs σ, τ = .record n φs ∧ φs.lookup name = some σ ∧ σ.In t ∧ σ.id = f.type := by
  cases τ with
  | integer => cases hget.symm.trans h
  | char => cases hget.symm.trans h
  | boolean => cases hget.symm.trans h
  | array n low high σ => cases hget.symm.trans h.2.2
  | record n φs =>
    obtain ⟨hφs, fields', hrecord, hmap⟩ := h
    cases hget.symm.trans hrecord
    have hfind := find?_fields hmap name
    rw [hf] at hfind
    obtain ⟨σ, hσ, htype⟩ := Option.map_eq_some_iff.mp hfind.symm
    exact ⟨n, φs, σ, rfl, hσ, hφs.lookup hσ, htype⟩

end Ty

section

variable {a : Analysis} {Γ : Names} {Δ : Context}

/-- A name that the list has for a variable is one in the context. -/
theorem Analysis.Agrees.var (h : a.Agrees Δ Γ) {node : NodeId} {name : Ident} {v : Variable}
    (hv : a.Refers Γ node name v) : ∃ τ, Δ.lookup name.name = some (.var τ) ∧ τ.In a.types ∧
    τ.id = v.type := by
  obtain ⟨id, hid, hvariable, _⟩ := hv
  rcases h name.name with ⟨_, hnone⟩ | ⟨d, id', hd, hid', hmeans⟩
  · rw [hid] at hnone
    cases hnone
  · rw [hid] at hid'
    cases hid'
    cases d with
    | type τ =>
      rw [SymbolTable.variableAt?_of_typeAt? hmeans.2] at hvariable
      cases hvariable
    | var τ =>
      obtain ⟨hτ, v', hv', htype⟩ := hmeans
      rw [hvariable] at hv'
      cases hv'
      exact ⟨τ, hd, hτ, htype.symm⟩
    | proc formals =>
      obtain ⟨P, hP, _⟩ := hmeans
      rw [SymbolTable.variableAt?_of_procedureAt? hP] at hvariable
      cases hvariable

/-- An expression has the type that was noted for it. -/
theorem Expr.Resolved.hasType (hbuiltins : ({} : TypeTable) ≤ a.types)
    (hΔ : a.Agrees Δ Γ) {e : Expr} {type : TypeId}
    (h : e.Resolved a Γ type) : ∃ τ, e.HasType Δ τ ∧ τ.In a.types ∧ τ.id = type := by
  have hinteger : Ty.In a.types .integer := hbuiltins _ _ rfl
  induction h with
  | const _ => exact ⟨.integer, .const, hinteger, rfl⟩
  | whole hv _ =>
    obtain ⟨τ, hlookup, hτ, htype⟩ := hΔ.var hv
    exact ⟨τ, .whole hlookup, hτ, htype⟩
  | element hv hget _ _ ih =>
    obtain ⟨τ, hlookup, hτ, htype⟩ := hΔ.var hv
    obtain ⟨n, σ, rfl, hσ, helement⟩ := hτ.eq_array (htype ▸ hget)
    obtain ⟨ι, hindex, _, hι⟩ := ih
    exact ⟨σ, .element hlookup (Ty.eq_integer_of_id hι ▸ hindex), hσ, helement⟩
  | field hv hget hf _ =>
    obtain ⟨τ, hlookup, hτ, htype⟩ := hΔ.var hv
    obtain ⟨n, φs, σ, rfl, hfield, hσ, hid⟩ := hτ.eq_record (htype ▸ hget) hf
    exact ⟨σ, .field hlookup hfield, hσ, hid⟩
  | fieldElement hv hget hf hget' _ _ ih =>
    obtain ⟨τ, hlookup, hτ, htype⟩ := hΔ.var hv
    obtain ⟨n, φs, σ, rfl, hfield, hσ, hid⟩ := hτ.eq_record (htype ▸ hget) hf
    obtain ⟨m, ρ, rfl, hρ, helement⟩ := hσ.eq_array (hid ▸ hget')
    obtain ⟨ι, hindex, _, hι⟩ := ih
    exact ⟨ρ, .fieldElement hlookup hfield (Ty.eq_integer_of_id hι ▸ hindex), hρ, helement⟩
  | @binary _ op _ _ _ _ _ _ hscalar _ ihl ihr =>
    obtain ⟨τ, hl, hτ, hid⟩ := ihl
    obtain ⟨σ, hr, _, hid'⟩ := ihr
    refine ⟨op.resultTy, .binary hl hr (Ty.id_eq_iff.mp (hid.trans hid'.symm))
      (hτ.isScalar_iff.mp (hid ▸ hscalar)), ?_, op.id_resultTy⟩
    cases op <;> exact hbuiltins _ _ rfl

/-! ## What stands in a body -/

theorem Expr.Resolved.refers {r : VarRef} {type : TypeId}
    (h : Expr.Resolved a Γ (.ref r) type) :
    ∃ v, a.Refers Γ r.node r.name v := by
  cases h with
  | whole hv _ => exact ⟨_, hv⟩
  | element hv _ _ _ => exact ⟨_, hv⟩
  | field hv _ _ _ => exact ⟨_, hv⟩
  | fieldElement hv _ _ _ _ _ => exact ⟨_, hv⟩

/-- The parts of a resolved expression are resolved. -/
theorem Expr.Resolved.parts {e : Expr} {type : TypeId} (h : e.Resolved a Γ type) :
    ∀ e' ∈ e.parts, ∃ type', e'.Resolved a Γ type' := by
  induction h with
  | const htype =>
    rw [Expr.parts]
    exact List.forall_mem_singleton.mpr ⟨_, .const htype⟩
  | whole hv htype =>
    rw [Expr.parts, Selector.parts]
    exact List.forall_mem_singleton.mpr ⟨_, .whole hv htype⟩
  | element hv hget hindex htype ih =>
    rw [Expr.parts, Selector.parts]
    exact List.forall_mem_cons.mpr ⟨⟨_, .element hv hget hindex htype⟩, ih⟩
  | field hv hget hf htype =>
    rw [Expr.parts, Selector.parts]
    exact List.forall_mem_singleton.mpr ⟨_, .field hv hget hf htype⟩
  | fieldElement hv hget hf hget' hindex htype ih =>
    rw [Expr.parts, Selector.parts]
    exact List.forall_mem_cons.mpr ⟨⟨_, .fieldElement hv hget hf hget' hindex htype⟩, ih⟩
  | binary hl hr hscalar htype ihl ihr =>
    rw [Expr.parts]
    exact List.forall_mem_cons.mpr ⟨⟨_, .binary hl hr hscalar htype⟩,
      List.forall_mem_append.mpr ⟨ihl, ihr⟩⟩

theorem Expr.ResolvedFor.parts {params : List SymbolId} {args : List Expr}
    (h : List.Forall₂ (Expr.ResolvedFor a Γ) params args) :
    ∀ e ∈ args.flatMap Expr.parts, ∃ type, e.Resolved a Γ type := by
  induction h with
  | nil => simp
  | cons harg _ ih =>
    obtain ⟨_, _, _, hresolved⟩ := harg
    exact List.forall_mem_append.mpr ⟨hresolved.parts, ih⟩

mutual

theorem Stmt.Resolved.parts {level : Nat} : ∀ {s : Stmt}, s.Resolved a Γ level →
    ∀ e ∈ s.parts, ∃ type, e.Resolved a Γ type
  | .assign .., .assign htarget hvalue => by
    rw [Stmt.parts]
    exact List.forall_mem_append.mpr ⟨htarget.parts, hvalue.parts⟩
  | .ifElse .., .ifElse hcondition hthen helse => by
    rw [Stmt.parts]
    exact List.forall_mem_append.mpr ⟨hcondition.parts,
      List.forall_mem_append.mpr ⟨Stmt.Resolved.partsAll hthen, Stmt.Resolved.partsAll helse⟩⟩
  | .whileDo .., .whileDo hcondition hbody => by
    rw [Stmt.parts]
    exact List.forall_mem_append.mpr ⟨hcondition.parts, Stmt.Resolved.partsAll hbody⟩
  | .read .., .read htarget => by
    rw [Stmt.parts]
    exact htarget.parts
  | .write .., .write hvalue => by
    rw [Stmt.parts]
    exact hvalue.parts
  | .call _, .call hcall => by
    rw [Stmt.parts]
    obtain ⟨_, _, _, _, _, hargs⟩ := hcall
    exact Expr.ResolvedFor.parts hargs
  | .ret _, .ret _ => by simp [Stmt.parts]

/-- Every expression in resolved statements is resolved. -/
theorem Stmt.Resolved.partsAll {level : Nat} :
    ∀ {ss : List Stmt}, (∀ s ∈ ss, s.Resolved a Γ level) →
    ∀ e ∈ Stmt.partsAll ss, ∃ type, e.Resolved a Γ type
  | [], _ => by simp [Stmt.partsAll]
  | s :: rest, h => by
    rw [Stmt.partsAll]
    obtain ⟨hs, hrest⟩ := List.forall_mem_cons.mp h
    exact List.forall_mem_append.mpr ⟨hs.parts, Stmt.Resolved.partsAll hrest⟩

end

mutual

theorem Stmt.Resolved.calls {level : Nat} : ∀ {s : Stmt}, s.Resolved a Γ level →
    ∀ c ∈ s.calls, c.Resolved a Γ
  | .assign .., _ | .read .., _ | .write .., _ | .ret _, _ => by simp [Stmt.calls]
  | .ifElse .., .ifElse _ hthen helse => by
    rw [Stmt.calls]
    exact List.forall_mem_append.mpr ⟨Stmt.Resolved.callsAll hthen,
      Stmt.Resolved.callsAll helse⟩
  | .whileDo .., .whileDo _ hbody => by
    rw [Stmt.calls]
    exact Stmt.Resolved.callsAll hbody
  | .call _, .call hcall => by
    rw [Stmt.calls]
    exact List.forall_mem_singleton.mpr hcall

/-- Every call in resolved statements is resolved. -/
theorem Stmt.Resolved.callsAll {level : Nat} :
    ∀ {ss : List Stmt}, (∀ s ∈ ss, s.Resolved a Γ level) →
    ∀ c ∈ Stmt.callsAll ss, c.Resolved a Γ
  | [], _ => by simp [Stmt.callsAll]
  | s :: rest, h => by
    rw [Stmt.callsAll]
    obtain ⟨hs, hrest⟩ := List.forall_mem_cons.mp h
    exact List.forall_mem_append.mpr ⟨hs.calls, Stmt.Resolved.callsAll hrest⟩

end

end

/-! ## Which nodes are annotated -/

/-- Only nodes of the first list get a symbol, and only nodes of the second one get a type. -/
structure CheckState.Annotates (s : CheckState) (symbols types : List NodeId)
    (s' : CheckState) : Prop where
  symbols : ∀ n, s'.annotations.symbol? n ≠ none →
    s.annotations.symbol? n ≠ none ∨ n ∈ symbols
  types : ∀ n, s'.annotations.type? n ≠ none → s.annotations.type? n ≠ none ∨ n ∈ types

namespace CheckState.Annotates

variable {s s' s'' : CheckState} {symbols symbols' types types' : List NodeId}

theorem of_eq (h : s'.annotations = s.annotations) : s.Annotates symbols types s' :=
  ⟨fun _ hn => .inl (h ▸ hn), fun _ hn => .inl (h ▸ hn)⟩

theorem trans (h : s.Annotates symbols types s') (h' : s'.Annotates symbols' types' s'') :
    s.Annotates (symbols ++ symbols') (types ++ types') s'' where
  symbols n hn := by
    rcases h'.symbols n hn with hn | hn
    · exact (h.symbols n hn).imp_right (List.mem_append_left _)
    · exact .inr (List.mem_append_right _ hn)
  types n hn := by
    rcases h'.types n hn with hn | hn
    · exact (h.types n hn).imp_right (List.mem_append_left _)
    · exact .inr (List.mem_append_right _ hn)

theorem mono (h : s.Annotates symbols types s')
    (hsymbols : symbols ⊆ symbols') (htypes : types ⊆ types') :
    s.Annotates symbols' types' s' :=
  ⟨fun n hn => (h.symbols n hn).imp_right fun hmem => hsymbols hmem,
    fun n hn => (h.types n hn).imp_right fun hmem => htypes hmem⟩

/-- Noting a symbol annotates one node. -/
theorem recordSymbol (s : CheckState) (node : NodeId) (id : SymbolId) :
    s.Annotates [node] [] { s with annotations := s.annotations.recordSymbol node id } where
  symbols n hn := by
    by_cases hnode : n = node
    · exact .inr (List.mem_singleton.mpr hnode)
    · rw [Annotations.symbol?, Annotations.get_recordSymbol, if_neg hnode] at hn
      exact .inl hn
  types n hn := by
    rw [Annotations.type?, Annotations.get_recordSymbol] at hn
    split at hn
    next hnode => exact .inl (hnode ▸ hn)
    next => exact .inl hn

/-- Noting a type annotates one node. -/
theorem recordType (s : CheckState) (node : NodeId) (type : TypeId) :
    s.Annotates [] [node] { s with annotations := s.annotations.recordType node type } where
  symbols n hn := by
    rw [Annotations.symbol?, Annotations.get_recordType] at hn
    split at hn
    next hnode => exact .inl (hnode ▸ hn)
    next => exact .inl hn
  types n hn := by
    by_cases hnode : n = node
    · exact .inr (List.mem_singleton.mpr hnode)
    · rw [Annotations.type?, Annotations.get_recordType, if_neg hnode] at hn
      exact .inl hn

end CheckState.Annotates

/-- Only the given expressions get a type, and only references among them and the calls get a
symbol. -/
abbrev CheckState.AnnotatesBody (s : CheckState) (parts : List Expr) (calls : List Call)
    (s' : CheckState) : Prop :=
  s.Annotates (Expr.referenceNodes parts ++ calls.map (·.node)) (parts.map Expr.node) s'

theorem CheckState.AnnotatesBody.trans {s s' s'' : CheckState}
    {parts parts' : List Expr} {calls calls' : List Call}
    (h : s.AnnotatesBody parts calls s') (h' : s'.AnnotatesBody parts' calls' s'') :
    s.AnnotatesBody (parts ++ parts') (calls ++ calls') s'' := by
  refine (CheckState.Annotates.trans h h').mono (fun n hn => ?_)
    (by rw [List.map_append]; exact List.Subset.refl _)
  simp only [Expr.referenceNodes_append, List.map_append, List.mem_append] at hn ⊢
  tauto

section

variable {s s' : CheckState}

theorem Reference.check_annotates {node : NodeId} {name : Ident}
    {selector : Selector Expr} {span : Span} {type : TypeId}
    (h : (Reference.check ⟨node, name, selector, span⟩).run s = .ok (type, s'))
    (hselector : ∀ {declared s₁}, (selector.check declared name).run s = .ok (type, s₁) →
      s.AnnotatesBody (Selector.parts selector) [] s₁) :
    s.AnnotatesBody (Expr.ref ⟨node, name, selector, span⟩).parts [] s' := by
  obtain ⟨id, v, s₁, _, _, hcheck, rfl⟩ := Reference.check_ok h
  have hown : s₁.AnnotatesBody [.ref ⟨node, name, selector, span⟩] [] { s₁ with
      annotations := (s₁.annotations.recordSymbol node id).recordType node type } :=
    (CheckState.Annotates.recordSymbol s₁ node id).trans (.recordType _ node type)
  rw [Expr.parts]
  refine ((hselector hcheck).trans hown).mono (fun n hn => ?_) (fun n hn => ?_)
  · simpa [or_comm] using hn
  · simpa [or_comm] using hn

/-- The check of an expression annotates the nodes of its parts. -/
theorem Expr.check_annotates (e : Expr) {s s' : CheckState}
    {type : TypeId} (h : e.check.run s = .ok (type, s')) :
    s.AnnotatesBody e.parts [] s' := by
  induction e generalizing s s' type with
  | const node value span =>
    cases h
    exact .recordType s node .integer
  | whole node name span =>
    rw [Expr.check] at h
    refine Reference.check_annotates h fun hselector => ?_
    cases hselector
    exact .of_eq rfl
  | element node name index span ih =>
    rw [Expr.check] at h
    exact Reference.check_annotates h fun hselector =>
      ih (Selector.check_element_ok hselector).1
  | field node name field span =>
    rw [Expr.check] at h
    refine Reference.check_annotates h fun hselector => ?_
    rw [Selector.check] at hselector
    obtain ⟨rfl, _⟩ := fieldType_ok hselector
    exact .of_eq rfl
  | fieldElement node name field index span ih =>
    rw [Expr.check] at h
    exact Reference.check_annotates h fun hselector =>
      ih (Selector.check_fieldElement_ok hselector).1
  | binary node op left right span ihl ihr =>
    obtain ⟨rfl, _, s₁, s₂, hleft, hright, _, rfl⟩ := Expr.check_binary_ok h
    have hown : s₂.AnnotatesBody [.binary node op left right span] [] { s₂ with
        annotations :=
          s₂.annotations.recordType node op.resultType } := .recordType s₂ node op.resultType
    rw [Expr.parts]
    refine (((ihl hleft).trans (ihr hright)).trans hown).mono (fun n hn => ?_)
      (fun n hn => ?_)
    · simpa using hn
    · simp only [List.map_append, List.map_cons, List.map_nil, List.mem_append, List.mem_cons,
        List.not_mem_nil] at hn ⊢
      tauto

theorem Check.checkArguments_annotates (call : Call) (expected : Nat) :
    ∀ {params : List SymbolId} {args : List Expr} {s s' : CheckState} {u : Unit},
    (checkArguments call expected params args).run s = .ok (u, s') →
    s.AnnotatesBody (args.flatMap Expr.parts) [] s'
  | [], [], _, _, _, h => by
    cases h
    exact .of_eq rfl
  | [], _ :: _, _, _, _, h => by cases h
  | _ :: _, [], _, _, _, h => by cases h
  | param :: params, arg :: args, s, s', _, h => by
    obtain ⟨_, s₁, _, _, hcheck, hrest⟩ := checkArguments_cons_ok h
    exact (arg.check_annotates hcheck).trans (checkArguments_annotates call expected hrest)

theorem Call.check_annotates {call : Call} {u : Unit} (h : call.check.run s = .ok (u, s')) :
    s.AnnotatesBody (call.args.flatMap Expr.parts) [call] s' := by
  obtain ⟨id, _, _, _, hargs⟩ := Call.check_ok h
  have hown : s.AnnotatesBody [] [call] { s with
      annotations := s.annotations.recordSymbol call.node id } :=
    .recordSymbol s call.node id
  exact hown.trans (checkArguments_annotates call _ hargs)

mutual

theorem Stmt.check_annotates :
    ∀ (stmt : Stmt) {s s' : CheckState} {u : Unit}, stmt.check.run s = .ok (u, s') →
    s.AnnotatesBody stmt.parts stmt.calls s'
  | .assign target value span, s, s', _, h => by
    obtain ⟨_, s₁, htarget, hvalue⟩ := Stmt.check_assign_ok h
    rw [Stmt.parts, Stmt.calls]
    exact ((Expr.ref target).check_annotates htarget).trans (value.check_annotates hvalue)
  | .ifElse condition thenBranch elseBranch span, s, s', _, h => by
    obtain ⟨s₁, s₂, hcondition, hthen, helse⟩ := Stmt.check_ifElse_ok h
    rw [Stmt.parts, Stmt.calls]
    exact (condition.check_annotates hcondition).trans ((Stmt.checkAll_annotates thenBranch
        hthen).trans (Stmt.checkAll_annotates elseBranch helse))
  | .whileDo condition body span, s, s', _, h => by
    obtain ⟨s₁, hcondition, hbody⟩ := Stmt.check_whileDo_ok h
    rw [Stmt.parts, Stmt.calls]
    exact (condition.check_annotates hcondition).trans (Stmt.checkAll_annotates body hbody)
  | .read target span, s, s', _, h => by
    obtain ⟨_, htarget⟩ := Stmt.check_read_ok h
    rw [Stmt.parts, Stmt.calls]
    exact (Expr.ref target).check_annotates htarget
  | .write value span, s, s', _, h => by
    obtain ⟨_, hvalue, _⟩ := Stmt.check_write_ok h
    rw [Stmt.parts, Stmt.calls]
    exact value.check_annotates hvalue
  | .call c, s, s', _, h => by
    rw [Stmt.check] at h
    rw [Stmt.parts, Stmt.calls]
    exact Call.check_annotates h
  | .ret span, s, s', _, h => by
    obtain ⟨rfl, _⟩ := Stmt.check_ret_ok h
    exact .of_eq rfl

/-- The check of statements annotates the expressions and calls in them. -/
theorem Stmt.checkAll_annotates : ∀ (stmts : List Stmt) {s s' : CheckState} {u : Unit},
    (Stmt.checkAll stmts).run s = .ok (u, s') →
    s.AnnotatesBody (Stmt.partsAll stmts) (Stmt.callsAll stmts) s'
  | [], s, s', _, h => by
    rw [Stmt.checkAll] at h
    cases h
    exact .of_eq rfl
  | stmt :: rest, s, s', _, h => by
    obtain ⟨s₁, hstmt, hrest⟩ := Stmt.checkAll_cons_ok h
    rw [Stmt.partsAll, Stmt.callsAll]
    exact (Stmt.check_annotates stmt hstmt).trans (Stmt.checkAll_annotates rest hrest)

end

end

mutual

/-- The check of a procedure annotates its own node and those of its body and of what is
nested in it. -/
theorem Decl.checkProcedure_annotates :
    ∀ (d : Decl) {scope : Names} {outer : List Names} {s s' : CheckState} {u : Unit},
    s.Ready scope outer → d.checkProcedure.run s = .ok (u, s') →
    s.Annotates ((d.outline outer scope s.symbols.length).blocks.flatMap Block.symbolNodes)
      ((d.outline outer scope s.symbols.length).blocks.flatMap Block.typeNodes) s'
  | .types .., _, _, _, _, _, _, h => by
    rw [Decl.checkProcedure] at h
    cases h
    exact .of_eq rfl
  | .vars .., _, _, _, _, _, _, h => by
    rw [Decl.checkProcedure] at h
    cases h
    exact .of_eq rfl
  | .procedure ⟨node, name, params, decls, body, span⟩, scope, outer, s, s', _, hs, h => by
    obtain ⟨s₁, s₂, s₃, hheader, hnested, hbody, hclose⟩ := Decl.checkProcedure_ok h
    obtain ⟨displayBase, offset, _, hopened⟩ := header_opens hs.tidy hs.shows hheader
    have hinner := Decl.checkProcedures_annotates decls (hopened.ready hs) hnested
    have hstmts := Stmt.checkAll_annotates body hbody
    obtain ⟨_, _, _, rfl⟩ := closeProcedure_ok hclose
    have hown : s.Annotates [node] [] s₁ := by
      have hrecord := CheckState.Annotates.recordSymbol s node ⟨s.symbols.length⟩
      exact ⟨fun n hn => hrecord.symbols n (hopened.annotations ▸ hn), fun n hn =>
        hrecord.types n (hopened.annotations ▸ hn)⟩
    rw [hopened.length] at hinner
    rw [Decl.outline_procedure]
    have hall := (hown.trans hinner).trans hstmts
    refine ⟨fun n hn => (hall.symbols n hn).imp_right fun hmem => ?_,
      fun n hn => (hall.types n hn).imp_right fun hmem => ?_⟩
    · simp only [List.flatMap_append, List.flatMap_cons, List.flatMap_nil, Block.symbolNodes,
        Option.toList_some, List.map_cons, List.map_nil, List.append_nil, List.mem_append,
        List.mem_singleton] at hmem ⊢
      tauto
    · simpa [Block.typeNodes] using hmem

theorem Decl.checkProcedures_annotates :
    ∀ (decls : List Decl) {scope : Names} {outer : List Names} {s s' : CheckState} {u : Unit},
    s.Ready scope outer → (Decl.checkProcedures decls).run s = .ok (u, s') → s.Annotates
    ((Decl.outlineAll outer scope s.symbols.length decls).blocks.flatMap Block.symbolNodes)
      ((Decl.outlineAll outer scope s.symbols.length decls).blocks.flatMap Block.typeNodes) s'
  | [], _, _, _, _, _, _, h => by
    rw [Decl.checkProcedures] at h
    cases h
    exact .of_eq rfl
  | d :: rest, scope, outer, s, s', _, hs, h => by
    obtain ⟨s₁, hd, hrest⟩ := Decl.checkProcedures_cons_ok h
    have hfirst := Decl.checkProcedure_annotates d hs hd
    have helaborates := Decl.checkProcedure_elaborates d hs hd
    have hothers := Decl.checkProcedures_annotates rest helaborates.ready hrest
    rw [helaborates.next] at hothers
    rw [Decl.outlineAll]
    simp only [List.flatMap_append]
    exact hfirst.trans hothers

end

/-- Only what stands in a block of the program is annotated. -/
theorem Program.annotates_of_analyze {p : Program} {a : Analysis} (h : p.analyze = .ok a) :
    (∀ n, a.annotations.symbol? n ≠ none → ∃ b ∈ p.blocks, n ∈ b.symbolNodes) ∧
      ∀ n, a.annotations.type? n ≠ none → ∃ b ∈ p.blocks, n ∈ b.typeNodes := by
  obtain ⟨s₁, s₂, s₃, hdecls, _, hprocedures, hbody, rfl⟩ := Program.analyze_ok h
  obtain ⟨hdeclares, hready⟩ := Decl.checkSections_main hdecls
  have hsections : ({} : CheckState).Annotates [] [] s₁ := .of_eq hdeclares.annotations
  have hnested := Decl.checkProcedures_annotates p.decls hready hprocedures
  rw [Decl.length_checkSections_main hdecls] at hnested
  have hall := (hsections.trans hnested).trans (Stmt.checkAll_annotates p.body hbody)
  have hempty : ∀ n, ({} : CheckState).annotations.get n = {} :=
    fun n => Std.TreeMap.getD_emptyc
  constructor
  · intro n hn
    rcases hall.symbols n hn with hnone | hmem
    · exact absurd (by rw [Annotations.symbol?, hempty]) hnone
    · rcases List.mem_append.mp hmem with hmem | hmem
      · obtain ⟨b, hb, hn⟩ := List.mem_flatMap.mp hmem
        exact ⟨b, List.mem_append_left _ hb, hn⟩
      · exact ⟨p.mainBlock, List.mem_append_right _ (List.mem_singleton_self _),
          List.mem_append_left _ hmem⟩
  · intro n hn
    rcases hall.types n hn with hnone | hmem
    · exact absurd (by rw [Annotations.type?, hempty]) hnone
    · rcases List.mem_append.mp hmem with hmem | hmem
      · obtain ⟨b, hb, hn⟩ := List.mem_flatMap.mp hmem
        exact ⟨b, List.mem_append_left _ hb, hn⟩
      · exact ⟨p.mainBlock, List.mem_append_right _ (List.mem_singleton_self _), hmem⟩

/-! ## Accepted programs -/

/-- A name of a block stands in one of the scopes around the body. -/
theorem Block.Laid.places_of_mem {a : Analysis} {b : Block}
    (h : b.Laid a) {x : String × SymbolId} (hx : x ∈ b.names) :
    ∃ i ≤ b.level, ∃ scope, (b.scope :: b.outer)[i]? = some scope ∧ x ∈ scope ∧
    a.Places (b.level - i) x := by
  obtain ⟨i, scope, hget, hmem, hplaces⟩ := h.places.mem hx
  have hlt := (List.getElem?_eq_some_iff.mp hget).1
  refine ⟨i, Nat.le_of_lt_succ hlt, scope, hget, hmem, ?_⟩
  rwa [List.length_cons, Nat.add_sub_add_right] at hplaces

/-- The annotations of an accepted program whose nodes have distinct identities. Exactly the
references, calls and procedures have a symbol, and exactly the expressions and targets have a
type. A reference denotes the variable, a call the procedure, that its name has in the block
where it stands; the type is the one that the rules give in the context of the body. No
reference reaches a deeper level than the body's. A callee is declared in the body's scope or
in one around it, so it is at most one level deeper, and it has as many parameters as the call
has arguments. -/
theorem Program.annotations_exact {p : Program} {a : Analysis}
    (h : p.analyze = .ok a) (hnodes : p.DistinctNodes) :
    (∀ n, a.annotations.symbol? n ≠ none ↔ ∃ b ∈ p.blocks, n ∈ b.symbolNodes) ∧
    (∀ n, a.annotations.type? n ≠ none ↔ ∃ b ∈ p.blocks, n ∈ b.typeNodes) ∧
    ∀ b ∈ p.blocks,
      (∀ r, Expr.ref r ∈ Stmt.partsAll b.body → ∃ id v, b.names.lookup r.name.name = some id ∧
        a.annotations.symbol? r.node = some id ∧ a.symbols.name id = r.name.name ∧
        a.symbols.variableAt? id = some v ∧ v.level ≤ b.level) ∧
      (∃ Δ, p.BodyIn (b.owner.map (·.2)) Δ ∧ ∀ e ∈ Stmt.partsAll b.body, ∃ τ, e.HasType Δ τ ∧
          τ.In a.types ∧
        a.annotations.type? e.node = some τ.id) ∧
      (∀ c ∈ Stmt.callsAll b.body, ∃ id P, b.names.lookup c.callee.name = some id ∧
        a.annotations.symbol? c.node = some id ∧ a.symbols.name id = c.callee.name ∧
        a.symbols.procedureAt? id = some P ∧ 1 ≤ P.level ∧ P.level ≤ b.level + 1 ∧
        (∃ scope, (b.scope :: b.outer)[b.level + 1 - P.level]? = some scope ∧
          (c.callee.name, id) ∈ scope) ∧ c.args.length = P.params.length ∧
        ∀ param ∈ P.params, ∃ v, a.symbols.variableAt? param = some v ∧ v.level = P.level) ∧
      ∀ id q, b.owner = some (id, q) → a.annotations.symbol? q.node = some id ∧
        a.symbols.name id = q.name.name ∧
        ∃ P, a.symbols.procedureAt? id = some P ∧ P.level = b.level := by
  have hp := Program.analyzed_of_analyze h
  have hnoted := hp.noted hnodes
  obtain ⟨honlySymbols, honlyTypes⟩ := Program.annotates_of_analyze h
  have hparts : ∀ b ∈ p.blocks, ∀ e ∈ Stmt.partsAll b.body, ∃ type,
      e.Resolved a b.names type :=
    fun b hb => Stmt.Resolved.partsAll (hnoted b hb).body
  have hcalls : ∀ b ∈ p.blocks, ∀ c ∈ Stmt.callsAll b.body, c.Resolved a b.names :=
    fun b hb => Stmt.Resolved.callsAll (hnoted b hb).body
  refine ⟨fun n => ⟨honlySymbols n, ?_⟩, fun n => ⟨honlyTypes n, ?_⟩,
    fun b hb => ⟨?_, ?_, ?_, ?_⟩⟩
  · rintro ⟨b, hb, hn⟩
    simp only [Block.symbolNodes, Expr.referenceNodes, List.mem_append, List.mem_map,
      List.mem_filterMap, Option.mem_toList] at hn
    -- Nodes with a symbol are those of references, of calls and of procedures.
    rcases hn with (⟨r, ⟨e, he, href⟩, rfl⟩ | ⟨c, hc, rfl⟩) | ⟨⟨id, q⟩, howner, rfl⟩
    · cases e with
      | ref r' =>
        cases href
        obtain ⟨_, hresolved⟩ := hparts b hb _ he
        obtain ⟨_, _, _, _, hsymbol⟩ := hresolved.refers
        simp [hsymbol]
      | const node value span => cases href
      | binary node op left right span => cases href
    · obtain ⟨_, _, _, _, hsymbol, _⟩ := hcalls b hb c hc
      simp [hsymbol]
    · simp [(hnoted b hb).owner howner]
  · rintro ⟨b, hb, hn⟩
    obtain ⟨e, he, rfl⟩ := List.mem_map.mp hn
    obtain ⟨_, hresolved⟩ := hparts b hb e he
    simp [hresolved.type?_node]
  · intro r hr
    obtain ⟨_, hresolved⟩ := hparts b hb _ hr
    obtain ⟨v, id, hlookup, hv, hsymbol⟩ := hresolved.refers
    obtain ⟨i, _, _, _, _, hplaces⟩ :=
      (hp.laid b hb).places_of_mem (Names.mem_of_lookup hlookup)
    refine ⟨id, v, hlookup, hsymbol, hplaces.name, hv, ?_⟩
    rw [hplaces.var hv]
    exact Nat.sub_le ..
  · obtain ⟨Δ, hbody, hagrees⟩ := Program.agrees_of_analyze h b hb
    refine ⟨Δ, hbody, fun e he => ?_⟩
    obtain ⟨type, hresolved⟩ := hparts b hb e he
    obtain ⟨τ, htype, hτ, rfl⟩ := hresolved.hasType hp.builtins hagrees
    exact ⟨τ, htype, hτ, hresolved.type?_node⟩
  · intro c hc
    obtain ⟨id, P, hlookup, hP, hsymbol, hargs⟩ := hcalls b hb c hc
    obtain ⟨i, hi, scope, hget, hmem, hplaces⟩ :=
      (hp.laid b hb).places_of_mem (Names.mem_of_lookup hlookup)
    obtain ⟨hlevel, hparams⟩ := hplaces.proc hP
    -- Scopes are listed from the innermost one, levels are counted from the outermost.
    have hindex : b.level + 1 - P.level = i := by omega
    refine ⟨id, P, hlookup, hsymbol, hplaces.name, hP, by omega, by omega,
      ⟨scope, by rw [hindex, hget], hmem⟩, hargs.length_eq.symm, fun param hparam => ?_⟩
    rw [hlevel]
    exact hparams param hparam
  · intro id q howner
    obtain ⟨P, hframed⟩ := (hp.laid b hb).framed howner
    refine ⟨(hnoted b hb).owner howner, ?_, P,
      SymbolTable.procedureAt?_of_get? hframed.symbol, hframed.level⟩
    simp [SymbolTable.name, hframed.symbol]

/-- In the nesting program the call in `count` denotes `count` itself, which is declared one
scope further out. The first reference in it denotes its own parameter. -/
theorem Program.nesting_annotations_exact :
    ∃ a b c r id id' P v, Program.nesting.analyze = .ok a ∧ Program.nesting.DistinctNodes ∧
    b ∈ Program.nesting.blocks ∧
      b.level = 2 ∧ c ∈ Stmt.callsAll b.body ∧ a.annotations.symbol? c.node = some id ∧
      a.symbols.name id = "count" ∧ a.symbols.procedureAt? id = some P ∧ P.level ≤ 3 ∧
      P.params.length = 1 ∧ .ref r ∈ Stmt.partsAll b.body ∧
      a.annotations.symbol? r.node = some id' ∧ a.symbols.name id' = "k" ∧
      a.symbols.variableAt? id' = some v ∧ v.level ≤ 2 := by
  obtain ⟨a, ha⟩ := Program.nesting_accepted
  have hnodes := Program.nesting_distinctNodes
  have hcheck : (Program.nesting.blocks.any fun b => (Stmt.callsAll b.body).any fun c =>
      ((Stmt.partsAll b.body).filterMap Expr.asRef?).any fun r =>
        decide (b.level = 2 ∧ c.callee.name = "count" ∧ c.args.length = 1 ∧
            r.name.name = "k")) = true := by
    decide +kernel
  obtain ⟨b, hb, hcheck⟩ := List.any_eq_true.mp hcheck
  obtain ⟨c, hc, hcheck⟩ := List.any_eq_true.mp hcheck
  obtain ⟨r, hr, hcheck⟩ := List.any_eq_true.mp hcheck
  obtain ⟨hlevel, hcallee, hargs, hname⟩ := of_decide_eq_true hcheck
  have hr : .ref r ∈ Stmt.partsAll b.body := by
    obtain ⟨e, he, her⟩ := List.mem_filterMap.mp hr
    cases e <;> cases her
    exact he
  obtain ⟨_, _, hexact⟩ := Program.annotations_exact ha hnodes
  obtain ⟨hrefs, _, hcallees, _⟩ := hexact b hb
  obtain ⟨id, P, _, hsymbol, hid, hP, _, hle, _, hparams, _⟩ := hcallees c hc
  obtain ⟨id', v, _, hsymbol', hid', hv, hle'⟩ := hrefs r hr
  rw [hlevel] at hle hle'
  exact ⟨a, b, c, r, id, id', P, v, ha, hnodes, hb, hlevel, hc, hsymbol, hid.trans hcallee,
    hP, hle, hparams.symm.trans hargs, hr, hsymbol', hid'.trans hname, hv, hle'⟩

end BlockLang
