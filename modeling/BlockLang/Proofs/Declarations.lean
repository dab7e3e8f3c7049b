import BlockLang.Proofs.WellTyped

/-!
# Declarations that are accepted

The checks of type expressions, variables, parameters and sections against their rules. A
check that succeeds leaves a state that represents the site behind the declaration; the
tables have grown and the scopes around are the same.

* `TypeExpr.denote_sound`, `TypeExpr.denote_succeeds`: type expressions. New types come
  behind the ones that are there, which is where the number of occurrences says they come.
* `Check.declareVariables_sound`, `Check.declareVariables_succeeds`: a group of names with
  one type, for variables and parameters alike.
* `ParamDecl.check_sound`, `TypeDecl.check_sound`, `VarDecl.check_sound` and their
  converses.
* `Decl.checkSections_sound`, `Decl.checkSections_succeeds`: the sections of a declaration
  part. The one defect that a check may stop with is that of a section behind a procedure
  (`Defect.misplacedSection`).

What a check leaves is said by `Check.Leaves` for a declaration and by `Check.DeclaresAll`
for a group of names, which also names the symbols. `CheckState.AddsTypes` and
`CheckState.Grows` are the parts that do not depend on the declaration. They compose, so
the induction over a list of declarations is done once for all kinds of them
(`Check.forM_sound`, `Check.forM_succeeds`).
-/

namespace BlockLang

open Check

variable {s : CheckState} {site : Site} {inner outer : Names}

/-! ## Type expressions -/

/-- What a type expression does to the state: its types are added, and `n` is the next free
number. -/
structure CheckState.AddsTypes (s s' : CheckState) (n : Nat) : Prop where
  le : s.types ≤ s'.types
  length : s'.types.length = n + 3
  rest : s' = { s with types := s'.types }

namespace CheckState.AddsTypes

variable {s' s'' : CheckState} {n n' : Nat}

theorem refl (h : s.types.length = n + 3) : s.AddsTypes s n := ⟨TypeTable.le_refl _, h, rfl⟩

theorem trans (h : s.AddsTypes s' n) (h' : s'.AddsTypes s'' n') : s.AddsTypes s'' n' :=
  ⟨TypeTable.le_trans h.le h'.le, h'.length, by rw [h'.rest, h.rest]⟩

/-- A state with more types stands for the place with as many occurrences behind it. -/
theorem models (h : s.AddsTypes s' n) (hs : s.Models site inner outer) :
    s'.Models { site with occurrences := n } inner outer := by
  rw [h.rest]
  exact hs.types h.le h.length

/-- A new type is one more occurrence. -/
theorem push (h : s.types.length = n + 3) (d : TypeDescriptor) :
    s.AddsTypes { s with types := (s.types.push d).2 } (n + 1) :=
  ⟨TypeTable.le_push _ _, by rw [TypeTable.length_push, h], rfl⟩

end CheckState.AddsTypes

/-- A new array type is in the table that got it. -/
theorem Ty.in_push_array {t : TypeTable} {n : Nat} (ht : t.length = n + 3) {τ : Ty}
    (hτ : τ.In t) {low high : Word} (hbounds : low ≤ high) : (Ty.array n low high τ).In
    (t.push (.array τ.id low high (Ty.count low high * τ.size))).2 :=
  ⟨hτ.mono (TypeTable.le_push _ _), hbounds, by rw [TypeTable.get?_push, if_pos ht.symm]⟩

/-- A new record type is in the table that got it. -/
theorem Ty.in_push_record {t : TypeTable} {n : Nat} (ht : t.length = n + 3)
    {φs : List (String × Ty)} (hφs : Ty.AllIn t φs) {fields : List Field}
    (hmap : fields.map (fun f => (f.name, f.type)) = φs.map (fun φ => (φ.1, φ.2.id))) :
    (Ty.record n φs).In (t.push (.record fields (Ty.sizeAll φs))).2 :=
  ⟨hφs.mono (TypeTable.le_push _ _), fields,
    by rw [TypeTable.get?_push, if_pos ht.symm], hmap⟩

/-- The check yields the type and has added the types up to the number `n`. -/
def Check.GivesType (s : CheckState) (τ : Ty) (n : Nat) (type : TypeId)
    (s' : CheckState) : Prop :=
  type = τ.id ∧ τ.In s'.types ∧ s.AddsTypes s' n

/-- The check yields the fields of a record. -/
def Check.GivesFields (s : CheckState) (φs : List (String × Ty)) (n : Nat)
    (fields : List (String × TypeId)) (s' : CheckState) : Prop :=
  fields = φs.map (fun φ => (φ.1, φ.2.id)) ∧ Ty.AllIn s'.types φs ∧ s.AddsTypes s' n

/-- An array type is added exactly if its elements and its words can be counted. -/
theorem Check.addArray_cases {n : Nat} (ht : s.types.length = n + 3) {τ : Ty}
    (hτ : τ.In s.types) {low high : Word} (hbounds : low ≤ high) (span : Span) :
    (Word.Fits (Ty.count low high) ∧ Word.Fits (Ty.count low high * τ.size) ∧
      Succeeds (addType span (·.addArray? τ.id low high)) s
      (GivesType s (.array n low high τ) (n + 1))) ∨
    (¬ (Word.Fits (Ty.count low high) ∧ Word.Fits (Ty.count low high * τ.size)) ∧
      (addType span (·.addArray? τ.id low high)).run s =
      .error (.diagnostic ⟨span, .storageOverflow⟩)) := by
  have hrun := addType_run span (·.addArray? τ.id low high) s
  rw [TypeTable.addArray?_eq hτ hbounds] at hrun
  by_cases hfits : Word.Fits (Ty.count low high) ∧ Word.Fits (Ty.count low high * τ.size)
  · rw [if_pos hfits] at hrun
    refine .inl ⟨hfits.1, hfits.2, _, _, hrun, ?_, Ty.in_push_array ht hτ hbounds, .push ht _⟩
    exact congrArg TypeId.mk ht
  · rw [if_neg hfits] at hrun
    exact .inr ⟨hfits, hrun⟩

/-- A record type is added exactly if its words can be counted. -/
theorem Check.addRecord_cases {n : Nat} (ht : s.types.length = n + 3)
    {φs : List (String × Ty)} (hφs : Ty.AllIn s.types φs) (span : Span) :
    (Word.Fits (Ty.sizeAll φs) ∧
      Succeeds (addType span (·.addRecord? (φs.map fun φ => (φ.1, φ.2.id)))) s
      (GivesType s (.record n φs) (n + 1))) ∨
    (¬ Word.Fits (Ty.sizeAll φs) ∧
      (addType span (·.addRecord? (φs.map fun φ => (φ.1, φ.2.id)))).run s =
        .error (.diagnostic ⟨span, .storageOverflow⟩)) := by
  have hrun := addType_run span (·.addRecord? (φs.map fun φ => (φ.1, φ.2.id))) s
  have hlay := TypeTable.layFields?_eq hφs (Int.le_refl 0) (by decide)
  rw [Int.zero_add] at hlay
  rcases hlay with ⟨hfits, fields, hlay, hmap⟩ | ⟨hfits, hlay⟩
  · simp only [TypeTable.addRecord?, hlay] at hrun
    refine .inl ⟨hfits, _, _, hrun, ?_, Ty.in_push_record ht hφs hmap, .push ht _⟩
    exact congrArg TypeId.mk ht
  · simp only [TypeTable.addRecord?, hlay] at hrun
    exact .inr ⟨hfits, hrun⟩

mutual

/-- A type expression that is accepted denotes a type, and the check gives its identity. -/
theorem TypeExpr.denote_sound :
    ∀ (te : TypeExpr) {site : Site} {s : CheckState}, s.Models site inner outer →
    Sound te.denote s fun type s' =>
      ∃ τ n, te.Denotes site.context site.occurrences τ n ∧ GivesType s τ n type s'
  | .integer _, site, s, h => by
    rw [TypeExpr.denote]
    exact .pure ⟨.integer, _, .integer, rfl, Ty.in_integer h, .refl h.occurrences⟩
  | .char _, site, s, h => by
    rw [TypeExpr.denote]
    exact .pure ⟨.char, _, .char, rfl, Ty.in_char h, .refl h.occurrences⟩
  | .named name, site, s, h => by
    rw [TypeExpr.denote]
    have hrun := namedType_run name s
    rcases h.lookup name.name with ⟨_, hid⟩ | ⟨d, id, hd, hid, hmeans⟩
    · exact .of_refusal (by rw [hrun, hid])
    · rw [hid] at hrun
      dsimp only at hrun
      cases htype : s.symbols.typeAt? id with
      | none => exact .of_refusal (by rw [hrun, htype])
      | some type =>
        refine .of_run (by rw [hrun, htype]) ?_
        have hm := SymbolTable.typeAt?_eq_some_iff.mp htype
        -- The name denotes a type for the rules exactly if it does in the table.
        cases d with
        | type τ =>
          rw [SymbolTable.typeAt?_eq_some_iff.mp hmeans.2] at hm
          cases hm
          exact ⟨τ, _, .named hd, rfl, hmeans.1, .refl h.occurrences⟩
        | var τ =>
          obtain ⟨_, v, hv, _⟩ := hmeans
          rw [SymbolTable.variableAt?_eq_some_iff.mp hv] at hm
          cases hm
        | proc formals =>
          obtain ⟨p, hp, _⟩ := hmeans
          rw [SymbolTable.procedureAt?_eq_some_iff.mp hp] at hm
          cases hm
  | .array low high element span, site, s, h => by
    rw [TypeExpr.denote]
    by_cases hbounds : low ≤ high
    · rw [if_pos hbounds]
      refine .bind (TypeExpr.denote_sound element h) ?_
      rintro _ s₁ ⟨τ, n, hdenotes, rfl, hτ, hadds⟩
      -- The table refuses an array exactly if its length or its size is no word.
      rcases addArray_cases hadds.length hτ hbounds span with
        ⟨hcount, hsize, hsucceeds⟩ | ⟨_, hrun⟩
      · obtain ⟨type, s₂, hrun, htype, hin, hadds'⟩ := hsucceeds
        exact .of_run hrun ⟨_, _, .array hbounds hdenotes hcount hsize, htype, hin,
          hadds.trans hadds'⟩
      · exact .of_refusal hrun
    · rw [if_neg hbounds]
      exact .of_refusal rfl
  | .record fields span, site, s, h => by
    rw [TypeExpr.denote]
    refine .bind (TypeExpr.denoteFields_sound fields h) ?_
    rintro _ s₁ ⟨φs, n, hdenotes, rfl, hφs, hadds⟩
    rcases addRecord_cases hadds.length hφs span with ⟨hsize, hsucceeds⟩ | ⟨_, hrun⟩
    · obtain ⟨type, s₂, hrun, htype, hin, hadds'⟩ := hsucceeds
      exact .of_run hrun ⟨_, _, .record hdenotes hsize, htype, hin, hadds.trans hadds'⟩
    · exact .of_refusal hrun

theorem TypeExpr.denoteFields_sound :
    ∀ (groups : List (FieldGroup TypeExpr)) {site : Site} {s : CheckState},
    s.Models site inner outer → Sound (TypeExpr.denoteFields groups) s fun fields s' =>
      ∃ φs n, TypeExpr.DenotesFields site.context site.occurrences groups φs n ∧
        GivesFields s φs n fields s'
  | [], site, s, h => by
    rw [TypeExpr.denoteFields]
    exact .pure ⟨[], _, .nil, rfl, trivial, .refl h.occurrences⟩
  | ⟨names, type, span⟩ :: rest, site, s, h => by
    rw [TypeExpr.denoteFields]
    refine .bind (TypeExpr.denote_sound type h) ?_
    rintro _ s₁ ⟨τ, n, htype, rfl, hτ, hadds₁⟩
    refine .bind (TypeExpr.denoteFields_sound rest (hadds₁.models h)) ?_
    rintro _ s₂ ⟨φs, n', hrest, rfl, hφs, hadds₂⟩
    refine .pure ⟨_, n', .cons htype hrest, ?_,
      (Ty.AllIn.group (hτ.mono hadds₂.le) names).append hφs, hadds₁.trans hadds₂⟩
    simp

end

mutual

/-- A type expression that denotes a type is accepted. -/
theorem TypeExpr.denote_succeeds :
    ∀ {te : TypeExpr} {site : Site} {s : CheckState}, s.Models site inner outer →
    ∀ {τ : Ty} {n : Nat}, te.Denotes site.context site.occurrences τ n →
    Succeeds te.denote s (GivesType s τ n)
  | .integer _, _, s, h, _, _, .integer => by
    rw [TypeExpr.denote]
    exact .pure ⟨rfl, Ty.in_integer h, .refl h.occurrences⟩
  | .char _, _, s, h, _, _, .char => by
    rw [TypeExpr.denote]
    exact .pure ⟨rfl, Ty.in_char h, .refl h.occurrences⟩
  | .named name, _, s, h, τ, _, .named hlookup => by
    rw [TypeExpr.denote]
    obtain ⟨id, hid, hin, htype⟩ := h.lookup_of_some hlookup
    refine ⟨τ.id, s, ?_, rfl, hin, .refl h.occurrences⟩
    rw [namedType_run, hid]
    dsimp only
    rw [htype]
  | .array low high element span, _, s, h, _, _, .array hbounds hdenotes hcount hsize => by
    rw [TypeExpr.denote, if_pos hbounds]
    refine .bind (TypeExpr.denote_succeeds h hdenotes) ?_
    rintro _ s₁ ⟨rfl, hτ, hadds⟩
    rcases addArray_cases hadds.length hτ hbounds span with ⟨_, _, hsucceeds⟩ | ⟨hfits, _⟩
    · exact hsucceeds.mono fun _ _ ⟨htype, hin, hadds'⟩ => ⟨htype, hin, hadds.trans hadds'⟩
    · exact absurd ⟨hcount, hsize⟩ hfits
  | .record fields span, _, s, h, _, _, .record hdenotes hsize => by
    rw [TypeExpr.denote]
    refine .bind (TypeExpr.denoteFields_succeeds h hdenotes) ?_
    rintro _ s₁ ⟨rfl, hφs, hadds⟩
    rcases addRecord_cases hadds.length hφs span with ⟨_, hsucceeds⟩ | ⟨hfits, _⟩
    · exact hsucceeds.mono fun _ _ ⟨htype, hin, hadds'⟩ => ⟨htype, hin, hadds.trans hadds'⟩
    · exact absurd hsize hfits

theorem TypeExpr.denoteFields_succeeds :
    ∀ {groups : List (FieldGroup TypeExpr)} {site : Site} {s : CheckState},
    s.Models site inner outer → ∀ {φs : List (String × Ty)} {n : Nat},
    TypeExpr.DenotesFields site.context site.occurrences groups φs n →
    Succeeds (TypeExpr.denoteFields groups) s (GivesFields s φs n)
  | [], _, s, h, _, _, .nil => by
    rw [TypeExpr.denoteFields]
    exact .pure ⟨rfl, trivial, .refl h.occurrences⟩
  | ⟨names, type, span⟩ :: rest, _, s, h, _, _, .cons htype hrest => by
    rw [TypeExpr.denoteFields]
    refine .bind (TypeExpr.denote_succeeds h htype) ?_
    rintro _ s₁ ⟨rfl, hτ, hadds₁⟩
    refine .bind (TypeExpr.denoteFields_succeeds (hadds₁.models h) hrest) ?_
    rintro _ s₂ ⟨rfl, hφs, hadds₂⟩
    refine .pure ⟨?_, (Ty.AllIn.group (hτ.mono hadds₂.le) names).append hφs,
      hadds₁.trans hadds₂⟩
    simp

end

/-! ## Variables and parameters -/

/-- What declarations do to the state: tables grow and the scopes around stay. -/
structure CheckState.Grows (s s' : CheckState) : Prop where
  types : s.types ≤ s'.types
  symbols : s.symbols ≤ s'.symbols
  outer : s'.scopes.outer = s.scopes.outer

namespace CheckState.Grows

variable {s' s'' : CheckState}

theorem refl (s : CheckState) : s.Grows s := ⟨TypeTable.le_refl _, SymbolTable.le_refl _, rfl⟩

theorem trans (h : s.Grows s') (h' : s'.Grows s'') : s.Grows s'' :=
  ⟨TypeTable.le_trans h.types h'.types, SymbolTable.le_trans h.symbols h'.symbols,
    h'.outer.trans h.outer⟩

/-- New types make a state grow. -/
theorem of_addsTypes {n : Nat} (h : s.AddsTypes s' n) : s.Grows s' := by
  refine ⟨h.le, ?_, ?_⟩
  · rw [h.rest]
    exact SymbolTable.le_refl _
  · rw [h.rest]

theorem of_notes (h : s.Notes s') : s.Grows s' := by
  rw [h]
  exact ⟨TypeTable.le_refl _, SymbolTable.le_refl _, rfl⟩

theorem declared (s : CheckState) (name : Ident) (meaning : Meaning) :
    s.Grows (s.declared name meaning) :=
  ⟨TypeTable.le_refl _, SymbolTable.le_add _ _, rfl⟩

/-- A state that grows stays at its level. -/
theorem level (h : s.Grows s') : s'.scopes.level = s.scopes.level :=
  congrArg List.length h.outer

end CheckState.Grows

/-- A parameter takes a word for an address, or the words of its type. -/
theorem ParamMode.slotSize_access {τ : Ty} (hτ : τ.In s.types) (mode : ParamMode) :
    slotSize s.types τ.id mode.access = mode.words τ := by
  cases mode with
  | value => exact hτ.size_eq
  | reference => rfl

/-- A declared variable has its symbol. -/
theorem CheckState.variableAt?_declared (s : CheckState) (name : Ident) (v : Variable) :
    (s.declared name (.var v)).symbols.variableAt? ⟨s.symbols.length⟩ = some v :=
  SymbolTable.variableAt?_eq_some_iff.mpr
    (congrArg (Option.map Symbol.meaning) (SymbolTable.get?_add_self _ _))

/-- The state after a variable stands for the place behind it, with less room in the frame. -/
theorem CheckState.Models.declaredVariable (h : s.Models site inner outer) {τ : Ty}
    (hτ : τ.In s.types) (mode : ParamMode) (name : Ident) :
    (s.declaredVariable τ.id mode.access name).Models
      ⟨site.context.declare name.name (.var τ), site.occurrences, site.offset + mode.words τ⟩
      ((name.name, ⟨s.symbols.length⟩) :: inner) outer := by
  let v : Variable := ⟨τ.id, mode.access, s.scopes.level, s.scopes.offset⟩
  have hdeclared := h.declared name (.var v) (.var τ)
    ⟨hτ, v, s.variableAt?_declared name v, rfl⟩
  refine ⟨hdeclared.builtins, hdeclared.occurrences, ?_, hdeclared.shows.allocated _,
    hdeclared.scope, hdeclared.around⟩
  show s.scopes.offset + slotSize s.types τ.id mode.access = _
  rw [ParamMode.slotSize_access hτ, h.offset]

/-- What the declaration of variables leaves: the names were added in front of the innermost
scope, and each has a symbol of the mode and type. -/
def Check.DeclaresAll (s : CheckState) (inner outer : Names) (formals : List (ParamMode × Ty))
    (site' : Site) (s' : CheckState) : Prop :=
  ∃ added, s'.Models site' (added ++ inner) outer ∧ s.Grows s' ∧
    List.Forall₂ (FormalMeans s'.types s'.symbols) formals (added.map (·.2)).reverse

theorem Check.DeclaresAll.nil (h : s.Models site inner outer) :
    DeclaresAll s inner outer [] site s :=
  ⟨[], h, .refl s, .nil⟩

/-- Declarations one after the other. -/
theorem Check.DeclaresAll.append {s' s'' : CheckState} {site'' : Site} (added : Names)
    {formals formals' : List (ParamMode × Ty)} (hgrows : s.Grows s')
    (hformals :
      List.Forall₂ (FormalMeans s'.types s'.symbols) formals (added.map (·.2)).reverse)
    (h' : DeclaresAll s' (added ++ inner) outer formals' site'' s'') :
    DeclaresAll s inner outer (formals ++ formals') site'' s'' := by
  obtain ⟨added', hmodels, hgrows', hformals'⟩ := h'
  refine ⟨added' ++ added, by rwa [List.append_assoc], hgrows.trans hgrows', ?_⟩
  rw [List.map_append, List.reverse_append]
  exact List.rel_append (hformals.imp fun _ _ hf =>
    hf.mono hgrows'.types hgrows'.symbols) hformals'

/-- One variable is declared exactly if its name is fresh and its words have a place. -/
theorem Check.declareVariable_cases (h : s.Models site inner outer) {τ : Ty}
    (hτ : τ.In s.types) (mode : ParamMode) (name : Ident) :
    (site.context.Fresh name.name ∧ Word.Fits (site.offset + mode.words τ) ∧
      (declareVariable τ.id mode.access name).run s =
      .ok ((), s.declaredVariable τ.id mode.access name)) ∨
    (¬ (site.context.Fresh name.name ∧ Word.Fits (site.offset + mode.words τ)) ∧
      ∃ d, (declareVariable τ.id mode.access name).run s = .error (.diagnostic d)) := by
  have hrun := declareVariable_run τ.id mode.access name s
  rw [ParamMode.slotSize_access hτ, h.offset] at hrun
  by_cases hcontains : s.scopes.inner.names.contains name.name = true
  · rw [if_pos hcontains] at hrun
    exact .inr ⟨fun hfresh => (h.fresh_iff _).mp hfresh.1 hcontains, _, hrun⟩
  · have hfresh := (h.fresh_iff _).mpr hcontains
    rw [if_neg hcontains] at hrun
    by_cases hfits : Word.Fits (site.offset + mode.words τ)
    · rw [if_pos hfits] at hrun
      exact .inl ⟨hfresh, hfits, hrun⟩
    · rw [if_neg hfits] at hrun
      exact .inr ⟨fun hboth => hfits hboth.2, _, hrun⟩

/-- One more declared variable in front of those that follow. -/
theorem Check.DeclaresAll.cons (hτ : τ.In s.types) {mode : ParamMode} {name : Ident}
    {s' : CheckState} {site' : Site} {formals : List (ParamMode × Ty)}
    (h' : DeclaresAll (s.declaredVariable τ.id mode.access name)
      ((name.name, ⟨s.symbols.length⟩) :: inner) outer
      formals site' s') :
    DeclaresAll s inner outer ((mode, τ) :: formals) site' s' := by
  have hgrows : s.Grows (s.declaredVariable τ.id mode.access name) :=
    ⟨TypeTable.le_refl _, SymbolTable.le_add _ _, rfl⟩
  have hformal : FormalMeans s.types (s.declaredVariable τ.id mode.access name).symbols (mode,
      τ) ⟨s.symbols.length⟩ :=
    ⟨hτ, _, s.variableAt?_declared name _, rfl, rfl⟩
  exact .append [(name.name, ⟨s.symbols.length⟩)] hgrows (.cons hformal .nil) h'

/-- A group of names that is accepted is declared by the rules, name by name. -/
theorem Check.declareVariables_sound {τ : Ty} (mode : ParamMode) :
    ∀ (names : List Ident) {site : Site} {inner : Names} {s : CheckState},
    s.Models site inner outer → τ.In s.types →
    Sound (declareVariables τ.id mode.access names) s fun _ s' =>
      ∃ site', site.Declares τ (mode.words τ) names site' ∧
        DeclaresAll s inner outer (names.map fun _ => (mode, τ)) site' s'
  | [], site, inner, s, h, _ => .pure ⟨site, .nil, .nil h⟩
  | name :: rest, site, inner, s, h, hτ => by
    show Sound
      (do declareVariable τ.id mode.access name; declareVariables τ.id mode.access rest) s _
    rcases declareVariable_cases h hτ mode name with ⟨hfresh, hfits, hrun⟩ | ⟨_, d, hrun⟩
    · refine .step hrun ?_
      refine (declareVariables_sound mode rest (h.declaredVariable hτ mode name) hτ).mono ?_
        (fun _ h => h)
      rintro _ s' ⟨site', hdeclares, hall⟩
      exact ⟨site', .cons hfresh hfits hdeclares, hall.cons hτ⟩
    · exact .of_refusal (run_bind_of_error hrun)

/-- A group of names that may be declared is accepted. -/
theorem Check.declareVariables_succeeds {τ : Ty} (mode : ParamMode) :
    ∀ {names : List Ident} {site site' : Site} {inner : Names} {s : CheckState},
    s.Models site inner outer → τ.In s.types → site.Declares τ (mode.words τ) names site' →
    Succeeds (declareVariables τ.id mode.access names) s fun _ s' =>
      DeclaresAll s inner outer (names.map fun _ => (mode, τ)) site' s'
  | [], _, _, _, _, h, _, .nil => .pure (.nil h)
  | name :: rest, _, _, _, s, h, hτ, .cons hfresh hfits hdeclares => by
    show Succeeds
      (do declareVariable τ.id mode.access name; declareVariables τ.id mode.access rest) s _
    rcases declareVariable_cases h hτ mode name with ⟨_, _, hrun⟩ | ⟨hnot, _⟩
    · refine .step hrun ?_
      refine (declareVariables_succeeds mode (h.declaredVariable hτ mode name) hτ
        hdeclares).mono ?_
      exact fun _ _ hall => hall.cons hτ
    · exact absurd ⟨hfresh, hfits⟩ hnot

/-- Variables or parameters of one type. -/
theorem Check.group_sound (h : s.Models site inner outer)
    (type : TypeExpr) (mode : ParamMode) (names : List Ident) :
    Sound (do declareVariables (← type.denote) mode.access names) s fun _ s' =>
      ∃ τ n site', type.Denotes site.context site.occurrences τ n ∧
        Site.Declares τ (mode.words τ) { site with occurrences := n } names site' ∧
        DeclaresAll s inner outer (names.map fun _ => (mode, τ)) site' s' := by
  refine .bind (type.denote_sound h) ?_
  rintro _ s₁ ⟨τ, n, hdenotes, rfl, hτ, hadds⟩
  refine (declareVariables_sound mode names (hadds.models h) hτ).mono ?_ (fun _ h => h)
  rintro _ s₂ ⟨site', hdeclares, added, hmodels, hgrows, hformals⟩
  exact ⟨τ, n, site', hdenotes, hdeclares, added, hmodels,
    (CheckState.Grows.of_addsTypes hadds).trans hgrows, hformals⟩

theorem Check.group_succeeds (h : s.Models site inner outer) {type : TypeExpr}
    (mode : ParamMode) {names : List Ident} {τ : Ty} {n : Nat} {site' : Site}
    (hdenotes : type.Denotes site.context site.occurrences τ n)
    (hdeclares : Site.Declares τ (mode.words τ) { site with occurrences := n } names site') :
    Succeeds (do declareVariables (← type.denote) mode.access names) s fun _ s' =>
      DeclaresAll s inner outer (names.map fun _ => (mode, τ)) site' s' := by
  refine .bind (TypeExpr.denote_succeeds h hdenotes) ?_
  rintro _ s₁ ⟨rfl, hτ, hadds⟩
  refine (declareVariables_succeeds mode (hadds.models h) hτ hdeclares).mono ?_
  rintro _ s₂ ⟨added, hmodels, hgrows, hformals⟩
  exact ⟨added, hmodels, (CheckState.Grows.of_addsTypes hadds).trans hgrows, hformals⟩

/-- Parameters that are accepted are well-formed; their modes and types are those of the
symbols. -/
theorem ParamDecl.check_sound :
    ∀ (params : List ParamDecl) {site : Site} {inner : Names} {s : CheckState},
    s.Models site inner outer → Sound (params.forM ParamDecl.check) s fun _ s' =>
      ∃ formals site', ParamDecl.WellFormed site params formals site' ∧
        DeclaresAll s inner outer formals site' s'
  | [], site, inner, s, h => .pure ⟨[], site, .nil, .nil h⟩
  | ⟨node, mode, names, type, span⟩ :: rest, site, inner, s, h => by
    refine .bind (group_sound h type mode names) ?_
    rintro _ s₁ ⟨τ, n, site', hdenotes, hdeclares, added, hmodels, hgrows, hformals⟩
    refine (ParamDecl.check_sound rest hmodels).mono ?_ (fun _ h => h)
    rintro _ s₂ ⟨formals, site'', hrest, hall⟩
    exact ⟨_, site'', .cons hdenotes hdeclares hrest, .append added hgrows hformals hall⟩

/-- Well-formed parameters are accepted. -/
theorem ParamDecl.check_succeeds :
    ∀ {params : List ParamDecl} {site : Site} {inner : Names} {s : CheckState},
    s.Models site inner outer → ∀ {formals : List (ParamMode × Ty)} {site' : Site},
    ParamDecl.WellFormed site params formals site' →
    Succeeds (params.forM ParamDecl.check) s fun _ s' =>
    DeclaresAll s inner outer formals site' s'
  | [], _, _, _, h, _, _, .nil => .pure (.nil h)
  | ⟨node, mode, names, type, span⟩ :: rest, _, inner, s, h, _, _,
      .cons hdenotes hdeclares hrest => by
    refine .bind (group_succeeds h mode hdenotes hdeclares) ?_
    rintro _ s₁ ⟨added, hmodels, hgrows, hformals⟩
    exact (ParamDecl.check_succeeds hmodels hrest).mono fun _ _ hall =>
      .append added hgrows hformals hall

/-! ## Sections -/

/-- What sections and procedures leave behind: some site with the property, with the same
scopes around it. -/
def Check.Leaves (s : CheckState) (around : List (String × Declared)) (outer : Names)
    (P : Site → Prop) (s' : CheckState) : Prop :=
  ∃ site' inner', P site' ∧ site'.context.around = around ∧ s'.Models site' inner' outer ∧
    s.Grows s'

/-- What is left in the end, if something was left on the way. -/
theorem Check.Leaves.after {s s₁ s₂ : CheckState}
    {around around₁ : List (String × Declared)} {P Q : Site → Prop}
    (h : Leaves s₁ around₁ outer Q s₂) (haround : around₁ = around) (hgrows : s.Grows s₁)
    (hP : ∀ site', Q site' → P site') : Leaves s around outer P s₂ := by
  obtain ⟨site₂, inner₂, hQ, haround₂, hmodels, hgrows₂⟩ := h
  exact ⟨site₂, inner₂, hP _ hQ, haround₂.trans haround, hmodels, hgrows.trans hgrows₂⟩

/-- Declarations concern the innermost scope. -/
theorem Site.Declares.around {τ : Ty} {words : Int} {names : List Ident} {site' : Site}
    (h : site.Declares τ words names site') : site'.context.around = site.context.around := by
  induction h with
  | nil => rfl
  | cons _ _ _ ih => exact ih

/-- A name is declared exactly if it is fresh. -/
theorem Check.declare_cases (h : s.Models site inner outer)
    (name : Ident) (meaning : Meaning) :
    (site.context.Fresh name.name ∧
      (declare name meaning).run s = .ok (⟨s.symbols.length⟩, s.declared name meaning)) ∨
    (¬ site.context.Fresh name.name ∧
      ∃ d, (declare name meaning).run s = .error (.diagnostic d)) := by
  have hrun := declare_run name meaning s
  by_cases hcontains : s.scopes.inner.names.contains name.name = true
  · rw [if_pos hcontains] at hrun
    exact .inr ⟨fun hfresh => (h.fresh_iff _).mp hfresh hcontains, _, hrun⟩
  · rw [if_neg hcontains] at hrun
    exact .inl ⟨(h.fresh_iff _).mpr hcontains, hrun⟩

/-- The state after a type declaration. -/
theorem Check.leaves_type (h : s.Models site inner outer) {s₁ : CheckState} {τ : Ty} {n : Nat}
    (hτ : τ.In s₁.types) (hadds : s.AddsTypes s₁ n) (name : Ident) {P : Site → Prop}
    (hP : P ⟨site.context.declare name.name (.type τ), n, site.offset⟩) :
    Leaves s site.context.around outer P (s₁.declared name (.type τ.id)) := by
  have htype :
      (s₁.declared name (.type τ.id)).symbols.typeAt? ⟨s₁.symbols.length⟩ = some τ.id :=
    SymbolTable.typeAt?_eq_some_iff.mpr
      (congrArg (Option.map Symbol.meaning) (SymbolTable.get?_add_self _ _))
  exact ⟨_, _, hP, rfl, (hadds.models h).declared name _ (.type τ) ⟨hτ, htype⟩,
    (CheckState.Grows.of_addsTypes hadds).trans (.declared ..)⟩

/-- A type declaration that is accepted is well-formed. -/
theorem TypeDecl.check_sound (h : s.Models site inner outer) (d : TypeDecl) :
    Sound d.check s fun _ =>
    Leaves s site.context.around outer (TypeDecl.WellFormed site d) := by
  obtain ⟨name, type, span⟩ := d
  unfold TypeDecl.check
  refine .bind (type.denote_sound h) ?_
  rintro _ s₁ ⟨τ, n, hdenotes, rfl, hτ, hadds⟩
  rcases declare_cases (hadds.models h) name (.type τ.id) with ⟨hfresh, hrun⟩ | ⟨_, d, hrun⟩
  · exact .step hrun (.pure (leaves_type h hτ hadds name (.intro hdenotes hfresh)))
  · exact .of_refusal (run_bind_of_error hrun)

theorem TypeDecl.check_succeeds (h : s.Models site inner outer) {d : TypeDecl} {site' : Site}
    (hd : TypeDecl.WellFormed site d site') :
    Succeeds d.check s fun _ => Leaves s site.context.around outer (· = site') := by
  cases hd with
  | @intro _ _ _ _ name _ _ τ hdenotes hfresh =>
    unfold TypeDecl.check
    refine .bind (TypeExpr.denote_succeeds h hdenotes) ?_
    rintro _ s₁ ⟨rfl, hτ, hadds⟩
    rcases declare_cases (hadds.models h) name (.type τ.id) with ⟨_, hrun⟩ | ⟨hnot, _⟩
    · exact .step hrun (.pure (leaves_type h hτ hadds name rfl))
    · exact absurd hfresh hnot

/-- A variable declaration that is accepted is well-formed. -/
theorem VarDecl.check_sound (h : s.Models site inner outer) (d : VarDecl) :
    Sound d.check s fun _ =>
    Leaves s site.context.around outer (VarDecl.WellFormed site d) := by
  obtain ⟨node, names, type, span⟩ := d
  refine .mono (group_sound h type .value names) ?_ (fun _ h => h)
  rintro _ s' ⟨τ, n, site', hdenotes, hdeclares, added, hmodels, hgrows, _⟩
  exact ⟨site', _, .intro hdenotes hdeclares, hdeclares.around, hmodels, hgrows⟩

theorem VarDecl.check_succeeds (h : s.Models site inner outer) {d : VarDecl} {site' : Site}
    (hd : VarDecl.WellFormed site d site') :
    Succeeds d.check s fun _ => Leaves s site.context.around outer (· = site') := by
  cases hd with
  | intro hdenotes hdeclares =>
    refine .mono (group_succeeds h .value hdenotes hdeclares) ?_
    rintro _ s' ⟨added, hmodels, hgrows, _⟩
    exact ⟨_, _, rfl, hdeclares.around, hmodels, hgrows⟩

/-- Declarations that are checked in turn. -/
theorem Check.forM_sound {α : Type} {check : α → Check Unit} {step : Site → α → Site → Prop}
    (hstep : ∀ {site : Site} {inner : Names} {s : CheckState},
      s.Models site inner outer → ∀ item,
      Sound (check item) s fun _ => Leaves s site.context.around outer (step site item)) :
    ∀ (items : List α) {site : Site} {inner : Names} {s : CheckState},
      s.Models site inner outer →
      Sound (items.forM check) s fun _ =>
      Leaves s site.context.around outer (site.Chain step items)
  | [], site, inner, s, h => .pure ⟨site, inner, .nil, rfl, h, .refl s⟩
  | item :: rest, site, inner, s, h => by
    refine .bind (hstep h item) ?_
    rintro _ s₁ ⟨site₁, inner₁, hitem, haround₁, h₁, hgrows₁⟩
    exact .mono (forM_sound hstep rest h₁) (fun _ _ hrest =>
      hrest.after haround₁ hgrows₁ fun _ => .cons hitem) (fun _ h => h)

/-- If each item of a list is accepted where it is well-formed, so is a list of well-formed
items. -/
theorem Check.forM_succeeds {α : Type} {check : α → Check Unit}
    {step : Site → α → Site → Prop} (hstep : ∀ {site : Site} {inner : Names} {s : CheckState},
      s.Models site inner outer → ∀ {item site'},
      step site item site' → Succeeds (check item) s fun _ =>
      Leaves s site.context.around outer (· = site')) :
    ∀ {items : List α} {site : Site} {inner : Names} {s : CheckState},
      s.Models site inner outer →
      ∀ {site' : Site}, site.Chain step items site' →
      Succeeds (items.forM check) s fun _ => Leaves s site.context.around outer (· = site')
  | [], site, inner, s, h, _, .nil => .pure ⟨site, inner, rfl, rfl, h, .refl s⟩
  | item :: rest, site, inner, s, h, _, .cons hitem hrest => by
    refine .bind (hstep h hitem) ?_
    rintro _ s₁ ⟨_, inner₁, rfl, haround₁, h₁, hgrows₁⟩
    exact .mono (forM_succeeds hstep h₁ hrest) fun _ _ hrest =>
      hrest.after haround₁ hgrows₁ fun _ h => h

/-- The span of a type or variable section. -/
def Decl.sectionSpan? : Decl → Option Span
  | .types _ span => some span
  | .vars _ span => some span
  | .procedure _ => none

/-- The defect of a section that stands behind a procedure. -/
def Defect.misplacedSection (span : Span) : Defect :=
  .malformedTree "declaration section after a procedure" span

/-- A section of the list stands behind a procedure, or behind the list's start if a procedure
stands before that. -/
def Decl.SectionBehind (afterProcedure : Bool) (decls : List Decl) (span : Span) : Prop :=
  ∃ before d after, decls = before ++ d :: after ∧ d.sectionSpan? = some span ∧
    (afterProcedure = true ∨ ∃ p, Decl.procedure p ∈ before)

theorem Decl.SectionBehind.cons {d : Decl} {decls : List Decl} {span : Span}
    {afterProcedure : Bool} (h : Decl.SectionBehind afterProcedure decls span)
    (hd : afterProcedure = true → ∃ p, d = .procedure p)
    (flag : Bool) : Decl.SectionBehind flag (d :: decls) span := by
  obtain ⟨before, d', after, rfl, hspan, hbehind⟩ := h
  refine ⟨d :: before, d', after, rfl, hspan, .inr ?_⟩
  rcases hbehind with hflag | ⟨p, hp⟩
  · obtain ⟨p, rfl⟩ := hd hflag
    exact ⟨p, List.mem_cons_self⟩
  · exact ⟨p, List.mem_cons_of_mem _ hp⟩

/-- Sections come first and leave the site; the rest are procedures. -/
def Decl.SectionsFirst (site : Site) (afterProcedure : Bool) (decls : List Decl)
    (site' : Site) : Prop :=
  ∃ sections procedures, decls = sections ++ procedures ∧
    site.Chain Decl.SectionWellFormed sections site' ∧
    (∀ d ∈ procedures, d.asProcedure?.isSome = true) ∧ (afterProcedure = true → sections = [])

theorem Decl.SectionsFirst.section {d : Decl} {decls : List Decl} {site₁ site₂ : Site}
    (hd : Decl.SectionWellFormed site d site₁)
    (h : Decl.SectionsFirst site₁ false decls site₂) :
    Decl.SectionsFirst site false (d :: decls) site₂ := by
  obtain ⟨sections, procedures, rfl, hchain, hprocedures, _⟩ := h
  exact ⟨d :: sections, procedures, rfl, .cons hd hchain, hprocedures, by simp⟩

/-- Sections that are accepted are well-formed and stand before all procedures; otherwise the
check may stop at one that does not. -/
theorem Decl.checkSections_sound : ∀ (decls : List Decl) (afterProcedure : Bool) {site : Site}
    {inner : Names} {s : CheckState}, s.Models site inner outer →
    Sound (Decl.checkSections afterProcedure decls) s
      (fun _ => Leaves s site.context.around outer
        (Decl.SectionsFirst site afterProcedure decls)) (fun defect => ∃ span,
        defect = .misplacedSection span ∧ Decl.SectionBehind afterProcedure decls span)
  | [], afterProcedure, site, inner, s, h =>
    .pure ⟨site, inner, ⟨[], [], rfl, .nil, by simp, by simp⟩, rfl, h, .refl s⟩
  | .procedure p :: rest, afterProcedure, site, inner, s, h => by
    rw [Decl.checkSections]
    refine .mono (Decl.checkSections_sound rest true h) ?_ ?_
    · rintro _ s' ⟨site', inner', ⟨sections, procedures, rfl, hchain, hprocedures, hnil⟩,
        haround, h', hgrows⟩
      -- Behind a procedure no section is accepted any more.
      obtain rfl := hnil rfl
      refine ⟨site', inner', ⟨[], _, rfl, hchain, ?_, by simp⟩, haround, h', hgrows⟩
      exact List.forall_mem_cons.mpr ⟨rfl, hprocedures⟩
    · rintro _ ⟨span, rfl, hbehind⟩
      exact ⟨span, rfl, hbehind.cons (fun _ => ⟨p, rfl⟩) _⟩
  | .types decls span :: rest, true, site, inner, s, h =>
    ⟨span, rfl, [], _, rest, rfl, rfl, .inl rfl⟩
  | .vars decls span :: rest, true, site, inner, s, h =>
    ⟨span, rfl, [], _, rest, rfl, rfl, .inl rfl⟩
  | .types decls span :: rest, false, site, inner, s, h => by
    refine .bind
      (.mono (forM_sound TypeDecl.check_sound decls h) (fun _ _ h => h) (fun _ h => h.elim))
      ?_
    rintro _ s₁ ⟨site₁, inner₁, hsection, haround₁, h₁, hgrows₁⟩
    refine .mono (Decl.checkSections_sound rest false h₁) ?_ ?_
    · exact fun _ _ hrest => hrest.after haround₁ hgrows₁ fun _ h =>
        h.section (.types hsection)
    · rintro _ ⟨span, rfl, hbehind⟩
      exact ⟨span, rfl, hbehind.cons (by simp) _⟩
  | .vars decls span :: rest, false, site, inner, s, h => by
    refine .bind
      (.mono (forM_sound VarDecl.check_sound decls h) (fun _ _ h => h) (fun _ h => h.elim)) ?_
    rintro _ s₁ ⟨site₁, inner₁, hsection, haround₁, h₁, hgrows₁⟩
    refine .mono (Decl.checkSections_sound rest false h₁) ?_ ?_
    · exact fun _ _ hrest => hrest.after haround₁ hgrows₁ fun _ h =>
        h.section (.vars hsection)
    · rintro _ ⟨span, rfl, hbehind⟩
      exact ⟨span, rfl, hbehind.cons (by simp) _⟩

/-- Procedures are passed over. -/
theorem Decl.checkSections_procedures : ∀ {procedures : List Decl} (afterProcedure : Bool),
    (∀ d ∈ procedures, d.asProcedure?.isSome = true) → ∀ s : CheckState,
    (Decl.checkSections afterProcedure procedures).run s = .ok ((), s)
  | [], _, _, _ => rfl
  | .procedure _ :: _, _, h, s =>
    Decl.checkSections_procedures true (List.forall_mem_cons.mp h).2 s
  | .types .. :: _, _, h, _ => absurd (h _ List.mem_cons_self) (by simp [Decl.asProcedure?])
  | .vars .. :: _, _, h, _ => absurd (h _ List.mem_cons_self) (by simp [Decl.asProcedure?])

/-- Well-formed sections before procedures are accepted. -/
theorem Decl.checkSections_succeeds {procedures : List Decl}
    (hprocedures : ∀ d ∈ procedures, d.asProcedure?.isSome = true) :
    ∀ {sections : List Decl} {site : Site} {inner : Names} {s : CheckState},
    s.Models site inner outer → ∀ {site' : Site},
    site.Chain Decl.SectionWellFormed sections site' →
    Succeeds (Decl.checkSections false (sections ++ procedures)) s fun _ =>
      Leaves s site.context.around outer (· = site')
  | [], site, inner, s, h, _, .nil =>
    ⟨(), s, Decl.checkSections_procedures false hprocedures s, site, inner, rfl, rfl, h,
      .refl s⟩
  | .types decls span :: rest, site, inner, s, h, _, .cons (.types hsection) hrest => by
    refine .bind (forM_succeeds TypeDecl.check_succeeds h hsection) ?_
    rintro _ s₁ ⟨_, inner₁, rfl, haround₁, h₁, hgrows₁⟩
    exact .mono (Decl.checkSections_succeeds hprocedures h₁ hrest) fun _ _ hrest =>
      hrest.after haround₁ hgrows₁ fun _ h => h
  | .vars decls span :: rest, site, inner, s, h, _, .cons (.vars hsection) hrest => by
    refine .bind (forM_succeeds VarDecl.check_succeeds h hsection) ?_
    rintro _ s₁ ⟨_, inner₁, rfl, haround₁, h₁, hgrows₁⟩
    exact .mono (Decl.checkSections_succeeds hprocedures h₁ hrest) fun _ _ hrest =>
      hrest.after haround₁ hgrows₁ fun _ h => h

end BlockLang
