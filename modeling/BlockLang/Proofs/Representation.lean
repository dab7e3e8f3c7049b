import BlockLang.Proofs.Checking
import BlockLang.Proofs.StaticSemantics

/-!
# How a check represents a context

The static semantics speaks of contexts and types, a check of tables and identities. A
type is represented by its place in the type table: the three built-in types come first,
and the array and record types follow in the order of their occurrences. A context is
represented by the open scopes, name by name, and each declaration by a symbol.

* `Ty.In t τ`: the table describes the type `τ` under its identity, and its components
  too. Then sizes, scalar types and fields are the same on both sides (`Ty.In.size_eq`,
  `Ty.In.isScalar_iff`, `find?_fields`), and two types have one identity only if they are
  the same type (`Ty.id_eq_iff`).
* `arraySize?_eq`, `addArray?_eq`, `layFields?_eq`: a new type is refused exactly where
  its size, computed from the types themselves, is no word.
* `Declared.Means`: a symbol stands for a declaration of a context.
* `CheckState.Models`: the state of a check stands for a place in a program. Look-ups
  agree (`CheckState.Models.lookup`), and so does the question whether a name is still
  free (`CheckState.Models.fresh_iff`).

Everything here grows with the tables: what a smaller table says stays true in a larger
one (the lemmas whose names end in `mono`). Annotations do not matter
(`CheckState.Notes`).
-/

namespace BlockLang

/-! ## Types in the table -/

/-- The place of a type in the table. -/
def TypeIdentity.id : TypeIdentity → TypeId
  | .integer => .integer
  | .char => .char
  | .boolean => .boolean
  | .occurrence n => ⟨n + 3⟩

/-- No two types have one place in the table. -/
theorem TypeIdentity.id_injective {i j : TypeIdentity} (h : i.id = j.id) : i = j := by
  cases i <;> cases j <;>
    simp_all [TypeIdentity.id, TypeId.integer, TypeId.char, TypeId.boolean]

namespace Ty

def id (τ : Ty) : TypeId := τ.identity.id

/-- Identities are compared where the semantics asks whether two types are the same. -/
theorem id_eq_iff {τ σ : Ty} : τ.id = σ.id ↔ τ.Same σ :=
  ⟨TypeIdentity.id_injective, congrArg TypeIdentity.id⟩

/-- The place of the type integer belongs to it alone. -/
theorem eq_integer_of_id {τ : Ty} (h : τ.id = .integer) : τ = .integer := by
  have hi := TypeIdentity.id_injective (j := .integer) h
  cases τ <;> simp_all [identity]

/-- The place of the type boolean belongs to it alone. -/
theorem eq_boolean_of_id {τ : Ty} (h : τ.id = .boolean) : τ = .boolean := by
  have hi := TypeIdentity.id_injective (j := .boolean) h
  cases τ <;> simp_all [identity]

mutual

/-- The table describes the type and the types it is made of. -/
def In (t : TypeTable) : Ty → Prop
  | .integer => t.get? .integer = some .integer
  | .char => t.get? .char = some .char
  | .boolean => t.get? .boolean = some .boolean
  | .array n low high element => element.In t ∧ low ≤ high ∧
      t.get? ⟨n + 3⟩ = some (.array element.id low high (count low high * element.size))
  | .record n φs => AllIn t φs ∧
      ∃ fields, t.get? ⟨n + 3⟩ = some (.record fields (sizeAll φs)) ∧
      fields.map (fun f => (f.name, f.type)) = φs.map (fun φ => (φ.1, φ.2.id))

def AllIn (t : TypeTable) : List (String × Ty) → Prop
  | [] => True
  | (_, τ) :: rest => τ.In t ∧ AllIn t rest

end

mutual

theorem In.mono {t t' : TypeTable} (ht : t ≤ t') : ∀ {τ : Ty}, τ.In t → τ.In t'
  | .integer, h => ht _ _ h
  | .char, h => ht _ _ h
  | .boolean, h => ht _ _ h
  | .array .., ⟨helement, hbounds, hget⟩ => ⟨helement.mono ht, hbounds, ht _ _ hget⟩
  | .record .., ⟨hfields, fields, hget, hmap⟩ => ⟨hfields.mono ht, fields, ht _ _ hget, hmap⟩

theorem AllIn.mono {t t' : TypeTable} (ht : t ≤ t') :
    ∀ {φs : List (String × Ty)}, AllIn t φs → AllIn t' φs
  | [], _ => trivial
  | (_, _) :: _, ⟨h, hrest⟩ => ⟨h.mono ht, hrest.mono ht⟩

end

/-- An array has at least one element. -/
theorem one_le_count {low high : Word} (h : low ≤ high) : 1 ≤ count low high := by
  have := Int64.le_iff_toInt_le.mp h
  unfold count
  omega

mutual

/-- No type has a negative size. -/
theorem In.size_nonneg {t : TypeTable} : ∀ {τ : Ty}, τ.In t → 0 ≤ τ.size
  | .integer, _ | .char, _ | .boolean, _ => by simp [size]
  | .array .., ⟨helement, hbounds, _⟩ => by
    rw [size]
    have := one_le_count hbounds
    exact Int.mul_nonneg (by omega) helement.size_nonneg
  | .record .., ⟨hfields, _⟩ => by
    rw [size]
    exact hfields.size_nonneg

theorem AllIn.size_nonneg {t : TypeTable} : ∀ {φs : List (String × Ty)}, AllIn t φs →
    0 ≤ sizeAll φs
  | [], _ => by simp [sizeAll]
  | (_, _) :: _, ⟨h, hrest⟩ => by
    rw [sizeAll]
    have := h.size_nonneg
    have := hrest.size_nonneg
    omega

end

/-- The table has the size of a type. -/
theorem In.size_eq {t : TypeTable} {τ : Ty} (h : τ.In t) : t.size τ.id = τ.size := by
  cases τ with
  | integer => exact TypeTable.size_of_get? h
  | char => exact TypeTable.size_of_get? h
  | boolean => exact TypeTable.size_of_get? h
  | array n low high element => exact TypeTable.size_of_get? h.2.2
  | record n φs =>
    obtain ⟨_, fields, hget, _⟩ := h
    rw [size]
    exact TypeTable.size_of_get? hget

/-- The table knows which types are scalar. -/
theorem In.isScalar_iff {t : TypeTable} {τ : Ty} (h : τ.In t) :
    t.isScalar τ.id = true ↔ τ.IsScalar := by
  unfold TypeTable.isScalar
  cases τ with
  | integer =>
    rw [show t.get? (Ty.id .integer) = _ from h]; simp [TypeDescriptor.isScalar, IsScalar]
  | char =>
    rw [show t.get? (Ty.id .char) = _ from h]; simp [TypeDescriptor.isScalar, IsScalar]
  | boolean =>
    rw [show t.get? (Ty.id .boolean) = _ from h]; simp [TypeDescriptor.isScalar, IsScalar]
  | array n low high element =>
    rw [show t.get? (Ty.id (.array n low high element)) = _ from h.2.2]
    simp [TypeDescriptor.isScalar, IsScalar]
  | record n φs =>
    obtain ⟨_, fields, hget, _⟩ := h
    rw [show t.get? (Ty.id (.record n φs)) = _ from hget]
    simp [TypeDescriptor.isScalar, IsScalar]

theorem AllIn.append {t : TypeTable} {φs ψs : List (String × Ty)}
    (h : AllIn t φs) (h' : AllIn t ψs) :
    AllIn t (φs ++ ψs) := by
  induction φs with
  | nil => exact h'
  | cons φ rest ih => exact ⟨h.1, ih h.2⟩

/-- The fields of a group share one type. -/
theorem AllIn.group {t : TypeTable} {τ : Ty} (h : τ.In t) (names : List Ident) :
    AllIn t (names.map fun name => (name.name, τ)) := by
  induction names with
  | nil => trivial
  | cons name rest ih => exact ⟨h, ih⟩

/-- The type of a field that is found is in the table. -/
theorem AllIn.lookup {t : TypeTable} {φs : List (String × Ty)} (h : AllIn t φs)
    {name : String} {τ : Ty} (hτ : φs.lookup name = some τ) : τ.In t := by
  induction φs with
  | nil => cases hτ
  | cons φ rest ih =>
    obtain ⟨k, σ⟩ := φ
    rw [List.lookup_cons] at hτ
    cases hk : name == k with
    | true =>
      rw [hk] at hτ
      exact Option.some.inj hτ ▸ h.1
    | false =>
      rw [hk] at hτ
      exact ih h.2 hτ

end Ty

/-- In the table, the first field of a name is the one that the type has under it. -/
theorem find?_fields {fields : List Field} {φs : List (String × Ty)}
    (h : fields.map (fun f => (f.name, f.type)) = φs.map (fun φ => (φ.1, φ.2.id)))
    (name : String) :
    (fields.find? (·.name == name)).map (·.type) = (φs.lookup name).map Ty.id := by
  induction fields generalizing φs with
  | nil =>
    cases φs with
    | nil => rfl
    | cons φ φs => simp at h
  | cons f fields ih =>
    cases φs with
    | nil => simp at h
    | cons φ φs =>
      obtain ⟨k, τ⟩ := φ
      simp only [List.map_cons, List.cons.injEq, Prod.mk.injEq] at h
      obtain ⟨⟨hname, htype⟩, hrest⟩ := h
      rw [List.find?_cons, List.lookup_cons, hname]
      by_cases hk : k = name
      · simp [hk, htype]
      · have h₁ : (k == name) = false := by simpa using hk
        have h₂ : (name == k) = false := by simpa using fun h => hk h.symm
        rw [h₁, h₂]
        exact ih hrest

/-! ## New types -/

namespace TypeTable

/-- The checks that lead to the size of an array come down to two: the number of elements and
the number of words must be words. -/
theorem arraySize?_eq {t : TypeTable} {τ : Ty}
    (hτ : τ.In t) {low high : Word} (h : low ≤ high) :
    t.arraySize? τ.id low high =
      if Word.Fits (Ty.count low high) ∧ Word.Fits (Ty.count low high * τ.size) then
        some (Ty.count low high * τ.size)
      else none := by
  have hcount := Ty.one_le_count h
  have hdistance : high.toInt - low.toInt = Ty.count low high - 1 := by simp [Ty.count]
  unfold arraySize?
  rw [hτ.size_eq, hdistance]
  by_cases hfits : Word.Fits (Ty.count low high)
  · have hfits' : Word.Fits (Ty.count low high - 1) := by
      unfold Word.Fits Word.least Word.greatest at *
      omega
    by_cases hsize : Word.Fits (Ty.count low high * τ.size) <;>
      simp [Word.checked, hfits, hfits', hsize]
  · by_cases hfits' : Word.Fits (Ty.count low high - 1) <;> simp [Word.checked, hfits, hfits']

/-- A new array type is refused under those two conditions, and the table is then the one
before. -/
theorem addArray?_eq {t : TypeTable} {τ : Ty}
    (hτ : τ.In t) {low high : Word} (h : low ≤ high) :
    t.addArray? τ.id low high =
      if Word.Fits (Ty.count low high) ∧ Word.Fits (Ty.count low high * τ.size) then
        (some ⟨t.length⟩, (t.push (.array τ.id low high (Ty.count low high * τ.size))).2)
      else (none, t) := by
  unfold addArray?
  rw [arraySize?_eq hτ h]
  by_cases hfits : Word.Fits (Ty.count low high) ∧ Word.Fits (Ty.count low high * τ.size)
  · rw [if_pos hfits, if_pos hfits]
    rfl
  · rw [if_neg hfits, if_neg hfits]

/-- Fields find their place exactly if the end of the last one is a word: no field has a
negative size. -/
theorem layFields?_eq {t : TypeTable} {φs : List (String × Ty)} (hφs : Ty.AllIn t φs)
    {offset : Int} (hoffset : 0 ≤ offset) (hfits : Word.Fits offset) :
    (Word.Fits (offset + Ty.sizeAll φs) ∧ ∃ fields,
      t.layFields? offset (φs.map fun φ => (φ.1, φ.2.id)) =
      some (fields, offset + Ty.sizeAll φs) ∧
      fields.map (fun f => (f.name, f.type)) = φs.map (fun φ => (φ.1, φ.2.id))) ∨
    (¬ Word.Fits (offset + Ty.sizeAll φs) ∧
      t.layFields? offset (φs.map fun φ => (φ.1, φ.2.id)) = none) := by
  induction φs generalizing offset with
  | nil =>
    exact .inl ⟨by simpa [Ty.sizeAll] using hfits, [], by simp [layFields?, Ty.sizeAll], rfl⟩
  | cons φ rest ih =>
    obtain ⟨name, τ⟩ := φ
    obtain ⟨hτ, hrest⟩ := hφs
    have hsize := hτ.size_nonneg
    have hsizes := hrest.size_nonneg
    simp only [List.map_cons, layFields?, hτ.size_eq, Ty.sizeAll,
      Word.checked, ← Int.add_assoc]
    by_cases hnext : Word.Fits (offset + τ.size)
    · rw [if_pos hnext]
      have hnonneg : 0 ≤ offset + τ.size := by omega
      rcases ih hrest hnonneg hnext with ⟨hend, fields, hlay, hmap⟩ | ⟨hend, hlay⟩
      · refine .inl ⟨hend, ⟨name, τ.id, offset⟩ :: fields, ?_, by simp [hmap]⟩
        simp [hlay]
      · exact .inr ⟨hend, by simp [hlay]⟩
    · rw [if_neg hnext]
      refine .inr ⟨fun hend => hnext ?_, rfl⟩
      unfold Word.Fits Word.least at *
      omega

end TypeTable

/-! ## Contexts -/

/-- A parameter's symbol has the mode and the type of the formal parameter. -/
def FormalMeans (t : TypeTable) (σ : SymbolTable) (formal : ParamMode × Ty)
    (id : SymbolId) : Prop :=
  formal.2.In t ∧ ∃ v, σ.variableAt? id = some v ∧ v.type = formal.2.id ∧
    v.access = formal.1.access

/-- The symbol stands for what was declared. -/
def Declared.Means (t : TypeTable) (σ : SymbolTable) : Declared → SymbolId → Prop
  | .type τ, id => τ.In t ∧ σ.typeAt? id = some τ.id
  | .var τ, id => τ.In t ∧ ∃ v, σ.variableAt? id = some v ∧ v.type = τ.id
  | .proc formals, id =>
    ∃ p, σ.procedureAt? id = some p ∧ List.Forall₂ (FormalMeans t σ) formals p.params

/-- An entry of a context and the name with its symbol in a scope. -/
def Declared.Entry (t : TypeTable) (σ : SymbolTable) (entry : String × Declared)
    (named : String × SymbolId) : Prop :=
  entry.1 = named.1 ∧ entry.2.Means t σ named.2

theorem FormalMeans.mono {t t' : TypeTable} {σ σ' : SymbolTable} (ht : t ≤ t') (hσ : σ ≤ σ')
    {formal : ParamMode × Ty} {id : SymbolId} (h : FormalMeans t σ formal id) :
    FormalMeans t' σ' formal id := by
  obtain ⟨hτ, v, hv, hrest⟩ := h
  exact ⟨hτ.mono ht, v, SymbolTable.variableAt?_mono hσ hv, hrest⟩

/-- A declaration keeps its meaning in tables that grow. -/
theorem Declared.Means.mono {t t' : TypeTable} {σ σ' : SymbolTable} (ht : t ≤ t')
    (hσ : σ ≤ σ') {d : Declared} {id : SymbolId} (h : d.Means t σ id) : d.Means t' σ' id := by
  cases d with
  | type τ => exact ⟨h.1.mono ht, SymbolTable.typeAt?_mono hσ h.2⟩
  | var τ =>
    obtain ⟨hτ, v, hv, htype⟩ := h
    exact ⟨hτ.mono ht, v, SymbolTable.variableAt?_mono hσ hv, htype⟩
  | proc formals =>
    obtain ⟨p, hp, hformals⟩ := h
    exact ⟨p, SymbolTable.procedureAt?_mono hσ hp, hformals.imp fun _ _ h => h.mono ht hσ⟩

theorem Declared.Entry.mono {t t' : TypeTable} {σ σ' : SymbolTable}
    (ht : t ≤ t') (hσ : σ ≤ σ') {entry : String × Declared}
    {named : String × SymbolId} (h : Declared.Entry t σ entry named) :
    Declared.Entry t' σ' entry named :=
  ⟨h.1, h.2.mono ht hσ⟩

/-- Look-ups on both sides agree. -/
theorem Declared.lookup_entries {t : TypeTable} {σ : SymbolTable}
    {entries : List (String × Declared)} {names : Names}
    (h : List.Forall₂ (Declared.Entry t σ) entries names) (name : String) :
    (entries.lookup name = none ∧ names.lookup name = none) ∨
      ∃ d id, entries.lookup name = some d ∧ names.lookup name = some id ∧
      d.Means t σ id := by
  induction h with
  | nil => exact .inl ⟨rfl, rfl⟩
  | @cons entry named _ _ hentry _ ih =>
    obtain ⟨k, d⟩ := entry
    obtain ⟨k', id⟩ := named
    obtain ⟨rfl, hmeans⟩ := hentry
    rw [List.lookup_cons, List.lookup_cons]
    cases name == k with
    | true => exact .inr ⟨d, id, rfl, rfl, hmeans⟩
    | false => exact ih

/-- The scope of a check has the names of the context. -/
theorem Declared.names_entries {t : TypeTable} {σ : SymbolTable}
    {entries : List (String × Declared)} {names : Names}
    (h : List.Forall₂ (Declared.Entry t σ) entries names) :
    entries.map (·.1) = names.map (·.1) := by
  induction h with
  | nil => rfl
  | cons hentry _ ih => simp [hentry.1, ih]

/-- The state of a check represents a site: its scopes show the context, and its tables are as
long as they should. -/
structure CheckState.Models (s : CheckState) (site : Site) (inner outer : Names) : Prop where
  builtins : ({} : TypeTable) ≤ s.types
  occurrences : s.types.length = site.occurrences + 3
  offset : s.scopes.offset = site.offset
  shows : s.scopes.Shows inner outer
  scope : List.Forall₂ (Declared.Entry s.types s.symbols) site.context.scope inner
  around : List.Forall₂ (Declared.Entry s.types s.symbols) site.context.around outer

/-- What checks of expressions and statements do to the state: they record something about
nodes. -/
def CheckState.Notes (s s' : CheckState) : Prop :=
  s' = { s with annotations := s'.annotations }

/-- Annotating a node changes nothing else. -/
theorem CheckState.Notes.annotate (s : CheckState) (annotations : Annotations) :
    s.Notes { s with annotations } := rfl

/-- Two checks that only annotate, one after the other, only annotate. -/
theorem CheckState.Notes.trans {s s' s'' : CheckState} (h : s.Notes s') (h' : s'.Notes s'') :
    s.Notes s'' := by
  unfold CheckState.Notes at *
  rw [h', h]

theorem CheckState.Notes.types {s s' : CheckState} (h : s.Notes s') : s'.types = s.types := by
  rw [h]

theorem CheckState.Notes.symbols {s s' : CheckState} (h : s.Notes s') :
    s'.symbols = s.symbols := by
  rw [h]

theorem CheckState.Notes.scopes {s s' : CheckState} (h : s.Notes s') :
    s'.scopes = s.scopes := by
  rw [h]

theorem CheckState.Notes.closed {s s' : CheckState} (h : s.Notes s') :
    s'.closed = s.closed := by
  rw [h]

namespace CheckState.Models

variable {s : CheckState} {site : Site} {inner outer : Names}

/-- A name is found in the context if and only if it is found in the scopes, and what is found
there is what it means. -/
theorem lookup (h : s.Models site inner outer) (name : String) :
    (site.context.lookup name = none ∧ s.scopes.lookup? name = none) ∨
      ∃ d id, site.context.lookup name = some d ∧ s.scopes.lookup? name = some id ∧
      d.Means s.types s.symbols id := by
  rw [h.shows.lookup?]
  exact Declared.lookup_entries (List.rel_append h.scope h.around) name

/-- The symbol of a name that the context knows. -/
theorem lookup_of_some (h : s.Models site inner outer) {name : String} {d : Declared}
    (hd : site.context.lookup name = some d) :
    ∃ id, s.scopes.lookup? name = some id ∧ d.Means s.types s.symbols id := by
  rcases h.lookup name with ⟨hnone, _⟩ | ⟨d', id, hd', hid, hmeans⟩
  · rw [hd] at hnone
    cases hnone
  · rw [hd] at hd'
    exact ⟨id, hid, Option.some.inj hd' ▸ hmeans⟩

/-- A name is free in the context if and only if the innermost scope has not got it. -/
theorem fresh_iff (h : s.Models site inner outer) (name : String) :
    site.context.Fresh name ↔ ¬ s.scopes.inner.names.contains name = true := by
  rw [h.shows.contains_iff, Context.Fresh, Declared.names_entries h.scope]

/-- A state that has only been annotated stands for the same place. -/
theorem notes (h : s.Models site inner outer) {s' : CheckState} (hs : s.Notes s') :
    s'.Models site inner outer := by
  rw [hs]
  exact ⟨h.builtins, h.occurrences, h.offset, h.shows, h.scope, h.around⟩

/-- More types. -/
theorem types (h : s.Models site inner outer) {t : TypeTable}
    {n : Nat} (ht : s.types ≤ t) (hn : t.length = n + 3) :
    CheckState.Models { s with types := t } { site with occurrences := n } inner outer where
  builtins := TypeTable.le_trans h.builtins ht
  occurrences := hn
  offset := h.offset
  shows := h.shows
  scope := h.scope.imp fun _ _ he => he.mono ht (SymbolTable.le_refl _)
  around := h.around.imp fun _ _ he => he.mono ht (SymbolTable.le_refl _)

/-- A new symbol stands for what was declared. -/
theorem declared (h : s.Models site inner outer)
    (name : Ident) (meaning : Meaning) (d : Declared)
    (hd : d.Means s.types (s.declared name meaning).symbols ⟨s.symbols.length⟩) :
    (s.declared name meaning).Models { site with context := site.context.declare name.name d }
      ((name.name, ⟨s.symbols.length⟩) :: inner) outer where
  builtins := h.builtins
  occurrences := h.occurrences
  offset := h.offset
  shows := h.shows.declared name.name _
  scope := .cons ⟨rfl, hd⟩ (h.scope.imp fun _ _ he =>
    he.mono (TypeTable.le_refl _) (SymbolTable.le_add _ _))
  around := h.around.imp fun _ _ he => he.mono (TypeTable.le_refl _) (SymbolTable.le_add _ _)

/-- A new scope. -/
theorem enter (h : s.Models site inner outer) :
    CheckState.Models { s with scopes := s.scopes.enter }
      { site with context := site.context.enter, offset := Frame.headerSize } []
      (inner ++ outer) where
  builtins := h.builtins
  occurrences := h.occurrences
  offset := rfl
  shows := h.shows.enter
  scope := .nil
  around := List.rel_append h.scope h.around

end CheckState.Models

end BlockLang
