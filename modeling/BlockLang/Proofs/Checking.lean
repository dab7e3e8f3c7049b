import BlockLang.Static.Analysis

/-!
# How checks run

A check reads and grows tables, keeps the open scopes and may stop. This module says once
what each of the small checks does to the state, how the tables grow, and how checks
compose; the proofs about the analysis cite these lemmas and do not look inside the
checks.

* Tables grow: `t ≤ t'` says that `t'` has all that `t` has, for types and for symbols.
  What is found in `t` is found in `t'` (`SymbolTable.typeAt?_mono`,
  `SymbolTable.variableAt?_mono`, `SymbolTable.procedureAt?_mono`). The one change that is
  no growth is a procedure's: `SymbolTable.mapProcedure`, to which
  `SymbolTable.updateProcedure_eq` reduces the update.
* `Scopes.Shows` reads the open scopes as two lists of names, innermost first: those of
  the innermost scope and those around it.
* `Check.Sound f s Q D`: a check ends with `Q`, with a diagnostic, or with a defect that
  `D` admits. `Check.Succeeds f s Q`: it ends with `Q`. Both compose (`Check.Sound.bind`,
  `Check.Succeeds.bind`) and can be made weaker (`Check.Sound.mono`,
  `Check.Succeeds.mono`). The first is for programs that may be refused, the second for
  those that are accepted.
* The run of each small check as an equation: `resolve_run`, `declare_run`,
  `declareVariable_run`, `fixFrame_run` and others.
-/

namespace BlockLang

/-! ## Tables that grow -/

namespace TypeTable

/-- Every type of the first table is in the second one. -/
instance : LE TypeTable := ⟨fun t t' => ∀ id d, t.get? id = some d → t'.get? id = some d⟩

theorem le_refl (t : TypeTable) : t ≤ t := fun _ _ h => h

theorem le_trans {t t' t'' : TypeTable} (h : t ≤ t') (h' : t' ≤ t'') : t ≤ t'' :=
  fun id d hd => h' id d (h id d hd)

/-- A new type stands behind the others, and nothing else changes. -/
theorem get?_push (t : TypeTable) (d : TypeDescriptor) (id : TypeId) :
    (t.push d).2.get? id = if id.index = t.length then some d else t.get? id :=
  Array.getElem?_push

theorem lt_length_of_get? {t : TypeTable} {id : TypeId}
    {d : TypeDescriptor} (h : t.get? id = some d) :
    id.index < t.length :=
  (Array.getElem?_eq_some_iff.mp h).1

/-- A table with one more type has all that it had. -/
theorem le_push (t : TypeTable) (d : TypeDescriptor) : t ≤ (t.push d).2 := by
  intro id d' h
  have hlt := lt_length_of_get? h
  rw [get?_push, if_neg (by omega), h]

theorem length_push (t : TypeTable) (d : TypeDescriptor) :
    (t.push d).2.length = t.length + 1 := by
  simp [push, length]

theorem size_of_get? {t : TypeTable} {id : TypeId}
    {d : TypeDescriptor} (h : t.get? id = some d) :
    t.size id = d.size := by
  simp [size, h]

/-- A scalar type stays scalar in a table that grows. -/
theorem isScalar_mono {t t' : TypeTable} (h : t ≤ t')
    {id : TypeId} (hid : t.isScalar id = true) :
    t'.isScalar id = true := by
  unfold isScalar at hid ⊢
  cases hget : t.get? id with
  | none =>
    rw [hget] at hid
    cases hid
  | some d =>
    rw [hget] at hid
    rw [h _ _ hget, hid]

end TypeTable

/-- The symbol with more known about it, if it is a procedure. -/
def Symbol.mapProcedure (f : Procedure → Procedure) (s : Symbol) : Symbol :=
  match s.meaning with
  | .proc p => { s with meaning := .proc (f p) }
  | _ => s

namespace SymbolTable

/-- Every symbol of the first table is in the second one. -/
instance : LE SymbolTable := ⟨fun t t' => ∀ id s, t.get? id = some s → t'.get? id = some s⟩

theorem le_refl (t : SymbolTable) : t ≤ t := fun _ _ h => h

theorem le_trans {t t' t'' : SymbolTable} (h : t ≤ t') (h' : t' ≤ t'') : t ≤ t'' :=
  fun id s hs => h' id s (h id s hs)

theorem lt_length_of_get? {t : SymbolTable} {id : SymbolId}
    {s : Symbol} (h : t.get? id = some s) :
    id.index < t.length :=
  (Array.getElem?_eq_some_iff.mp h).1

/-- A larger table has more symbols. -/
theorem length_le {t t' : SymbolTable} (h : t ≤ t') : t.length ≤ t'.length := by
  refine Nat.not_lt.mp fun hlt => ?_
  have hget : t.get? ⟨t'.length⟩ = some _ := Array.getElem?_eq_getElem hlt
  exact Nat.lt_irrefl _ (lt_length_of_get? (h _ _ hget))

/-- A new symbol stands behind the others, and nothing else changes. -/
theorem get?_add (t : SymbolTable) (s : Symbol) (id : SymbolId) :
    (t.add s).2.get? id = if id.index = t.length then some s else t.get? id :=
  Array.getElem?_push

/-- A table with one more symbol has all that it had. -/
theorem le_add (t : SymbolTable) (s : Symbol) : t ≤ (t.add s).2 := by
  intro id s' h
  have hlt := lt_length_of_get? h
  rw [get?_add, if_neg (by omega), h]

/-- The table with more known about a procedure. Symbols of other kinds stay as they are. -/
def mapProcedure (t : SymbolTable) (id : SymbolId) (f : Procedure → Procedure) :
    SymbolTable :=
  ⟨t.symbols.modify id.index (·.mapProcedure f)⟩

/-- The update of a procedure concerns one symbol. -/
theorem get?_mapProcedure (t : SymbolTable) (id : SymbolId)
    (f : Procedure → Procedure) (id' : SymbolId) :
    (t.mapProcedure id f).get? id' =
      if id' = id then (t.get? id').map (·.mapProcedure f) else t.get? id' := by
  simp only [SymbolTable.mapProcedure, get?, Array.getElem?_modify]
  by_cases h : id' = id
  · rw [if_pos h, if_pos (by rw [h])]
  · rw [if_neg h, if_neg]
    intro hi
    exact h (by cases id; cases id'; simp_all)

/-- The names of the symbols, in the order of declaration. -/
def names (t : SymbolTable) : List String := t.symbols.toList.map (·.name)

theorem length_names (t : SymbolTable) : t.names.length = t.length := by
  simp [names, length]

theorem names_add (t : SymbolTable) (s : Symbol) :
    (t.add s).2.names = t.names ++ [s.name] := by
  simp [names, add]

/-- The name at a place is that of the symbol there. -/
theorem getElem?_names (t : SymbolTable) (i : Nat) :
    t.names[i]? = (t.get? ⟨i⟩).map (·.name) := by
  simp [names, get?]

/-- The update of a procedure leaves all names alone. -/
theorem names_mapProcedure (t : SymbolTable) (id : SymbolId) (f : Procedure → Procedure) :
    (t.mapProcedure id f).names = t.names := by
  apply List.ext_getElem?
  intro i
  rw [getElem?_names, getElem?_names, get?_mapProcedure]
  split
  · rw [Option.map_map]
    congr 1
    funext s
    cases hm : s.meaning <;> simp [Symbol.mapProcedure, hm]
  · rfl

/-- A symbol keeps its name. -/
theorem name_of_names {t t' : SymbolTable} (h : t ≤ t') {id : SymbolId} {name : String}
    (hname : t.names[id.index]? = some name) : t'.name id = name := by
  rw [getElem?_names] at hname
  obtain ⟨s, hs, rfl⟩ := Option.map_eq_some_iff.mp hname
  simp [SymbolTable.name, h _ _ hs]

/-- A change to a symbol that the smaller table lacks. -/
theorem le_mapProcedure {t t' : SymbolTable} (h : t ≤ t') {id : SymbolId}
    (hid : t.length ≤ id.index) (f : Procedure → Procedure) : t ≤ t'.mapProcedure id f := by
  intro id' s hs
  rw [get?_mapProcedure, if_neg, h _ _ hs]
  rintro rfl
  have := lt_length_of_get? hs
  omega

theorem get?_add_self (t : SymbolTable) (symbol : Symbol) :
    (t.add symbol).2.get? ⟨t.length⟩ = some symbol := by
  rw [get?_add, if_pos rfl]

/-- The update of a procedure leaves all variables alone. -/
theorem variableAt?_mapProcedure (t : SymbolTable) (id : SymbolId)
    (f : Procedure → Procedure) (id' : SymbolId) :
    (t.mapProcedure id f).variableAt? id' = t.variableAt? id' := by
  unfold variableAt?
  rw [get?_mapProcedure]
  split
  · cases t.get? id' with
    | none => rfl
    | some symbol =>
      cases hm : symbol.meaning <;> simp [Symbol.mapProcedure, Symbol.asVariable?, hm]
  · rfl

/-- The update of a procedure leaves all types alone. -/
theorem typeAt?_mapProcedure (t : SymbolTable) (id : SymbolId)
    (f : Procedure → Procedure) (id' : SymbolId) :
    (t.mapProcedure id f).typeAt? id' = t.typeAt? id' := by
  unfold typeAt?
  rw [get?_mapProcedure]
  split
  · cases t.get? id' with
    | none => rfl
    | some symbol =>
      cases hm : symbol.meaning <;> simp [Symbol.mapProcedure, Symbol.asType?, hm]
  · rfl

/-- The update of a procedure changes it, and no other one. -/
theorem procedureAt?_mapProcedure (t : SymbolTable)
    (id : SymbolId) (f : Procedure → Procedure) (id' : SymbolId) :
    (t.mapProcedure id f).procedureAt? id' =
      if id' = id then (t.procedureAt? id').map f else t.procedureAt? id' := by
  unfold procedureAt?
  rw [get?_mapProcedure]
  split
  · cases t.get? id' with
    | none => rfl
    | some symbol =>
      cases hm : symbol.meaning <;> simp [Symbol.mapProcedure, Symbol.asProcedure?, hm]
  · rfl

/-- An update succeeds for a procedure, and only for one. -/
theorem updateProcedure_eq (t : SymbolTable) (id : SymbolId) (f : Procedure → Procedure) :
    t.updateProcedure id f = match t.procedureAt? id with
      | some _ => .ok (t.mapProcedure id f)
      | none => .error (.unexpectedSymbol (t.name id) "procedure") := by
  unfold updateProcedure
  cases hp : t.procedureAt? id with
  | none => rfl
  | some p =>
    obtain ⟨symbol, hget, hsymbol⟩ := Option.bind_eq_some_iff.mp hp
    have hmeaning : symbol.meaning = .proc p := by
      cases hm : symbol.meaning <;> simp_all [Symbol.asProcedure?]
    have hsame :
        ∀ id', (t.setMeaning id (.proc (f p))).get? id' = (t.mapProcedure id f).get? id' := by
      intro id'
      rw [get?_mapProcedure]
      simp only [setMeaning, get?, Array.getElem?_modify]
      by_cases h : id' = id
      · have hget' : t.symbols[id.index]? = some symbol := hget
        rw [h, if_pos rfl, if_pos rfl, hget']
        simp [Symbol.mapProcedure, hmeaning]
      · rw [if_neg h, if_neg]
        intro hi
        exact h (by cases id; cases id'; simp_all)
    have hsymbols : (t.setMeaning id (.proc (f p))).symbols = (t.mapProcedure id f).symbols :=
      Array.ext_getElem? fun i => hsame ⟨i⟩
    exact congrArg Except.ok (congrArg SymbolTable.mk hsymbols)

/-- What a symbol stands for. -/
def meaning? (t : SymbolTable) (id : SymbolId) : Option Meaning := (t.get? id).map (·.meaning)

/-- A symbol is a type if that is its meaning; likewise for variables and procedures. -/
theorem typeAt?_eq_some_iff {t : SymbolTable} {id : SymbolId} {τ : TypeId} :
    t.typeAt? id = some τ ↔ t.meaning? id = some (.type τ) := by
  unfold typeAt? meaning?
  cases t.get? id with
  | none => simp
  | some symbol => cases hm : symbol.meaning <;> simp [Symbol.asType?, hm]

theorem variableAt?_eq_some_iff {t : SymbolTable} {id : SymbolId} {v : Variable} :
    t.variableAt? id = some v ↔ t.meaning? id = some (.var v) := by
  unfold variableAt? meaning?
  cases t.get? id with
  | none => simp
  | some symbol => cases hm : symbol.meaning <;> simp [Symbol.asVariable?, hm]

theorem procedureAt?_eq_some_iff {t : SymbolTable} {id : SymbolId} {p : Procedure} :
    t.procedureAt? id = some p ↔ t.meaning? id = some (.proc p) := by
  unfold procedureAt? meaning?
  cases t.get? id with
  | none => simp
  | some symbol => cases hm : symbol.meaning <;> simp [Symbol.asProcedure?, hm]

/-- A symbol with another meaning is no procedure. -/
theorem procedureAt?_of_meaning? {t : SymbolTable} {id : SymbolId} {m : Meaning}
    (h : t.meaning? id = some m) (hm : ∀ p, m ≠ .proc p) : t.procedureAt? id = none := by
  rw [Option.eq_none_iff_forall_ne_some]
  intro p hp
  rw [procedureAt?_eq_some_iff, h] at hp
  exact hm p (Option.some.inj hp)

theorem procedureAt?_of_typeAt? {t : SymbolTable}
    {id : SymbolId} {τ : TypeId} (h : t.typeAt? id = some τ) :
    t.procedureAt? id = none :=
  procedureAt?_of_meaning? (typeAt?_eq_some_iff.mp h) nofun

theorem procedureAt?_of_variableAt? {t : SymbolTable}
    {id : SymbolId} {v : Variable} (h : t.variableAt? id = some v) :
    t.procedureAt? id = none :=
  procedureAt?_of_meaning? (variableAt?_eq_some_iff.mp h) nofun

/-- A symbol with another meaning is no variable. -/
theorem variableAt?_of_meaning? {t : SymbolTable} {id : SymbolId} {m : Meaning}
    (h : t.meaning? id = some m) (hm : ∀ v, m ≠ .var v) : t.variableAt? id = none := by
  rw [Option.eq_none_iff_forall_ne_some]
  intro v hv
  rw [variableAt?_eq_some_iff, h] at hv
  exact hm v (Option.some.inj hv)

theorem variableAt?_of_typeAt? {t : SymbolTable}
    {id : SymbolId} {τ : TypeId} (h : t.typeAt? id = some τ) :
    t.variableAt? id = none :=
  variableAt?_of_meaning? (typeAt?_eq_some_iff.mp h) nofun

theorem variableAt?_of_procedureAt? {t : SymbolTable} {id : SymbolId} {p : Procedure}
    (h : t.procedureAt? id = some p) : t.variableAt? id = none :=
  variableAt?_of_meaning? (procedureAt?_eq_some_iff.mp h) nofun

/-- A symbol that is a type stays one. -/
theorem typeAt?_mono {t t' : SymbolTable} (h : t ≤ t')
    {id : SymbolId} {τ : TypeId} (hid : t.typeAt? id = some τ) :
    t'.typeAt? id = some τ := by
  rw [typeAt?, Option.bind_eq_some_iff] at hid ⊢
  obtain ⟨s, hs, hτ⟩ := hid
  exact ⟨s, h _ _ hs, hτ⟩

/-- A symbol that is a variable stays this variable. -/
theorem variableAt?_mono {t t' : SymbolTable} (h : t ≤ t') {id : SymbolId} {v : Variable}
    (hid : t.variableAt? id = some v) : t'.variableAt? id = some v := by
  rw [variableAt?, Option.bind_eq_some_iff] at hid ⊢
  obtain ⟨s, hs, hv⟩ := hid
  exact ⟨s, h _ _ hs, hv⟩

/-- A symbol that is a procedure stays this procedure, while the table only grows. -/
theorem procedureAt?_mono {t t' : SymbolTable} (h : t ≤ t') {id : SymbolId} {p : Procedure}
    (hid : t.procedureAt? id = some p) : t'.procedureAt? id = some p := by
  rw [procedureAt?, Option.bind_eq_some_iff] at hid ⊢
  obtain ⟨s, hs, hp⟩ := hid
  exact ⟨s, h _ _ hs, hp⟩

end SymbolTable

/-! ## Scopes as lists of names -/

/-- The symbols in scope by their names, the latest first. -/
abbrev Names := List (String × SymbolId)

namespace Scopes

/-- The innermost scope declares the names of `inner`, and the scopes around it those of
`outer`. -/
structure Shows (s : Scopes) (inner outer : Names) : Prop where
  names : ∀ name, s.inner.names[name]? = inner.lookup name
  entries : s.entries = (inner.map (·.2)).reverse
  around : ∀ name, s.outer.findSome? (·.names[name]?) = outer.lookup name

/-- A look-up goes through the names from the inside out. -/
theorem Shows.lookup? {s : Scopes} {inner outer : Names}
    (h : s.Shows inner outer) (name : String) :
    s.lookup? name = (inner ++ outer).lookup name := by
  rw [Scopes.lookup?, List.findSome?_cons, List.lookup_append, h.names, ← h.around]
  cases inner.lookup name <;> rfl

/-- A name is found in a list of pairs if and only if it is the first part of one. -/
theorem lookup_isSome {α : Type} (l : List (String × α)) (name : String) :
    (l.lookup name).isSome = true ↔ name ∈ l.map (·.1) := by
  induction l with
  | nil => simp
  | cons x rest ih =>
    obtain ⟨k, v⟩ := x
    rw [List.lookup_cons]
    by_cases h : name = k
    · simp [h]
    · have hb : (name == k) = false := by simpa using h
      rw [hb]
      simp [h, ih]

/-- The innermost scope has the names that its list has. -/
theorem Shows.contains_iff {s : Scopes} {inner outer : Names}
    (h : s.Shows inner outer) (name : String) :
    s.inner.names.contains name = true ↔ name ∈ inner.map (·.1) := by
  rw [Std.TreeMap.contains_eq_isSome_getElem?, h.names, lookup_isSome]

/-- In a new scope nothing is declared, and all names so far are around it. -/
theorem Shows.enter {s : Scopes} {inner outer : Names} (h : s.Shows inner outer) :
    s.enter.Shows [] (inner ++ outer) := by
  refine ⟨fun name => by simp [Scopes.enter], rfl, fun name => ?_⟩
  rw [← h.lookup?]
  rfl

/-- The scopes after a declaration. -/
def declared (s : Scopes) (name : String) (id : SymbolId) : Scopes :=
  { s with inner := { s.inner with
      names := s.inner.names.insert name id, entries := s.inner.entries.push id } }

/-- A declaration puts its name in front. -/
theorem Shows.declared {s : Scopes} {inner outer : Names}
    (h : s.Shows inner outer) (name : String) (id : SymbolId) :
    (s.declared name id).Shows ((name, id) :: inner) outer := by
  refine ⟨fun name' => ?_, ?_, h.around⟩
  · rw [List.lookup_cons]
    show (s.inner.names.insert name id)[name']? = _
    rw [Std.TreeMap.getElem?_insert, h.names]
    by_cases hn : name = name'
    · simp [hn]
    · have hb : (name' == name) = false := by simpa using fun h => hn h.symm
      simp [hb, hn]
  · have hentries : s.inner.entries.toList = (inner.map (·.2)).reverse := h.entries
    simp [Scopes.entries, Scopes.declared, hentries]

/-- The scopes after words of the innermost frame were taken. -/
def allocated (s : Scopes) (words : Int) : Scopes :=
  { s with inner := { s.inner with offset := s.inner.offset + words } }

/-- Taking words of a frame changes no name. -/
theorem Shows.allocated {s : Scopes} {inner outer : Names}
    (h : s.Shows inner outer) (words : Int) :
    (s.allocated words).Shows inner outer :=
  ⟨h.names, h.entries, h.around⟩

/-- Words of a frame are taken if the end of the frame is then a word; otherwise the scopes
stay as they are. -/
theorem allocate?_eq (s : Scopes) (words : Int) :
    s.allocate? words =
      if Word.Fits (s.offset + words) then (some s.offset, s.allocated words)
      else (none, s) := by
  by_cases h : Word.Fits (s.offset + words)
  · have hchecked : Word.checked (s.inner.offset + words) = some (s.offset + words) :=
      if_pos h
    rw [if_pos h, allocate?, hchecked]
    rfl
  · have hchecked : Word.checked (s.inner.offset + words) = none := if_neg h
    rw [if_neg h, allocate?, hchecked]

end Scopes

/-! ## Composition -/

/-- A test that holds of the result of a computation shows that there is one. -/
theorem Except.exists_of_any_toOption {ε α : Type} {x : Except ε α}
    {P : α → Bool} (h : x.toOption.any P = true) :
    ∃ v, x = .ok v ∧ P v = true := by
  cases x with
  | error e => cases h
  | ok v => exact ⟨v, rfl, h⟩

theorem Except.exists_of_isOk {ε α : Type} {x : Except ε α} (h : x.isOk = true) :
    ∃ v, x = .ok v := by
  cases x with
  | error e => cases h
  | ok v => exact ⟨v, rfl⟩

/-- The result has what an evaluation finds. -/
theorem Except.of_any_toOption {ε α : Type} {x : Except ε α}
    {v : α} {P : α → Prop} [DecidablePred P] (hx : x = .ok v)
    (h : x.toOption.any (fun v => decide (P v)) = true) : P v := by
  subst hx
  exact of_decide_eq_true h

namespace Check

variable {α β : Type}

/-- What follows a check that has succeeded goes on from the state that it has left. -/
theorem run_bind_of_ok {f : Check α} {g : α → Check β}
    {s s' : CheckState} {x : α} (h : f.run s = .ok (x, s')) :
    (f >>= g).run s = (g x).run s' := by
  rw [StateT.run_bind, h]
  rfl

/-- What follows a check that has stopped is not run. -/
theorem run_bind_of_error {f : Check α} {g : α → Check β} {s : CheckState} {e : CompileError}
    (h : f.run s = .error e) : (f >>= g).run s = .error e := by
  rw [StateT.run_bind, h]
  rfl

theorem run_get_bind {g : CheckState → Check β} {s : CheckState} :
    (get >>= g).run s = (g s).run s := rfl

/-- A check that succeeds has the property, and one that stops with a defect has one of those
allowed. -/
def Sound (f : Check α) (s : CheckState) (Q : α → CheckState → Prop)
    (D : Defect → Prop := fun _ => False) : Prop :=
  match f.run s with
  | .ok (x, s') => Q x s'
  | .error (.diagnostic _) => True
  | .error (.defect d) => D d

/-- The check succeeds, with the property. -/
def Succeeds (f : Check α) (s : CheckState) (Q : α → CheckState → Prop) : Prop :=
  ∃ x s', f.run s = .ok (x, s') ∧ Q x s'

/-- Two sound checks in a row are sound; a defect may come from either. -/
theorem Sound.bind {f : Check α} {g : α → Check β}
    {s : CheckState} {Q : α → CheckState → Prop}
    {R : β → CheckState → Prop} {D : Defect → Prop} (hf : Sound f s Q D)
    (hg : ∀ x s', Q x s' → Sound (g x) s' R D) : Sound (f >>= g) s R D := by
  unfold Sound at hf ⊢
  cases hrun : f.run s with
  | error e =>
    rw [hrun] at hf
    rw [run_bind_of_error hrun]
    cases e <;> exact hf
  | ok r =>
    rw [hrun] at hf
    rw [run_bind_of_ok hrun]
    exact hg r.1 r.2 hf

theorem Succeeds.bind {f : Check α} {g : α → Check β} {s : CheckState}
    {Q : α → CheckState → Prop} {R : β → CheckState → Prop}
    (hf : Succeeds f s Q) (hg : ∀ x s', Q x s' → Succeeds (g x) s' R) :
    Succeeds (f >>= g) s R := by
  obtain ⟨x, s', hrun, hx⟩ := hf
  obtain ⟨y, s'', hrun', hy⟩ := hg x s' hx
  exact ⟨y, s'', by rw [run_bind_of_ok hrun, hrun'], hy⟩

/-- A first check that is known to succeed. -/
theorem Sound.step {f : Check α} {g : α → Check β}
    {s s' : CheckState} {x : α} {R : β → CheckState → Prop}
    {D : Defect → Prop} (hrun : f.run s = .ok (x, s')) (hg : Sound (g x) s' R D) :
    Sound (f >>= g) s R D := by
  unfold Sound at hg ⊢
  rw [run_bind_of_ok hrun]
  exact hg

/-- The same with the run of the first check given. -/
theorem Succeeds.step {f : Check α} {g : α → Check β}
    {s s' : CheckState} {x : α} {R : β → CheckState → Prop}
    (hrun : f.run s = .ok (x, s')) (hg : Succeeds (g x) s' R) : Succeeds (f >>= g) s R := by
  obtain ⟨y, s'', hrun', hy⟩ := hg
  exact ⟨y, s'', by rw [run_bind_of_ok hrun, hrun'], hy⟩

/-- A sound check is sound for whatever follows from its outcome. -/
theorem Sound.mono {f : Check α} {s : CheckState}
    {Q R : α → CheckState → Prop} {D E : Defect → Prop}
    (hf : Sound f s Q D) (hQ : ∀ x s', Q x s' → R x s') (hD : ∀ d, D d → E d) :
    Sound f s R E := by
  unfold Sound at hf ⊢
  cases hrun : f.run s with
  | error e =>
    rw [hrun] at hf
    cases e with
    | diagnostic d => trivial
    | defect d => exact hD d hf
  | ok r =>
    rw [hrun] at hf
    exact hQ r.1 r.2 hf

theorem Succeeds.mono {f : Check α} {s : CheckState} {Q R : α → CheckState → Prop}
    (hf : Succeeds f s Q) (hQ : ∀ x s', Q x s' → R x s') : Succeeds f s R := by
  obtain ⟨x, s', hrun, hx⟩ := hf
  exact ⟨x, s', hrun, hQ x s' hx⟩

/-- A check whose run is known is sound if its outcome is. -/
theorem Sound.of_run {f : Check α} {s s' : CheckState} {x : α} {Q : α → CheckState → Prop}
    {D : Defect → Prop} (hrun : f.run s = .ok (x, s')) (h : Q x s') : Sound f s Q D := by
  unfold Sound
  rw [hrun]
  exact h

/-- A check that refuses the program. -/
theorem Sound.of_refusal {f : Check α} {s : CheckState}
    {d : Diagnostic} {Q : α → CheckState → Prop}
    {D : Defect → Prop} (hrun : f.run s = .error (.diagnostic d)) : Sound f s Q D := by
  unfold Sound
  rw [hrun]
  trivial

theorem Sound.pure {s : CheckState} {x : α}
    {Q : α → CheckState → Prop} {D : Defect → Prop} (h : Q x s) :
    Sound (Pure.pure x) s Q D := h

theorem Succeeds.pure {s : CheckState} {x : α} {Q : α → CheckState → Prop} (h : Q x s) :
    Succeeds (Pure.pure x) s Q := ⟨x, s, rfl, h⟩

/-- What a sound check that succeeds has. -/
theorem Sound.of_ok {f : Check α} {s s' : CheckState} {x : α} {Q : α → CheckState → Prop}
    {D : Defect → Prop} (h : Sound f s Q D) (hrun : f.run s = .ok (x, s')) : Q x s' := by
  unfold Sound at h
  rw [hrun] at h
  exact h

end Check

/-! ## The small checks -/

namespace Check

/-- A name is looked up in the open scopes and nowhere else. -/
theorem resolve_run (name : Ident) (s : CheckState) :
    (resolve name).run s = match s.scopes.lookup? name.name with
      | some id => .ok (id, s)
      | none => .error (.diagnostic ⟨name.span, .undefinedIdentifier name.name⟩) := by
  unfold resolve Scopes.resolve
  rw [run_get_bind]
  cases s.scopes.lookup? name.name <;> rfl

theorem variableType_run (symbol : SymbolId) (name : Ident) (s : CheckState) :
    (variableType symbol name).run s = match s.symbols.variableAt? symbol with
      | some v => .ok (v.type, s)
      | none => .error (.diagnostic ⟨name.span, .notAVariable name.name⟩) := by
  show (match s.symbols.variableAt? symbol with
    | some v => Pure.pure v.type
    | none => refuse name.span (.notAVariable name.name) : Check TypeId).run s = _
  cases s.symbols.variableAt? symbol <;> rfl

theorem procedureParams_run (symbol : SymbolId) (name : Ident) (s : CheckState) :
    (procedureParams symbol name).run s = match s.symbols.procedureAt? symbol with
      | some p => .ok (p.params, s)
      | none => .error (.diagnostic ⟨name.span, .notAProcedure name.name⟩) := by
  show (match s.symbols.procedureAt? symbol with
    | some p => Pure.pure p.params
    | none => refuse name.span (.notAProcedure name.name) : Check (List SymbolId)).run s = _
  cases s.symbols.procedureAt? symbol <;> rfl

/-- A name must be known, and it must be the name of a type. -/
theorem namedType_run (name : Ident) (s : CheckState) :
    (namedType name).run s = match s.scopes.lookup? name.name with
      | some id =>
        match s.symbols.typeAt? id with
        | some type => .ok (type, s)
        | none => .error (.diagnostic ⟨name.span, .notAType name.name⟩)
      | none => .error (.diagnostic ⟨name.span, .undefinedIdentifier name.name⟩) := by
  unfold namedType
  have hresolve := resolve_run name s
  cases hid : s.scopes.lookup? name.name with
  | none =>
    rw [hid] at hresolve
    exact run_bind_of_error hresolve
  | some id =>
    rw [hid] at hresolve
    rw [run_bind_of_ok hresolve]
    show (match s.symbols.typeAt? id with
      | some type => Pure.pure type
      | none => refuse name.span (.notAType name.name) : Check TypeId).run s = _
    dsimp only
    cases s.symbols.typeAt? id <;> rfl

theorem elementType_run (base : TypeId) (name : Ident) (s : CheckState) :
    (elementType base name).run s = match s.types.get? base with
      | some (.array element ..) => .ok (element, s)
      | _ => .error (.diagnostic ⟨name.span, .notAnArray name.name⟩) := by
  show (match s.types.get? base with
    | some (.array element ..) => Pure.pure element
    | _ => refuse name.span (.notAnArray name.name) : Check TypeId).run s = _
  split <;> rfl

/-- The base must be a record, and the first field of the name counts. -/
theorem fieldType_run (base : TypeId) (name field : Ident) (s : CheckState) :
    (fieldType base name field).run s = match s.types.get? base with
      | some (.record fields _) =>
        match fields.find? (·.name == field.name) with
        | some f => .ok (f.type, s)
        | none => .error (.diagnostic ⟨field.span, .noSuchField name.name field.name⟩)
      | _ => .error (.diagnostic ⟨name.span, .notARecord name.name⟩) := by
  show (match s.types.get? base with
    | some (.record fields _) =>
      match fields.find? (·.name == field.name) with
      | some f => Pure.pure f.type
      | none => refuse field.span (.noSuchField name.name field.name)
    | _ => refuse name.span (.notARecord name.name) : Check TypeId).run s = _
  split
  · split <;> rfl
  · rfl

/-- A type is added, or the check stops and the table does not matter any more. -/
theorem addType_run (span : Span) (add : TypeTable → Option TypeId × TypeTable)
    (s : CheckState) : (addType span add).run s = match add s.types with
      | (some type, types) => .ok (type, { s with types })
      | (none, _) => .error (.diagnostic ⟨span, .storageOverflow⟩) := by
  unfold addType
  rw [run_get_bind]
  obtain ⟨type?, types⟩ := add s.types
  cases type? <;> rfl

end Check

/-- The state after a declaration. -/
def CheckState.declared (s : CheckState) (name : Ident) (meaning : Meaning) : CheckState :=
  { s with
    scopes := s.scopes.declared name.name ⟨s.symbols.length⟩
    symbols := (s.symbols.add ⟨name.name, meaning, name.span⟩).2 }

/-- The state after the declaration of a variable: its words are taken. -/
def CheckState.declaredVariable (s : CheckState) (type : TypeId) (access : Access)
    (name : Ident) : CheckState :=
  let s' := s.declared name
    (.var { type, access, level := s.scopes.level, offset := s.scopes.offset })
  { s' with scopes := s'.scopes.allocated (Check.slotSize s.types type access) }

namespace Check

/-- A name is declared unless the innermost scope has it already. -/
theorem declare_run (name : Ident) (meaning : Meaning) (s : CheckState) :
    (declare name meaning).run s =
      if s.scopes.inner.names.contains name.name then
        .error (.diagnostic ⟨name.span, .duplicateIdentifier name.name⟩)
      else .ok (⟨s.symbols.length⟩, s.declared name meaning) := by
  unfold declare Scopes.declare
  rw [run_get_bind]
  by_cases h : s.scopes.inner.names.contains name.name
  · rw [if_pos h, if_pos h]
    rfl
  · rw [if_neg h, if_neg h]
    rfl

/-- The name is looked at before the room: a name that is taken is refused as such, even where
the frame is full. -/
theorem declareVariable_run (type : TypeId)
    (access : Access) (name : Ident) (s : CheckState) :
    (declareVariable type access name).run s =
      if s.scopes.inner.names.contains name.name then
        .error (.diagnostic ⟨name.span, .duplicateIdentifier name.name⟩)
      else if Word.Fits (s.scopes.offset + slotSize s.types type access) then
        .ok ((), s.declaredVariable type access name)
      else .error (.diagnostic ⟨name.span, .storageOverflow⟩) := by
  unfold declareVariable
  rw [run_get_bind]
  let v : Variable := { type, access, level := s.scopes.level, offset := s.scopes.offset }
  have hdeclare := declare_run name (.var v) s
  have hallocate := Scopes.allocate?_eq (s.declared name (.var v)).scopes
    (slotSize (s.declared name (.var v)).types type access)
  by_cases h : s.scopes.inner.names.contains name.name
  · rw [if_pos h] at hdeclare ⊢
    exact run_bind_of_error hdeclare
  · rw [if_neg h] at hdeclare ⊢
    rw [run_bind_of_ok hdeclare, run_get_bind]
    by_cases hfits : Word.Fits (s.scopes.offset + slotSize s.types type access)
    · rw [hallocate.trans (if_pos hfits), if_pos hfits]
      rfl
    · rw [hallocate.trans (if_neg hfits), if_neg hfits]
      rfl

theorem requireInteger_run (type : TypeId) (span : Span) (s : CheckState) :
    (requireInteger type span).run s =
      if type = .integer then .ok ((), s)
      else .error (.diagnostic ⟨span, .incompatibleTypes⟩) := by
  unfold requireInteger
  split <;> rfl

/-- The two conditions on operands are tested in one place, and there is one problem for
both. -/
theorem requireOperands_run (left right : TypeId) (span : Span) (s : CheckState) :
    (requireOperands left right span).run s =
      if left = right ∧ s.types.isScalar left then .ok ((), s)
      else .error (.diagnostic ⟨span, .incompatibleTypes⟩) := by
  unfold requireOperands
  rw [run_get_bind]
  split <;> rfl

/-- The parameter is a variable, so an argument for it is looked at. -/
theorem checkArgument_run (procedure : String) {s : CheckState} {param : SymbolId}
    {v : Variable} (arg : Expr) (hv : s.symbols.variableAt? param = some v) :
    (checkArgument procedure param arg).run s =
      if v.access = .indirect ∧ arg.asRef?.isNone = true then
        .error (.diagnostic ⟨arg.span, .notAVariable arg.description⟩)
      else
        (do
          let type ← arg.check
          if type = v.type then Pure.pure ()
          else refuse arg.span (.incompatibleArgument procedure (s.symbols.name param)) :
              Check Unit).run s := by
  unfold checkArgument
  rw [run_get_bind]
  dsimp only
  rw [hv]
  dsimp only
  split <;> rfl

/-- The update of a procedure stops with a defect if the symbol is none. -/
theorem updateProcedure_run (id : SymbolId) (f : Procedure → Procedure) (s : CheckState) :
    (updateProcedure id f).run s = match s.symbols.procedureAt? id with
      | some _ => .ok ((), { s with symbols := s.symbols.mapProcedure id f })
      | none => .error (.defect (.unexpectedSymbol (s.symbols.name id) "procedure")) := by
  unfold updateProcedure
  rw [run_get_bind, SymbolTable.updateProcedure_eq]
  cases s.symbols.procedureAt? id <;> rfl

/-- The update of a symbol that is a procedure goes through. -/
theorem updateProcedure_run_of_procedure {id : SymbolId} {s : CheckState} {p : Procedure}
    (h : s.symbols.procedureAt? id = some p) (f : Procedure → Procedure) :
    (updateProcedure id f).run s =
    .ok ((), { s with symbols := s.symbols.mapProcedure id f }) := by
  rw [updateProcedure_run, h]

/-- The frame of a procedure must have room for the display, with a word for each level up to
its own. -/
theorem fixFrame_run (id : SymbolId) (name : Ident) (s : CheckState) :
    (fixFrame id name).run s =
      if Word.Fits (s.scopes.offset + (s.scopes.level + 1)) then
        (updateProcedure id fun p => { p with
          frameSize := s.scopes.offset + (s.scopes.level + 1), displayBase :=
            s.scopes.offset }).run s
      else .error (.diagnostic ⟨name.span, .storageOverflow⟩) := by
  unfold fixFrame Word.checked
  rw [run_get_bind]
  dsimp only
  by_cases h : Word.Fits (s.scopes.offset + (s.scopes.level + 1))
  · rw [if_pos h, if_pos h]
  · rw [if_neg h, if_neg h]
    rfl

/-- A scope with another one around it is closed, and its symbols are kept. -/
theorem closeProcedure_run (name : Ident) (span : Span) (s : CheckState) {scope : Scope}
    {outer : List Scope} (h : s.scopes.outer = scope :: outer) :
    (closeProcedure name span).run s = .ok ((), { s with
      scopes := ⟨scope, outer⟩
      closed := s.closed ++ [ClosedScope.mk s.scopes.level s.scopes.entries] }) := by
  unfold closeProcedure
  rw [run_get_bind]
  unfold Scopes.leave?
  rw [h]
  rfl

/-- The scope of the main program cannot be closed; this is the defect that the check reports
then. -/
theorem closeProcedure_run_of_nil (name : Ident) (span : Span)
    {s : CheckState} (h : s.scopes.outer = []) :
    (closeProcedure name span).run s =
      .error (.defect (.malformedTree s!"scope of '{name.name}' already closed" span)) := by
  unfold closeProcedure
  rw [run_get_bind]
  unfold Scopes.leave?
  rw [h]
  rfl

end Check

/-! ## The header of a procedure -/

/-- The symbol of a procedure as it is when its name is declared. -/
def CheckState.header (s : CheckState) : Meaning :=
  .proc { level := s.scopes.level + 1, params := [], frameSize := 0, displayBase := 0 }

/-- The state in which the parameters of a procedure are checked. -/
def CheckState.entered (s : CheckState) (node : NodeId) (name : Ident) : CheckState :=
  { s.declared name s.header with
    scopes := (s.declared name s.header).scopes.enter
    annotations := s.annotations.recordSymbol node ⟨s.symbols.length⟩ }

/-- The symbol that the header of a procedure declares is a procedure, without parameters and
without a frame yet. -/
theorem CheckState.procedureAt?_header (s : CheckState) (name : Ident) :
    (s.declared name s.header).symbols.procedureAt? ⟨s.symbols.length⟩ =
      some { level := s.scopes.level + 1, params := [], frameSize := 0, displayBase := 0 } :=
  SymbolTable.procedureAt?_eq_some_iff.mpr
    (congrArg (Option.map Symbol.meaning) (SymbolTable.get?_add_self _ _))

end BlockLang
