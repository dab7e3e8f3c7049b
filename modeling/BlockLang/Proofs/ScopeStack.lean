import BlockLang.Proofs.Checking
import Mathlib.Data.List.Nodup

/-!
# Scopes are a stack of association lists

A scope keeps its declarations twice, in a map that look-ups use and in a list that the
frame is laid out from. `Tiers` keeps them once, in one association list for each open
scope. Whatever is done to new scopes and a new table of symbols, every answer is the one
that the association lists give: this is `ScopeState.refines_tiers`.

The proof reads the scopes as such a stack (`ScopeState.tiers`). Both answer alike as long
as in every open scope the map finds exactly what the list holds (`ScopeState.Sound`), and
every operation keeps this up.

* Failures: `Scopes.declare_of_error`, `Scopes.allocate?_of_none` and
  `Scopes.leave?_of_none` look at the state that an operation hands back when it fails,
  and find the one that it was given. `ScopeState.perform_of_fails` puts them together.
* One scope: `Scope.Agrees` says that map and list hold the same declarations. It stays as
  the table of symbols grows (`Scope.Agrees.mono`), since symbols keep their names.
* One operation: `ScopeState.perform_cases` says what it can do to the state, and
  `ScopeState.Sound.step` and `ScopeState.Sound.perform` follow from it. The one hard case
  is a declaration, which changes map, list and table at once
  (`ScopeState.Sound.declared`).
* Runs: `ScopeState.Sound.performAll` and `ScopeState.Sound.tiers_performAll`, by
  induction on the operations.
* Nesting: operations that close whatever they open (`ScopeOp.Closes`) leave the scopes
  around them alone (`ScopeState.outer_performAll`), so a scope that is closed again has
  changed nothing outside (`ScopeState.scopes_nested`).
* Look-ups seen from outside: `ScopeState.Sound.lookup?_eq_some_iff` finds the innermost
  declaration, and `ScopeState.Sound.declare_fails_iff` says that only a name of the
  innermost scope is refused.
-/

namespace BlockLang

/-! ## Operations -/

/-- What can be done to scopes and the table of symbols. -/
inductive ScopeOp where
  | enter
  | leave
  | declare (symbol : Symbol)
  | lookup (name : String)
  | resolve (name : String) (span : Span)
  /-- Lists the symbols of the innermost scope. -/
  | capture
  | allocate (words : Int)

inductive ScopeAnswer where
  | done
  | symbol (id : SymbolId)
  | symbols (ids : List SymbolId)
  | offset (start : Int)
  /-- There is no scope to close, no declaration or no room in the frame. -/
  | nothing
  | refused (d : Diagnostic)
  deriving DecidableEq

def ScopeAnswer.fails : ScopeAnswer → Bool
  | .nothing | .refused _ => true
  | .done | .symbol _ | .symbols _ | .offset _ => false

/-- The answer that an operation gives which may have none. -/
def ScopeAnswer.ofOption {α : Type} (f : α → ScopeAnswer) : Option α → ScopeAnswer
  | some x => f x
  | none => .nothing

/-- The answer that an operation gives which may refuse a name. -/
def ScopeAnswer.ofExcept : Except Diagnostic SymbolId → ScopeAnswer
  | .ok id => .symbol id
  | .error d => .refused d

structure ScopeState where
  scopes : Scopes := {}
  symbols : SymbolTable := {}

namespace ScopeState

/-- The answer to an operation, and the scopes and the table as it leaves them. -/
def perform (s : ScopeState) : ScopeOp → ScopeAnswer × ScopeState
  | .enter => (.done, { s with scopes := s.scopes.enter })
  | .leave =>
    let (ids?, scopes) := s.scopes.leave?
    (.ofOption .symbols ids?, { s with scopes })
  | .declare symbol =>
    let (result, scopes, symbols) := s.scopes.declare s.symbols symbol
    (.ofExcept result, ⟨scopes, symbols⟩)
  | .lookup name => (.ofOption .symbol (s.scopes.lookup? name), s)
  | .resolve name span => (.ofExcept (s.scopes.resolve name span), s)
  | .capture => (.symbols s.scopes.entries, s)
  | .allocate words =>
    let (start?, scopes) := s.scopes.allocate? words
    (.ofOption .offset start?, { s with scopes })

/-- The state after some operations. -/
def performAll (s : ScopeState) (ops : List ScopeOp) : ScopeState :=
  ops.foldl (fun s op => (s.perform op).2) s

@[simp] theorem performAll_nil (s : ScopeState) : s.performAll [] = s := rfl

@[simp] theorem performAll_cons (s : ScopeState) (op : ScopeOp) (ops : List ScopeOp) :
    s.performAll (op :: ops) = (s.perform op).2.performAll ops := rfl

theorem performAll_append (s : ScopeState) (ops ops' : List ScopeOp) :
    s.performAll (ops ++ ops') = (s.performAll ops).performAll ops' := by
  simp [performAll]

end ScopeState

namespace Scopes

/-- A declaration is refused if the innermost scope has the name, and is made otherwise. -/
theorem declare_eq (s : Scopes) (t : SymbolTable) (symbol : Symbol) :
    s.declare t symbol =
      if s.inner.names.contains symbol.name then
        (.error ⟨symbol.span, .duplicateIdentifier symbol.name⟩, s, t)
      else (.ok ⟨t.length⟩, s.declared symbol.name ⟨t.length⟩, (t.add symbol).2) := rfl

/-- A declaration that is refused leaves scopes and table as they are. -/
theorem declare_of_error {s : Scopes} {t : SymbolTable} {symbol : Symbol} {d : Diagnostic}
    (h : (s.declare t symbol).1 = .error d) : (s.declare t symbol).2 = (s, t) := by
  rw [declare_eq] at h ⊢
  split at h
  · next hname => rw [if_pos hname]
  · cases h

/-- Where there is no room, no words are taken. -/
theorem allocate?_of_none {s : Scopes} {words : Int} (h : (s.allocate? words).1 = none) :
    (s.allocate? words).2 = s := by
  rw [allocate?_eq] at h ⊢
  split at h
  · cases h
  · next hfits => rw [if_neg hfits]

/-- Only the main program's scope stays open. -/
theorem leave?_of_none {s : Scopes} (h : s.leave?.1 = none) :
    s.outer = [] ∧ s.leave?.2 = s := by
  unfold leave? at h ⊢
  cases houter : s.outer with
  | nil => exact ⟨rfl, rfl⟩
  | cons scope outer =>
    rw [houter] at h
    cases h

end Scopes

namespace ScopeState

/-- An answer that fails comes from no result. -/
theorem ofOption_fails {α : Type} {f : α → ScopeAnswer} (hf : ∀ x, (f x).fails = false)
    {x? : Option α} (h : (ScopeAnswer.ofOption f x?).fails = true) : x? = none := by
  cases x? with
  | none => rfl
  | some x => exact absurd h (by simp [ScopeAnswer.ofOption, hf])

/-- An answer that fails comes from a diagnostic. -/
theorem ofExcept_fails {result : Except Diagnostic SymbolId}
    (h : (ScopeAnswer.ofExcept result).fails = true) : ∃ d, result = .error d := by
  cases result with
  | error d => exact ⟨d, rfl⟩
  | ok id => cases h

/-- An operation that fails changes nothing. -/
theorem perform_of_fails {s : ScopeState} {op : ScopeOp} (h : (s.perform op).1.fails = true) :
    (s.perform op).2 = s := by
  cases op with
  | enter => cases h
  | capture => cases h
  | lookup name => rfl
  | resolve name span => rfl
  | leave =>
    have hnone : s.scopes.leave?.1 = none := ofOption_fails (fun _ => rfl) h
    exact congrArg (ScopeState.mk · s.symbols) (Scopes.leave?_of_none hnone).2
  | declare symbol =>
    obtain ⟨d, hd⟩ : ∃ d, (s.scopes.declare s.symbols symbol).1 = .error d := ofExcept_fails h
    exact congrArg (fun r : Scopes × SymbolTable => ScopeState.mk r.1 r.2)
      (Scopes.declare_of_error hd)
  | allocate words =>
    have hnone : (s.scopes.allocate? words).1 = none := ofOption_fails (fun _ => rfl) h
    exact congrArg (ScopeState.mk · s.symbols) (Scopes.allocate?_of_none hnone)

end ScopeState

/-! ## Association lists -/

/-- A scope as an association list, with the first free offset of its frame. The latest
declaration comes first. -/
structure Tier where
  names : Names
  offset : Int
  deriving DecidableEq

/-- The symbols in the order of declaration. -/
def Tier.entries (t : Tier) : List SymbolId := (t.names.map (·.2)).reverse

/-- Open scopes as association lists, from the inside out, and all symbols declared so far. -/
structure Tiers where
  inner : Tier := ⟨[], 0⟩
  outer : List Tier := []
  symbols : List Symbol := []
  deriving DecidableEq

namespace Tiers

def lookup? (s : Tiers) (name : String) : Option SymbolId :=
  (s.inner :: s.outer).findSome? (·.names.lookup name)

def perform (s : Tiers) : ScopeOp → ScopeAnswer × Tiers
  | .enter => (.done, { s with inner := ⟨[], Frame.headerSize⟩, outer := s.inner :: s.outer })
  | .leave =>
    match s.outer with
    | [] => (.nothing, s)
    | tier :: outer => (.symbols s.inner.entries, { s with inner := tier, outer })
  | .declare symbol =>
    if symbol.name ∈ s.inner.names.map (·.1)
      then (.refused ⟨symbol.span, .duplicateIdentifier symbol.name⟩, s)
    else
      (.symbol ⟨s.symbols.length⟩,
        { s with
          inner := ⟨(symbol.name, ⟨s.symbols.length⟩) :: s.inner.names, s.inner.offset⟩
          symbols := s.symbols ++ [symbol] })
  | .lookup name =>
    match s.lookup? name with
    | some id => (.symbol id, s)
    | none => (.nothing, s)
  | .resolve name span =>
    match s.lookup? name with
    | some id => (.symbol id, s)
    | none => (.refused ⟨span, .undefinedIdentifier name⟩, s)
  | .capture => (.symbols s.inner.entries, s)
  | .allocate words =>
    if Word.Fits (s.inner.offset + words) then
      (.offset s.inner.offset, { s with inner := ⟨s.inner.names, s.inner.offset + words⟩ })
    else (.nothing, s)

def performAll (s : Tiers) (ops : List ScopeOp) : Tiers :=
  ops.foldl (fun s op => (s.perform op).2) s

end Tiers

/-! ## Map and list of a scope -/

namespace Scope

/-- A symbol of that name stands in the list of the scope. -/
def Declares (t : SymbolTable) (s : Scope) (name : String) (id : SymbolId) : Prop :=
  id ∈ s.entries.toList ∧ t.name id = name

/-- The map of the scope finds exactly what its list holds. -/
structure Agrees (t : SymbolTable) (s : Scope) : Prop where
  known : ∀ id ∈ s.entries.toList, id.index < t.length
  mapped : ∀ name id, s.names[name]? = some id ↔ s.Declares t name id

/-- The scope as an association list. -/
def tier (t : SymbolTable) (s : Scope) : Tier :=
  ⟨(s.entries.toList.map fun id => (t.name id, id)).reverse, s.offset⟩

variable {t t' : SymbolTable} {s : Scope}

@[simp] theorem entries_tier (t : SymbolTable) (s : Scope) :
    (s.tier t).entries = s.entries.toList := by
  simp [tier, Tier.entries, Function.comp_def]

theorem agrees_empty (t : SymbolTable) (offset : Int) : Agrees t { offset } where
  known := by simp
  mapped := by simp [Declares]

/-- A name that the map does not find is not declared. -/
theorem Agrees.unmapped (h : s.Agrees t) (name : String) :
    s.names[name]? = none ↔ ∀ id, ¬ s.Declares t name id := by
  simp [Option.eq_none_iff_forall_ne_some, h.mapped]

/-- Two symbols of a scope have two names, since the map finds only one for a name. -/
theorem Agrees.distinct (h : s.Agrees t) (hentries : s.entries.toList.Nodup) :
    (s.entries.toList.map t.name).Nodup := by
  refine (List.nodup_map_iff_inj_on hentries).mpr ?_
  intro id hid id' hid' hname
  have hmap := (h.mapped (t.name id) id).mpr ⟨hid, rfl⟩
  have hmap' := (h.mapped (t.name id) id').mpr ⟨hid', hname.symm⟩
  rw [hmap] at hmap'
  exact Option.some.inj hmap'

/-- The association list has the declarations of the scope. -/
theorem mem_tier {name : String} {id : SymbolId} :
    (name, id) ∈ (s.tier t).names ↔ s.Declares t name id := by
  simp only [tier, List.mem_reverse, List.mem_map, Prod.mk.injEq, Declares]
  constructor
  · rintro ⟨_, hid, hname, rfl⟩
    exact ⟨hid, hname⟩
  · rintro ⟨hid, hname⟩
    exact ⟨id, hid, hname, rfl⟩

theorem mem_map_tier {name : String} : name ∈ (s.tier t).names.map (·.1) ↔
    ∃ id, s.Declares t name id := by
  simp [← mem_tier]

/-- Map and association list find the same. -/
theorem Agrees.lookup (h : s.Agrees t) (name : String) :
    s.names[name]? = (s.tier t).names.lookup name := by
  cases hlookup : (s.tier t).names.lookup name with
  | some id =>
    obtain ⟨before, after, heq, _⟩ := List.lookup_eq_some_iff.mp hlookup
    have hmem : (name, id) ∈ (s.tier t).names := by simp [heq]
    exact (h.mapped name id).mpr (mem_tier.mp hmem)
  | none =>
    rw [h.unmapped]
    intro id hid
    have hsome :=
      (Scopes.lookup_isSome (s.tier t).names name).mpr (mem_map_tier.mpr ⟨id, hid⟩)
    simp [hlookup] at hsome

/-- The map has the names of the association list. -/
theorem Agrees.contains (h : s.Agrees t) (name : String) :
    s.names.contains name = true ↔ name ∈ (s.tier t).names.map (·.1) := by
  rw [Std.TreeMap.contains_eq_isSome_getElem?, h.lookup, Scopes.lookup_isSome]

/-- A scope reads the same in a table that has grown. -/
theorem Agrees.map_name (h : s.Agrees t) (ht : t ≤ t') :
    ∀ id ∈ s.entries.toList, t'.name id = t.name id := by
  intro id hid
  have hget : t.get? id = some _ := Array.getElem?_eq_getElem (h.known id hid)
  simp [SymbolTable.name, hget, ht _ _ hget]

/-- Map and list still agree when the table of symbols has grown. -/
theorem Agrees.mono (h : s.Agrees t) (ht : t ≤ t') : s.Agrees t' where
  known id hid := Nat.lt_of_lt_of_le (h.known id hid) (SymbolTable.length_le ht)
  mapped name id := by
    rw [h.mapped]
    refine and_congr_right fun hid => ?_
    rw [h.map_name ht id hid]

/-- The association list is the same when the table of symbols has grown. -/
theorem Agrees.tier_eq (h : s.Agrees t) (ht : t ≤ t') : s.tier t' = s.tier t := by
  have hmap : s.entries.toList.map (fun id => (t'.name id, id)) =
      s.entries.toList.map fun id => (t.name id, id) :=
    List.map_congr_left fun id hid => by rw [h.map_name ht id hid]
  rw [tier, hmap, tier]

end Scope

/-! ## One operation -/

namespace Scopes

/-- The open scopes, from the inside out. -/
def all (s : Scopes) : List Scope := s.inner :: s.outer

end Scopes

namespace ScopeState

/-- Every open scope has its declarations right, and no symbol stands in two of them. -/
structure Sound (s : ScopeState) : Prop where
  agrees : ∀ scope ∈ s.scopes.all, scope.Agrees s.symbols
  apart : (s.scopes.all.flatMap (·.entries.toList)).Nodup

/-- The scopes as a stack of association lists. -/
def tiers (s : ScopeState) : Tiers :=
  ⟨s.scopes.inner.tier s.symbols, s.scopes.outer.map (·.tier s.symbols),
    s.symbols.symbols.toList⟩

variable {s : ScopeState}

theorem Sound.inner (h : s.Sound) : s.scopes.inner.Agrees s.symbols :=
  h.agrees _ List.mem_cons_self

/-- A look-up in the association lists finds what the scopes find. -/
theorem Sound.lookup? (h : s.Sound) (name : String) :
    s.tiers.lookup? name = s.scopes.lookup? name := by
  have hall : ∀ scopes : List Scope, (∀ scope ∈ scopes, scope.Agrees s.symbols) →
      (scopes.map (·.tier s.symbols)).findSome? (·.names.lookup name) =
      scopes.findSome? (·.names[name]?) := by
    intro scopes hscopes
    induction scopes with
    | nil => rfl
    | cons scope rest ih =>
      obtain ⟨hscope, hrest⟩ := List.forall_mem_cons.mp hscopes
      simp only [List.map_cons, List.findSome?_cons, ih hrest, hscope.lookup]
  exact hall s.scopes.all h.agrees

/-- The innermost scope after a declaration. The new symbol has no other name and stands in no
other list. -/
theorem Sound.declared (h : s.Sound) {symbol : Symbol}
    (hname : ¬ s.scopes.inner.names.contains symbol.name = true) :
    (s.scopes.declared symbol.name ⟨s.symbols.length⟩).inner.Agrees
    (s.symbols.add symbol).2 := by
  have hle := s.symbols.le_add symbol
  have hmono := h.inner.mono hle
  have hnew : (s.symbols.add symbol).2.name ⟨s.symbols.length⟩ = symbol.name := by
    simp [SymbolTable.name, SymbolTable.get?_add_self]
  have hlength : (s.symbols.add symbol).2.length = s.symbols.length + 1 := by
    simp [SymbolTable.add, SymbolTable.length]
  constructor
  · intro id hid
    simp only [Scopes.declared, Array.toList_push, List.mem_append, List.mem_singleton] at hid
    rcases hid with hid | rfl
    · exact hmono.known id hid
    · simp [hlength]
  · intro name id
    simp only [Scopes.declared, Std.TreeMap.getElem?_insert, Scope.Declares,
      Array.toList_push, List.mem_append, List.mem_singleton]
    by_cases heq : symbol.name = name
    · -- No symbol of that name stood in the scope before.
      have hnone : ∀ id, ¬ s.scopes.inner.Declares (s.symbols.add symbol).2 name id := by
        rw [← hmono.unmapped, ← heq]
        rw [Std.TreeMap.contains_eq_isSome_getElem?] at hname
        exact Option.not_isSome_iff_eq_none.mp hname
      subst heq
      simp only [Std.compare_self, ↓reduceIte, Option.some.injEq]
      constructor
      · rintro rfl
        exact ⟨.inr rfl, hnew⟩
      · rintro ⟨hid | rfl, hid'⟩
        · exact absurd ⟨hid, hid'⟩ (hnone id)
        · rfl
    · have hcompare : compare symbol.name name ≠ .eq := by simpa using heq
      rw [if_neg hcompare, hmono.mapped, Scope.Declares]
      constructor
      · rintro ⟨hid, hid'⟩
        exact ⟨.inl hid, hid'⟩
      · rintro ⟨hid | rfl, hid'⟩
        · exact ⟨hid, hid'⟩
        · exact absurd (hnew.symm.trans hid') heq

/-- Everything that an operation can do to the state. -/
theorem perform_cases (s : ScopeState) (op : ScopeOp) :
    (s.perform op).2 = s ∨ (op = .enter ∧ (s.perform op).2 = ⟨s.scopes.enter, s.symbols⟩) ∨
    (∃ scope outer, op = .leave ∧ s.scopes.outer = scope :: outer ∧
      (s.perform op).2 = ⟨⟨scope, outer⟩, s.symbols⟩) ∨
    (∃ symbol, op = .declare symbol ∧ ¬ s.scopes.inner.names.contains symbol.name = true ∧
      (s.perform op).2 =
      ⟨s.scopes.declared symbol.name ⟨s.symbols.length⟩, (s.symbols.add symbol).2⟩) ∨
    ∃ words, op = .allocate words ∧
    (s.perform op).2 = ⟨s.scopes.allocated words, s.symbols⟩ := by
  cases op with
  | enter => exact .inr (.inl ⟨rfl, rfl⟩)
  | leave =>
    cases houter : s.scopes.outer with
    | nil => exact .inl (by simp [perform, Scopes.leave?, houter])
    | cons scope outer =>
      exact .inr (.inr (.inl ⟨scope, outer, rfl, rfl,
          by simp [perform, Scopes.leave?, houter]⟩))
  | declare symbol =>
    by_cases h : s.scopes.inner.names.contains symbol.name = true
    · exact .inl (by simp [perform, Scopes.declare_eq, h])
    · exact .inr (.inr (.inr (.inl ⟨symbol, rfl, h,
          by simp [perform, Scopes.declare_eq, h]⟩)))
  | lookup name => exact .inl rfl
  | resolve name span => exact .inl rfl
  | capture => exact .inl rfl
  | allocate words =>
    by_cases h : Word.Fits (s.scopes.offset + words)
    · exact .inr (.inr (.inr (.inr ⟨words, rfl, by simp [perform, Scopes.allocate?_eq, h]⟩)))
    · exact .inl (by simp [perform, Scopes.allocate?_eq, h])

/-- A symbol that is added stands in no scope yet. -/
theorem Sound.fresh (h : s.Sound) :
    ⟨s.symbols.length⟩ ∉ s.scopes.all.flatMap (·.entries.toList) := by
  intro hmem
  obtain ⟨scope, hscope, hid⟩ := List.mem_flatMap.mp hmem
  exact Nat.lt_irrefl _ ((h.agrees scope hscope).known _ hid)

theorem sound_empty : Sound {} where
  agrees := by simpa [Scopes.all] using Scope.agrees_empty {} 0
  apart := by simp [Scopes.all]

/-- Every operation keeps the scopes sound. -/
theorem Sound.step (h : s.Sound) (op : ScopeOp) : (s.perform op).2.Sound := by
  obtain heq | ⟨-, heq⟩ | ⟨scope, outer, -, houter, heq⟩ | ⟨symbol, -, hname, heq⟩ |
      ⟨words, -, heq⟩ :=
    perform_cases s op <;> rw [heq]
  · exact h
  · constructor
    · intro scope hscope
      rcases List.mem_cons.mp hscope with rfl | hscope
      · exact Scope.agrees_empty _ _
      · exact h.agrees scope hscope
    · simpa [Scopes.all, Scopes.enter] using h.apart
  · have hall : s.scopes.all = s.scopes.inner :: scope :: outer := by
      simp [Scopes.all, houter]
    constructor
    · intro scope' hscope'
      exact h.agrees scope' (hall ▸ List.mem_cons_of_mem _ hscope')
    · have hapart := h.apart
      rw [hall, List.flatMap_cons] at hapart
      exact hapart.of_append_right
  · constructor
    · intro scope hscope
      rcases List.mem_cons.mp hscope with rfl | hscope
      · exact h.declared hname
      · exact (h.agrees scope (List.mem_cons_of_mem _ hscope)).mono (s.symbols.le_add symbol)
    · have hnodup := List.nodup_cons.mpr ⟨h.fresh, h.apart⟩
      simpa [Scopes.all, Scopes.declared, List.nodup_middle] using hnodup
  · constructor
    · intro scope hscope
      rcases List.mem_cons.mp hscope with rfl | hscope
      · exact ⟨h.inner.known, h.inner.mapped⟩
      · exact h.agrees scope (List.mem_cons_of_mem _ hscope)
    · exact h.apart

/-- The association lists after a declaration. -/
theorem Sound.tiers_declared (h : s.Sound) (symbol : Symbol) :
    tiers ⟨s.scopes.declared symbol.name ⟨s.symbols.length⟩, (s.symbols.add symbol).2⟩ =
      { s.tiers with
        inner :=
          ⟨(symbol.name, ⟨s.symbols.length⟩) :: s.tiers.inner.names, s.tiers.inner.offset⟩
        symbols := s.tiers.symbols ++ [symbol] } := by
  have hle := s.symbols.le_add symbol
  have hinner :
      (s.scopes.declared symbol.name ⟨s.symbols.length⟩).inner.tier (s.symbols.add symbol).2 =
      ⟨(symbol.name, ⟨s.symbols.length⟩) :: (s.scopes.inner.tier s.symbols).names,
      s.scopes.inner.offset⟩ := by
    rw [← h.inner.tier_eq hle]
    simp [Scope.tier, Scopes.declared, SymbolTable.name, SymbolTable.get?_add_self]
  have houter : s.scopes.outer.map (·.tier (s.symbols.add symbol).2) =
      s.scopes.outer.map (·.tier s.symbols) :=
    List.map_congr_left fun scope hscope =>
      (h.agrees scope (List.mem_cons_of_mem _ hscope)).tier_eq hle
  have hsymbols :
      (s.symbols.add symbol).2.symbols.toList = s.symbols.symbols.toList ++ [symbol] := by
    simp [SymbolTable.add]
  rw [tiers, hinner, hsymbols]
  exact congrArg (Tiers.mk _ · _) houter

/-- An operation does to the association lists what it does to the scopes, and answers the
same. -/
theorem Sound.perform (h : s.Sound) (op : ScopeOp) :
    s.tiers.perform op = ((s.perform op).1, (s.perform op).2.tiers) := by
  cases op with
  | enter => rfl
  | leave =>
    cases houter : s.scopes.outer with
    | nil =>
      simp [ScopeState.perform, Tiers.perform, Scopes.leave?, tiers, houter,
        ScopeAnswer.ofOption]
    | cons scope outer =>
      simp [ScopeState.perform, Tiers.perform, Scopes.leave?, Scopes.entries, tiers, houter,
        ScopeAnswer.ofOption]
  | declare symbol =>
    -- Only declarations look at the map on one side and at the list on the other.
    have hcontains := h.inner.contains symbol.name
    by_cases hname : s.scopes.inner.names.contains symbol.name = true
    · have hmem := hcontains.mp hname
      simp [ScopeState.perform, Tiers.perform, Scopes.declare_eq, hname, tiers, hmem,
        ScopeAnswer.ofExcept]
    · have hmem : symbol.name ∉ s.tiers.inner.names.map (·.1) :=
        fun hmem => hname (hcontains.mpr hmem)
      have hlength : s.tiers.symbols.length = s.symbols.length := Array.length_toList
      have hstate : s.perform (.declare symbol) =
          (.symbol ⟨s.symbols.length⟩,
            ⟨s.scopes.declared symbol.name ⟨s.symbols.length⟩,
              (s.symbols.add symbol).2⟩) := by
        simp [ScopeState.perform, Scopes.declare_eq, hname, ScopeAnswer.ofExcept]
      rw [hstate, h.tiers_declared, Tiers.perform, if_neg hmem, hlength]
  | lookup name =>
    rw [Tiers.perform, h.lookup?, ScopeState.perform]
    cases s.scopes.lookup? name <;> rfl
  | resolve name span =>
    rw [Tiers.perform, h.lookup?, ScopeState.perform, Scopes.resolve]
    cases s.scopes.lookup? name <;> rfl
  | capture => simp [ScopeState.perform, Tiers.perform, Scopes.entries, tiers]
  | allocate words =>
    by_cases hfits : Word.Fits (s.scopes.inner.offset + words)
    · simp [ScopeState.perform, Tiers.perform, Scopes.allocate?_eq, Scopes.offset,
        Scopes.allocated, tiers, Scope.tier, hfits, ScopeAnswer.ofOption]
    · simp [ScopeState.perform, Tiers.perform, Scopes.allocate?_eq, Scopes.offset, tiers,
        Scope.tier, hfits, ScopeAnswer.ofOption]

/-! ## Runs -/

/-- Whatever is done, the scopes stay sound. -/
theorem Sound.performAll (h : s.Sound) (ops : List ScopeOp) : (s.performAll ops).Sound := by
  induction ops generalizing s with
  | nil => exact h
  | cons op ops ih => exact ih (h.step op)

/-- Scopes and association lists stay in step. -/
theorem Sound.tiers_performAll (h : s.Sound) (ops : List ScopeOp) :
    (s.performAll ops).tiers = s.tiers.performAll ops := by
  induction ops generalizing s with
  | nil => rfl
  | cons op ops ih =>
    rw [performAll_cons, ih (h.step op), Tiers.performAll, Tiers.performAll, List.foldl_cons,
      h.perform]

/-- An operation only adds symbols. -/
theorem symbols_le_perform (s : ScopeState) (op : ScopeOp) :
    s.symbols ≤ (s.perform op).2.symbols := by
  obtain heq | ⟨-, heq⟩ | ⟨_, _, -, -, heq⟩ | ⟨symbol, -, -, heq⟩ | ⟨_, -, heq⟩ :=
    perform_cases s op <;> rw [heq]
  · exact SymbolTable.le_refl _
  · exact SymbolTable.le_refl _
  · exact SymbolTable.le_refl _
  · exact s.symbols.le_add symbol
  · exact SymbolTable.le_refl _

/-- Operations only add symbols. -/
theorem symbols_le_performAll (s : ScopeState) (ops : List ScopeOp) :
    s.symbols ≤ (s.performAll ops).symbols := by
  induction ops generalizing s with
  | nil => exact SymbolTable.le_refl _
  | cons op ops ih => exact SymbolTable.le_trans (symbols_le_perform s op) (ih _)

end ScopeState

/-- With `opened` scopes open, the operations close those and all that they open themselves,
and no other. -/
def ScopeOp.Closes : Nat → List ScopeOp → Prop
  | opened, [] => opened = 0
  | opened, .enter :: ops => Closes (opened + 1) ops
  | 0, .leave :: _ => False
  | opened + 1, .leave :: ops => Closes opened ops
  | opened, .declare _ :: ops | opened, .lookup _ :: ops | opened, .resolve _ _ :: ops
  | opened, .capture :: ops | opened, .allocate _ :: ops => Closes opened ops

namespace ScopeState

variable {s : ScopeState}

/-- Operations other than opening and closing a scope leave the scopes around the innermost
one as they are. -/
theorem outer_perform (op : ScopeOp) (henter : op ≠ .enter) (hleave : op ≠ .leave) :
    (s.perform op).2.scopes.outer = s.scopes.outer := by
  obtain heq | ⟨h, -⟩ | ⟨_, _, h, -, -⟩ | ⟨_, -, -, heq⟩ | ⟨_, -, heq⟩ := perform_cases s op
  · rw [heq]
  · exact absurd h henter
  · exact absurd h hleave
  · rw [heq]
    rfl
  · rw [heq]
    rfl

/-- Operations that close what they open do not touch the scopes around. -/
theorem outer_performAll {base : List Scope} {ops : List ScopeOp} (opened : List Scope)
    (h : ScopeOp.Closes opened.length ops) (houter : s.scopes.outer = opened ++ base) :
    (s.performAll ops).scopes.outer = base := by
  induction ops generalizing s opened with
  | nil =>
    have hopened : opened = [] := List.length_eq_zero_iff.mp h
    simpa [hopened] using houter
  | cons op ops ih =>
    rw [performAll_cons]
    cases op with
    | enter => exact ih (s.scopes.inner :: opened) h (by simp [perform, Scopes.enter, houter])
    | leave =>
      cases opened with
      | nil => exact h.elim
      | cons scope opened => exact ih opened h (by simp [perform, Scopes.leave?, houter])
    | declare symbol => exact ih opened h ((outer_perform _ (by simp) (by simp)).trans houter)
    | lookup name => exact ih opened h ((outer_perform _ (by simp) (by simp)).trans houter)
    | resolve name span =>
      exact ih opened h ((outer_perform _ (by simp) (by simp)).trans houter)
    | capture => exact ih opened h houter
    | allocate words => exact ih opened h ((outer_perform _ (by simp) (by simp)).trans houter)

/-- A scope that is opened and closed again leaves no trace in the scopes. -/
theorem scopes_nested (s : ScopeState) {ops : List ScopeOp} (h : ScopeOp.Closes 0 ops) :
    (s.performAll (.enter :: ops ++ [.leave])).scopes = s.scopes := by
  have houter :
      ((s.perform .enter).2.performAll ops).scopes.outer = s.scopes.inner :: s.scopes.outer :=
    outer_performAll [] h rfl
  simp [performAll_append, perform, Scopes.leave?, houter] at houter ⊢

/-! ## Declarations seen from outside -/

/-- A look-up finds the declaration of the innermost scope that has one. -/
theorem Sound.lookup?_eq_some_iff (h : s.Sound) (name : String) (id : SymbolId) :
    s.scopes.lookup? name = some id ↔
      ∃ within scope around, s.scopes.all = within ++ scope :: around ∧
        scope.Declares s.symbols name id ∧
        ∀ nearer ∈ within, ∀ id', ¬ nearer.Declares s.symbols name id' := by
  refine List.findSome?_eq_some_iff.trans ?_
  constructor
  · rintro ⟨within, scope, around, hall, hid, hwithin⟩
    have hagrees : ∀ scope' ∈ within ++ scope :: around, scope'.Agrees s.symbols :=
      hall ▸ h.agrees
    refine ⟨within, scope, around, hall,
      ((hagrees scope (by simp)).mapped name id).mp hid, ?_⟩
    intro nearer hmem
    exact ((hagrees nearer (List.mem_append_left _ hmem)).unmapped name).mp
      (hwithin nearer hmem)
  · rintro ⟨within, scope, around, hall, hid, hwithin⟩
    have hagrees : ∀ scope' ∈ within ++ scope :: around, scope'.Agrees s.symbols :=
      hall ▸ h.agrees
    refine ⟨within, scope, around, hall,
      ((hagrees scope (by simp)).mapped name id).mpr hid, ?_⟩
    intro nearer hmem
    exact ((hagrees nearer (List.mem_append_left _ hmem)).unmapped name).mpr
      (hwithin nearer hmem)

/-- A name is not found exactly if no open scope declares it. -/
theorem Sound.lookup?_eq_none_iff (h : s.Sound) (name : String) :
    s.scopes.lookup? name = none ↔
    ∀ scope ∈ s.scopes.all, ∀ id, ¬ scope.Declares s.symbols name id := by
  refine List.findSome?_eq_none_iff.trans ?_
  refine forall₂_congr fun scope hscope => ?_
  exact (h.agrees scope hscope).unmapped name

/-- A declaration fails exactly if the innermost scope has the name. -/
theorem Sound.declare_fails_iff (h : s.Sound) (symbol : Symbol) :
    (∃ d, (s.scopes.declare s.symbols symbol).1 = .error d) ↔
      ∃ id, s.scopes.inner.Declares s.symbols symbol.name id := by
  rw [← Scope.mem_map_tier, ← h.inner.contains, Scopes.declare_eq]
  split <;> simp_all

/-- No two symbols of a scope have the same name. -/
theorem Sound.distinct (h : s.Sound) {scope : Scope} (hscope : scope ∈ s.scopes.all) :
    (scope.entries.toList.map s.symbols.name).Nodup := by
  have hentries := (List.nodup_flatMap.mp h.apart).1 scope hscope
  exact (h.agrees scope hscope).distinct hentries

/-- **Scopes are a stack of association lists.** Whatever has been done to new scopes and a
new table, they answer as the association lists do. In each open scope map and list hold the
same declarations, no name is declared twice there and no symbol stands in two open scopes.
The innermost declaration is found, and a scope that is closed leaves the scopes around it and
every symbol declared before it as they were. -/
theorem refines_tiers (ops : List ScopeOp) :
    let s := performAll {} ops
    let t := Tiers.performAll {} ops
    (s.tiers = t ∧ ∀ op, (s.perform op).1 = (t.perform op).1) ∧
    (∀ scope ∈ s.scopes.all,
      (∀ name id, scope.names[name]? = some id ↔ scope.Declares s.symbols name id) ∧
      (scope.entries.toList.map s.symbols.name).Nodup) ∧
    (s.scopes.all.flatMap (·.entries.toList)).Nodup ∧
    (∀ name id, s.scopes.lookup? name = some id ↔
      ∃ within scope around, s.scopes.all = within ++ scope :: around ∧
        scope.Declares s.symbols name id ∧
        ∀ nearer ∈ within, ∀ id', ¬ nearer.Declares s.symbols name id') ∧
    (∀ name, s.scopes.lookup? name = none ↔
      ∀ scope ∈ s.scopes.all, ∀ id, ¬ scope.Declares s.symbols name id) ∧
    (∀ symbol, (∃ d, (s.scopes.declare s.symbols symbol).1 = .error d) ↔
      ∃ id, s.scopes.inner.Declares s.symbols symbol.name id) ∧
    (∀ symbol d, (s.scopes.declare s.symbols symbol).1 = .error d →
      (s.scopes.declare s.symbols symbol).2 = (s.scopes, s.symbols)) ∧
    (∀ words, (s.scopes.allocate? words).1 = none → (s.scopes.allocate? words).2 = s.scopes) ∧
    (s.scopes.leave?.1 = none → s.scopes.outer = [] ∧ s.scopes.leave?.2 = s.scopes) ∧
    (∀ op, (s.perform op).1.fails = true → (s.perform op).2 = s) ∧
    ∀ nested, ScopeOp.Closes 0 nested →
      (s.performAll (.enter :: nested ++ [.leave])).scopes = s.scopes ∧
      s.symbols ≤ (s.performAll (.enter :: nested ++ [.leave])).symbols := by
  intro s t
  have h : s.Sound := sound_empty.performAll ops
  have htiers : s.tiers = t := sound_empty.tiers_performAll ops
  refine ⟨⟨htiers, ?_⟩, ?_, h.apart, h.lookup?_eq_some_iff, h.lookup?_eq_none_iff,
    h.declare_fails_iff, fun _ _ => Scopes.declare_of_error,
    fun _ => Scopes.allocate?_of_none, Scopes.leave?_of_none, ?_, ?_⟩
  · intro op
    rw [← htiers, h.perform]
  · intro scope hscope
    exact ⟨(h.agrees scope hscope).mapped, h.distinct hscope⟩
  · intro op hfails
    exact perform_of_fails hfails
  · intro nested hnested
    exact ⟨scopes_nested s hnested, symbols_le_performAll s _⟩

/-- `x` is declared outside and inside, and a scope nested in both declares it a third
time. -/
theorem shadowing_refines_tiers :
    let x : Symbol := ⟨"x", .type .integer, default⟩
    let s := performAll {} [.declare x, .allocate 1, .enter, .declare x, .declare x]
    let nested := [.declare x, .enter, .allocate 2, .leave]
    ScopeOp.Closes 0 nested ∧
    (s.perform (.lookup "x")).1 = .symbol ⟨1⟩ ∧
    ((s.performAll (.enter :: nested)).perform (.lookup "x")).1 = .symbol ⟨2⟩ ∧
    (s.performAll (.enter :: nested ++ [.leave])).scopes = s.scopes := by
  intro x s nested
  have hnested : ScopeOp.Closes 0 nested := by simp [nested, ScopeOp.Closes]
  obtain ⟨⟨-, hanswer⟩, -, -, -, -, -, -, -, -, -, hclosed⟩ :=
    refines_tiers [.declare x, .allocate 1, .enter, .declare x, .declare x]
  obtain ⟨⟨-, hinside⟩, -⟩ :=
    refines_tiers ([.declare x, .allocate 1, .enter, .declare x, .declare x] ++
      .enter :: nested)
  refine ⟨hnested, (hanswer _).trans (by decide +kernel), ?_, (hclosed nested hnested).1⟩
  exact (hinside _).trans (by decide +kernel)

end ScopeState

end BlockLang
