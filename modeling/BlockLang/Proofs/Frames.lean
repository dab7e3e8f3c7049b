import BlockLang.Proofs.Hosting
import Mathlib.Data.List.Forall2

/-!
# The variables of a frame

Declarations give names to storage and, on the machine, to words of the new frame, in the
same order. The frame grows with them: `Machine.Builds` says that the bindings and the
storage made so far stand in memory, and that the words from the end of the last variable
on are still to be had.

* `Stage.Extends`: a frame has grown, and what stood below still stands where it did.
  Places keep their addresses (`Stage.Extends.at_`), environments still match
  (`Env.Matches.extends`).
* `Machine.Builds.allocate`, `Machine.Builds.bindPlace` and `Machine.Builds.bindType`: a
  single declaration of a variable, of a `var` parameter and of a type.
* `TypeExpr.Resolved.layout`: the layout that the interpreter finds for a type is the one
  that the type table describes, by induction over the type.
* `Machine.Builds.declareSections`: the declaration part of a block. The storage of the
  main program is zero and so is the memory; the variables of a procedure have no values
  yet, and nothing is asked of the memory.
* `Machine.Builds.pass`: the parameters of a call. `Layer.Binds` goes through them with
  their symbols, and `Machine.Receives` says that the caller has put into each slot what
  the interpreter passes: the words of a value, or the address of a place.
-/

namespace BlockLang

/-- The bindings and the storage made so far stand below `s.top`. -/
structure Machine.Builds (a : Analysis) (final : Linkage)
    (m : Machine) (s : Stage) (l : Layer) (x : Activation) : Prop where
  env : Env.Matches a final s m x.env l.names
  within : l.names.Within a s.level
  holds : m.Holds s.rooms x.storage
  ordered : s.rooms.Ordered s.top
  nonneg : 0 ≤ l.offset
  top : (s.top : Int) = s.bases s.level + l.offset

/-- `s'` has more rooms than `s`, behind those of `s`. -/
structure Stage.Extends (s s' : Stage) : Prop where
  rooms : ∃ new : Rooms, s'.rooms = s.rooms ++ new ∧ ∀ r ∈ new, s.top ≤ r.base
  top : s.top ≤ s'.top
  rest : s' = { s with rooms := s'.rooms, top := s'.top }

/-- Parameters one by one, with their symbols. -/
inductive Layer.Binds (a : Analysis) (level : Nat) :
    Layer → List (ParamMode × String) → List SymbolId → Layer → Prop where
  | nil {l} : Layer.Binds a level l [] [] l
  | cons {Γ offset mode name id type formals ids l'} :
      a.symbols.variableAt? id = some ⟨type, mode.access, level, offset⟩ →
      0 ≤ Check.slotSize a.types type mode.access → Layer.Binds a level ⟨(name, id) :: Γ,
      offset + Check.slotSize a.types type mode.access⟩ formals ids l' →
      Layer.Binds a level ⟨Γ, offset⟩ ((mode, name) :: formals) (id :: ids) l'

/-- What a parameter gets stands at an address: the words of a value, or the address of
storage. -/
def Argument.Stands (a : Analysis) (rooms : Rooms)
    (m : Machine) (type : TypeId) (address : Nat) :
    ParamMode → Argument → Prop
  | .value, .value lay words => a.types.Lays lay type ∧ words.length = lay.size ∧
      ∀ k w, words[k]? = some w → m.word (address + k) = w
  | .reference, .storage p => a.types.Lays p.layout type ∧ ∃ target, p.At rooms target ∧
      m.word address = Int64.ofNat target
  | _, _ => False

/-- The parameters have got their arguments, in the frame at `base`. -/
inductive Machine.Receives (a : Analysis) (rooms : Rooms) (base level : Nat) (m : Machine) :
    Layer → List (ParamMode × String) → List Argument → Layer → Prop where
  | nil {l} : Machine.Receives a rooms base level m l [] [] l
  | cons {Γ offset mode name id type arg formals args l'} {address : Nat} :
      a.symbols.variableAt? id = some ⟨type, mode.access, level, offset⟩ →
      (base : Int) + offset = address → Argument.Stands a rooms m type address mode arg →
      Machine.Receives a rooms base level m ⟨(name, id) :: Γ,
      offset + Check.slotSize a.types type mode.access⟩
        formals args l' →
      Machine.Receives a rooms base level m ⟨Γ, offset⟩ ((mode, name) :: formals)
      (arg :: args) l'

section

variable {a : Analysis} {final : Linkage} {s s' s'' : Stage} {m : Machine} {l l' : Layer}
    {x x' : Activation}

namespace Stage.Extends

theorem refl (s : Stage) : s.Extends s :=
  ⟨⟨[], (List.append_nil _).symm, nofun⟩, Nat.le_refl _, rfl⟩

theorem trans (h : s.Extends s') (h' : s'.Extends s'') : s.Extends s'' := by
  obtain ⟨new, hnew, hbase⟩ := h.rooms
  obtain ⟨new', hnew', hbase'⟩ := h'.rooms
  refine ⟨⟨new ++ new', by rw [hnew', hnew, List.append_assoc], fun r hr => ?_⟩,
    Nat.le_trans h.top h'.top, ?_⟩
  · rcases List.mem_append.mp hr with hr | hr
    · exact hbase r hr
    · exact Nat.le_trans h.top (hbase' r hr)
  · exact h'.rest.trans
      (congrArg (fun t => { t with rooms := s''.rooms, top := s''.top }) h.rest)

theorem level (h : s.Extends s') : s'.level = s.level := by rw [h.rest]

theorem bases (h : s.Extends s') : s'.bases = s.bases := by rw [h.rest]

/-- Words that are free below the top stay free. -/
theorem free (h : s.Extends s') {i : Nat} (hi : i < s.top) (hfree : s.rooms.Free i) :
    s'.rooms.Free i := by
  obtain ⟨new, hnew, hbase⟩ := h.rooms
  rw [hnew]
  exact Rooms.free_append hfree fun r hr => Nat.lt_of_lt_of_le hi (hbase r hr)

/-- Places keep their addresses. -/
theorem at_ (h : s.Extends s') {p : Place} {address : Nat} (hp : p.At s.rooms address) :
    p.At s'.rooms address := by
  obtain ⟨new, hnew, _⟩ := h.rooms
  rw [hnew]
  exact hp.append new

end Stage.Extends

/-- Variables stand where they stood when the frame grows. -/
theorem Env.Matches.extends {env : Env} {Γ : Names}
    (h : Env.Matches a final s m env Γ) (hs : s.Extends s') :
    Env.Matches a final s' m env Γ := by
  refine h.mono rfl (fun _ _ hp => hs.at_ hp) fun _ _ v address _ hstands => ?_
  unfold Variable.Stands at *
  rw [hs.bases]
  split at hstands
  · exact hstands
  · obtain ⟨hnonneg, slot, hslot, hlt, hfree, hword⟩ := hstands
    exact ⟨hnonneg, slot, hslot, Nat.lt_of_lt_of_le hlt hs.top, hs.free hlt hfree, hword⟩

/-! ## Single declarations -/

/-- The stage with one more room at its top. -/
def Stage.push (s : Stage) (l : Layout) : Stage :=
  { s with rooms := s.rooms ++ [⟨l, s.top⟩], top := s.top + l.size }

theorem Stage.extends_push (s : Stage) (l : Layout) : s.Extends (s.push l) :=
  ⟨⟨[⟨l, s.top⟩], rfl, fun r hr => by rw [List.mem_singleton.mp hr]⟩,
    Nat.le_add_right .., rfl⟩

theorem Stage.extends_grow (s : Stage) (n : Nat) : s.Extends { s with top := s.top + n } :=
  ⟨⟨[], (List.append_nil _).symm, nofun⟩, Nat.le_add_right .., rfl⟩

namespace Machine.Builds

/-- A variable with storage of its own. -/
theorem allocate (h : m.Builds a final s l x) {id : SymbolId} {type : TypeId}
    {lay : Layout} {name : String} {words : List (Option Word)}
    (hid : a.symbols.variableAt? id = some ⟨type, .direct, s.level, l.offset⟩)
    (hlays : a.types.Lays lay type) (hlength : words.length = lay.size)
    (hwords : ∀ k w, words[k]? = some (some w) → m.word (s.top + k) = w) :
    m.Builds a final (s.push lay) ⟨(name, id) :: l.names, l.offset + a.types.size type⟩
    (x.allocate name lay words) where
  env := by
    refine .cons ⟨_, s.top, hid, hlays, ⟨⟨lay, s.top⟩, ?_, .whole, rfl⟩, h.top.symm⟩
      (h.env.extends (s.extends_push lay))
    rw [h.holds.length]
    exact List.getElem?_concat_length
  within := h.within.cons (fun v hv => by rw [hid] at hv; cases hv; exact Nat.le_refl _)
    (fun p hp => by rw [SymbolTable.procedureAt?_of_variableAt? hid] at hp; cases hp)
  holds := by
    refine ⟨by simp [Activation.allocate, Stage.push, h.holds.length],
      fun {i r b} hr hb => ?_⟩
    change (s.rooms ++ [⟨lay, s.top⟩])[i]? = some r at hr
    change (x.storage ++ [words])[i]? = some b at hb
    -- Old blocks stand as they did, and the new one is the last.
    by_cases hi : i < s.rooms.length
    · rw [List.getElem?_append_left hi] at hr
      rw [List.getElem?_append_left (by rw [h.holds.length]; exact hi)] at hb
      exact h.holds.block hr hb
    · have hlen := h.holds.length
      rw [List.getElem?_append_right (by omega)] at hr hb
      rw [hlen] at hb
      obtain hi' : i - s.rooms.length = 0 := by
        have := (List.getElem?_eq_some_iff.mp hr).1
        simpa using this
      rw [hi'] at hr hb
      cases hr
      cases hb
      exact ⟨hlength, hwords⟩
  ordered := h.ordered.push lay
  nonneg := by
    have := hlays.size_eq
    have := h.nonneg
    change 0 ≤ l.offset + a.types.size type
    omega
  top := by
    have := hlays.size_eq
    have := h.top
    change ((s.top + lay.size : Nat) : Int) = s.bases s.level + (l.offset + a.types.size type)
    omega

/-- A parameter that stands for other storage. -/
theorem bindPlace (h : m.Builds a final s l x) {id : SymbolId}
    {type : TypeId} {name : String} {p : Place} {address : Nat}
    (hid : a.symbols.variableAt? id = some ⟨type, .indirect, s.level, l.offset⟩)
    (hlays : a.types.Lays p.layout type) (hp : p.At s.rooms address)
    (hword : m.word s.top = Int64.ofNat address) :
    m.Builds a final { s with top := s.top + 1 } ⟨(name, id) :: l.names, l.offset + 1⟩
    (x.bind name (.var p)) where
  env := by
    refine .cons ⟨_, address, hid, hlays, hp, h.nonneg, s.top, h.top.symm, Nat.lt_succ_self _,
      ?_, hword⟩ (h.env.extends (s.extends_grow 1))
    exact h.ordered.free (Nat.le_refl _)
  within := h.within.cons (fun v hv => by rw [hid] at hv; cases hv; exact Nat.le_refl _)
    (fun p hp => by rw [SymbolTable.procedureAt?_of_variableAt? hid] at hp; cases hp)
  holds := h.holds
  ordered := h.ordered.mono (Nat.le_succ _)
  nonneg := Int.add_nonneg h.nonneg (by decide)
  top := by
    have := h.top
    change ((s.top + 1 : Nat) : Int) = s.bases s.level + (l.offset + 1)
    omega

/-- A type is declared, and no word is taken. -/
theorem bindType (h : m.Builds a final s l x) {id : SymbolId} {type : TypeId} {lay : Layout}
    {name : String} (hid : a.symbols.typeAt? id = some type) (hlays : a.types.Lays lay type) :
    m.Builds a final s ⟨(name, id) :: l.names, l.offset⟩ (x.bind name (.type lay)) where
  env := .cons ⟨type, hid, hlays⟩ h.env
  within := h.within.cons
    (fun v hv => by
      rw [SymbolTable.variableAt?_eq_some_iff, SymbolTable.typeAt?_eq_some_iff.mp hid] at hv
      cases hv)
    (fun p hp => by rw [SymbolTable.procedureAt?_of_typeAt? hid] at hp; cases hp)
  holds := h.holds
  ordered := h.ordered
  nonneg := h.nonneg
  top := h.top

end Machine.Builds

/-! ## Types -/

/-- Fields have the layouts that go with their types. -/
theorem TypeTable.laysAll_of_layFields? {t : TypeTable} {fields : List (String × Layout)} :
    ∀ {named : List (String × TypeId)} {fs : List Field} {offset size : Int},
      List.Forall₂ (fun f n => f.1 = n.1 ∧ t.Lays f.2 n.2) fields named →
      t.layFields? offset named = some (fs, size) → t.LaysAll fields fs offset size := by
  induction fields with
  | nil =>
    intro named fs offset size h hlay
    cases h
    cases hlay
    exact ⟨rfl, rfl⟩
  | cons f fields ih =>
    intro named fs offset size h hlay
    obtain ⟨name, l⟩ := f
    cases h with
    | @cons _ n _ named hn hrest =>
      obtain ⟨n, type⟩ := n
      obtain ⟨rfl, hl⟩ := hn
      unfold TypeTable.layFields? at hlay
      obtain ⟨next, hnext, hlay⟩ := Option.bind_eq_some_iff.mp hlay
      obtain ⟨⟨fs', size'⟩, hfields, hlay⟩ := Option.bind_eq_some_iff.mp hlay
      cases hlay
      have hnext : next = offset + t.size type := by
        unfold Word.checked at hnext
        split at hnext <;> cases hnext
        rfl
      subst hnext
      exact ⟨_, _, rfl, rfl, rfl, hl, ih hrest hfields⟩

mutual

/-- A resolved type expression has the layout of its type. -/
theorem TypeExpr.Resolved.layout (hbuiltins : ({} : TypeTable) ≤ a.types) {env : Env}
    {Γ : Names} (henv : Env.Matches a final s m env Γ) :
    ∀ {te : TypeExpr} {type : TypeId}, te.Resolved a Γ type →
    ∃ l, te.layout env = .ok l ∧ a.types.Lays l type
  | .integer _, _, .integer => ⟨.word, rfl, TypeTable.isScalar_mono hbuiltins rfl⟩
  | .char _, _, .char => ⟨.word, rfl, TypeTable.isScalar_mono hbuiltins rfl⟩
  | .named name, type, .named hname htype => by
    obtain ⟨b, env', Γ', hfind, hb, _⟩ := henv.find? hname
    cases b with
    | type l =>
      obtain ⟨type', htype', hlays⟩ := hb
      rw [htype] at htype'
      cases htype'
      exact ⟨l, by simp only [TypeExpr.layout, hfind], hlays⟩
    | var p =>
      obtain ⟨v, _, hv, _⟩ := hb
      rw [SymbolTable.variableAt?_eq_some_iff, SymbolTable.typeAt?_eq_some_iff.mp htype] at hv
      cases hv
    | proc p =>
      obtain ⟨level, hresolved, _⟩ := hb
      cases hresolved with
      | intro _ hp =>
        rw [SymbolTable.procedureAt?_of_typeAt? htype] at hp
        cases hp
  | .array low high element _, type, .array hle helement hget => by
    obtain ⟨l, hl, hlays⟩ := TypeExpr.Resolved.layout hbuiltins henv helement
    exact ⟨.array low high l, by rw [TypeExpr.layout, hl]; rfl, hle, _, hget, hlays⟩
  | .record groups _, type, .record hfields hlay hget => by
    obtain ⟨ls, hls, hlays⟩ := TypeExpr.ResolvedFields.layout hbuiltins henv hfields
    exact ⟨.record ls, by rw [TypeExpr.layout, hls]; rfl, _, _, hget,
      TypeTable.laysAll_of_layFields? hlays hlay⟩

theorem TypeExpr.ResolvedFields.layout (hbuiltins : ({} : TypeTable) ≤ a.types) {env : Env}
    {Γ : Names} (henv : Env.Matches a final s m env Γ) :
    ∀ {groups : List (FieldGroup TypeExpr)} {named : List (String × TypeId)},
    TypeExpr.ResolvedFields a Γ groups named →
    ∃ ls, TypeExpr.layoutFields env groups = .ok ls ∧
      List.Forall₂ (fun f n => f.1 = n.1 ∧ a.types.Lays f.2 n.2) ls named
  | [], _, .nil => ⟨[], rfl, .nil⟩
  | ⟨names, type, _⟩ :: rest, _, .cons htype hrest => by
    obtain ⟨l, hl, hlays⟩ := TypeExpr.Resolved.layout hbuiltins henv htype
    obtain ⟨ls, hls, hrest⟩ := TypeExpr.ResolvedFields.layout hbuiltins henv hrest
    refine ⟨names.map (fun name => (name.name, l)) ++ ls, ?_, List.rel_append ?_ hrest⟩
    · simp only [TypeExpr.layoutFields, hl, hls, bind, Except.bind]
      rfl
    · rw [List.forall₂_map_left_iff, List.forall₂_map_right_iff]
      exact List.forall₂_same.mpr fun name _ => ⟨rfl, hlays⟩

end

/-! ## Declaration parts -/

namespace Machine.Builds

/-- Variables of one type, with the same content in every word. -/
theorem allocateAll {type : TypeId} {lay : Layout}
    (hlays : a.types.Lays lay type) {init : Option Word}
    (hinit : ∀ w, init = some w → ∀ i, m.word i = w) {level : Nat} {names : List Ident}
    (hnames : l.Declares a level type .direct names l') :
    ∀ {s : Stage} {x : Activation}, s.level = level →
    m.Builds a final s l x → ∃ s', s.Extends s' ∧
      m.Builds a final s' l' (names.foldl (fun x name =>
          x.allocate name.name lay (List.replicate lay.size init)) x) := by
  induction hnames with
  | nil => exact fun {s} _ _ h => ⟨s, .refl s, h⟩
  | @cons Γ offset name names id l' hid _ _ _ ih =>
    rintro s x rfl h
    have hpush : m.Builds a final (s.push lay) _
        (x.allocate name.name lay (List.replicate lay.size init)) :=
      h.allocate hid hlays List.length_replicate
        fun k w hk => hinit w (List.eq_of_mem_replicate (List.mem_of_getElem? hk)).symm _
    obtain ⟨s', hs', hbuilds⟩ := ih (s := s.push lay) rfl hpush
    exact ⟨s', (s.extends_push lay).trans hs', hbuilds⟩

theorem declareTypes (hbuiltins : ({} : TypeTable) ≤ a.types) {decls : List TypeDecl}
    (hdecls : TypeDecl.Resolved a l decls l') : ∀ {x : Activation}, m.Builds a final s l x →
    ∃ x', TypeDecl.declareAll decls x = .ok x' ∧ m.Builds a final s l' x' := by
  induction hdecls with
  | nil => exact fun {x} h => ⟨x, rfl, h⟩
  | @cons Γ offset d rest id type l' htype hid _ ih =>
    intro x h
    obtain ⟨lay, hlay, hlays⟩ := htype.layout hbuiltins h.env
    obtain ⟨x', hx', hbuilds⟩ := ih (h.bindType hid hlays)
    refine ⟨x', ?_, hbuilds⟩
    rw [TypeDecl.declareAll, hlay]
    exact hx'

/-- Declarations of variables. -/
theorem declareVars (hbuiltins : ({} : TypeTable) ≤ a.types) {init : Option Word}
    (hinit : ∀ w, init = some w → ∀ i, m.word i = w) {level : Nat} {decls : List VarDecl}
    (hdecls : VarDecl.Resolved a level l decls l') :
    ∀ {s : Stage} {x : Activation}, s.level = level → m.Builds a final s l x →
    ∃ s' x', VarDecl.declareAll init decls x = .ok x' ∧ s.Extends s' ∧
    m.Builds a final s' l' x' := by
  induction hdecls with
  | nil => exact fun {s x} _ h => ⟨s, x, rfl, .refl s, h⟩
  | cons hd _ ih =>
    intro s x hs h
    obtain ⟨type, htype, hnames⟩ := hd
    obtain ⟨lay, hlay, hlays⟩ := htype.layout hbuiltins h.env
    obtain ⟨s₁, hs₁, h₁⟩ := h.allocateAll hlays hinit hnames hs
    obtain ⟨s', x', hx', hs', hbuilds⟩ := ih (hs₁.level.trans hs) h₁
    refine ⟨s', x', ?_, hs₁.trans hs', hbuilds⟩
    rw [VarDecl.declareAll, hlay]
    exact hx'

/-- The types and variables of a declaration part. -/
theorem declareSections (hbuiltins : ({} : TypeTable) ≤ a.types) {init : Option Word}
    (hinit : ∀ w, init = some w → ∀ i, m.word i = w) {level : Nat} {decls : List Decl}
    (hdecls : Decl.SectionsResolved a level l decls l') :
    ∀ {s : Stage} {x : Activation}, s.level = level → m.Builds a final s l x →
    ∃ s' x', Decl.declareSections init decls x = .ok x' ∧ s.Extends s' ∧
    m.Builds a final s' l' x' := by
  induction hdecls with
  | nil => exact fun {s x} _ h => ⟨s, x, rfl, .refl s, h⟩
  | types htypes _ ih =>
    intro s x hs h
    obtain ⟨x₁, hx₁, h₁⟩ := h.declareTypes hbuiltins htypes
    obtain ⟨s', x', hx', hs', hbuilds⟩ := ih hs h₁
    refine ⟨s', x', ?_, hs', hbuilds⟩
    rw [Decl.declareSections, hx₁]
    exact hx'
  | vars hvars _ ih =>
    intro s x hs h
    obtain ⟨s₁, x₁, hx₁, hs₁, h₁⟩ := h.declareVars hbuiltins hinit hvars hs
    obtain ⟨s', x', hx', hs', hbuilds⟩ := ih (hs₁.level.trans hs) h₁
    refine ⟨s', x', ?_, hs₁.trans hs', hbuilds⟩
    rw [Decl.declareSections, hx₁]
    exact hx'
  | procedure _ ih =>
    intro s x hs h
    obtain ⟨s', x', hx', hs', hbuilds⟩ := ih hs h
    exact ⟨s', x', hx', hs', hbuilds⟩

end Machine.Builds

/-! ## Parameters -/

namespace Layer.Binds

theorem append {l'' : Layer} {level : Nat}
    {formals formals' : List (ParamMode × String)} {ids ids' : List SymbolId}
    (h : l.Binds a level formals ids l') (h' : l'.Binds a level formals' ids' l'') :
    l.Binds a level (formals ++ formals') (ids ++ ids') l'' := by
  induction h with
  | nil => exact h'
  | cons hid hslot _ ih => exact .cons hid hslot (ih h')

theorem of_declares {level : Nat} {type : TypeId} {mode : ParamMode} {names : List Ident}
    (h : l.Declares a level type mode.access names l') :
    ∃ ids, l.Binds a level (names.map fun name => (mode, name.name)) ids l' := by
  induction h with
  | nil => exact ⟨[], .nil⟩
  | @cons _ _ _ _ id _ hid hslot _ _ ih =>
    obtain ⟨ids, hids⟩ := ih
    exact ⟨id :: ids, .cons hid hslot hids⟩

/-- The parameters of a procedure. -/
theorem of_resolved {level : Nat} {params : List ParamDecl}
    (h : ParamDecl.Resolved a level l params l') :
    ∃ ids, l.Binds a level (params.flatMap fun d => d.names.map fun name =>
      (d.mode, name.name)) ids l' := by
  induction h with
  | nil => exact ⟨[], .nil⟩
  | cons hd _ ih =>
    obtain ⟨type, _, hnames⟩ := hd
    obtain ⟨ids, hids⟩ := of_declares hnames
    obtain ⟨ids', hids'⟩ := ih
    exact ⟨ids ++ ids', hids.append hids'⟩

/-- Parameters only add to the frame. -/
theorem offset_mono {level : Nat} {formals : List (ParamMode × String)} {ids : List SymbolId}
    (h : l.Binds a level formals ids l') : l.offset ≤ l'.offset := by
  induction h with
  | nil => exact Int.le_refl _
  | cons _ hslot _ ih => exact Int.le_trans (Int.le_add_of_nonneg_right hslot) ih

/-- The symbols are those of the names that were added. -/
theorem names {level : Nat} {formals : List (ParamMode × String)} {ids : List SymbolId}
    (h : l.Binds a level formals ids l') :
    ∃ added : Names, l'.names = added ++ l.names ∧ ids = (added.map (·.2)).reverse := by
  induction h with
  | nil => exact ⟨[], rfl, rfl⟩
  | @cons Γ _ _ name id _ _ _ _ _ _ _ ih =>
    obtain ⟨added, hadded, hids⟩ := ih
    refine ⟨added ++ [(name, id)], by rw [hadded, List.append_assoc]; rfl, ?_⟩
    simp [hids]

end Layer.Binds

namespace Argument.Stands

variable {rooms : Rooms} {m' : Machine} {type : TypeId} {address : Nat}

/-- The slot of an argument has a size that is not negative. -/
theorem slotSize_nonneg :
    ∀ {mode : ParamMode} {arg : Argument}, arg.Stands a rooms m type address mode →
    0 ≤ Check.slotSize a.types type mode.access
  | .value, .value lay _, h => by
    have hsize : a.types.size type = lay.size := h.1.size_eq
    change 0 ≤ a.types.size type
    omega
  | .value, .storage _, h => h.elim
  | .reference, .value .., h => h.elim
  | .reference, .storage _, _ => Int.one_nonneg

/-- What stands in a slot depends on its words only. -/
theorem mono : ∀ {mode : ParamMode} {arg : Argument}, arg.Stands a rooms m type address mode →
    (∀ k : Nat, k < Check.slotSize a.types type mode.access →
      m'.word (address + k) = m.word (address + k)) →
    arg.Stands a rooms m' type address mode
  | .value, .value lay words, ⟨hlays, hlength, hwords⟩, hword => by
    refine ⟨hlays, hlength, fun k w hk => ?_⟩
    have hsize : a.types.size type = lay.size := hlays.size_eq
    have hlt := (List.getElem?_eq_some_iff.mp hk).1
    rw [hword k (show (k : Int) < a.types.size type by omega), hwords k w hk]
  | .value, .storage _, h, _ => h.elim
  | .reference, .value .., h, _ => h.elim
  | .reference, .storage _, ⟨hlays, target, hp, hslot⟩, hword =>
    ⟨hlays, target, hp, (hword 0 Int.one_pos).trans hslot⟩

end Argument.Stands

namespace Machine.Receives

variable {rooms : Rooms} {base level : Nat} {formals : List (ParamMode × String)}
    {args : List Argument}

/-- Arguments only add to the frame. -/
theorem offset_le (h : m.Receives a rooms base level l formals args l') :
    l.offset ≤ l'.offset := by
  induction h with
  | nil => exact Int.le_refl _
  | cons _ _ harg _ ih =>
    have hslot := harg.slotSize_nonneg
    dsimp only at ih ⊢
    omega

/-- Only the words of the parameters matter. -/
theorem mono {m' : Machine} (h : m.Receives a rooms base level l formals args l')
    (hword : ∀ i : Nat, base + l.offset ≤ i → i < base + l'.offset → m'.word i = m.word i) :
    m'.Receives a rooms base level l formals args l' := by
  induction h with
  | nil => exact .nil
  | cons hid haddress harg hrest ih =>
    have hslot := harg.slotSize_nonneg
    have hle := hrest.offset_le
    dsimp only at hword ih hle
    refine .cons hid haddress (harg.mono fun k hk => ?_)
      (ih fun i hi hi' => hword i (by omega) hi')
    exact hword _ (by omega) (by omega)

end Machine.Receives

/-- Parameters are bound to what stands in the frame. -/
theorem Machine.Builds.pass {rooms : Rooms}
    {base level : Nat} {formals : List (ParamMode × String)}
    {args : List Argument} (hargs : m.Receives a rooms base level l formals args l') :
    ∀ {s : Stage} {x : Activation}, s.level = level → s.bases level = base →
      (∀ (p : Place) address, p.At rooms address → p.At s.rooms address) →
      m.Builds a final s l x →
      ∃ s', s.Extends s' ∧ m.Builds a final s' l' (x.pass formals args) := by
  induction hargs with
  | nil => exact fun {s _} _ _ _ h => ⟨s, .refl s, h⟩
  | @cons Γ offset mode name id type arg _ _ _ _ hid haddress harg _ ih =>
    rintro s x rfl rfl hrooms h
    have htop : s.top = _ := Int.ofNat.inj (h.top.trans haddress)
    rw [← htop] at harg
    -- A value takes words of the frame and makes a block; a place is another name for storage
    -- that is there, and takes the word of its address.
    cases mode with
    | value =>
      cases arg with
      | value lay words =>
        obtain ⟨hlays, hlength, hwords⟩ := harg
        have hpush : m.Builds a final (s.push lay) _ (x.allocate name lay (words.map some)) :=
          h.allocate hid hlays (by rw [List.length_map, hlength]) fun k w hk => by
            rw [List.getElem?_map] at hk
            obtain ⟨w', hw', heq⟩ := Option.map_eq_some_iff.mp hk
            cases heq
            exact hwords k w hw'
        have hs := s.extends_push lay
        obtain ⟨s', hs', hbuilds⟩ := ih (s := s.push lay) rfl rfl
          (fun p address hp => hs.at_ (hrooms p address hp)) hpush
        exact ⟨s', hs.trans hs', hbuilds⟩
      | storage p => exact harg.elim
    | reference =>
      cases arg with
      | value lay words => exact harg.elim
      | storage p =>
        obtain ⟨hlays, target, hp, hslot⟩ := harg
        have hbind : m.Builds a final { s with top := s.top + 1 } _ (x.bind name (.var p)) :=
          h.bindPlace hid hlays (hrooms p target hp) hslot
        obtain ⟨s', hs', hbuilds⟩ :=
          ih (s := { s with top := s.top + 1 }) rfl rfl hrooms hbind
        exact ⟨s', (s.extends_grow 1).trans hs', hbuilds⟩

end

end BlockLang
