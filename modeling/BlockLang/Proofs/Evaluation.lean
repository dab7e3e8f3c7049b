import BlockLang.Proofs.Hosting
import BlockLang.Proofs.Loading

/-!
# The meaning of expressions on the machine

Where the memory of the machine stands for the storage of an interpretation, what is
computed from memory goes with what the interpreter computes: words are the same, and an
address is that of the place. So the code of an expression leaves its value in `ac`, and
the code of a reference the address of what it denotes.

* `Refines R x y` relates two computations: what the first gives, the second gives up to
  `R`, and where the first divides by zero, so does the second. Nothing is said where the
  first has no meaning. It composes with what follows on either side (`Refines.bind`,
  `Refines.before`, `Refines.andThen`), and turns what code yields into what it means
  (`Refines.yields`).
* References: the name is bound to the place that the variable stands for
  (`Machine.Hosts.find?`), whose address is found through the display
  (`Machine.Hosts.start_eq`). Selectors follow (`Place.refines_element`,
  `Place.field_eq`).
* `Expr.Resolved.refines`: expressions and references together, by induction over the
  expression.
* Whole values: `Expr.Resolved.refines_value`, where one word or many are copied.
* Code: `Machine.Hosts.yields_eval`, `Machine.Hosts.yields_place` and
  `Machine.Hosts.yields_store`.
-/

namespace BlockLang

/-! ## Two computations -/

/-- The second computation goes with the first: their values are related, and a division by
zero stops both. Where the first is undefined nothing is said. -/
def Refines {α β : Type} (R : α → β → Prop) (x : Except Stop α) (y : Except Stop β) : Prop :=
  match x with
  | .ok v => ∃ u, y = .ok u ∧ R v u
  | .error .divisionByZero => y = .error .divisionByZero
  | .error .unwritten | .error .outOfBounds | .error .noWord => True
  | .error .inputExhausted | .error .illFormed => False

namespace Refines

variable {α β γ δ : Type} {R : α → β → Prop} {S : γ → δ → Prop} {x : Except Stop α}
    {y : Except Stop β}

theorem of_ok {v : α} {u : β} (h : R v u) : Refines R (.ok v) (.ok u) := ⟨u, rfl, h⟩

theorem bind {f : α → Except Stop γ} {g : β → Except Stop δ} (h : Refines R x y)
    (hf : ∀ v u, R v u → Refines S (f v) (g u)) : Refines S (x >>= f) (y >>= g) := by
  cases x with
  | ok v =>
    obtain ⟨u, rfl, hR⟩ := h
    exact hf v u hR
  | error s =>
    cases s with
    | divisionByZero =>
      cases h
      exact rfl
    | inputExhausted => exact h.elim
    | illFormed => exact h.elim
    | _ => trivial

/-- The first computation goes on by itself. -/
theorem before {f : α → Except Stop γ} {T : γ → β → Prop} (h : Refines R x y)
    (hf : ∀ v u, R v u → ∃ t, f v = .ok t ∧ T t u) : Refines T (x >>= f) y := by
  have hbind : Refines T (x >>= f) (y >>= pure) := h.bind fun v u hR => by
    obtain ⟨t, ht, hT⟩ := hf v u hR
    exact ht ▸ .of_ok hT
  rwa [bind_pure] at hbind

/-- The second computation goes on by itself. -/
theorem andThen {g : β → Except Stop δ} {T : α → δ → Prop} (h : Refines R x y)
    (hg : ∀ v u, R v u → ∃ t, g u = .ok t ∧ T v t) : Refines T x (y >>= g) := by
  have hbind : Refines T (x >>= Except.ok) (y >>= g) := h.bind hg
  cases x <;> exact hbind

/-- An operation on the same words. -/
theorem apply (op : BinaryOp) (u v : Word) :
    Refines (· = ·) (op.apply u v) (op.apply u v) := by
  cases op with
  | div =>
    by_cases hv : v = 0
    · rw [show BinaryOp.apply .div u v = .error .divisionByZero from if_pos hv]
      exact rfl
    · rw [show BinaryOp.apply .div u v = .ok (u / v) from if_neg hv]
      exact .of_ok rfl
  | _ => exact .of_ok rfl

/-- Code for the second computation is code for the first. That the second one has a value
says that the first has. -/
theorem yields (h : Refines R x y) {m : Machine} {c : Code} {P : β → Machine → Prop}
    (hy : (∀ u, y = .ok u → ∃ v, x = .ok v ∧ R v u) → m.Yields c y P) :
    m.Yields c x fun v m' => ∃ u, R v u ∧ P u m' := by
  cases x with
  | ok v =>
    obtain ⟨u, rfl, hR⟩ := h
    obtain ⟨m', hpass, hu⟩ := hy fun u' hu' => ⟨v, rfl, Except.ok.inj hu' ▸ hR⟩
    exact ⟨m', hpass, u, hR, hu⟩
  | error s =>
    cases s with
    | divisionByZero =>
      cases h
      exact hy nofun
    | inputExhausted => exact h.elim
    | illFormed => exact h.elim
    | _ => trivial

end Refines

/-! ## References -/

/-- What can be seen of memory from a running procedure: all frames, through the display of
the last one. -/
def Stage.view (s : Stage) (m : Machine) : View := ⟨m.word, s.top, s.display⟩

/-- A word is the address of a place of the given type. -/
def Stage.Points (a : Analysis) (s : Stage) (type : TypeId) (p : Place) (w : Word) : Prop :=
  ∃ address, p.At s.rooms address ∧ w = Int64.ofNat address ∧ a.types.Lays p.layout type

/-- A word is the distance of a place of the given type from an address. -/
def Stage.Spans (a : Analysis) (s : Stage) (address : Nat) (type : TypeId) (p : Place)
    (w : Word) : Prop :=
  ∃ k : Nat, p.At s.rooms (address + k) ∧ w = Int64.ofNat k ∧ a.types.Lays p.layout type

section

variable {a : Analysis} {final : Linkage} {s : Stage} {m : Machine} {env : Env} {Γ : Names}
    {σ : Storage}

theorem Machine.Hosts.views (h : m.Hosts a final s env Γ σ) : m.Views (s.view m) :=
  ⟨fun _ _ => rfl, h.displayOff, h.top_le, h.size_le⟩

/-- A name that denotes a variable is bound to its storage. -/
theorem Machine.Hosts.find? (h : m.Hosts a final s env Γ σ) {node : NodeId}
    {name : Ident} {v : Variable} (href : a.Refers Γ node name v) :
    ∃ p address env', env.find? name.name = some (.var p, env') ∧ p.At s.rooms address ∧
    v.Stands s m address ∧
      a.types.Lays p.layout v.type ∧ v.level ≤ s.level := by
  obtain ⟨id, hname, hv, _⟩ := href
  obtain ⟨b, env', Γ', hfind, hb, _⟩ := h.env.find? hname
  have hlevel := (h.within (name.name, id) (Names.mem_of_lookup hname)).1 v hv
  cases b with
  | type l =>
    obtain ⟨type, htype, _⟩ := hb
    rw [SymbolTable.typeAt?_eq_some_iff, SymbolTable.variableAt?_eq_some_iff.mp hv] at htype
    cases htype
  | proc p =>
    obtain ⟨level, hresolved, _⟩ := hb
    cases hresolved with
    | intro _ hp =>
      rw [SymbolTable.procedureAt?_of_variableAt? hv] at hp
      cases hp
  | var p =>
    obtain ⟨v', address, hv', hlays, hat, hstands⟩ := hb
    rw [hv] at hv'
    cases hv'
    exact ⟨p, address, env', hfind, hat, hstands, hlays, hlevel⟩

/-- The display leads to the variables. -/
theorem Machine.Hosts.start_eq (h : m.Hosts a final s env Γ σ) {v : Variable} {address : Nat}
    (hlevel : v.level ≤ s.level) (hstands : v.Stands s m address) :
    (s.view m).start v = .ok (Int64.ofNat address) := by
  have hlt := h.display_lt
  have htop := h.top_le
  have hsize := h.size_le
  have hread : ∀ i, i < s.top → (s.view m).read i = .ok (m.word i) := fun i hi =>
    if_pos ⟨Int.natCast_nonneg i, Int.ofNat_lt.mpr hi⟩
  have hframe : (s.view m).read ((s.view m).display + v.level) =
      .ok (Int64.ofNat (s.bases v.level)) := by
    rw [← (h.display v.level hlevel).2]
    exact hread (s.display + v.level) (by omega)
  unfold Variable.Stands at hstands
  unfold View.start
  rw [hframe]
  cases haccess : v.access with
  | direct =>
    rw [haccess] at hstands
    change Except.ok (Int64.ofNat (s.bases v.level) + Int64.ofInt v.offset) = _
    rw [← Int64.ofInt_eq_ofNat, ← Int64.ofInt_eq_ofNat, ← hstands, Int64.ofInt_add]
  | indirect =>
    rw [haccess] at hstands
    obtain ⟨hnonneg, slot, hslot, hlt', _, hword⟩ := hstands
    have hfits : Word.Fits v.offset := by unfold Word.Fits Word.least; omega
    change (s.view m).read
      ((Int64.ofNat (s.bases v.level)).toInt + (Int64.ofInt v.offset).toInt) = _
    rw [Machine.toInt_ofNat (by omega), Machine.toInt_ofInt hfits, hslot,
      hread slot hlt', hword]

/-- The address of a reference is that of its place if the distance of the selected part
is. -/
theorem Machine.Hosts.refines_place (h : m.Hosts a final s env Γ σ)
    {node : NodeId} {name : Ident} {v : Variable}
    (href : a.Refers Γ node name v) {selector : Selector Expr} {span : Span} {type : TypeId}
    (hselector : ∀ p address, p.At s.rooms address → a.types.Lays p.layout v.type →
      Refines (s.Spans a address type) (Selector.part env σ p selector)
        (Selector.distance a (s.view m) v.type selector)) :
    Refines (s.Points a type) (Reference.place env σ ⟨node, name, selector, span⟩)
      (Reference.address a (s.view m) ⟨node, name, selector, span⟩) := by
  obtain ⟨p, address, env', hfind, hat, hstands, hlays, hlevel⟩ := h.find? href
  have hplace : Reference.place env σ ⟨node, name, selector, span⟩ =
      Selector.part env σ p selector := by
    simp only [Reference.place, hfind]
  rw [hplace, href.address_eq]
  refine (hselector p address hat hlays).andThen ?_
  rintro q _ ⟨k, hq, rfl, hlays'⟩
  rw [h.start_eq hlevel hstands]
  exact ⟨_, rfl, address + k, hq, (Int64.ofNat_add address k).symm, hlays'⟩

/-- The first word of a place is read from its address. -/
theorem Machine.Hosts.refines_first (h : m.Hosts a final s env Γ σ)
    {type : TypeId} {p : Place} {w : Word}
    (hp : s.Points a type p w) : Refines (· = ·) (σ.first p) ((s.view m).read w.toInt) := by
  obtain ⟨address, hat, rfl, _⟩ := hp
  obtain ⟨hlength, hwords⟩ := h.holds.words hat
  have hle := hat.le h.ordered
  have htop := h.top_le
  have hsize := h.size_le
  unfold Storage.first
  cases hw : σ.words p with
  | nil => trivial
  | cons y rest =>
    rw [hw, List.length_cons] at hlength
    cases y with
    | none => trivial
    | some u =>
      refine ⟨u, ?_, rfl⟩
      rw [toInt_ofNat (by omega)]
      refine (if_pos ⟨Int.natCast_nonneg _, ?_⟩).trans
        (congrArg Except.ok (hwords 0 u (by rw [hw]; rfl)))
      change (address : Int) < s.top
      omega

/-! ## Expressions -/

/-- An element is a part of its array. -/
theorem Layout.part_of_element {low high i : Word} (element : Layout)
    (h : low ≤ i ∧ i ≤ high) : (Layout.array low high element).Part
    ((i.toInt - low.toInt).toNat * element.size) element := by
  have hlow : low.toInt ≤ i.toInt := Int64.le_iff_toInt_le.mp h.1
  have hhigh : i.toInt ≤ high.toInt := Int64.le_iff_toInt_le.mp h.2
  exact .element (k := 0) (by omega) .whole

/-- The distance of an element is that of its place. -/
theorem Place.refines_element {type element : TypeId} {low high : Word} {size : Int}
    (hget : a.types.get? type = some (.array element low high size))
    {p : Place} {address : Nat}
    (hat : p.At s.rooms address) (hlays : a.types.Lays p.layout type) (i : Word) :
    Refines (s.Spans a address element) (p.element i) (a.elementDistance type i) := by
  obtain ⟨l, heq, hl⟩ := hlays.array hget
  rw [Analysis.elementDistance_eq hget]
  unfold Place.element
  rw [heq]
  dsimp only
  by_cases hbounds : low ≤ i ∧ i ≤ high
  · rw [if_pos hbounds]
    have hlow : low.toInt ≤ i.toInt := Int64.le_iff_toInt_le.mp hbounds.1
    refine .of_ok ⟨(i.toInt - low.toInt).toNat * l.size,
      hat.part (heq ▸ Layout.part_of_element l hbounds), ?_, hl⟩
    rw [hl.size_eq, ← Int64.ofInt_eq_ofNat, Int.natCast_mul, Int.toNat_of_nonneg (by omega),
      Int64.ofInt_mul, Int64.ofInt_sub, Int64.ofInt_toInt, Int64.ofInt_toInt]
  · rw [if_neg hbounds]
    trivial

/-- A field of a place is where the table says. -/
theorem Place.field_eq {type : TypeId} {fields : List Field}
    {size : Int} {f : Field} {field : Ident} {p : Place}
    {address : Nat} (hget : a.types.get? type = some (.record fields size))
    (hf : fields.find? (·.name == field.name) = some f) (hat : p.At s.rooms address)
    (hlays : a.types.Lays p.layout type) :
    ∃ q, ∃ k : Nat, p.field field.name = .ok q ∧ f.offset = k ∧ q.At s.rooms (address + k) ∧
      a.types.Lays q.layout f.type := by
  obtain ⟨ls, heq, hls⟩ := hlays.record hget
  obtain ⟨k, l, hfield, hoffset, hl⟩ := hls.field? hf
  refine ⟨⟨l, p.block, p.offset + k⟩, k, ?_, by omega,
    hat.part (heq ▸ .field (Layout.field?_part hfield)), hl⟩
  simp only [Place.field, heq, hfield]

/-- What is computed from memory goes with what the interpreter computes. -/
theorem Expr.Resolved.refines {e : Expr} {type : TypeId}
    (he : e.Resolved a Γ type) (h : m.Hosts a final s env Γ σ) :
    Refines (· = ·) (e.eval env σ) (e.load a (s.view m)) ∧
      ∀ r, e = .ref r →
      Refines (s.Points a type) (r.place env σ) (r.address a (s.view m)) := by
  -- For a reference the value follows from the place: it is the first word there.
  have href : ∀ {r : VarRef} {type : TypeId},
      Refines (s.Points a type) (r.place env σ) (r.address a (s.view m)) →
      Refines (· = ·) (Expr.eval env σ (.ref r)) (Expr.load a (s.view m) (.ref r)) ∧
        ∀ r', Expr.ref r = .ref r' →
        Refines (s.Points a type) (r'.place env σ) (r'.address a (s.view m)) := by
    intro r type hr
    rw [Expr.eval, Expr.load]
    exact ⟨hr.bind fun _ _ hp => h.refines_first hp, fun r' heq => by cases heq; exact hr⟩
  induction he with
  | const => exact ⟨.of_ok rfl, fun r heq => by cases heq⟩
  | whole hv _ =>
    exact href (h.refines_place hv fun p address hat hlays => .of_ok ⟨0, hat, rfl, hlays⟩)
  | element hv hget _ _ ih =>
    refine href (h.refines_place hv fun p address hat hlays => ?_)
    rw [Selector.part, Selector.distance]
    refine ih.1.bind ?_
    rintro i _ rfl
    exact Place.refines_element hget hat hlays i
  | field hv hget hf _ =>
    refine href (h.refines_place hv fun p address hat hlays => ?_)
    obtain ⟨q, k, hq, hk, hatq, hlaysq⟩ := Place.field_eq hget hf hat hlays
    rw [Selector.part, Selector.distance, hq, Analysis.fieldNamed_eq hget hf]
    exact .of_ok ⟨k, hatq, by rw [hk, Int64.ofInt_eq_ofNat], hlaysq⟩
  | fieldElement hv hget hf harray _ _ ih =>
    refine href (h.refines_place hv fun p address hat hlays => ?_)
    obtain ⟨q, k, hq, hk, hatq, hlaysq⟩ := Place.field_eq hget hf hat hlays
    rw [Selector.part, Selector.distance, hq, Analysis.fieldNamed_eq hget hf]
    refine ih.1.bind ?_
    rintro i _ rfl
    refine (Place.refines_element harray hatq hlaysq i).andThen ?_
    rintro q' _ ⟨j, hatj, rfl, hlaysj⟩
    exact ⟨_, rfl, k + j, by rwa [← Nat.add_assoc],
      by rw [hk, Int64.ofInt_eq_ofNat, Int64.ofNat_add], hlaysj⟩
  | @binary _ op _ _ _ _ _ _ _ _ ihl ihr =>
    refine ⟨?_, fun r heq => by cases heq⟩
    rw [Expr.eval, Expr.load]
    refine ihl.1.bind ?_
    rintro u _ rfl
    refine ihr.1.bind ?_
    rintro v _ rfl
    exact .apply op u v

/-! ## Whole values -/

/-- Every word of a value has been written. -/
theorem Storage.value_eq_ok {σ : Storage} {p : Place}
    {words : List Word} (h : σ.value p = .ok words) :
    σ.words p = words.map some := by
  have hmapM : ∀ {l : List (Option Word)} {ws : List Word}, l.mapM id = some ws →
      l = ws.map some := by
    intro l
    induction l with
    | nil => intro ws h; cases h; rfl
    | cons x rest ih =>
      intro ws h
      rw [List.mapM_cons] at h
      obtain ⟨w, hw, h⟩ := Option.bind_eq_some_iff.mp h
      obtain ⟨ws', hws, h⟩ := Option.bind_eq_some_iff.mp h
      cases h
      rw [List.map_cons, ih hws]
      exact congrArg (· :: _) hw
  unfold Storage.value at h
  split at h
  next words' hwords =>
    cases h
    exact hmapM hwords
  · cases h

/-- A value of one word is its first word. -/
theorem Storage.value_eq_first {p : Place} (h : (σ.words p).length = 1) :
    σ.value p = σ.first p >>= fun w => pure [w] := by
  obtain ⟨x, hx⟩ := List.length_eq_one_iff.mp h
  simp only [Storage.value, Storage.first, hx]
  cases x <;> rfl

/-- Expressions that are no references have values of one word. -/
theorem Expr.Resolved.lays_word
    (hbuiltins : ({} : TypeTable) ≤ a.types) {e : Expr} {type : TypeId}
    (he : e.Resolved a Γ type) (href : ∀ r, e ≠ .ref r) : a.types.Lays .word type := by
  have hinteger : a.types.Lays .word .integer := TypeTable.isScalar_mono hbuiltins rfl
  have hboolean : a.types.Lays .word .boolean := TypeTable.isScalar_mono hbuiltins rfl
  cases he with
  | const => exact hinteger
  | @binary _ op => cases op <;> assumption
  | _ => exact absurd rfl (href _)

/-- All words of a place are read from its address. -/
theorem Machine.Hosts.refines_words (h : m.Hosts a final s env Γ σ) {type : TypeId}
    {p : Place} {w : Word} (hp : s.Points a type p w) :
    Refines (· = ·) (σ.value p) ((s.view m).readAll w.toInt p.layout.size) := by
  obtain ⟨address, hat, rfl, _⟩ := hp
  obtain ⟨hlength, hwords⟩ := h.holds.words hat
  have hle := hat.le h.ordered
  have htop := h.top_le
  have hsize := h.size_le
  cases hvalue : σ.value p with
  | error stop =>
    have hstop : stop = .unwritten := by
      unfold Storage.value at hvalue
      split at hvalue <;> cases hvalue
      rfl
    rw [hstop]
    trivial
  | ok words =>
    have heq := Storage.value_eq_ok hvalue
    rw [heq, List.length_map] at hlength
    have hsees : ∀ k < p.layout.size, (s.view m).Sees (address + k) := by
      intro k hk
      refine ⟨by omega, ?_⟩
      change (address : Int) + k < s.top
      omega
    have hlist : (List.range p.layout.size).map (fun k => m.word (address + k)) = words := by
      refine List.ext_getElem (by simp [hlength]) fun k _ hk => ?_
      rw [List.getElem_map, List.getElem_range]
      exact hwords k _ (by rw [heq, List.getElem?_map, List.getElem?_eq_getElem hk]; rfl)
    refine ⟨words, ?_, rfl⟩
    rw [toInt_ofNat (by omega)]
    exact (if_pos hsees).trans (congrArg Except.ok hlist)

/-- The words of a value are those that memory has for it. -/
theorem Expr.Resolved.refines_value (hbuiltins : ({} : TypeTable) ≤ a.types) {e : Expr}
    {type : TypeId} (he : e.Resolved a Γ type) (h : m.Hosts a final s env Γ σ) :
    Refines (fun v words => a.types.Lays v.1 type ∧ v.2 = words) (e.value env σ)
    (e.loadAll a (s.view m) type) := by
  by_cases href : ∃ r, e = .ref r
  · obtain ⟨r, rfl⟩ := href
    have hplace := (he.refines h).2 r rfl
    rw [Expr.value]
    unfold Expr.loadAll
    by_cases hsize : a.types.size type = 1
    · rw [if_pos hsize, Expr.load, bind_assoc]
      refine hplace.bind fun p w hp => ?_
      obtain ⟨address, hat, _, hlays⟩ := id hp
      have hlength : (σ.words p).length = 1 := by
        have := hlays.size_eq
        have := (h.holds.words hat).1
        omega
      rw [Storage.value_eq_first hlength, bind_assoc]
      refine (h.refines_first hp).bind ?_
      rintro u _ rfl
      exact .of_ok ⟨hlays, rfl⟩
    · rw [if_neg hsize]
      refine hplace.bind fun p w hp => ?_
      obtain ⟨address, hat, _, hlays⟩ := id hp
      rw [hlays.size_eq, Int.toNat_natCast]
      exact (h.refines_words hp).before fun words _ heq =>
        ⟨(p.layout, words), rfl, hlays, heq⟩
  · have hvalue : e.value env σ = e.eval env σ >>= fun w => pure (.word, [w]) := by
      cases e with
      | ref r => exact absurd ⟨r, rfl⟩ href
      | const => rfl
      | binary => rfl
    have hlays := he.lays_word hbuiltins fun r hr => href ⟨r, hr⟩
    unfold Expr.loadAll
    rw [hvalue, if_pos (by rw [hlays.size_eq]; rfl)]
    refine (he.refines h).1.bind ?_
    rintro w _ rfl
    exact .of_ok ⟨hlays, rfl⟩

/-! ## Code -/

/-- The temporaries lie between the frames and the last word. -/
theorem Machine.Hosts.offers (h : m.Hosts a final s env Γ σ)
    {lo n : Nat} (hfits : Demand.Fits m.memory.size ⟨lo, n⟩) :
    m.Offers 0 lo (m.memory.size - 1) n := by
  rcases hfits with hzero | hlt
  · exact .inl hzero
  · dsimp only at hlt
    exact .inr ⟨h.mp, by omega, by omega⟩

/-- The code of an expression leaves its value. -/
theorem Machine.Hosts.yields_eval (h : m.Hosts a final s env Γ σ)
    {e : Expr} {type : TypeId} (he : e.Resolved a Γ type)
    {lo : Nat} (hlo : s.top ≤ lo) (hfits : Demand.Fits m.memory.size ⟨lo, e.depth⟩) {c : Code}
    (hc : e.code a 0 = .ok c) : m.Yields c (e.eval env σ) fun w m' => m'.register .ac = w ∧
    m.Same lo (m.memory.size - 1) m' := by
  refine ((he.refines h).1.yields fun _ =>
    (he.loads (d := 0) h.views hlo (h.offers hfits)).1 c hc).mono ?_
  rintro w m' ⟨_, rfl, hac⟩
  exact hac

/-- The code of a reference leaves the address of its place. -/
theorem Machine.Hosts.yields_place (h : m.Hosts a final s env Γ σ) {r : VarRef}
    {type : TypeId} (hr : Expr.Resolved a Γ (.ref r) type) {lo : Nat} (hlo : s.top ≤ lo)
    (hfits : Demand.Fits m.memory.size ⟨lo, Reference.depth r⟩)
    {c : Code} (hc : r.code a 0 = .ok c) :
    m.Yields c (r.place env σ)
      fun p m' => s.Points a type p (m'.register .ac) ∧ m.Same lo (m.memory.size - 1) m' := by
  refine (((hr.refines h).2 r rfl).yields fun _ =>
    (hr.loads (d := 0) h.views hlo (h.offers hfits)).2 r rfl c hc).mono ?_
  rintro p m' ⟨w, hp, rfl, hsame⟩
  exact ⟨hp, hsame⟩

/-- The value of an expression is stored, in one word or word by word. -/
theorem Machine.Hosts.yields_store (hbuiltins : ({} : TypeTable) ≤ a.types)
    (h : m.Hosts a final s env Γ σ) {e : Expr}
    {type : TypeId} (he : e.Resolved a Γ type) {lo : Nat} (hlo : s.top ≤ lo)
    (hfits : Demand.Fits m.memory.size ⟨lo, e.depth⟩) {b : Register} {start : Int} {c : Code}
    (hc : Expr.StoreCode a type start b e c) (hb : b ≠ .ac ∧ b ≠ .ac1 ∧ b ≠ .pc) {dst n : Nat}
    (hn : a.types.size type = n) (hdst : m.Targets b start dst n)
    (hdst_le : dst + n ≤ m.memory.size) (haligned : ∀ (q : Place) src, q.At s.rooms src →
      q.layout.size = n → Layout.Aligned n src dst) :
    m.Yields c (e.value env σ) fun v m' => a.types.Lays v.1 type ∧ v.2.length = n ∧
      (∀ k w, v.2[k]? = some w → m'.word (dst + k) = w) ∧ m.Writes lo dst n m' := by
  have htop := h.top_le
  have hsize := h.size_le
  refine ((he.refines_value hbuiltins h).yields fun hback =>
    h.views.yields_store he hlo (h.offers hfits) hc hb hn hdst hdst_le ?_).mono ?_
  · -- The address that is copied from is that of the place whose value is copied.
    rintro r address words rfl haddress hwords src hsrc _
    obtain ⟨v, hv, _⟩ := hback words hwords
    rw [Expr.value] at hv
    obtain ⟨p, hp, _⟩ := Except.bind_eq_ok hv
    obtain ⟨_, heq, address', hat, rfl, hlays⟩ := hp ▸ (he.refines h).2 r rfl
    rw [haddress] at heq
    cases heq
    have hle := hat.le h.ordered
    rw [toInt_ofNat (by omega)] at hsrc
    rw [← Int.ofNat.inj hsrc]
    refine haligned p address' hat ?_
    have := hlays.size_eq
    omega
  · rintro ⟨l, _⟩ m' ⟨words, ⟨hlays, rfl⟩, hlength, hwords, hwrites⟩
    exact ⟨hlays, hlength, hwords, hwrites⟩

end

end BlockLang
