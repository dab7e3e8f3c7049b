import BlockLang.Proofs.Execution
import BlockLang.Proofs.Layouts
import BlockLang.Proofs.Resolution

/-!
# Storage in memory

How the memory of the machine stands for the storage of an interpretation. Each block has
a room of its own. The rooms lie in the frames, one behind the other; the headers of the
frames, the displays and the addresses in `var` parameters lie between them, and no
assignment reaches those.

* `Rooms.Ordered`: rooms lie one behind the other, so a word belongs to one of them at
  most (`Rooms.Ordered.separate`). `Rooms.Free` is for words that belong to none.
* `Place.At`: a place of the storage has an address, and so have its parts
  (`Place.At.part`). Two places of one size are the same words or have none in common
  (`Place.At.aligned`): in different rooms because rooms lie apart, in one room because
  parts of a layout do.
* `Machine.Holds`: memory has the words of the storage that are written.
  `Machine.Holds.write` says that a write to a place is one to its words, which is the
  heart of the matter: all other places keep theirs.
* `Env.Matches`: names mean the same on both sides. What a name is bound to stands where
  the symbol says (`Env.Matches.find?`), and a procedure has its code.
* `Machine.Hosts` collects what holds whenever a statement begins, and `Machine.Keeps`
  what no statement changes: registers for frames, and free words below the top.
-/

namespace BlockLang

/-! ## Rooms -/

/-- The words of memory that hold a block of storage. -/
structure Room where
  layout : Layout
  base : Nat

abbrev Rooms := List Room

def Room.Has (r : Room) (i : Nat) : Prop := r.base ≤ i ∧ i < r.base + r.layout.size

namespace Rooms

/-- The address is in no room. -/
def Free (rooms : Rooms) (i : Nat) : Prop := ∀ r ∈ rooms, ¬ r.Has i

/-- The rooms follow each other and end before `top`. -/
structure Ordered (rooms : Rooms) (top : Nat) : Prop where
  pairwise : rooms.Pairwise fun r r' => r.base + r.layout.size ≤ r'.base
  le : ∀ r ∈ rooms, r.base + r.layout.size ≤ top

/-- A word below new rooms stays free. -/
theorem free_append {rooms new : Rooms} {i : Nat}
    (h : rooms.Free i) (hnew : ∀ r ∈ new, i < r.base) :
    Rooms.Free (rooms ++ new) i := by
  intro r hr hi
  rcases List.mem_append.mp hr with hr | hr
  · exact h r hr hi
  · exact Nat.not_le.mpr (hnew r hr) hi.1

/-- Words from the top on are free. -/
theorem Ordered.free {rooms : Rooms} {top i : Nat} (h : rooms.Ordered top) (hi : top ≤ i) :
    rooms.Free i := by
  intro r hr hhas
  have := h.le r hr
  have := hhas.2
  omega

theorem Ordered.mono {rooms : Rooms} {top top' : Nat}
    (h : rooms.Ordered top) (hle : top ≤ top') :
    rooms.Ordered top' := ⟨h.pairwise, fun r hr => Nat.le_trans (h.le r hr) hle⟩

/-- One more room behind the others. -/
theorem Ordered.push {rooms : Rooms} {top : Nat} (h : rooms.Ordered top) (l : Layout) :
    Rooms.Ordered (rooms ++ [⟨l, top⟩]) (top + l.size) := by
  constructor
  · rw [List.pairwise_append]
    refine ⟨h.pairwise, List.pairwise_singleton .., fun r hr r' hr' => ?_⟩
    rw [List.mem_singleton.mp hr']
    exact h.le r hr
  · intro r hr
    rcases List.mem_append.mp hr with hr | hr
    · exact Nat.le_trans (h.le r hr) (Nat.le_add_right ..)
    · rw [List.mem_singleton.mp hr]

/-- Different rooms have no address in common. -/
theorem Ordered.separate {rooms : Rooms} {top i j : Nat} {r r' : Room} (h : rooms.Ordered top)
    (hi : rooms[i]? = some r) (hj : rooms[j]? = some r') (hne : i ≠ j) :
    r.base + r.layout.size ≤ r'.base ∨ r'.base + r'.layout.size ≤ r.base := by
  obtain ⟨hilt, rfl⟩ := List.getElem?_eq_some_iff.mp hi
  obtain ⟨hjlt, rfl⟩ := List.getElem?_eq_some_iff.mp hj
  have hpairwise := List.pairwise_iff_getElem.mp h.pairwise
  rcases Nat.lt_or_gt_of_ne hne with hlt | hgt
  · exact .inl (hpairwise i j hilt hjlt hlt)
  · exact .inr (hpairwise j i hjlt hilt hgt)

end Rooms

/-! ## Places -/

/-- A place stands in memory from an address on. -/
def Place.At (rooms : Rooms) (p : Place) (address : Nat) : Prop :=
  ∃ r, rooms[p.block]? = some r ∧ r.layout.Part p.offset p.layout ∧
    address = r.base + p.offset

namespace Place.At

variable {rooms : Rooms} {p q : Place} {address : Nat}

theorem append (h : p.At rooms address) (new : Rooms) : p.At (rooms ++ new) address := by
  obtain ⟨r, hr, hpart⟩ := h
  have hlt := (List.getElem?_eq_some_iff.mp hr).1
  exact ⟨r, by rw [List.getElem?_append_left hlt, hr], hpart⟩

/-- A place lies below the top. -/
theorem le (h : p.At rooms address) {top : Nat} (hrooms : rooms.Ordered top) :
    address + p.layout.size ≤ top := by
  obtain ⟨r, hr, hpart, rfl⟩ := h
  have := hrooms.le r (List.mem_of_getElem? hr)
  have := hpart.le
  omega

/-- A part of a place stands inside it. -/
theorem part (h : p.At rooms address) {l : Layout} {k : Nat} (hpart : p.layout.Part k l) :
    Place.At rooms ⟨l, p.block, p.offset + k⟩ (address + k) := by
  obtain ⟨r, hr, hp, rfl⟩ := h
  exact ⟨r, hr, hpart.trans hp, Nat.add_assoc ..⟩

/-- Places of the same size are the same words or have none in common. -/
theorem aligned {address' : Nat} {top : Nat}
    (hrooms : rooms.Ordered top) (h : p.At rooms address)
    (h' : q.At rooms address') (hsize : p.layout.size = q.layout.size) :
    Layout.Aligned p.layout.size address address' := by
  obtain ⟨r, hr, hpart, rfl⟩ := h
  obtain ⟨r', hr', hpart', rfl⟩ := h'
  by_cases hblock : p.block = q.block
  · rw [hblock, hr'] at hr
    cases hr
    exact (hpart.aligned hpart' hsize).add _
  · have hle := hpart.le
    have hle' := hpart'.le
    unfold Layout.Aligned
    have := hrooms.separate hr hr' hblock
    omega

end Place.At

/-! ## Blocks -/

/-- What a block holds after a part of it is overwritten. -/
theorem getElem?_overwrite {α : Type} (b ws : List α)
    {n : Nat} (h : n + ws.length ≤ b.length) (k : Nat) :
    (b.take n ++ ws ++ b.drop (n + ws.length))[k]? =
      if n ≤ k ∧ k < n + ws.length then ws[k - n]? else b[k]? := by
  have htake : (b.take n).length = n := by rw [List.length_take]; omega
  rw [List.append_assoc]
  by_cases hlt : k < n
  · rw [if_neg (by omega), List.getElem?_append_left (by omega), List.getElem?_take_of_lt hlt]
  rw [List.getElem?_append_right (by omega), htake]
  by_cases hlt' : k < n + ws.length
  · rw [if_pos (by omega), List.getElem?_append_left (by omega)]
  · rw [if_neg (by omega), List.getElem?_append_right (by omega), List.getElem?_drop]
    congr 1
    omega

/-- The rooms hold the blocks of the storage. -/
structure Machine.Holds (m : Machine) (rooms : Rooms) (σ : Storage) : Prop where
  length : σ.length = rooms.length
  block : ∀ {i : Nat} {r : Room} {b : List (Option Word)}, rooms[i]? = some r →
    σ[i]? = some b →
    b.length = r.layout.size ∧ ∀ k w, b[k]? = some (some w) → m.word (r.base + k) = w

namespace Machine.Holds

variable {m m' : Machine} {rooms : Rooms} {σ : Storage} {p : Place} {address : Nat}

/-- Memory that has the same words in the rooms holds the same storage. -/
theorem mono (h : m.Holds rooms σ)
    (hword : ∀ r ∈ rooms, ∀ i, r.Has i → m'.word i = m.word i) : m'.Holds rooms σ := by
  refine ⟨h.length, fun {i r b} hr hb => ?_⟩
  obtain ⟨hlength, hwords⟩ := h.block hr hb
  refine ⟨hlength, fun k w hk => ?_⟩
  have hlt := (List.getElem?_eq_some_iff.mp hk).1
  rw [hword r (List.mem_of_getElem? hr) _ ⟨by omega, by omega⟩, hwords k w hk]

/-- The words of a place stand in memory. -/
theorem words (h : m.Holds rooms σ) (hp : p.At rooms address) :
    (σ.words p).length = p.layout.size ∧ ∀ k w, (σ.words p)[k]? = some (some w) →
    m.word (address + k) = w := by
  obtain ⟨r, hr, hpart, rfl⟩ := hp
  have hlt : p.block < σ.length := h.length ▸ (List.getElem?_eq_some_iff.mp hr).1
  obtain ⟨hlength, hwords⟩ := h.block hr (List.getElem?_eq_getElem hlt)
  have hle := hpart.le
  have hblock : σ.getD p.block [] = σ[p.block] := by
    rw [List.getD_eq_getElem?_getD, List.getElem?_eq_getElem hlt]; rfl
  unfold Storage.words
  rw [hblock]
  constructor
  · rw [List.length_take, List.length_drop]
    omega
  · intro k w hk
    have hklt := (List.getElem?_eq_some_iff.mp hk).1
    rw [List.length_take] at hklt
    rw [List.getElem?_take_of_lt (by omega), List.getElem?_drop] at hk
    rw [Nat.add_assoc]
    exact hwords _ w hk

/-- Writing words to a place, in memory as in storage. -/
theorem write (h : m.Holds rooms σ) {top : Nat} (hrooms : rooms.Ordered top)
    (hp : p.At rooms address) {words : List Word} (hlength : words.length ≤ p.layout.size)
    (hnew : ∀ k w, words[k]? = some w → m'.word (address + k) = w)
    (hold : ∀ i, i < address ∨ address + words.length ≤ i → i < top → m'.word i = m.word i) :
    m'.Holds rooms (σ.write p words) := by
  obtain ⟨r₀, hr₀, hpart, rfl⟩ := hp
  have hle := hpart.le
  refine ⟨by simp [Storage.write, h.length], fun {i r b} hr hb => ?_⟩
  have htop := hrooms.le r (List.mem_of_getElem? hr)
  unfold Storage.write at hb
  rw [List.getElem?_modify] at hb
  obtain ⟨b₀, hb₀, rfl⟩ := Option.map_eq_some_iff.mp hb
  obtain ⟨hlength₀, hwords₀⟩ := h.block hr hb₀
  -- In the block of the place the words outside of it stay; other blocks have their own
  -- rooms.
  by_cases hi : p.block = i
  · subst hi
    rw [hr₀] at hr
    cases hr
    rw [if_pos rfl]
    have hoverwrite := getElem?_overwrite b₀ (words.map some) (n := p.offset)
      (by rw [List.length_map]; omega)
    rw [List.length_map] at hoverwrite
    constructor
    · simp only [List.length_append, List.length_take, List.length_map, List.length_drop]
      omega
    · intro k w hk
      rw [hoverwrite k] at hk
      split at hk
      next hin =>
        rw [List.getElem?_map] at hk
        obtain ⟨w', hw', heq⟩ := Option.map_eq_some_iff.mp hk
        cases heq
        rw [← hnew _ _ hw']
        congr 1
        omega
      next hout =>
        have hlt := (List.getElem?_eq_some_iff.mp hk).1
        rw [hold _ (by omega) (by omega), hwords₀ k w hk]
  · rw [if_neg hi]
    have hseparate := hrooms.separate hr₀ hr hi
    refine ⟨hlength₀, fun k w hk => ?_⟩
    have hlt := (List.getElem?_eq_some_iff.mp hk).1
    rw [hold _ (by omega) (by omega), hwords₀ k w hk]

end Machine.Holds

/-! ## Bindings -/

/-- A running procedure on the machine. -/
structure Stage where
  /-- The rooms of all storage there is. -/
  rooms : Rooms
  /-- The bases of the frames in which the variables of each level are found. -/
  bases : Nat → Nat
  level : Nat
  /-- The base of the running frame. -/
  sp : Nat
  /-- The address of the display. -/
  display : Nat
  /-- The first address behind the running frame. -/
  top : Nat

/-- The storage of a variable starts at an address: its frame slot is there, or holds the
address. -/
def Variable.Stands (s : Stage) (m : Machine) (v : Variable) (address : Nat) : Prop :=
  match v.access with
  | .direct => (s.bases v.level : Int) + v.offset = address
  | .indirect => 0 ≤ v.offset ∧ ∃ slot : Nat, (s.bases v.level : Int) + v.offset = slot ∧
      slot < s.top ∧ s.rooms.Free slot ∧ m.word slot = Int64.ofNat address

/-- The variables are of levels up to the given one, and procedures of at most one more. -/
def Names.Within (a : Analysis) (level : Nat) (Γ : Names) : Prop :=
  ∀ x ∈ Γ, (∀ v, a.symbols.variableAt? x.2 = some v → v.level ≤ level) ∧
    (∀ p, a.symbols.procedureAt? x.2 = some p → p.level ≤ level + 1)

/-- What holds for the whole code of a program. -/
structure Linkage where
  /-- The addresses of all procedures. -/
  entries : Entries
  distinct : (entries.map (·.1)).Nodup
  /-- The most temporaries that are in use at once. -/
  depth : Nat

/-- The code of a procedure stands at its address. -/
def ProcDecl.Placed (a : Analysis) (final : Linkage) (code : Array Instruction)
    (p : ProcDecl Decl) : Prop :=
  Decl.depth (.procedure p) ≤ final.depth ∧ ∃ entries start c entries',
    Decl.code a entries start (.procedure p) = .ok (c, entries') ∧ Code.At code start c ∧
    entries' <:+ final.entries

/-- A binding goes with a symbol, in whose scope are the names `Γ`. -/
def Binding.Means (a : Analysis) (final : Linkage)
    (s : Stage) (m : Machine) (Γ : Names) (id : SymbolId) :
    Binding → Prop
  | .type l => ∃ type, a.symbols.typeAt? id = some type ∧ a.types.Lays l type
  | .var p => ∃ v address, a.symbols.variableAt? id = some v ∧ a.types.Lays p.layout v.type ∧
      p.At s.rooms address ∧ v.Stands s m address
  | .proc p =>
    ∃ level, ProcDecl.Resolved a level Γ id p ∧ p.Placed a final m.code ∧ Γ.Within a level

/-- Bindings go with the symbols in scope, one by one. -/
inductive Env.Matches (a : Analysis) (final : Linkage) (s : Stage) (m : Machine) :
    Env → Names → Prop where
  | nil : Env.Matches a final s m [] []
  | cons {name b id env Γ} : Binding.Means a final s m ((name, id) :: Γ) id b →
      Env.Matches a final s m env Γ →
      Env.Matches a final s m ((name, b) :: env) ((name, id) :: Γ)

section

variable {a : Analysis} {final : Linkage} {s s' : Stage} {m m' : Machine} {env : Env}
    {Γ : Names} {σ σ' : Storage}

/-- What a name is bound to goes with the symbol that it has. -/
theorem Env.Matches.find? (h : Env.Matches a final s m env Γ) {name : String} {id : SymbolId}
    (hname : Γ.lookup name = some id) :
    ∃ b env' Γ', env.find? name = some (b, env') ∧ b.Means a final s m Γ' id ∧
    Env.Matches a final s m env' Γ' := by
  induction h with
  | nil => cases hname
  | @cons name' b id' env Γ hb henv ih =>
    rw [List.lookup_cons] at hname
    unfold Env.find?
    by_cases heq : name = name'
    · subst heq
      rw [beq_self_eq_true] at hname ⊢
      cases hname
      exact ⟨b, _, _, rfl, hb, .cons hb henv⟩
    · have h₁ : (name == name') = false := by simpa using heq
      have h₂ : ¬ (name' == name) = true := by simpa using fun h => heq h.symm
      rw [h₁] at hname
      rw [if_neg h₂]
      exact ih hname

theorem Names.Within.mono {level level' : Nat} (h : Γ.Within a level) (hle : level ≤ level') :
    Γ.Within a level' :=
  fun x hx => ⟨fun v hv => Nat.le_trans ((h x hx).1 v hv) hle,
    fun p hp => Nat.le_trans ((h x hx).2 p hp) (Nat.succ_le_succ hle)⟩

theorem Names.Within.cons {level : Nat} {name : String} {id : SymbolId} (h : Γ.Within a level)
    (hvar : ∀ v, a.symbols.variableAt? id = some v → v.level ≤ level)
    (hproc : ∀ p, a.symbols.procedureAt? id = some p → p.level ≤ level + 1) :
    Names.Within a level ((name, id) :: Γ) := by
  intro x hx
  rcases List.mem_cons.mp hx with rfl | hx
  · exact ⟨hvar, hproc⟩
  · exact h x hx

/-- Another stage and machine in which variables stand where they stood. -/
theorem Env.Matches.mono (h : Env.Matches a final s m env Γ) (hcode : m'.code = m.code)
    (hplace : ∀ (p : Place) address, p.At s.rooms address → p.At s'.rooms address)
    (hvar : ∀ x ∈ Γ, ∀ v address, a.symbols.variableAt? x.2 = some v →
      v.Stands s m address → v.Stands s' m' address) :
    Env.Matches a final s' m' env Γ := by
  induction h with
  | nil => exact .nil
  | @cons name b id env Γ hb _ ih =>
    refine .cons ?_ (ih fun x hx => hvar x (List.mem_cons_of_mem _ hx))
    cases b with
    | type l => exact hb
    | var p =>
      obtain ⟨v, address, hv, hlays, hat, hstands⟩ := hb
      exact ⟨v, address, hv, hlays, hplace _ _ hat,
        hvar _ List.mem_cons_self v address hv hstands⟩
    | proc p =>
      obtain ⟨level, hresolved, hplaced, hwithin⟩ := hb
      exact ⟨level, hresolved, hcode ▸ hplaced, hwithin⟩

/-! ## Statements begin -/

/-- The memory, the registers and the code stand for the bindings and the storage. -/
structure Machine.Hosts (a : Analysis) (final : Linkage) (m : Machine) (s : Stage) (env : Env)
    (Γ : Names) (σ : Storage) : Prop where
  env : Env.Matches a final s m env Γ
  within : Γ.Within a s.level
  holds : m.Holds s.rooms σ
  ordered : s.rooms.Ordered s.top
  sp : m.register .sp = Int64.ofNat s.sp
  top : m.register .top = Int64.ofNat s.top
  displayOff : m.register .displayOff = Int64.ofNat s.display
  mp : m.register .mp = Int64.ofNat (m.memory.size - 1)
  display : ∀ k, k ≤ s.level → s.rooms.Free (s.display + k) ∧
    m.word (s.display + k) = Int64.ofNat (s.bases k)
  display_lt : s.display + s.level < s.top
  header : 0 < s.level → ∀ k : Nat, k < Frame.headerSize →
    s.rooms.Free (s.sp + k) ∧ s.sp + k < s.top
  top_le : s.top ≤ m.memory.size
  size_le : (m.memory.size : Int) ≤ Word.greatest

/-- What a statement leaves alone: the registers of the frame, and all that lies below its end
outside the rooms. -/
structure Machine.Keeps (s : Stage) (m m' : Machine) : Prop where
  code : m'.code = m.code
  sp : m'.register .sp = m.register .sp
  top : m'.register .top = m.register .top
  displayOff : m'.register .displayOff = m.register .displayOff
  mp : m'.register .mp = m.register .mp
  size : m'.memory.size = m.memory.size
  word : ∀ i, i < s.top → s.rooms.Free i → m'.word i = m.word i

/-- Code that changes temporaries only keeps all that statements keep. -/
theorem Machine.Same.keeps {lo hi : Nat} (h : m.Same lo hi m') (hlo : s.top ≤ lo) :
    m.Keeps s m' where
  code := h.code
  sp := h.register .sp (by decide) (by decide) (by decide)
  top := h.register .top (by decide) (by decide) (by decide)
  displayOff := h.register .displayOff (by decide) (by decide) (by decide)
  mp := h.register .mp (by decide) (by decide) (by decide)
  size := h.size
  word i hi _ := h.word i (by omega)

namespace Machine.Keeps

theorem refl (s : Stage) (m : Machine) : m.Keeps s m :=
  ⟨rfl, rfl, rfl, rfl, rfl, rfl, fun _ _ _ => rfl⟩

theorem trans {m'' : Machine} (h : m.Keeps s m') (h' : m'.Keeps s m'') : m.Keeps s m'' where
  code := h'.code.trans h.code
  sp := h'.sp.trans h.sp
  top := h'.top.trans h.top
  displayOff := h'.displayOff.trans h.displayOff
  mp := h'.mp.trans h.mp
  size := h'.size.trans h.size
  word i hi hfree := (h'.word i hi hfree).trans (h.word i hi hfree)

end Machine.Keeps

/-- A variable stands where it did. -/
theorem Variable.Stands.keeps {v : Variable} {address : Nat}
    (h : v.Stands s m address) (hkeeps : m.Keeps s m') :
    v.Stands s m' address := by
  unfold Variable.Stands at *
  split at h
  · exact h
  · obtain ⟨hnonneg, slot, hslot, hlt, hfree, hword⟩ := h
    exact ⟨hnonneg, slot, hslot, hlt, hfree, (hkeeps.word slot hlt hfree).trans hword⟩

namespace Machine.Hosts

/-- The next statement finds what it needs if the last one kept to its storage. -/
theorem keeps (h : m.Hosts a final s env Γ σ)
    (hkeeps : m.Keeps s m') (hholds : m'.Holds s.rooms σ') :
    m'.Hosts a final s env Γ σ' where
  env := h.env.mono hkeeps.code (fun _ _ hat => hat) fun _ _ _ _ _ hstands =>
    hstands.keeps hkeeps
  within := h.within
  holds := hholds
  ordered := h.ordered
  sp := hkeeps.sp.trans h.sp
  top := hkeeps.top.trans h.top
  displayOff := hkeeps.displayOff.trans h.displayOff
  mp := by rw [hkeeps.mp, h.mp, hkeeps.size]
  display k hk := by
    obtain ⟨hfree, hword⟩ := h.display k hk
    have := h.display_lt
    exact ⟨hfree, (hkeeps.word _ (by omega) hfree).trans hword⟩
  display_lt := h.display_lt
  header := h.header
  top_le := hkeeps.size ▸ h.top_le
  size_le := hkeeps.size ▸ h.size_le

/-- Memory still stands for the storage after code that changes temporaries only. -/
theorem same (h : m.Hosts a final s env Γ σ) {lo hi : Nat}
    (hsame : m.Same lo hi m') (hlo : s.top ≤ lo) :
    m'.Hosts a final s env Γ σ := by
  refine h.keeps (hsame.keeps hlo) (h.holds.mono fun r hr i hi => hsame.word i ?_)
  have := h.ordered.le r hr
  have := hi.2
  omega

end Machine.Hosts

end

end BlockLang
