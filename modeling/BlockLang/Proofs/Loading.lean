import BlockLang.Proofs.Accesses
import BlockLang.Proofs.Sources

/-!
# Values and addresses from memory

The display says where the frames are, and a slot of a frame holds a variable or the
address of one. `Expr.load` and `Reference.address` compute from the words below a limit
what the code of an expression or a reference computes, and they are undefined where it
would read beyond them. Nothing is assumed of what the memory holds. The words are a
source whose temporaries lie behind the limit.

* A `View` is what can be seen of memory: the words below a limit, and where the display
  is. It is a source (`View.source`), and loading from it is computing in the source
  (`Expr.load_eq`, `Reference.address_eq`).
* `Machine.Views` says that a machine has such memory. It then serves the source
  (`Machine.Views.serves`) as long as temporaries lie behind the limit, and so the code of
  an expression loads its value and that of a reference its address
  (`Expr.Resolved.loads`).
* Stores: `Machine.passes_copyWords` copies word for word, and `Machine.Writes` bounds
  what has changed, beside the temporaries: the words of the target. `Expr.StoreCode` has
  the two ways in which a value is stored, one word from `ac` or a copy, and
  `Machine.Views.yields_store` covers both.
-/

namespace BlockLang

/-! ## Reading memory -/

/-- What can be seen of a memory: the words below a limit, and where the display begins. -/
structure View where
  word : Nat → Word
  limit : Nat
  display : Nat

namespace View

def Sees (x : View) (address : Int) : Prop := 0 ≤ address ∧ address < x.limit

instance (x : View) (address : Int) : Decidable (x.Sees address) :=
  inferInstanceAs (Decidable (_ ∧ _))

def read (x : View) (address : Int) : Except Stop Word :=
  if x.Sees address then .ok (x.word address.toNat) else .error .outOfBounds

/-- The `n` words from an address on. -/
def readAll (x : View) (address : Int) (n : Nat) : Except Stop (List Word) :=
  if ∀ k < n, x.Sees (address + k)
    then .ok ((List.range n).map fun k => x.word (address.toNat + k))
  else .error .outOfBounds

/-- Where the storage of a variable starts: at its slot in the frame of its level, or where
the slot says. -/
def start (x : View) (v : Variable) : Except Stop Word := do
  let frame ← x.read (x.display + v.level)
  match v.access with
  | .direct => return frame + Int64.ofInt v.offset
  | .indirect => x.read (frame.toInt + (Int64.ofInt v.offset).toInt)

/-- The words below the limit as a source. -/
def source (x : View) : Source := ⟨x.read, x.display⟩

/-- A word is read if it is seen. -/
theorem read_eq_ok_iff {x : View} {address : Int} {w : Word} :
    x.read address = .ok w ↔ x.Sees address ∧ x.word address.toNat = w := by
  unfold read
  split <;> simp_all

/-- A view refuses addresses only for being out of bounds. -/
theorem refused_of_read {x : View} {address : Int} {s : Stop}
    (h : x.read address = .error s) : s = .outOfBounds := by
  unfold read at h
  split at h <;> cases h
  rfl

end View

mutual

/-- The value of an expression, of which a variable gives its first word. -/
def Expr.load (a : Analysis) (x : View) : Expr → Except Stop Word
  | .const _ value _ => .ok value
  | .ref r => do x.read (← Reference.address a x r).toInt
  | .binary _ op left right _ => do
    let u ← Expr.load a x left
    let v ← Expr.load a x right
    op.apply u v

/-- The address of what a reference denotes. -/
def Reference.address (a : Analysis) (x : View) : Reference Expr → Except Stop Word
  | ⟨node, _, selector, _⟩ =>
    match (a.annotations.symbol? node).bind a.symbols.variableAt? with
    | some v => do
      let distance ← Selector.distance a x v.type selector
      return (← x.start v) + distance
    | none => .error .illFormed

/-- The distance of the part that a selector selects from the start of a variable of the given
type. -/
def Selector.distance (a : Analysis) (x : View) (type : TypeId) :
    Selector Expr → Except Stop Word
  | .whole => .ok 0
  | .element index => do a.elementDistance type (← Expr.load a x index)
  | .field field => do return Int64.ofInt (← a.fieldNamed type field.name).offset
  | .fieldElement field index => do
    let i ← Expr.load a x index
    let f ← a.fieldNamed type field.name
    return Int64.ofInt f.offset + (← a.elementDistance f.type i)

end

mutual

/-- Loading from a view is computing in its source. -/
theorem Expr.load_eq (a : Analysis) (x : View) : ∀ e : Expr, e.load a x = e.valueIn a x.source
  | .const .. => by rw [Expr.load, Expr.valueIn]
  | .ref r => by
    rw [Expr.load, Expr.valueIn, Reference.address_eq a x r]
    rfl
  | .binary _ op left right _ =>
    by rw [Expr.load, Expr.valueIn, Expr.load_eq a x left, Expr.load_eq a x right]

/-- Addresses from a view are those in its source. -/
theorem Reference.address_eq (a : Analysis) (x : View) :
    ∀ r : Reference Expr, r.address a x = r.addressIn a x.source
  | ⟨node, _, selector, _⟩ => by
    rw [Reference.address, Reference.addressIn]
    cases (a.annotations.symbol? node).bind a.symbols.variableAt? with
    | none => rfl
    | some v =>
      dsimp only
      rw [Selector.distance_eq a x v.type selector]
      rfl

/-- Distances from a view are those in its source. -/
theorem Selector.distance_eq (a : Analysis) (x : View) (type : TypeId) :
    ∀ s : Selector Expr, s.distance a x type = s.distanceIn a x.source type
  | .whole => by rw [Selector.distance, Selector.distanceIn]
  | .element index => by rw [Selector.distance, Selector.distanceIn, Expr.load_eq a x index]
  | .field _ => by rw [Selector.distance, Selector.distanceIn]
  | .fieldElement _ index =>
    by rw [Selector.distance, Selector.distanceIn, Expr.load_eq a x index]

end

/-- All words of the value of an expression of the given type. -/
def Expr.loadAll (a : Analysis) (x : View) (type : TypeId) (e : Expr) :
    Except Stop (List Word) :=
  if a.types.size type = 1 then do return [← e.load a x]
  else
    match e.asRef? with
    | some r => do x.readAll (← r.address a x).toInt (a.types.size type).toNat
    | none => .error .illFormed

/-- The machine shows a view of its memory. -/
structure Machine.Views (m : Machine) (x : View) : Prop where
  word : ∀ i, i < x.limit → m.word i = x.word i
  displayOff : m.register .displayOff = Int64.ofNat x.display
  limit_le : x.limit ≤ m.memory.size
  size_le : (m.memory.size : Int) ≤ Word.greatest

/-- There are `n` words for temporaries, from `hi` downwards but not below `lo`; `d` more are
in use above them. -/
def Machine.Offers (d lo hi n : Nat) (m : Machine) : Prop :=
  n = 0 ∨ m.register .mp = Int64.ofNat (hi + d) ∧ hi + d ≤ m.memory.size ∧ lo + n ≤ hi

section

variable {a : Analysis} {Γ : Names} {x : View} {m m' : Machine} {d lo hi n : Nat}

theorem Machine.Offers.mono {n' : Nat} (h : m.Offers d lo hi n) (hn : n' ≤ n) :
    m.Offers d lo hi n' := by
  rcases h with h | ⟨hmp, hhi, hle⟩
  · exact .inl (by omega)
  · exact .inr ⟨hmp, hhi, by omega⟩

namespace Machine.Views

/-- A view stays the same while temporaries change behind its limit. -/
theorem same (h : m.Views x) (hsame : m.Same lo hi m') (hlo : x.limit ≤ lo) : m'.Views x where
  word i hi := (hsame.word i (by omega)).trans (h.word i hi)
  displayOff :=
    (hsame.register .displayOff (by decide) (by decide) (by decide)).trans h.displayOff
  limit_le := hsame.size ▸ h.limit_le
  size_le := hsame.size ▸ h.size_le

/-- What is seen lies before the temporaries. -/
theorem serves (h : m.Views x) (hlo : x.limit ≤ lo) : m.Serves x.source lo hi where
  word {address w} hread := by
    obtain ⟨⟨hnonneg, hlt⟩, rfl⟩ := View.read_eq_ok_iff.mp hread
    have hlimit := h.limit_le
    exact ⟨address.toNat, by omega, by omega, by omega, h.word _ (by omega)⟩
  refused := View.refused_of_read
  displayOff {level w} hread := by
    obtain ⟨⟨-, hlt⟩, -⟩ := View.read_eq_ok_iff.mp hread
    have hlimit := h.limit_le
    have hsize := h.size_le
    have hlt' : (x.display : Int) + level < x.limit := hlt
    rw [h.displayOff]
    exact toInt_ofNat (by omega)

/-- A frame can be found only if its place in the display is a word. -/
theorem levelled (h : m.Views x) : a.Levelled Γ x.source := by
  intro node name v w _ hread
  obtain ⟨⟨-, hlt⟩, -⟩ := View.read_eq_ok_iff.mp hread
  have hlimit := h.limit_le
  have hsize := h.size_le
  have hlt' : (x.display : Int) + v.level < x.limit := hlt
  omega

end Machine.Views

/-- Temporaries that are offered are to be had. -/
theorem Machine.Offers.spares (h : m.Offers d lo hi n)
    (hsize : (m.memory.size : Int) ≤ Word.greatest) :
    m.Spares (-d) lo hi n := by
  rcases h with h | ⟨hmp, hhi, hle⟩
  · exact .inl h
  · refine .inr ⟨?_, by omega, hle⟩
    rw [hmp, toInt_ofNat (by omega)]
    omega

/-! ## References -/

theorem Analysis.Refers.address_eq {node : NodeId} {name : Ident} {v : Variable}
    (h : a.Refers Γ node name v) (x : View) (selector : Selector Expr) (span : Span) :
    Reference.address a x ⟨node, name, selector, span⟩ =
      Selector.distance a x v.type selector >>= fun distance => x.start v >>= fun start =>
      pure (start + distance) := by
  obtain ⟨id, _, hv, hnode⟩ := h
  rw [Reference.address, hnode, Option.bind_some, hv]

/-- `m` computes the value of an expression, with `d` temporaries in use. -/
def Machine.Loads (a : Analysis) (x : View) (d lo hi : Nat) (m : Machine) (e : Expr) : Prop :=
  ∀ c, e.code a (-d) = .ok c → m.Yields c (e.load a x) fun w m' => m'.register .ac = w ∧
    m.Same lo hi m'

/-- `m` computes the address of what a reference denotes, with `d` temporaries in use. -/
def Machine.Locates (a : Analysis) (x : View) (d lo hi : Nat) (m : Machine)
    (r : VarRef) : Prop :=
  ∀ c, r.code a (-d) = .ok c → m.Yields c (r.address a x) fun w m' => m'.register .ac = w ∧
    m.Same lo hi m'

/-- The code of an expression computes its value, and that of a reference its address. -/
theorem Expr.Resolved.loads {e : Expr} {type : TypeId} (he : e.Resolved a Γ type) :
    ∀ {d hi : Nat} {m : Machine}, m.Views x → x.limit ≤ lo → m.Offers d lo hi e.depth →
      m.Loads a x d lo hi e ∧ ∀ r, e = .ref r → m.Locates a x d lo hi r := by
  intro d hi m h hlo hoffers
  obtain ⟨hvalue, haddress⟩ :=
    he.evaluates h.levelled (by omega) (h.serves hlo) (hoffers.spares h.size_le)
  constructor
  · intro c hc
    rw [Expr.load_eq]
    exact hvalue c hc
  · intro r hr c hc
    rw [Reference.address_eq]
    exact haddress r hr c hc

end

/-! ## Storing values -/

namespace Machine

/-- Words are copied as if at once, unless source and target overlap partially. -/
theorem passes_copyWords {m : Machine} {b : Register} {start : Int} {src dst n : Nat}
    (hb : b ≠ .ac ∧ b ≠ .ac1 ∧ b ≠ .pc)
    (hac : m.register .ac = Int64.ofNat src) (hdst : m.Targets b start dst n)
    (hsrc_le : src + n ≤ m.memory.size) (hdst_le : dst + n ≤ m.memory.size)
    (hsize : (m.memory.size : Int) ≤ Word.greatest) (haligned : Layout.Aligned n src dst) :
    ∃ m', m.Passes (Code.copyWords n start b) m' ∧ m.Same dst (dst + n) m' ∧
      ∀ k, k < n → m'.word (dst + k) = m.word (src + k) := by
  have hsrc : (m.register .ac).toInt = src := by
    rw [hac]
    exact toInt_ofNat (by omega)
  obtain ⟨m', htouches, hsame, hcopied⟩ :=
    touches_copyWords hb hsrc hdst (by omega) hsrc_le hdst_le
  exact ⟨m', htouches.passes, hsame, hcopied haligned⟩

/-- Of the words below `floor` only the `n` words from `dst` on are changed. -/
structure Writes (floor dst n : Nat) (m m' : Machine) : Prop where
  code : m'.code = m.code
  register : ∀ r, r ≠ .ac → r ≠ .ac1 → r ≠ .pc → m'.register r = m.register r
  input : m'.input = m.input
  output : m'.output = m.output
  size : m'.memory.size = m.memory.size
  word : ∀ i, i < floor → i < dst ∨ dst + n ≤ i → m'.word i = m.word i

namespace Writes

variable {m m' m'' : Machine} {floor dst dst' n n' : Nat}

theorem refl (floor dst n : Nat) (m : Machine) : m.Writes floor dst n m :=
  ⟨rfl, fun _ _ _ _ => rfl, rfl, rfl, rfl, fun _ _ _ => rfl⟩

theorem trans (h : m.Writes floor dst n m') (h' : m'.Writes floor dst n m'') :
    m.Writes floor dst n m'' where
  code := h'.code.trans h.code
  register r h₁ h₂ h₃ := (h'.register r h₁ h₂ h₃).trans (h.register r h₁ h₂ h₃)
  input := h'.input.trans h.input
  output := h'.output.trans h.output
  size := h'.size.trans h.size
  word i hi hout := (h'.word i hi hout).trans (h.word i hi hout)

theorem mono (h : m.Writes floor dst n m') (hdst : dst' ≤ dst) (hn : dst + n ≤ dst' + n') :
    m.Writes floor dst' n' m' :=
  { h with word := fun i hi hout => h.word i hi (by omega) }

/-- Code that computes, and a store behind it. -/
theorem of_same {m₁ : Machine} {hi : Nat} (h : m.Same floor hi m₁)
    (h' : m₁.Same dst (dst + n) m') : m.Writes floor dst n m' :=
  have hfirst : m.Writes floor dst n m₁ := { h with word := fun i hi _ => h.word i (.inl hi) }
  have hsecond : m₁.Writes floor dst n m' :=
    { h' with word := fun i _ hout => h'.word i hout }
  hfirst.trans hsecond

end Writes

end Machine

/-- Code that stores the value of an expression at `start` from the contents of `b` on. -/
inductive Expr.StoreCode (a : Analysis) (type : TypeId) (start : Int) (b : Register) :
    Expr → Code → Prop where
  | word {e c} : a.types.size type = 1 → e.code a 0 = .ok c →
      Expr.StoreCode a type start b e (c ++ [.memory .st .ac (Int64.ofInt start) b])
  | words {r c} : a.types.size type ≠ 1 → r.code a 0 = .ok c →
      Expr.StoreCode a type start b (.ref r) (c ++ Code.copyWords (a.types.size type) start b)

section

variable {a : Analysis} {Γ : Names} {x : View} {m m' : Machine} {lo hi : Nat}

/-- A view stays the same while words behind its limit are stored. -/
theorem Machine.Views.writes (h : m.Views x) {dst n : Nat} (hwrites : m.Writes lo dst n m')
    (hlo : x.limit ≤ lo) (hdst : x.limit ≤ dst) : m'.Views x where
  word i hi := (hwrites.word i (by omega) (by omega)).trans (h.word i hi)
  displayOff :=
    (hwrites.register .displayOff (by decide) (by decide) (by decide)).trans h.displayOff
  limit_le := hwrites.size ▸ h.limit_le
  size_le := hwrites.size ▸ h.size_le

theorem Machine.Offers.writes {d n n' dst : Nat} (h : m.Offers d lo hi n)
    {lo' : Nat} (hwrites : m.Writes lo' dst n' m') :
    m'.Offers d lo hi n := by
  unfold Machine.Offers at *
  rwa [hwrites.register .mp (by decide) (by decide) (by decide), hwrites.size]

/-- A target stays while values are computed. -/
theorem Machine.Targets.same {b : Register} {start : Int}
    {dst n : Nat} (h : m.Targets b start dst n)
    (hb : b ≠ .ac ∧ b ≠ .ac1 ∧ b ≠ .pc) (hsame : m.Same lo hi m') :
    m'.Targets b start dst n := by
  intro k hk
  rw [hsame.register b hb.1 hb.2.1 hb.2.2]
  exact h k hk

/-- The word in `ac` is stored. -/
theorem Machine.Targets.passes_st {b : Register} {start : Int} {dst : Nat}
    (h : m.Targets b start dst 1) (hb : b ≠ .pc) (hlt : dst < m.memory.size) :
    m.Passes [.memory .st .ac (Int64.ofInt start) b] (m.put dst (m.register .ac)) :=
  Machine.passes_st (by decide) hb (by simpa using h 0 (by decide)) hlt

/-- The words are those that are read from an address on. -/
theorem View.readAll_eq_ok {address : Int} {n : Nat}
    {words : List Word} (h : x.readAll address n = .ok words) :
    words.length = n ∧ (∀ k, k < n → x.Sees (address + k)) ∧
      ∀ k w, words[k]? = some w → w = x.word (address.toNat + k) := by
  unfold View.readAll at h
  split at h
  next hsees =>
    cases h
    refine ⟨by simp, hsees, fun k w hk => ?_⟩
    simp only [List.getElem?_map, Option.map_eq_some_iff] at hk
    obtain ⟨j, hj, rfl⟩ := hk
    obtain ⟨_, rfl⟩ := List.getElem?_eq_some_iff.mp hj
    rw [List.getElem_range]
  · cases h

open Machine in
/-- An array or record is copied from its address. -/
theorem Machine.Views.yields_copyWords (h : m.Views x) {b : Register}
    {start : Int} {dst n : Nat} (hb : b ≠ .ac ∧ b ≠ .ac1 ∧ b ≠ .pc)
    (hdst : m.Targets b start dst n) (hdst_le : dst + n ≤ m.memory.size)
    (haligned : ∀ words, x.readAll (m.register .ac).toInt n = .ok words →
      ∀ src : Nat, (m.register .ac).toInt = src →
      src + n ≤ x.limit → Layout.Aligned n src dst) :
    m.Yields (Code.copyWords n start b) (x.readAll (m.register .ac).toInt n) fun words m' =>
      words.length = n ∧ (∀ k w, words[k]? = some w → m'.word (dst + k) = w) ∧
          m.Same dst (dst + n) m' := by
  have hlimit := h.limit_le
  cases hwords : x.readAll (m.register .ac).toInt n with
  | error s =>
    have hs : s = .outOfBounds := by
      unfold View.readAll at hwords
      split at hwords <;> cases hwords
      rfl
    rw [hs]
    trivial
  | ok words =>
    obtain ⟨hlength, hsees, hword⟩ := View.readAll_eq_ok hwords
    cases n with
    -- Nothing is read for no words, so nothing is known of the address.
    | zero =>
      refine ⟨m, .nil m, hlength, fun k w hk => ?_, .refl ..⟩
      rw [List.length_eq_zero_iff.mp hlength] at hk
      cases hk
    | succ n =>
      obtain ⟨hnonneg, _⟩ := hsees 0 (by omega)
      obtain ⟨_, hlt⟩ := hsees n (by omega)
      obtain ⟨src, hsrc⟩ := Int.eq_ofNat_of_zero_le (show 0 ≤ (m.register .ac).toInt by omega)
      have hac : m.register .ac = Int64.ofNat src := by
        rw [← Int64.ofInt_eq_ofNat, ← hsrc, Int64.ofInt_toInt]
      obtain ⟨m', hpass, hsame, hcopied⟩ :=
        passes_copyWords hb hac hdst (by omega) hdst_le h.size_le
        (haligned words hwords src hsrc (by omega))
      refine ⟨m', hpass, hlength, fun k w hk => ?_, hsame⟩
      have hk' := (List.getElem?_eq_some_iff.mp hk).1
      rw [hcopied k (by omega), h.word _ (by omega), hword k w hk, hsrc]
      rfl

open Machine in
/-- The value of an expression is stored, in one word or word by word. -/
theorem Machine.Views.yields_store (h : m.Views x) {e : Expr}
    {type : TypeId} (he : e.Resolved a Γ type) (hlo : x.limit ≤ lo)
    (hoffers : m.Offers 0 lo hi e.depth) {b : Register} {start : Int} {c : Code}
    (hc : Expr.StoreCode a type start b e c) (hb : b ≠ .ac ∧ b ≠ .ac1 ∧ b ≠ .pc) {dst n : Nat}
    (hn : a.types.size type = n) (hdst : m.Targets b start dst n)
    (hdst_le : dst + n ≤ m.memory.size) (haligned : ∀ r address words, e = .ref r →
      r.address a x = .ok address → e.loadAll a x type = .ok words →
      ∀ src : Nat, address.toInt = src → src + n ≤ x.limit → Layout.Aligned n src dst) :
    m.Yields c (e.loadAll a x type) fun words m' => words.length = n ∧
      (∀ k w, words[k]? = some w → m'.word (dst + k) = w) ∧ m.Writes lo dst n m' := by
  cases hc with
  | @word _ c hsize hc =>
    obtain rfl : n = 1 := by omega
    unfold Expr.loadAll
    rw [if_pos hsize]
    refine ((he.loads (d := 0) h hlo hoffers).1 c hc).bind ?_
    rintro w m₁ ⟨hac, hsame⟩
    have hlt : dst < m₁.memory.size := by rw [hsame.size]; omega
    refine ⟨_, (hdst.same hb hsame).passes_st hb.2.2 hlt, rfl, fun k u hk => ?_,
      .of_same hsame (.put (Nat.le_refl _) (by omega) ..)⟩
    cases k with
    | zero =>
      cases hk
      exact (word_put_self hlt _).trans hac
    | succ k => cases hk
  | @words r c hsize hc =>
    have hload : Expr.loadAll a x type (.ref r) = r.address a x >>= fun address =>
        x.readAll address.toInt n := by
      unfold Expr.loadAll
      rw [if_neg hsize, hn]
      rfl
    rw [hload, hn]
    refine ((he.loads (d := 0) h hlo hoffers).2 r rfl c hc).with_eq.bind ?_
    rintro address m₁ ⟨haddress, rfl, hsame⟩
    refine ((h.same hsame hlo).yields_copyWords hb (hdst.same hb hsame) (by rwa [hsame.size])
      fun words hwords =>
      haligned r _ words rfl haddress (by rw [hload, haddress]; exact hwords)).mono ?_
    rintro words m₂ ⟨hlength, hwords, hsame'⟩
    exact ⟨hlength, hwords, .of_same hsame hsame'⟩

end

end BlockLang
