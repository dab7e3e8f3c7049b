import BlockLang.Proofs.Annotated
import BlockLang.Proofs.Execution
import BlockLang.Proofs.Generation
import BlockLang.Proofs.Layouts

/-!
# Values and addresses from a source

What the code of an expression computes depends on the words that it reads and on nothing
else. A `Source` gives the words of some addresses and refuses the others; `Expr.valueIn`
and `Reference.addressIn` compute from it what the code computes, and they are undefined
where the code would read an address that is refused.

On the way temporaries are written, one for each operation whose right operand is being
computed; `Expr.depth` counts them. The code does what it should as long as the source
gives no word of theirs.

* `Machine.Yields c x P`: the code computes what `x` gives, and `P` holds then, or it
  shows why `x` gives nothing. It composes with code and with computations
  (`Machine.Yields.bind`, `Machine.Yields.append`, `Machine.Yields.before`).
* `Machine.Serves`: what the source gives stands in memory, outside of the temporaries.
  `Machine.Spares`: there are temporaries enough. One that is saved comes back as it was
  (`Machine.Spares.saves`, `Machine.Spares.restores`).
* References: `Machine.Serves.yields_addBase` adds the base of a variable, through the
  display and, for `var` parameters, through the slot. Indices are scaled in words that
  wrap around (`Machine.passes_scaleIndex`).
* `Expr.evaluates`: by induction over the expression, references and operations alike. The
  left operand of an operation is saved in a temporary while the right one is computed
  (`Machine.Serves.evaluates_binary`).
* What stops a computation in an accepted program is an address that is refused or a
  division by zero (`Expr.Resolved.readableIn`).
-/

namespace BlockLang

/-! ## Code and values -/

/-- What a stop says of the machine: a fault shows there too, and where the meaning is
undefined nothing is said. No accepted program is ill-formed. -/
def Stop.Shows (s : Stop) (P : (Nat → Fault) → Prop) : Prop :=
  match s with
  | .divisionByZero => P .divisionByZero
  | .inputExhausted => P .inputExhausted
  | .unwritten | .outOfBounds | .noWord => True
  | .illFormed => False

theorem Stop.Shows.mono {s : Stop} {P Q : (Nat → Fault) → Prop} (h : s.Shows P)
    (hPQ : ∀ f, P f → Q f) : s.Shows Q := by
  cases s with
  | divisionByZero => exact hPQ _ h
  | inputExhausted => exact hPQ _ h
  | illFormed => exact h
  | _ => trivial

namespace Machine

/-- The code computes a value, or it shows why there is none. -/
def Yields {α : Type} (m : Machine) (c : Code) (x : Except Stop α)
    (P : α → Machine → Prop) : Prop :=
  match x with
  | .ok v => ∃ m', m.Passes c m' ∧ P v m'
  | .error s => s.Shows (m.Faults c)

namespace Yields

variable {α β : Type} {m m' : Machine} {c c' : Code} {x : Except Stop α}
  {f : α → Except Stop β} {P P' : α → Machine → Prop} {Q : β → Machine → Prop}

theorem mono (h : m.Yields c x P) (hP : ∀ v m', P v m' → P' v m') : m.Yields c x P' := by
  cases x with
  | error s => exact h
  | ok v =>
    obtain ⟨m', hpass, hv⟩ := h
    exact ⟨m', hpass, hP v m' hv⟩

/-- What holds of the value may speak of the computation that gave it. -/
theorem with_eq (h : m.Yields c x P) : m.Yields c x fun v m' => x = .ok v ∧ P v m' := by
  cases x with
  | error s => exact h
  | ok v =>
    obtain ⟨m', hpass, hv⟩ := h
    exact ⟨m', hpass, rfl, hv⟩

theorem bind (h : m.Yields c x P) (hf : ∀ v m', P v m' → m'.Yields c' (f v) Q) :
    m.Yields (c ++ c') (x >>= f) Q := by
  cases x with
  | error s => exact Stop.Shows.mono h fun _ hfaults => hfaults.append
  | ok v =>
    obtain ⟨m', hpass, hv⟩ := h
    have hy := hf v m' hv
    change m.Yields (c ++ c') (f v) Q
    cases hfv : f v with
    | error s =>
      rw [hfv] at hy
      exact Stop.Shows.mono hy fun _ hfaults => hpass.faults hfaults
    | ok u =>
      rw [hfv] at hy
      obtain ⟨m'', hpass', hu⟩ := hy
      exact ⟨m'', hpass.append hpass', hu⟩

/-- The value goes on to a computation without code. -/
theorem andThen (h : m.Yields c x P) (hf : ∀ v m', P v m' → m'.Yields [] (f v) Q) :
    m.Yields c (x >>= f) Q := by
  simpa using h.bind hf

/-- The code is followed by code for the same value. -/
theorem append (h : m.Yields c x P)
    (hc : ∀ v m', P v m' → ∃ m'', m'.Passes c' m'' ∧ P' v m'') :
    m.Yields (c ++ c') x P' := by
  have hbind : m.Yields (c ++ c') (x >>= Except.ok) P' := h.bind hc
  cases x <;> exact hbind

/-- Code that computes nothing of the value. -/
theorem before (hpass : m.Passes c m') (h : m'.Yields c' x P) : m.Yields (c ++ c') x P := by
  cases x with
  | error s => exact Stop.Shows.mono h fun _ hfaults => hpass.faults hfaults
  | ok v =>
    obtain ⟨m'', hpass', hv⟩ := h
    exact ⟨m'', hpass.append hpass', hv⟩

/-- Where the code stands, the machine runs to its end, or it shows why there is no value. -/
theorem reaches (h : m.Yields c x P) (hm : Code.Addressable m.code)
    {base : Nat} (hat : Code.At m.code base c) :
    (∃ s, x = .error s ∧ s.Shows fun f => ∃ n m' pc, Reaches (m.goto base) n m' ∧
      m'.Ends (.error (f pc))) ∨
      ∃ v m' n, x = .ok v ∧ P v m' ∧ Reaches (m.goto base) n (m'.goto (base + c.length)) := by
  cases x with
  | error s => exact .inl ⟨s, rfl, Stop.Shows.mono h fun _ hfaults => hfaults base hm hat⟩
  | ok v =>
    obtain ⟨m', hpass, hv⟩ := h
    obtain ⟨n, hreaches⟩ := hpass.2 base hm hat
    exact .inr ⟨v, m', n, rfl, hv, hreaches⟩

end Yields

end Machine

/-! ## Fixed sequences -/

namespace Machine

/-- An operation on `ac1` and `ac`. -/
theorem yields_operate (m : Machine) (op : BinaryOp) (lo hi : Nat) :
    m.Yields (Code.operate op) (op.apply (m.register .ac1) (m.register .ac))
      fun w m' => m'.register .ac = w ∧ m.Same lo hi m' := by
  have hset : ∀ w, (m.setRegister .ac w).register .ac = w ∧
      m.Same lo hi (m.setRegister .ac w) :=
    fun w => ⟨register_setRegister_self .., .setRegister (.inl rfl) m w lo hi⟩
  cases op with
  | add => exact ⟨_, passes_arithmetic m rfl (by decide) (by decide) (by decide), hset _⟩
  | sub => exact ⟨_, passes_arithmetic m rfl (by decide) (by decide) (by decide), hset _⟩
  | mul => exact ⟨_, passes_arithmetic m rfl (by decide) (by decide) (by decide), hset _⟩
  | div =>
    by_cases h : m.register .ac = 0
    · rw [show BinaryOp.apply .div (m.register .ac1) (m.register .ac) = _ from if_pos h]
      exact (fails_div (by decide) h).faults
    · rw [show BinaryOp.apply .div (m.register .ac1) (m.register .ac) = _ from if_neg h]
      exact ⟨_, passes_div (by decide) (by decide) (by decide) h, hset _⟩
  | less => exact ⟨_, passes_compare jumpsIf_jlt m, hset _⟩
  | equal =>
    refine ⟨_, passes_compare jumpsIf_jeq m, ?_⟩
    have hiff : m.register .ac1 - m.register .ac = 0 ↔ m.register .ac1 = m.register .ac := by
      grind
    simp only [hiff]
    exact hset _

/-- An index becomes a relative address. -/
theorem passes_scaleIndex (m : Machine) (low : Word) (size k : Int) (lo hi : Nat) :
    ∃ m', m.Passes (Code.scaleIndex low size k) m' ∧
      m'.register .ac = Int64.ofInt k + (m.register .ac - low) * Int64.ofInt size ∧
      m.Same lo hi m' := by
  have hvalue : Int64.ofInt k + (m.register .ac - low) * Int64.ofInt size =
      Int64.ofInt k + (-low + m.register .ac) * Int64.ofInt size := by grind
  let m₁ := m.setRegister .ac (-low + m.register .ac)
  have h₁ : m.Passes [.memory .lda .ac (-low) .ac] m₁ :=
    passes_lda m (by decide) (by decide) _
  have hsame₁ : m.Same lo hi m₁ := .setRegister (.inl rfl) ..
  by_cases hsize : size = 1
  · subst hsize
    have h₂ : m₁.Passes [.memory .lda .ac (Int64.ofInt k) .ac]
        (m₁.setRegister .ac (Int64.ofInt k + m₁.register .ac)) :=
      passes_lda m₁ (by decide) (by decide) _
    refine ⟨_, h₁.append h₂, ?_, hsame₁.trans (.setRegister (.inl rfl) ..)⟩
    rw [hvalue, register_setRegister_self, register_setRegister_self]
    exact congrArg (Int64.ofInt k + ·) (Int64.mul_one _).symm
  · let m₂ := m₁.setRegister .ac1 (Int64.ofInt size)
    let m₃ := m₂.setRegister .ac (m₂.register .ac * m₂.register .ac1)
    have h₂ : m₁.Passes [.memory .ldc .ac1 (Int64.ofInt size) .ac] m₂ :=
      passes_ldc m₁ (by decide) _ _
    have h₃ : m₂.Passes [.register .mul .ac .ac .ac1] m₃ :=
      passes_arithmetic m₂ (f := (· * ·)) rfl (by decide) (by decide) (by decide)
    have h₄ : m₃.Passes [.memory .lda .ac (Int64.ofInt k) .ac]
        (m₃.setRegister .ac (Int64.ofInt k + m₃.register .ac)) :=
      passes_lda m₃ (by decide) (by decide) _
    have hcode : Code.scaleIndex low size k = [.memory .lda .ac (-low) .ac] ++
        ([.memory .ldc .ac1 (Int64.ofInt size) .ac] ++ ([.register .mul .ac .ac .ac1] ++
          [.memory .lda .ac (Int64.ofInt k) .ac])) := by
      simp [Code.scaleIndex, hsize]
    have hsame₃ : m.Same lo hi m₃ :=
      (hsame₁.trans (.setRegister (.inr rfl) ..)).trans (.setRegister (.inl rfl) ..)
    refine ⟨_, hcode ▸ h₁.append (h₂.append (h₃.append h₄)), ?_,
      hsame₃.trans (.setRegister (.inl rfl) ..)⟩
    rw [hvalue, register_setRegister_self]
    rfl

end Machine

/-! ## Sources -/

/-- What can be read: the words at some addresses, and where the display begins. -/
structure Source where
  read : Int → Except Stop Word
  display : Int

/-- Where the storage of a variable starts: at its slot in the frame of its level, or where
the slot says. -/
def Source.start (x : Source) (v : Variable) : Except Stop Word := do
  let frame ← x.read (x.display + v.level)
  match v.access with
  | .direct => return frame + Int64.ofInt v.offset
  | .indirect => x.read (frame.toInt + (Int64.ofInt v.offset).toInt)

namespace Analysis

/-- The distance of an element from the start of its array. -/
def elementDistance (a : Analysis) (type : TypeId) (i : Word) : Except Stop Word :=
  match a.types.get? type with
  | some (.array element low _ _) => .ok ((i - low) * Int64.ofInt (a.types.size element))
  | _ => .error .illFormed

/-- The field of a name in a record. -/
def fieldNamed (a : Analysis) (type : TypeId) (name : String) : Except Stop Field :=
  match a.types.get? type with
  | some (.record fields _) =>
    match fields.find? (·.name == name) with
    | some f => .ok f
    | none => .error .illFormed
  | _ => .error .illFormed

end Analysis

mutual

/-- The value of an expression, of which a variable gives its first word. -/
def Expr.valueIn (a : Analysis) (x : Source) : Expr → Except Stop Word
  | .const _ value _ => .ok value
  | .ref r => do x.read (← Reference.addressIn a x r).toInt
  | .binary _ op left right _ => do
    let u ← Expr.valueIn a x left
    let v ← Expr.valueIn a x right
    op.apply u v

/-- The address of what a reference denotes. -/
def Reference.addressIn (a : Analysis) (x : Source) : Reference Expr → Except Stop Word
  | ⟨node, _, selector, _⟩ =>
    match (a.annotations.symbol? node).bind a.symbols.variableAt? with
    | some v => do
      let distance ← Selector.distanceIn a x v.type selector
      return (← x.start v) + distance
    | none => .error .illFormed

/-- The distance of the part that a selector selects from the start of a variable of the given
type. -/
def Selector.distanceIn (a : Analysis) (x : Source) (type : TypeId) :
    Selector Expr → Except Stop Word
  | .whole => .ok 0
  | .element index => do a.elementDistance type (← Expr.valueIn a x index)
  | .field field => do return Int64.ofInt (← a.fieldNamed type field.name).offset
  | .fieldElement field index => do
    let i ← Expr.valueIn a x index
    let f ← a.fieldNamed type field.name
    return Int64.ofInt f.offset + (← a.elementDistance f.type i)

end

/-! ## What stops a computation -/

/-- Nothing stops the computation but an address out of sight or a division by zero. -/
def Readable {α : Type} (x : Except Stop α) : Prop :=
  ∀ s, x = .error s → s = .outOfBounds ∨ s = .divisionByZero

namespace Readable

variable {α β : Type}

theorem ok (v : α) : Readable (.ok v) := nofun

theorem error {s : Stop} (h : s = .outOfBounds ∨ s = .divisionByZero) :
    Readable (.error s : Except Stop α) := by
  intro s' hs
  cases hs
  exact h

theorem bind {x : Except Stop α} {f : α → Except Stop β}
    (h : Readable x) (hf : ∀ v, Readable (f v)) :
    Readable (x >>= f) := by
  cases x with
  | ok v => exact hf v
  | error s => exact .error (h s rfl)

theorem ite {P : Prop} [Decidable P] {x : Except Stop α} (h : Readable x) :
    Readable (if P then x else .error .outOfBounds) := by
  split
  · exact h
  · exact .error (.inl rfl)

/-- The start of a variable is found by reading. -/
theorem start {x : Source} (hx : ∀ address, Readable (x.read address)) (v : Variable) :
    Readable (x.start v) := by
  refine (hx _).bind fun frame => ?_
  cases v.access with
  | direct => exact .ok _
  | indirect => exact hx _

/-- An operation is stopped by a division only. -/
theorem apply (op : BinaryOp) (u v : Word) : Readable (op.apply u v) := by
  cases op with
  | div =>
    change Readable (if v = 0 then .error .divisionByZero else .ok (u / v))
    split
    · exact .error (.inr rfl)
    · exact .ok _
  | _ => exact .ok _

end Readable

/-- What the source gives stands in memory, outside of the words from `lo` up to `hi`. -/
structure Machine.Serves (m : Machine) (x : Source) (lo hi : Nat) : Prop where
  word : ∀ {address w}, x.read address = .ok w →
    ∃ i : Nat, address = i ∧ i < m.memory.size ∧ (i < lo ∨ hi ≤ i) ∧ m.word i = w
  refused : ∀ {address s}, x.read address = .error s → s = .outOfBounds
  displayOff : ∀ {level : Nat} {w}, x.read (x.display + level) = .ok w →
    (m.register .displayOff).toInt = x.display

/-- There are `n` words for temporaries, from `hi` downwards but not below `lo`, where `t`
counts those in use. -/
def Machine.Spares (t : Int) (lo hi n : Nat) (m : Machine) : Prop :=
  n = 0 ∨ (m.register .mp).toInt + t = hi ∧ hi ≤ m.memory.size ∧ lo + n ≤ hi

/-- The level of a variable in scope is a word if its frame can be found. -/
def Analysis.Levelled (a : Analysis) (Γ : Names) (x : Source) : Prop :=
  ∀ {node name v w}, a.Refers Γ node name v → x.read (x.display + v.level) = .ok w →
    (v.level : Int) ≤ Word.greatest

/-- The variable that the node of a reference is annotated with. -/
def Analysis.variableFor? (a : Analysis) (node : NodeId) : Option Variable :=
  (a.annotations.symbol? node).bind a.symbols.variableAt?

/-- The level of a variable that an expression refers to is a word if its frame can be
found. -/
def Expr.Levelled (a : Analysis) (x : Source) (e : Expr) : Prop :=
  ∀ {r v w}, .ref r ∈ e.parts → a.variableFor? r.node = some v →
    x.read (x.display + v.level) = .ok w → (v.level : Int) ≤ Word.greatest

section

variable {a : Analysis} {Γ : Names} {x : Source} {m m' : Machine} {t : Int} {lo hi n : Nat}

theorem Machine.Spares.mono {n' : Nat} (h : m.Spares t lo hi n) (hn : n' ≤ n) :
    m.Spares t lo hi n' := by
  rcases h with h | ⟨hmp, hhi, hle⟩
  · exact .inl (by omega)
  · exact .inr ⟨hmp, hhi, by omega⟩

/-- The offset of a temporary is a word since `mp` is one and the temporary lies in memory. -/
theorem Machine.Spares.temporary (h : m.Spares t lo hi (n + 1))
    (ht : t ≤ 0) (hsame : m.Same lo hi m') :
    (Int64.ofInt (t - 1)).toInt + (m'.register .mp).toInt = (hi - 1 : Nat) := by
  obtain ⟨hmp, hhi, hle⟩ := h.resolve_left (Nat.succ_ne_zero n)
  have hlt := (m.register .mp).toInt_lt
  have hfits : Word.Fits (t - 1) := by
    unfold Word.Fits Word.least Word.greatest
    omega
  rw [hsame.register .mp (by decide) (by decide) (by decide), toInt_ofInt hfits]
  omega

/-- What is in `ac` waits in the word below `hi`. -/
theorem Machine.Spares.saves {m₁ : Machine} (h : m.Spares t lo hi (n + 1))
    (ht : t ≤ 0) (hsame : m.Same lo hi m₁) :
    ∃ m₂, m₁.Passes [.memory .st .ac (Int64.ofInt (t - 1)) .mp] m₂ ∧ m.Same lo hi m₂ ∧
      m₂.Spares (t - 1) lo (hi - 1) n ∧ m₂.word (hi - 1) = m₁.register .ac := by
  obtain ⟨hmp, hhi, hle⟩ := h.resolve_left (Nat.succ_ne_zero n)
  have hsize := hsame.size
  have hsame₂ : m.Same lo hi (m₁.put (hi - 1) (m₁.register .ac)) :=
    hsame.trans (.put (by omega) (by omega) ..)
  have hsize₂ := hsame₂.size
  refine ⟨_, passes_st (by decide) (by decide) (h.temporary ht hsame) (by omega), hsame₂,
    .inr ⟨?_, by omega, by omega⟩, word_put_self (by omega) _⟩
  rw [hsame₂.register .mp (by decide) (by decide) (by decide)]
  omega

/-- It comes back to `ac1` when the words below it have been used. -/
theorem Machine.Spares.restores {m₂ m₃ : Machine} {w : Word}
    (h : m.Spares t lo hi (n + 1)) (ht : t ≤ 0) (hsame : m.Same lo hi m₂)
    (hsame' : m₂.Same lo (hi - 1) m₃) (hword : m₂.word (hi - 1) = w) :
    m₃.Passes [.memory .ld .ac1 (Int64.ofInt (t - 1)) .mp] (m₃.setRegister .ac1 w) ∧
      m.Same lo hi (m₃.setRegister .ac1 w) := by
  obtain ⟨hmp, hhi, hle⟩ := h.resolve_left (Nat.succ_ne_zero n)
  have hsame₃ : m.Same lo hi m₃ := hsame.trans (hsame'.mono (Nat.le_refl _) (by omega))
  have hsize := hsame₃.size
  rw [← hword, ← hsame'.word _ (by omega)]
  exact ⟨passes_ld (by decide) (by decide) (h.temporary ht hsame₃) (by omega),
    hsame₃.trans (.setRegister (.inr rfl) ..)⟩

namespace Machine.Serves

/-- What the source gives still stands while temporaries change. -/
theorem same (h : m.Serves x lo hi) (hsame : m.Same lo hi m') : m'.Serves x lo hi where
  word hread := by
    obtain ⟨i, haddress, hlt, hout, hword⟩ := h.word hread
    exact ⟨i, haddress, hsame.size ▸ hlt, hout, (hsame.word i hout).trans hword⟩
  refused := h.refused
  displayOff hread := by
    rw [hsame.register .displayOff (by decide) (by decide) (by decide)]
    exact h.displayOff hread

/-- A source that avoids some words avoids fewer. -/
theorem mono (h : m.Serves x lo hi) {hi' : Nat} (hhi : hi' ≤ hi) : m.Serves x lo hi' where
  word hread := by
    obtain ⟨i, haddress, hlt, hout, hword⟩ := h.word hread
    exact ⟨i, haddress, hlt, by omega, hword⟩
  refused := h.refused
  displayOff := h.displayOff

/-- A load gives what the source gives. -/
theorem yields_read (h : m.Serves x lo hi) {r b : Register}
    {offset : Word} {address : Int} (hr : r ≠ .pc) (hb : b ≠ .pc)
    (haddress : ∀ w, x.read address = .ok w → offset.toInt + (m.register b).toInt = address) :
    m.Yields [.memory .ld r offset b] (x.read address) fun w m' =>
    m' = m.setRegister r w := by
  cases hread : x.read address with
  | error s =>
    rw [h.refused hread]
    trivial
  | ok w =>
    obtain ⟨i, rfl, hlt, -, rfl⟩ := h.word hread
    exact ⟨_, passes_ld hr hb (haddress _ hread) hlt, rfl⟩

/-- The start of a variable is added to what is in `ac`. -/
theorem yields_addBase (h : m.Serves x lo hi) {v : Variable}
    (hlevel : ∀ w, x.read (x.display + v.level) = .ok w → (v.level : Int) ≤ Word.greatest)
    {w : Word} (hac : m.register .ac = Int64.ofInt (v.constantPart 0) + w) :
    m.Yields (Code.addBase v) (x.start v) fun start m' => m'.register .ac = start + w ∧
    m.Same lo hi m' := by
  have hframe : m.Yields [.memory .ld .ac1 (Int64.ofNat v.level) .displayOff]
      (x.read (x.display + v.level)) fun w m' => m' = m.setRegister .ac1 w :=
    h.yields_read (by decide) (by decide) fun w hread => by
      rw [h.displayOff hread, toInt_ofNat (hlevel w hread), Int.add_comm]
  have hadd : ∀ m₂ : Machine, m₂.Passes [.register .add .ac .ac .ac1]
      (m₂.setRegister .ac (m₂.register .ac + m₂.register .ac1)) :=
    fun m₂ => passes_arithmetic m₂ (f := (· + ·)) rfl (by decide) (by decide) (by decide)
  unfold Variable.constantPart at hac
  unfold Source.start
  -- A variable stands at an offset from its frame. A `var` parameter has its address there
  -- instead, which is one more load.
  cases haccess : v.access with
  | direct =>
    rw [haccess] at hac
    have hcode : Code.addBase v = [.memory .ld .ac1 (Int64.ofNat v.level) .displayOff] ++
        [.register .add .ac .ac .ac1] := by simp [Code.addBase, haccess]
    rw [hcode]
    refine hframe.bind ?_
    rintro frame m₁ rfl
    refine ⟨_, hadd _, ?_,
      (Same.setRegister (.inr rfl) m frame lo hi).trans (.setRegister (.inl rfl) ..)⟩
    rw [register_setRegister_self, register_setRegister_self,
      register_setRegister_of_ne m (by decide), hac]
    dsimp only
    rw [Int.add_zero]
    grind
  | indirect =>
    rw [haccess] at hac
    have hcode : Code.addBase v = [.memory .ld .ac1 (Int64.ofNat v.level) .displayOff] ++
        ([.memory .ld .ac1 (Int64.ofInt v.offset) .ac1] ++
        [.register .add .ac .ac .ac1]) := by
      simp [Code.addBase, haccess]
    rw [hcode]
    refine hframe.bind ?_
    rintro frame m₁ rfl
    have hsame₁ : m.Same lo hi (m.setRegister .ac1 frame) := .setRegister (.inr rfl) ..
    have hslot :
        (m.setRegister .ac1 frame).Yields [.memory .ld .ac1 (Int64.ofInt v.offset) .ac1]
        (x.read (frame.toInt + (Int64.ofInt v.offset).toInt)) fun w m' =>
        m' = (m.setRegister .ac1 frame).setRegister .ac1 w :=
      (h.same hsame₁).yields_read (by decide) (by decide) fun _ _ => by
        rw [register_setRegister_self, Int.add_comm]
    refine hslot.append ?_
    rintro start m₂ rfl
    refine ⟨_, hadd _, ?_, ?_⟩
    · rw [register_setRegister_self, register_setRegister_self,
        register_setRegister_of_ne _ (by decide),
        register_setRegister_of_ne m (by decide), hac]
      dsimp only
      rw [show Int64.ofInt 0 = 0 from rfl]
      grind
    · exact (hsame₁.trans (.setRegister (.inr rfl) ..)).trans (.setRegister (.inl rfl) ..)

end Machine.Serves

/-! ## References -/

theorem Analysis.variableFor?_eq_some {node : NodeId} {id : SymbolId} {v : Variable}
    (hid : a.annotations.symbol? node = some id) (hv : a.symbols.variableAt? id = some v) :
    a.variableFor? node = some v := by
  rw [Analysis.variableFor?, hid, Option.bind_some, hv]

theorem Analysis.Refers.variableFor?_eq {node : NodeId}
    {name : Ident} {v : Variable} (h : a.Refers Γ node name v) :
    a.variableFor? node = some v := by
  obtain ⟨id, _, hv, hnode⟩ := h
  exact Analysis.variableFor?_eq_some hnode hv

/-- The address of a reference to a known variable. -/
theorem Reference.addressIn_eq {node : NodeId} {v : Variable}
    (h : a.variableFor? node = some v) (x : Source)
    (name : Ident) (selector : Selector Expr) (span : Span) :
    Reference.addressIn a x ⟨node, name, selector, span⟩ =
      Selector.distanceIn a x v.type selector >>= fun distance => x.start v >>= fun start =>
      pure (start + distance) := by
  unfold Analysis.variableFor? at h
  rw [Reference.addressIn, h]

/-- The distance of an element of a known array. -/
theorem Analysis.elementDistance_eq {type element : TypeId} {low high : Word} {size : Int}
    (hget : a.types.get? type = some (.array element low high size)) (i : Word) :
    a.elementDistance type i = .ok ((i - low) * Int64.ofInt (a.types.size element)) := by
  simp only [elementDistance, hget]

theorem Analysis.fieldNamed_eq {type : TypeId} {fields : List Field} {size : Int} {f : Field}
    {name : String} (hget : a.types.get? type = some (.record fields size))
    (hf : fields.find? (·.name == name) = some f) :
    a.fieldNamed type name = .ok f := by
  simp only [fieldNamed, hget, hf]

theorem Analysis.Refers.readableIn {node : NodeId}
    {name : Ident} {v : Variable} (h : a.Refers Γ node name v)
    (hx : ∀ address, Readable (x.read address)) {selector : Selector Expr} {span : Span}
    (hselector : Readable (Selector.distanceIn a x v.type selector)) :
    Readable (Reference.addressIn a x ⟨node, name, selector, span⟩) := by
  rw [Reference.addressIn_eq h.variableFor?_eq]
  exact hselector.bind fun _ => (Readable.start hx v).bind fun _ => .ok _

/-- A resolved expression is stopped by an address or a division only. -/
theorem Expr.Resolved.readableIn {e : Expr} {type : TypeId} (he : e.Resolved a Γ type)
    (hx : ∀ address, Readable (x.read address)) :
    Readable (e.valueIn a x) ∧ ∀ r, e = .ref r → Readable (r.addressIn a x) := by
  have href : ∀ {r : VarRef}, Readable (r.addressIn a x) →
      Readable (Expr.valueIn a x (.ref r)) ∧ ∀ r', Expr.ref r = .ref r' →
      Readable (r'.addressIn a x) := by
    intro r hr
    rw [Expr.valueIn]
    exact ⟨hr.bind fun _ => hx _, fun r' heq => by cases heq; exact hr⟩
  induction he with
  | const => exact ⟨.ok _, fun r heq => by cases heq⟩
  | whole hrefers => exact href (hrefers.readableIn hx (.ok _))
  | element hrefers hget _ _ ih =>
    refine href (hrefers.readableIn hx ?_)
    rw [Selector.distanceIn]
    refine ih.1.bind fun i => ?_
    rw [Analysis.elementDistance_eq hget]
    exact .ok _
  | field hrefers hget hf _ =>
    refine href (hrefers.readableIn hx ?_)
    rw [Selector.distanceIn, Analysis.fieldNamed_eq hget hf]
    exact .ok _
  | fieldElement hrefers hget hf harray _ _ ih =>
    refine href (hrefers.readableIn hx ?_)
    rw [Selector.distanceIn]
    refine ih.1.bind fun i => ?_
    rw [Analysis.fieldNamed_eq hget hf]
    change Readable (a.elementDistance _ i >>= _)
    rw [Analysis.elementDistance_eq harray]
    exact .ok _
  | binary _ _ _ _ ihl ihr =>
    rw [Expr.valueIn]
    exact ⟨ihl.1.bind fun u => ihr.1.bind fun v => .apply _ u v, fun r heq => by cases heq⟩

/-- The constant part of an address is a sum of words. -/
theorem Variable.constantPart_eq (v : Variable) (k : Int) :
    Int64.ofInt (v.constantPart k) = Int64.ofInt (v.constantPart 0) + Int64.ofInt k := by
  rw [← Int64.ofInt_add]
  unfold Variable.constantPart
  split <;> simp

/-- `m` computes the value of an expression, where `t` counts the temporaries in use. -/
def Machine.Evaluates (a : Analysis) (x : Source) (t : Int) (lo hi : Nat) (m : Machine)
    (e : Expr) : Prop :=
  ∀ c, e.code a t = .ok c → m.Yields c (e.valueIn a x) fun w m' => m'.register .ac = w ∧
    m.Same lo hi m'

/-- `m` computes the address of what a reference denotes, where `t` counts the temporaries in
use. -/
def Machine.Addresses (a : Analysis) (x : Source) (t : Int) (lo hi : Nat) (m : Machine)
    (r : VarRef) : Prop :=
  ∀ c, r.code a t = .ok c → m.Yields c (r.addressIn a x) fun w m' => m'.register .ac = w ∧
    m.Same lo hi m'

namespace Machine.Serves

/-- The code of a reference gives its address if that of the selector gives the distance. -/
theorem addresses (h : m.Serves x lo hi) {node : NodeId}
    {name : Ident} {selector : Selector Expr} {span : Span}
    (hlevel : ∀ {v w}, a.variableFor? node = some v → x.read (x.display + v.level) = .ok w →
      (v.level : Int) ≤ Word.greatest)
    (hselector : ∀ {v c}, Selector.code a t v name span selector = .ok c →
      m.Yields c (Selector.distanceIn a x v.type selector)
        fun w m' => m'.register .ac = Int64.ofInt (v.constantPart 0) + w ∧ m.Same lo hi m') :
    m.Addresses a x t lo hi ⟨node, name, selector, span⟩ := by
  intro c hc
  obtain ⟨_, v, c', hid, hv, hc', rfl⟩ := Reference.code_eq_ok hc
  have hfor := Analysis.variableFor?_eq_some hid hv
  rw [Reference.addressIn_eq hfor]
  refine (hselector hc').bind ?_
  rintro w m₁ ⟨hac, hsame⟩
  refine ((h.same hsame).yields_addBase (fun _ => hlevel hfor) hac).andThen ?_
  rintro start m₂ ⟨hac', hsame'⟩
  exact ⟨m₂, .nil m₂, hac', hsame.trans hsame'⟩

/-- The first word is loaded from its address. -/
theorem evaluates_of_addresses (h : m.Serves x lo hi)
    {r : VarRef} (hr : m.Addresses a x t lo hi r) :
    m.Evaluates a x t lo hi (.ref r) := by
  intro c hc
  obtain ⟨address, haddress, rfl⟩ := Expr.code_ref_eq_ok hc
  rw [Expr.valueIn]
  refine (hr address haddress).bind ?_
  rintro w m₁ ⟨hac, hsame⟩
  refine ((h.same hsame).yields_read (by decide) (by decide) fun _ _ => ?_).mono ?_
  · rw [hac]
    exact Int.zero_add _
  · rintro u m₂ rfl
    exact ⟨register_setRegister_self .., hsame.trans (.setRegister (.inl rfl) ..)⟩

/-- A reference gives both its address and the word there. -/
theorem computes_ref (h : m.Serves x lo hi) {r : VarRef} (hr : m.Addresses a x t lo hi r) :
    m.Evaluates a x t lo hi (.ref r) ∧ ∀ r', Expr.ref r = .ref r' →
    m.Addresses a x t lo hi r' := by
  refine ⟨h.evaluates_of_addresses hr, ?_⟩
  intro r' heq
  cases heq
  exact hr

/-- The left operand waits in the word below `hi` while the right one is computed below it. -/
theorem evaluates_binary (h : m.Serves x lo hi) {node : NodeId}
    {op : BinaryOp} {left right : Expr} {span : Span}
    (ht : t ≤ 0) (hspares : m.Spares t lo hi (Expr.binary node op left right span).depth)
    (hleft : m.Evaluates a x t lo hi left) (hright : ∀ m' : Machine, m'.Serves x lo (hi - 1) →
      m'.Spares (t - 1) lo (hi - 1) right.depth →
      m'.Evaluates a x (t - 1) lo (hi - 1) right) :
    m.Evaluates a x t lo hi (.binary node op left right span) := by
  intro c hc
  obtain ⟨cl, cr, hcl, hcr, rfl⟩ := Expr.code_binary_eq_ok hc
  have hspares : m.Spares t lo hi (right.depth + 1) := hspares.mono (Nat.le_max_right ..)
  rw [Expr.valueIn, List.append_assoc, List.cons_append, ← List.singleton_append,
    ← List.singleton_append (l := Code.operate op)]
  refine (hleft cl hcl).bind ?_
  rintro u m₁ ⟨rfl, hsame₁⟩
  obtain ⟨m₂, hsave, hsame₂, hspares₂, hword₂⟩ := hspares.saves ht hsame₁
  refine Yields.before hsave ?_
  refine (hright _ ((h.same hsame₂).mono (Nat.sub_le ..)) hspares₂ cr hcr).bind ?_
  rintro v m₃ ⟨rfl, hsame₃⟩
  obtain ⟨hload, hsame₄⟩ := hspares.restores ht hsame₂ hsame₃ hword₂
  refine Yields.before hload ?_
  refine (yields_operate (m₃.setRegister .ac1 (m₁.register .ac)) op lo hi).mono ?_
  rintro w m₄ ⟨hw, hsame₅⟩
  exact ⟨hw, hsame₄.trans hsame₅⟩

end Machine.Serves

/-- An index in `ac` becomes a distance. -/
theorem Machine.yields_elementDistance {type element : TypeId} {low high : Word} {size : Int}
    (hget : a.types.get? type = some (.array element low high size))
    (m : Machine) (k : Int) (lo hi : Nat) :
    m.Yields (Code.scaleIndex low (a.types.size element) k)
    (a.elementDistance type (m.register .ac))
      fun w m' => m'.register .ac = Int64.ofInt k + w ∧ m.Same lo hi m' := by
  rw [Analysis.elementDistance_eq hget]
  exact m.passes_scaleIndex low (a.types.size element) k lo hi

/-! ## Expressions -/

open Machine in
/-- The code of an expression computes its value, and that of a reference its address. -/
theorem Expr.evaluates {e : Expr} (hlevels : e.Levelled a x) :
    ∀ {t : Int} {hi : Nat} {m : Machine}, t ≤ 0 → m.Serves x lo hi →
    m.Spares t lo hi e.depth →
      m.Evaluates a x t lo hi e ∧ ∀ r, e = .ref r → m.Addresses a x t lo hi r := by
  -- A reference is an expression, too, and its index is one: the induction carries the
  -- statement about addresses along.
  induction e with
  | const node value span =>
    intro t hi m _ _ _
    refine ⟨fun c hc => ?_, nofun⟩
    cases hc
    exact ⟨_, passes_ldc m (by decide) _ _, register_setRegister_self ..,
      .setRegister (.inl rfl) ..⟩
  | whole node name span =>
    intro t hi m _ h _
    refine h.computes_ref (h.addresses (hlevels List.mem_cons_self) fun hc => ?_)
    cases hc
    refine ⟨_, passes_ldc m (by decide) _ _, ?_, .setRegister (.inl rfl) ..⟩
    rw [register_setRegister_self, Int64.add_zero]
  | element node name index span ih =>
    intro t hi m ht h hspares
    refine h.computes_ref (h.addresses (hlevels List.mem_cons_self) fun hc => ?_)
    obtain ⟨element, low, high, size, ci, hget, hci, rfl⟩ := Selector.code_element_eq_ok hc
    rw [Selector.distanceIn]
    refine ((ih (fun hr => hlevels (List.mem_cons_of_mem _ hr)) ht h hspares).1 ci
      hci).bind ?_
    rintro i m₁ ⟨rfl, hsame⟩
    refine (m₁.yields_elementDistance hget _ lo hi).mono ?_
    rintro w m₂ ⟨hac, hsame'⟩
    exact ⟨hac, hsame.trans hsame'⟩
  | field node name field span =>
    intro t hi m _ h _
    refine h.computes_ref (h.addresses (hlevels List.mem_cons_self) fun hc => ?_)
    obtain ⟨fields, size, f, hget, hf, rfl⟩ := Selector.code_field_eq_ok hc
    rw [Selector.distanceIn, Analysis.fieldNamed_eq hget hf]
    refine ⟨_, passes_ldc m (by decide) _ _, ?_, .setRegister (.inl rfl) ..⟩
    rw [register_setRegister_self, Variable.constantPart_eq]
  | fieldElement node name field index span ih =>
    intro t hi m ht h hspares
    refine h.computes_ref (h.addresses (hlevels List.mem_cons_self) fun hc => ?_)
    obtain ⟨fields, size, f, element, low, high, length, ci, hget, hf, harray, hci, rfl⟩ :=
      Selector.code_fieldElement_eq_ok hc
    rw [Selector.distanceIn]
    refine ((ih (fun hr => hlevels (List.mem_cons_of_mem _ hr)) ht h hspares).1 ci
      hci).bind ?_
    rintro i m₁ ⟨rfl, hsame⟩
    rw [Analysis.fieldNamed_eq hget hf]
    refine (m₁.yields_elementDistance harray _ lo hi).andThen ?_
    rintro w m₂ ⟨hac, hsame'⟩
    refine ⟨m₂, .nil m₂, ?_, hsame.trans hsame'⟩
    -- The offset of the field is part of the constant, to which the distance is added.
    rw [hac, Variable.constantPart_eq, Int64.add_assoc]
  | binary node op left right span ihl ihr =>
    intro t hi m ht h hspares
    have hl : left.Levelled a x :=
      fun hr => hlevels (List.mem_cons_of_mem _ (List.mem_append_left _ hr))
    have hr : right.Levelled a x :=
      fun hr => hlevels (List.mem_cons_of_mem _ (List.mem_append_right _ hr))
    have hleft := (ihl hl ht h (hspares.mono (Nat.le_max_left ..))).1
    exact ⟨h.evaluates_binary ht hspares hleft fun m' h' hspares' =>
      (ihr hr (by omega) h' hspares').1, nofun⟩

/-- The variables that a resolved expression refers to are in scope. -/
theorem Expr.Resolved.levelled {e : Expr} {type : TypeId}
    (he : e.Resolved a Γ type) (hlevels : a.Levelled Γ x) :
    e.Levelled a x := by
  intro r v w hr hv hread
  obtain ⟨_, href⟩ := he.parts _ hr
  cases href with
  | whole hrefers | element hrefers | field hrefers | fieldElement hrefers =>
    cases hv.symm.trans hrefers.variableFor?_eq
    exact hlevels hrefers hread

/-- The code of a resolved expression computes its value. -/
theorem Expr.Resolved.evaluates {e : Expr} {type : TypeId}
    (he : e.Resolved a Γ type) (hlevels : a.Levelled Γ x) :
    ∀ {t : Int} {hi : Nat} {m : Machine}, t ≤ 0 → m.Serves x lo hi →
    m.Spares t lo hi e.depth →
      m.Evaluates a x t lo hi e ∧ ∀ r, e = .ref r → m.Addresses a x t lo hi r :=
  Expr.evaluates (he.levelled hlevels)

end

end BlockLang
