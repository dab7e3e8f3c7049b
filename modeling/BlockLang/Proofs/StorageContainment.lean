import BlockLang.Proofs.AggregateCopies
import BlockLang.Proofs.Interruptions

/-!
# Accesses stay in storage

A reference denotes the words of a variable, of a field or of an element. The code
computes their address first, and only then it loads or stores the value. What it touches
there is looked at here: words of the reference, and no others.

Copies go by the size of the type. The load of a value and `read` do not: they touch one
word. So a reference to a record without fields has no word that could be touched, and yet
its code touches the word behind it: `Program.hollow_reads_outside` has such a program.

`Program.accesses_contained` is the theorem.

* An `Extent` is a stretch of words, and `Machine.Denotes` says that a reference denotes
  one: the exact address of the part in storage, as data memory gives it, with the size of
  its type. The word that the code leaves in `ac` is this address
  (`Machine.Denotes.address`).
* `Machine.Accesses`: code `pre` computes addresses and changes nothing outside the
  temporaries; the code behind it touches words of the source with loads and words of the
  target with stores. `Machine.Passes.accesses_ld` and `Machine.Passes.accesses_st` are
  single accesses, `Machine.CopiesAfter.accesses` is a copy.
* `Machine.loadsInside`, `Machine.readsInside`, `Machine.assignsInside` and
  `Machine.passesInside` are the four uses of a reference. Where an operand divides by
  zero the machine comes to the fault without having touched anything else
  (`Machine.Breaks.comesToFault`).
-/

namespace BlockLang

/-- Words that stand one behind the other. -/
structure Extent where
  address : Int
  size : Int

namespace Extent

def Has (s : Extent) (i : Int) : Prop := s.address ≤ i ∧ i < s.address + s.size

instance (s : Extent) (i : Int) : Decidable (s.Has i) :=
  inferInstanceAs (Decidable (s.address ≤ i ∧ i < s.address + s.size))

def empty : Extent := ⟨0, 0⟩

/-- Where there is no word, the address does not matter. -/
theorem has_of_address {s : Extent} {w : Word} {n : Nat} (hn : s.size = n)
    (hw : s.size ≠ 0 → w.toInt = s.address) (i : Int) (h : Has ⟨w.toInt, n⟩ i) : s.Has i := by
  unfold Has at *
  dsimp only at h
  have hsize : s.size ≠ 0 := by omega
  rw [← hw hsize]
  omega

end Extent

/-- A word of `source` is loaded or a word of `target` is stored. -/
def Touch.Within (source target : Extent) (x : Touch) : Prop :=
  (x.op = .ld ∧ source.Has x.address) ∨ (x.op = .st ∧ target.Has x.address)

/-- The part that is selected has the type of the reference. -/
theorem Expr.Resolved.part?_type {a : Analysis} {Γ : Names}
    {r : VarRef} {type part : TypeId} {v : Variable} {i d : Int}
    (h : Expr.Resolved a Γ (.ref r) type) (hv : a.variableFor? r.node = some v)
    (hpart : a.part? v.type i r.selector = some (d, part)) : part = type := by
  cases h with
  | whole href =>
    cases href.variableFor?_eq.symm.trans hv
    cases hpart
    rfl
  | element href harray =>
    cases href.variableFor?_eq.symm.trans hv
    obtain ⟨_, _, _, hget, _⟩ := Analysis.element?_eq_some hpart
    cases harray.symm.trans hget
    rfl
  | field href hrecord hfield =>
    cases href.variableFor?_eq.symm.trans hv
    obtain ⟨f, hf, heq⟩ := Option.map_eq_some_iff.mp hpart
    cases (Analysis.field?_eq hrecord hfield).symm.trans hf
    cases heq
    rfl
  | fieldElement href hrecord hfield harray =>
    cases href.variableFor?_eq.symm.trans hv
    obtain ⟨f, hf, hpart⟩ := Option.bind_eq_some_iff.mp hpart
    cases (Analysis.field?_eq hrecord hfield).symm.trans hf
    obtain ⟨_, helement, heq⟩ := Option.map_eq_some_iff.mp hpart
    obtain ⟨_, _, _, hget, _⟩ := Analysis.element?_eq_some helement
    cases harray.symm.trans hget
    cases heq
    rfl

namespace Machine

/-- What a reference denotes: an index has a value within the bounds, and the words are in
data memory. The words from `lo` up to `hi` are none of them, and neither are they read to
find them. -/
def Denotes (m : Machine) (a : Analysis) (lo hi : Int) (r : VarRef) (s : Extent) : Prop :=
  ∃ v i base d part, a.variableFor? r.node = some v ∧
    r.selector.Indexed a (m.data.without lo hi) i ∧
    a.part? v.type i r.selector = some (d, part) ∧ (m.data.without lo hi).base v = .ok base ∧
    s = ⟨base + d, a.types.size part⟩ ∧ m.Houses s.address s.size lo hi

/-- No word has changed but those from `lo` up to `hi`. -/
def KeepsOutside (lo hi : Int) (m m' : Machine) : Prop :=
  ∀ i : Nat, (i : Int) < lo ∨ hi ≤ i → m'.word i = m.word i

/-- The machine goes through `pre`, which changes no word but those from `lo` up to `hi`. Then
it goes through `access`, where it loads words of `source`, stores words of `target` and
changes no others. -/
def Accesses (m : Machine) (start : Nat) (pre access : Code) (lo hi : Int)
    (source target : Extent) : Prop :=
  m.ComesTo (start + pre.length) fun m₁ => m.KeepsOutside lo hi m₁ ∧
    ∃ n m₂, m₁.Runs n m₂ ∧ m₂.register .pc = Int64.ofNat (start + (pre ++ access).length) ∧
      (∀ x ∈ touches n m₁, x.Within source target) ∧ ∀ i : Nat, ¬target.Has i →
      m₂.word i = m₁.word i

/-- The machine comes to a fault, and then `P` holds. -/
def ComesToFault (m : Machine) (f : Nat → Fault) (P : Machine → Prop) : Prop :=
  ∃ n m₁ m' pc, m.Runs n m₁ ∧ P m' ∧ ∀ limit steps, steps < limit →
    (m₁.timed limit steps).step = (m'.timed limit (steps + 1), .fault (f pc))

variable {a : Analysis} {m m' m₁ m₂ : Machine} {start : Nat} {pre access c : Code}
  {lo hi : Int} {source target source' target' : Extent}

/-- Code that alters words of a range keeps those outside. -/
theorem Alters.keepsOutside (h : m.Alters (fun i => lo ≤ i ∧ i < hi) m') :
    m.KeepsOutside lo hi m' :=
  fun i hi => h.word i (by omega)

/-- Code that changes temporaries only keeps the words outside. -/
theorem Same.keepsOutside (h : m.Same lo.toNat hi.toNat m') : m.KeepsOutside lo hi m' :=
  h.alters.keepsOutside

theorem KeepsOutside.trans (h : m.KeepsOutside lo hi m') (h' : m'.KeepsOutside lo hi m₁) :
    m.KeepsOutside lo hi m₁ :=
  fun i hi => (h' i hi).trans (h i hi)

/-! ## Code and accesses -/

theorem Accesses.mono (h : m.Accesses start pre access lo hi source target)
    (hsource : ∀ i, source.Has i → source'.Has i)
    (htarget : ∀ i, target.Has i → target'.Has i) :
    m.Accesses start pre access lo hi source' target' := by
  obtain ⟨n₁, m₁, hruns₁, hpc₁, hkeeps, n₂, m₂, hruns₂, hpc₂, hwithin, hword⟩ := h
  refine ⟨n₁, m₁, hruns₁, hpc₁, hkeeps, n₂, m₂, hruns₂, hpc₂, ?_,
    fun i hi => hword i fun h => hi (htarget i h)⟩
  intro x hx
  exact (hwithin x hx).imp (And.imp_right (hsource _)) (And.imp_right (htarget _))

/-- Code that computes addresses, and accesses behind it. -/
theorem Passes.accesses {l : List Touch}
    (hpass : m.Passes pre m₁) (hkeeps : m.KeepsOutside lo hi m₁)
    (htouches : m₁.Touches access l m₂) (hwithin : ∀ x ∈ l, x.Within source target)
    (hword : ∀ i : Nat, ¬target.Has i → m₂.word i = m₁.word i) (hm : Code.Addressable m.code)
    (hat : Code.At m.code start (pre ++ access)) (hpc : m.register .pc = Int64.ofNat start) :
    m.Accesses start pre access lo hi source target := by
  obtain ⟨hat₁, hat₂⟩ := Code.at_append.mp hat
  obtain ⟨n, hreaches, hl⟩ := htouches.2 (start + pre.length) (hpass.1 ▸ hm) (hpass.1 ▸ hat₂)
  refine hpass.comesTo hm hat₁ hpc ⟨hkeeps, n, m₂.goto (start + pre.length + access.length),
    hreaches.runs, ?_, ?_, hword⟩
  · rw [List.length_append, ← Nat.add_assoc]
    rfl
  · rw [hl]
    exact hwithin

/-- A word of an extent is loaded. -/
theorem Passes.accesses_ld (hpass : m.Passes pre m₁) (hkeeps : m.KeepsOutside lo hi m₁)
    (hac : (m₁.register .ac).toInt = source.address) (hsize : 0 < source.size)
    (hhouses : m₁.Houses source.address source.size lo hi) (hm : Code.Addressable m.code)
    (hat : Code.At m.code start (pre ++ [.memory .ld .ac 0 .ac]))
    (hpc : m.register .pc = Int64.ofNat start) :
    m.Accesses start pre [.memory .ld .ac 0 .ac] lo hi source .empty := by
  obtain ⟨hnonneg, hlt⟩ := (hhouses source.address (Int.le_refl _) (by omega)).1
  have htouches : m₁.Touches [.memory .ld .ac 0 .ac] [⟨.ld, .ac, source.address.toNat⟩] _ :=
    touches_ld (by decide) (by decide) (by rw [hac, Int64.toInt_zero]; omega) (by omega)
  refine hpass.accesses hkeeps htouches ?_ (fun _ _ => rfl) hm hat hpc
  intro x hx
  rw [List.mem_singleton.mp hx]
  exact .inl ⟨rfl, by unfold Extent.Has; dsimp only; omega⟩

/-- A word of an extent is stored. -/
theorem Passes.accesses_st (hpass : m.Passes pre m₁) (hkeeps : m.KeepsOutside lo hi m₁)
    (hac2 : (m₁.register .ac2).toInt = target.address) (hsize : 0 < target.size)
    (hhouses : m₁.Houses target.address target.size lo hi) (hm : Code.Addressable m.code)
    (hat : Code.At m.code start (pre ++ [.memory .st .ac 0 .ac2]))
    (hpc : m.register .pc = Int64.ofNat start) :
    m.Accesses start pre [.memory .st .ac 0 .ac2] lo hi .empty target := by
  obtain ⟨hnonneg, hlt⟩ := (hhouses target.address (Int.le_refl _) (by omega)).1
  have htouches : m₁.Touches [.memory .st .ac 0 .ac2] [⟨.st, .ac2, target.address.toNat⟩] _ :=
    touches_st (by decide) (by decide) (by rw [hac2, Int64.toInt_zero]; omega) (by omega)
  refine hpass.accesses hkeeps htouches ?_ ?_ hm hat hpc
  · intro x hx
    rw [List.mem_singleton.mp hx]
    exact .inr ⟨rfl, by unfold Extent.Has; dsimp only; omega⟩
  · intro i hi
    unfold Extent.Has at hi
    exact word_put_of_ne m₁ (by omega) _

/-- A copy touches the words of source and target. -/
theorem copying_within {b : Register} {src dst : Int} {n : Nat} :
    ∀ x ∈ copying b src dst n, x.Within ⟨src, n⟩ ⟨dst, n⟩ := by
  intro x hx
  obtain ⟨k, hk, hx⟩ := List.mem_flatMap.mp hx
  have hlt := List.mem_range.mp hk
  rcases List.mem_pair.mp hx with rfl | rfl
  · exact .inl ⟨rfl, by unfold Extent.Has; dsimp only; omega⟩
  · exact .inr ⟨rfl, by unfold Extent.Has; dsimp only; omega⟩

/-- A copy loads words of its source and stores words of its target. -/
theorem CopiesAfter.accesses {b : Register} {offset src dst : Int} {n : Nat}
    (h : m.CopiesAfter c b offset n src dst lo hi) (hm : Code.Addressable m.code)
    (hat : Code.At m.code start (c ++ Code.copyWords n offset b))
    (hpc : m.register .pc = Int64.ofNat start) :
    m.Accesses start c (Code.copyWords n offset b) lo hi ⟨src, n⟩ ⟨dst, n⟩ := by
  obtain ⟨m₁, m₂, hpass, halters, htouches, hsame, _⟩ := h
  refine hpass.accesses halters.keepsOutside htouches copying_within ?_ hm hat hpc
  intro i hi
  refine hsame.word i ?_
  unfold Extent.Has at hi
  dsimp only at hi
  omega

/-- Where code breaks off, the machine comes to a fault. -/
theorem Breaks.comesToFault {f : Nat → Fault} (h : m₁.Breaks c f lo.toNat hi.toNat)
    (hpass : m.Passes pre m₁) (hkeeps : m.KeepsOutside lo hi m₁)
    (hm : Code.Addressable m.code) (hat : Code.At m.code start (pre ++ c))
    (hpc : m.register .pc = Int64.ofNat start) : m.ComesToFault f (m.KeepsOutside lo hi) := by
  obtain ⟨c₁, i, c₂, m₂, rfl, hpass₂, hsame, hfails⟩ := h
  rw [← List.append_assoc] at hat
  obtain ⟨hat₁, hat₂⟩ := Code.at_append.mp hat
  have hpass' := hpass.append hpass₂
  obtain ⟨n, hreaches⟩ := hpass'.2 start hm hat₁
  rw [goto_eq_self hpc] at hreaches
  have hpace :=
    hfails (start + (pre ++ c₁).length) (hpass'.1 ▸ hm) (hpass'.1 ▸ ⟨hat₂.1, trivial⟩)
  refine ⟨n, _, m₂.goto (start + (pre ++ c₁).length + 1), start + (pre ++ c₁).length,
    hreaches.runs, hkeeps.trans hsame.keepsOutside, ?_⟩
  intro limit steps hlt
  rw [step_timed _ hlt, hpace]

/-! ## References -/

/-- The address of a reference is that of the words, if there are any. -/
theorem Denotes.address {r : VarRef} {s : Extent} (ha : a.Consistent)
    (hmemory : (m.memory.size : Int) ≤ Word.greatest + 1) (h : m.Denotes a lo hi r s) :
    ∃ w, r.addressIn a (m.data.without lo hi) = .ok w ∧ m.Houses w.toInt s.size lo hi ∧
    0 ≤ s.size ∧
      (s.size ≠ 0 → w.toInt = s.address) := by
  obtain ⟨v, i, base, d, part, hv, hindex, hpart, hbase, rfl, hhouses⟩ := h
  obtain ⟨id, _, hid⟩ := Option.bind_eq_some_iff.mp hv
  have hnonneg := ha.size_nonneg part
  have haddress : a.types.size part ≠ 0 → (Int64.ofInt (base + d)).toInt = base + d := by
    intro hsize
    obtain ⟨hle, hlt⟩ := (hhouses (base + d) (Int.le_refl _) (by dsimp only; omega)).1
    exact toInt_ofInt ⟨by unfold Word.least; omega, by omega⟩
  refine ⟨_, Reference.addressIn_of_part? hv (ha.fits_offset hid) hindex hpart hbase, ?_,
    hnonneg, haddress⟩
  by_cases hsize : a.types.size part = 0
  · intro j hj hj'
    dsimp only at hj'
    omega
  · rw [haddress hsize]
    exact hhouses

variable {t : Int} {r : VarRef} {s : Extent}

/-- What the load of a value accesses, where its code is `c` and `t` counts the temporaries in
use. -/
def LoadsInside (m : Machine) (a : Analysis) (t : Int) (start : Nat) (lo hi : Int)
    (r : VarRef) (c : Code) : Prop :=
  ∃ address, r.code a t = .ok address ∧ c = address ++ [.memory .ld .ac 0 .ac] ∧
    ∀ s, m.Poised t r.depth start lo hi → m.Denotes a lo hi r s → s.size ≠ 0 →
      m.Accesses start address [.memory .ld .ac 0 .ac] lo hi s .empty

/-- What `read` accesses, where its code is `c`. -/
def ReadsInside (m : Machine) (a : Analysis) (start : Nat) (lo hi : Int) (target : VarRef)
    (c : Code) : Prop :=
  ∃ address, target.code a 0 = .ok address ∧
    c = (Code.keep address ++ [.register .inp .ac .ac .ac]) ++ [.memory .st .ac 0 .ac2] ∧
    ∀ s, m.Poised 0 target.depth start lo hi → m.Denotes a lo hi target s →
      (m.input ≠ [] → s.size ≠ 0 →
        m.Accesses start (Code.keep address ++ [.register .inp .ac .ac .ac])
        [.memory .st .ac 0 .ac2] lo hi .empty s) ∧
      (m.input = [] → m.ComesToFault .inputExhausted (m.KeepsOutside lo hi))

/-- What an assignment accesses, where its code is `c`. -/
def AssignsInside (m : Machine) (a : Analysis) (start : Nat) (lo hi : Int) (target : VarRef)
    (value : Expr) (c : Code) : Prop :=
  ∃ address, target.code a 0 = .ok address ∧
    ∀ s, m.Poised 0 (max target.depth value.depth) start lo hi → m.Denotes a lo hi target s →
      (s.size = 1 → ∃ cv, value.code a 0 = .ok cv ∧
          c = (Code.keep address ++ cv) ++ [.memory .st .ac 0 .ac2] ∧
        (∀ w, value.valueIn a (m.data.without lo hi) = .ok w →
          m.Accesses start (Code.keep address ++ cv)
          [.memory .st .ac 0 .ac2] lo hi .empty s) ∧
        (value.valueIn a (m.data.without lo hi) = .error .divisionByZero →
          m.ComesToFault .divisionByZero (m.KeepsOutside lo hi))) ∧
      (s.size ≠ 1 → ∃ source cs, value = .ref source ∧ source.code a 0 = .ok cs ∧
        c = (Code.keep address ++ cs) ++ Code.copyWords s.size 0 .ac2 ∧
        ∀ s', m.Denotes a lo hi source s' →
          m.Accesses start (Code.keep address ++ cs)
          (Code.copyWords s.size 0 .ac2) lo hi s' s)

/-- What passing an array or a record by value accesses, where its code is `c`. -/
def PassesInside (m : Machine) (a : Analysis) (start : Nat) (lo hi : Int) (v : Variable)
    (arg : Expr) (c : Code) : Prop :=
  ∃ source cs, arg = .ref source ∧ source.code a 0 = .ok cs ∧
    c = cs ++ Code.copyWords (a.types.size v.type) v.offset .top ∧
    ∀ s, m.Poised 0 source.depth start lo hi → m.Denotes a lo hi source s →
      m.Houses ((m.register .top).toInt + v.offset) (a.types.size v.type) lo hi →
      m.Accesses start cs (Code.copyWords (a.types.size v.type) v.offset .top) lo hi s
        ⟨(m.register .top).toInt + v.offset, a.types.size v.type⟩

/-- What a reference denotes has the size of its type. -/
theorem Denotes.size_eq {Γ : Names} {type : TypeId}
    (h : m.Denotes a lo hi r s) (hr : Expr.Resolved a Γ (.ref r) type) :
    s.size = a.types.size type := by
  obtain ⟨v, i, base, d, part, hv, _, hpart, _, rfl, _⟩ := h
  rw [hr.part?_type hv hpart]

/-- The load of a value stays within its reference. -/
theorem loadsInside (ha : a.Consistent)
    (hlevels : (Expr.ref r).Levelled a (m.data.without lo hi))
    (hmemory : (m.memory.size : Int) ≤ Word.greatest + 1) (hm : Code.Addressable m.code)
    (hc : (Expr.ref r).code a t = .ok c) (hat : Code.At m.code start c) :
    m.LoadsInside a t start lo hi r c := by
  obtain ⟨address, haddress, rfl⟩ := Expr.code_ref_eq_ok hc
  refine ⟨address, haddress, rfl, ?_⟩
  intro s hpoised hs hsize
  obtain ⟨w, hw, hhouses, hnonneg, hexact⟩ := hs.address ha hmemory
  have hyields := (Expr.evaluates hlevels hpoised.counter (m.serves_data lo hi)
    hpoised.spares).2 r rfl address haddress
  rw [hw] at hyields
  obtain ⟨m₁, hpass, rfl, hsame⟩ := hyields
  rw [hexact hsize] at hhouses
  exact hpass.accesses_ld hsame.keepsOutside (hexact hsize) (by omega)
    (hhouses.alters hsame.alters) hm hat hpoised.pc

/-- A `read` stays within its target. -/
theorem readsInside {target : VarRef} {span : Span} {entries : Entries} (ha : a.Consistent)
    (hlevels : (Expr.ref target).Levelled a (m.data.without lo hi))
    (hmemory : (m.memory.size : Int) ≤ Word.greatest + 1) (hm : Code.Addressable m.code)
    (h : (Stmt.read target span).StandsAt a entries m.code start c) :
    m.ReadsInside a start lo hi target c := by
  obtain ⟨hc, hat⟩ := h
  obtain ⟨address, haddress, rfl⟩ := Stmt.code_read_eq_ok hc
  refine ⟨address, haddress, by simp [Code.keep], ?_⟩
  intro s hpoised hs
  obtain ⟨w, hw, hhouses, hnonneg, htarget⟩ := hs.address ha hmemory
  obtain ⟨m₁, hpass, halters, hac2, _⟩ := hpoised.keeps (Nat.le_refl _) hlevels haddress hw
  constructor
  · intro hinput hsize
    obtain ⟨x, rest, hcons⟩ := List.exists_cons_of_ne_nil hinput
    have hread : m₁.Passes [.register .inp .ac .ac .ac]
        ({ m₁ with input := rest }.setRegister .ac x) :=
      passes_inp (by decide) (halters.input.trans hcons)
    have hhouses₁ := hhouses.alters halters
    rw [htarget hsize] at hhouses₁
    refine (hpass.append hread).accesses_st halters.keepsOutside ?_ (by omega) hhouses₁ hm
      (by simpa [Code.keep] using hat) hpoised.pc
    exact (congrArg Int64.toInt hac2).trans (htarget hsize)
  · intro hinput
    have hbreaks : m₁.Breaks [.register .inp .ac .ac .ac,
        .memory .st .ac 0 .ac2] .inputExhausted lo.toNat hi.toNat :=
      ⟨[], _, _, m₁, rfl, .nil m₁, .refl .., fails_inp (halters.input.trans hinput)⟩
    exact hbreaks.comesToFault hpass halters.keepsOutside hm
      (by simpa [Code.keep] using hat) hpoised.pc

/-- A value of one word is stored, unless there is none. -/
theorem Poised.accesses_store {value : Expr} {cv : Code} {T : Word}
    (h : m.Poised 0 (max r.depth value.depth) start lo hi)
    (hlevels : ∀ e : Expr, e.Levelled a (m.data.without lo hi))
    (hm : Code.Addressable m.code) (hc : r.code a 0 = .ok c) (hcv : value.code a 0 = .ok cv)
    (hat : Code.At m.code start ((Code.keep c ++ cv) ++ [.memory .st .ac 0 .ac2]))
    (hT : r.addressIn a (m.data.without lo hi) = .ok T) (haddress : T.toInt = s.address)
    (hsize : 0 < s.size) (hhouses : m.Houses s.address s.size lo hi) :
    (∀ w, value.valueIn a (m.data.without lo hi) = .ok w →
      m.Accesses start (Code.keep c ++ cv) [.memory .st .ac 0 .ac2] lo hi .empty s) ∧
    (value.valueIn a (m.data.without lo hi) = .error .divisionByZero →
      m.ComesToFault .divisionByZero (m.KeepsOutside lo hi)) := by
  obtain ⟨m₁, hpass, halters, hac2, hserves⟩ := h.keeps (Nat.le_max_left ..) (hlevels _) hc hT
  have hspares := (h.spares.mono (Nat.le_max_right ..)).alters halters
  constructor
  · intro w hw
    have hyields := (Expr.evaluates (hlevels value) (Int.le_refl 0) hserves hspares).1 cv hcv
    rw [hw] at hyields
    obtain ⟨m₂, hpass₂, _, hsame⟩ := hyields
    have halters₂ := halters.trans hsame.alters
    refine (hpass.append hpass₂).accesses_st halters₂.keepsOutside ?_ hsize
      (hhouses.alters halters₂) hm hat h.pc
    rw [hsame.register .ac2 (by decide) (by decide) (by decide), hac2]
    exact haddress
  · intro hvalue
    have hbreaks := Expr.breaks (hlevels value) (Int.le_refl 0) hserves hspares hcv hvalue
    rw [List.append_assoc] at hat
    exact (hbreaks.append _).comesToFault hpass halters.keepsOutside hm hat h.pc

/-- An assignment stays within source and target. -/
theorem assignsInside {Γ : Names} {target : VarRef} {value : Expr}
    {span : Span} {entries : Entries} {type : TypeId}
    (ha : a.Consistent) (hlevels : ∀ e : Expr, e.Levelled a (m.data.without lo hi))
    (hmemory : (m.memory.size : Int) ≤ Word.greatest + 1) (hm : Code.Addressable m.code)
    (htarget : Expr.Resolved a Γ (.ref target) type) (hvalue : value.Resolved a Γ type)
    (h : (Stmt.assign target value span).StandsAt a entries m.code start c) :
    m.AssignsInside a start lo hi target value c := by
  obtain ⟨hc, hat⟩ := h
  rw [Stmt.code] at hc
  obtain ⟨type', address, store, htype, haddress, hstore, rfl⟩ :=
    Reference.assignCode_eq_ok hc
  cases htarget.type?_node.symm.trans htype
  refine ⟨address, haddress, ?_⟩
  intro s hpoised hs
  have hsize := hs.size_eq htarget
  obtain ⟨T, hT, hhouses, hnonneg, hexact⟩ := hs.address ha hmemory
  cases hstore with
  | @word _ cv hone hcv =>
    refine ⟨fun _ => ⟨cv, hcv, (List.append_assoc ..).symm, ?_⟩,
      fun hne => absurd (hsize.trans hone) hne⟩
    have hexact := hexact (by omega)
    rw [hexact] at hhouses
    rw [← List.append_assoc] at hat
    exact hpoised.accesses_store hlevels hm haddress hcv hat hT hexact (by omega) hhouses
  | @words source cs hone hcs =>
    -- Both references have the type of the assignment, so source and target are of one size.
    refine ⟨fun hs => absurd (hsize.symm.trans hs) hone,
      fun _ => ⟨source, cs, rfl, hcs, ?_, ?_⟩⟩
    · rw [hsize, List.append_assoc]
    intro s' hs'
    have hsize' := hs'.size_eq hvalue
    obtain ⟨S, hS, hhouses', _, hexact'⟩ := hs'.address ha hmemory
    obtain ⟨n, hn⟩ := Int.eq_ofNat_of_zero_le hnonneg
    have hle := ha.size_le type
    rw [hsize', ← hsize, hn] at hhouses'
    rw [hn] at hhouses
    rw [← hsize, hn, ← List.append_assoc] at hat
    rw [hn]
    have hcopies :=
      hpoised.copiesAfter_keep hlevels haddress hcs hT hS (by omega) hhouses' hhouses
    exact (hcopies.accesses hm hat hpoised.pc).mono (Extent.has_of_address (by omega) hexact')
      (Extent.has_of_address hn hexact)

/-- An argument that is copied stays within its reference. -/
theorem passesInside {param : SymbolId} {v : Variable} {arg : Expr} (ha : a.Consistent)
    (hlevels : ∀ e : Expr, e.Levelled a (m.data.without lo hi))
    (hmemory : (m.memory.size : Int) ≤ Word.greatest + 1)
    (hm : Code.Addressable m.code) {Γ : Names} (harg : arg.Resolved a Γ v.type)
    (hv : a.symbols.variableAt? param = some v)
    (haccess : v.access = .direct) (hone : a.types.size v.type ≠ 1)
    (hc : arg.argumentCode a param = .ok c) (hat : Code.At m.code start c) :
    m.PassesInside a start lo hi v arg c := by
  obtain ⟨v', hv', hform⟩ := Expr.argumentCode_eq_ok hc
  cases hv.symm.trans hv'
  rw [haccess] at hform
  cases hform with
  | word hsize => exact absurd hsize hone
  | @words source cs _ hcs =>
    refine ⟨source, cs, rfl, hcs, rfl, ?_⟩
    intro s hpoised hs htarget
    have hsize := hs.size_eq harg
    obtain ⟨S, hS, hhouses, hnonneg, hexact⟩ := hs.address ha hmemory
    obtain ⟨n, hn⟩ := Int.eq_ofNat_of_zero_le hnonneg
    have hlaid := ha.variable_laid hv
    have hwords := hlaid.words
    rw [haccess, Check.slotSize] at hwords
    rw [← hsize, hn] at htarget hwords hat ⊢
    rw [hn] at hhouses
    have hcopies :=
      hpoised.copiesAfter_top (hlevels _) hcs hS hlaid.offset hwords hhouses htarget
    exact (hcopies.accesses hm hat hpoised.pc).mono
      (Extent.has_of_address hn hexact) fun _ h => h

end Machine

/-! ## Accesses of a program -/

/-- The arguments of a call stand in its code, one behind the other. -/
theorem Expr.arguments_stand {a : Analysis} {code : Array Instruction} :
    ∀ {args : List Expr} {params : List SymbolId} {start : Nat} {c : Code},
    Expr.argumentsCode a args params = .ok c → Code.At code start c →
      ∀ param arg, (param, arg) ∈ params.zip args →
        ∃ start' c', arg.argumentCode a param = .ok c' ∧ Code.At code start' c'
  | [], params, _, _, _, _, param, arg, hmem => by simp at hmem
  | _ :: _, [], _, _, _, _, param, arg, hmem => by simp at hmem
  | arg :: args, param :: params, start, c, hc, hat, param', arg', hmem => by
    obtain ⟨first, rest, hfirst, hrest, rfl⟩ := Expr.argumentsCode_cons_eq_ok hc
    obtain ⟨hat₁, hat₂⟩ := Code.at_append.mp hat
    rcases List.mem_cons.mp hmem with heq | hmem
    · cases heq
      exact ⟨start, first, hfirst, hat₁⟩
    · exact Expr.arguments_stand hrest hat₂ param' arg' hmem

/-- The arguments of a call stand in its code. Those that are passed word for word touch the
words of the argument and those of the parameter. -/
theorem Call.Resolved.passesInside {a : Analysis} {Γ : Names}
    {m : Machine} {start start₀ : Nat} {lo hi : Int}
    {entries : Entries} {c₀ : Code} {call : Call} (h : call.Resolved a Γ) (ha : a.Consistent)
    (hlevels : ∀ e : Expr, e.Levelled a (m.data.without lo hi))
    (hmemory : (m.memory.size : Int) ≤ Word.greatest + 1) (hm : Code.Addressable m.code)
    (hst : (Stmt.call call).StandsAt a entries m.code start₀ c₀) :
    ∃ id P, a.annotations.symbol? call.node = some id ∧ a.symbols.procedureAt? id = some P ∧
      P.params.length = call.args.length ∧
      ∀ param arg v, (param, arg) ∈ P.params.zip call.args →
      a.symbols.variableAt? param = some v →
        v.access = .direct → a.types.size v.type ≠ 1 →
        (∃ start' c', arg.argumentCode a param = .ok c' ∧ Code.At m.code start' c') ∧
        ∀ c, arg.argumentCode a param = .ok c → Code.At m.code start c →
        m.PassesInside a start lo hi v arg c := by
  obtain ⟨hc₀, hat₀⟩ := hst
  obtain ⟨id, P, _, hP, hid, hargs⟩ := h
  rw [Stmt.code] at hc₀
  obtain ⟨_, args, _, hargsCode, rfl⟩ := Call.code_eq_ok hid hP hc₀
  rw [List.append_assoc] at hat₀
  obtain ⟨hlength, hzip⟩ := List.forall₂_iff_zip.mp hargs
  refine ⟨id, P, hid, hP, hlength, ?_⟩
  intro param arg v hpair hv haccess hone
  refine ⟨Expr.arguments_stand hargsCode (Code.at_append.mp hat₀).1 param arg hpair, ?_⟩
  intro c hc hat
  obtain ⟨v', hv', _, harg⟩ := hzip hpair
  cases hv.symm.trans hv'
  exact Machine.passesInside ha hlevels hmemory hm harg hv haccess hone hc hat

/-- **Accesses stay in storage.** Every expression, statement and argument of an accepted
program whose nodes have distinct identities stands in the code. Let its code stand anywhere,
let the machine enter it in any state that has room for its temporaries in data memory, whose
addresses are words, and let its references denote words there that are none of them. When a
value is loaded, written, read, assigned, or passed word for word, the words touched are those
of the reference that is loaded from or stored to. Nothing else changes but temporaries, also
where the machine faults instead. A value that is loaded, written or read must take a word for
this. -/
theorem Program.accesses_contained {p : Program} {a : Analysis}
    (ha : p.analyze = .ok a) (hnodes : p.DistinctNodes) (o : Options) :
    ∃ code, p.compile o = .ok code ∧ (code.instructions.length < 2 ^ 63 → ∀ b ∈ p.blocks,
      (∀ e ∈ Stmt.partsAll b.body, e.Stands a code.instructions.toArray) ∧
      (∀ st ∈ Stmt.withinAll b.body, ∃ entries start c,
        st.StandsAt a entries code.instructions.toArray start c) ∧
      ∀ (m : Machine) (start : Nat) (lo hi : Int), m.code = code.instructions.toArray →
        (m.memory.size : Int) ≤ Word.greatest + 1 →
        (∀ r t c, .ref r ∈ Stmt.partsAll b.body → (Expr.ref r).code a t = .ok c →
          Code.At m.code start c →
          m.LoadsInside a t start lo hi r c) ∧
        (∀ r span entries c, .write (.ref r) span ∈ Stmt.withinAll b.body →
          (Stmt.write (.ref r) span).StandsAt a entries m.code start c →
          ∃ cv, c = cv ++ [.register .out .ac .ac .ac] ∧ m.LoadsInside a 0 start lo hi r cv) ∧
        (∀ target span entries c, .read target span ∈ Stmt.withinAll b.body →
          (Stmt.read target span).StandsAt a entries m.code start c →
          m.ReadsInside a start lo hi target c) ∧
        (∀ target value span entries c, .assign target value span ∈ Stmt.withinAll b.body →
          (Stmt.assign target value span).StandsAt a entries m.code start c →
          m.AssignsInside a start lo hi target value c) ∧
        ∀ call, .call call ∈ Stmt.withinAll b.body →
          ∃ id P, a.annotations.symbol? call.node = some id ∧
          a.symbols.procedureAt? id = some P ∧ P.params.length = call.args.length ∧
          ∀ param arg v, (param, arg) ∈ P.params.zip call.args →
          a.symbols.variableAt? param = some v →
            v.access = .direct → a.types.size v.type ≠ 1 →
            (∃ start' c', arg.argumentCode a param = .ok c' ∧ Code.At m.code start' c') ∧
            ∀ c, arg.argumentCode a param = .ok c → Code.At m.code start c →
            m.PassesInside a start lo hi v arg c) := by
  obtain ⟨code, l, Γ, hcompile, hcode, hresolved⟩ := Program.compile_of_analyze ha hnodes o
  obtain ⟨procedures, entries, _, hprocedures, _⟩ := Program.code_eq_ok hcode
  have hp := Program.analyzed_of_analyze ha
  have hconsistent := Program.consistent_of_analyze ha
  refine ⟨code, hcompile, ?_⟩
  intro hlength b hb
  have hbody := (hp.noted hnodes b hb).body
  obtain ⟨⟨_, _, _, hbodyCode, hat, _⟩, _⟩ := hresolved.blocks_stand hcode hprocedures b hb
  have hstands := Stmt.StandsAt.withinAll hbodyCode hat
  refine ⟨Stmt.Resolved.partsAll_stand hbody hbodyCode hat,
    fun st hst => ⟨_, hstands st hst⟩, ?_⟩
  intro m start lo hi hmcode hmemory
  have hm : Code.Addressable m.code := hmcode ▸ Code.addressable_of_length hlength
  have hlevels := Program.levelled ha (m.data.without lo hi)
  -- Loads, `write`, `read`, assignments and arguments, in this order.
  refine ⟨?_, ?_, ?_, ?_, ?_⟩
  · intro r t c _ hc hatc
    exact Machine.loadsInside hconsistent (hlevels _) hmemory hm hc hatc
  · intro r span entries c _ hst
    obtain ⟨hc, hatc⟩ := hst
    rw [Stmt.code] at hc
    obtain ⟨cv, hcv, hc⟩ := Except.bind_eq_ok hc
    cases hc
    exact ⟨cv, rfl,
      Machine.loadsInside hconsistent (hlevels _) hmemory hm hcv (Code.at_append.mp hatc).1⟩
  · intro target span entries c _ hst
    exact Machine.readsInside hconsistent (hlevels _) hmemory hm hst
  · intro target value span entries c hmem hst
    cases Stmt.Resolved.withinAll hbody _ hmem with
    | assign htarget hvalue =>
      exact Machine.assignsInside hconsistent hlevels hmemory hm htarget hvalue hst
  · intro call hmem
    obtain ⟨start₀, c₀, hst⟩ := hstands _ hmem
    rw [← hmcode] at hst
    cases Stmt.Resolved.withinAll hbody _ hmem with
    | call hcall => exact hcall.passesInside hconsistent hlevels hmemory hm hst

theorem Program.shifting_distinctNodes : Program.shifting.DistinctNodes := by decide +kernel

theorem Program.shifting_length {code : ObjectCode}
    (hcompile : Program.shifting.compile {} = .ok code) :
    code.instructions.length < 2 ^ 63 :=
  Except.of_any_toOption (P := fun code => code.instructions.length < 2 ^ 63) hcompile
    (by decide +kernel)

/-- A reference to the row at an index, in the memory of the shifting program. -/
def Program.shiftingRow (a : Analysis) (r : VarRef) (i d : Int) : Bool :=
  (a.variableFor? r.node).any fun v => (a.part? v.type i r.selector).any fun part =>
      r.selector.index?.any fun e =>
    decide (part.1 = d ∧ a.types.size part.2 = 3) &&
    decide (((Source.ofMemory Program.shiftingMemory 7).without 10 11).base v = .ok 0) &&
    (e.valueIn a ((Source.ofMemory Program.shiftingMemory 7).without 10 11)).toOption.any
      fun w => decide (w.toInt = i)

/-- A row of the array denotes its words. -/
theorem Program.shiftingRow_denotes {a : Analysis} {m : Machine} {r : VarRef} {i d : Int}
    (hmemory : m.memory = Program.shiftingMemory)
    (hdisplay : m.register .displayOff = 7) (hd : 0 ≤ d ∧ d ≤ 3)
    (h : Program.shiftingRow a r i d = true) : m.Denotes a 10 11 r ⟨d, 3⟩ := by
  have hdata : m.data = .ofMemory Program.shiftingMemory 7 := by
    unfold Machine.data
    rw [hmemory, hdisplay]
    rfl
  obtain ⟨v, hv, h⟩ := (Option.any_eq_true ..).mp h
  obtain ⟨⟨d', part⟩, hpart, h⟩ := (Option.any_eq_true ..).mp h
  obtain ⟨e, he, h⟩ := (Option.any_eq_true ..).mp h
  simp only [Bool.and_eq_true, decide_eq_true_eq] at h
  obtain ⟨⟨⟨rfl, hsize⟩, hbase⟩, hvalue⟩ := h
  refine ⟨v, i, 0, d', part, hv, ?_, hpart, hdata ▸ hbase, by rw [hsize, Int.zero_add], ?_⟩
  · intro e' he'
    cases he.symm.trans he'
    obtain ⟨w, hw, hi⟩ := Except.exists_of_any_toOption hvalue
    exact ⟨w, hdata ▸ hw, of_decide_eq_true hi⟩
  · intro j hj hj'
    have hwords : m.memory.size = 12 := by
      rw [hmemory]
      decide
    dsimp only at hj hj'
    omega

/-- The two rows of the assignment. -/
theorem Program.shifting_rows : ∃ (a : Analysis) (target source : VarRef) (span : Span),
    Program.shifting.analyze = .ok a ∧
      .assign target (.ref source) span ∈ Stmt.withinAll Program.shifting.mainBlock.body ∧
      max target.depth source.depth = 1 ∧ Program.shiftingRow a target 2 3 = true ∧
      Program.shiftingRow a source 1 0 = true := by
  have hcheck : (Program.shifting.analyze.toOption.any fun a =>
      (Stmt.withinAll Program.shifting.mainBlock.body).any fun st => st.copies?.any fun y =>
        decide (max y.1.depth y.2.1.depth = 1 ∧ Program.shiftingRow a y.1 2 3 = true ∧
          Program.shiftingRow a y.2.1 1 0 = true)) = true := by decide +kernel
  obtain ⟨a, ha, hcheck⟩ := Except.exists_of_any_toOption hcheck
  obtain ⟨st, hst, hcheck⟩ := List.any_eq_true.mp hcheck
  obtain ⟨⟨target, source, span⟩, hcopies, hcheck⟩ := (Option.any_eq_true ..).mp hcheck
  refine ⟨a, target, source, span, ha, ?_, of_decide_eq_true hcheck⟩
  rwa [Stmt.eq_of_copies? hcopies] at hst

/-- Where a row is copied to the next one, three words are loaded from address 0 on and three
are stored from address 3 on. -/
theorem Program.shifting_accesses_contained :
    ∃ (a : Analysis) (code : ObjectCode) (m : Machine) (start : Nat)
    (target source : VarRef) (pre : Code), Program.shifting.analyze = .ok a ∧
    Program.shifting.DistinctNodes ∧
      Program.shifting.compile {} = .ok code ∧ m.code = code.instructions.toArray ∧
      m.Denotes a 10 11 target ⟨3, 3⟩ ∧ m.Denotes a 10 11 source ⟨0, 3⟩ ∧
      m.Accesses start pre (Code.copyWords 3 0 .ac2) 10 11 ⟨0, 3⟩ ⟨3, 3⟩ := by
  obtain ⟨a, target, source, span, ha, hmem, hdepth, htarget, hsource⟩ :=
    Program.shifting_rows
  obtain ⟨code, hcompile, hall⟩ :=
    Program.accesses_contained ha Program.shifting_distinctNodes {}
  obtain ⟨_, hstands, haccesses⟩ :=
    hall (Program.shifting_length hcompile) Program.shifting.mainBlock
    (List.mem_append_right _ (List.mem_singleton_self _))
  obtain ⟨entries, start, c, hst⟩ := hstands _ hmem
  let m : Machine := { Machine.load code ⟨12, 0⟩ [] with
    memory := Program.shiftingMemory, registers :=
      { mp := 11, displayOff := 7, pc := Int64.ofNat start } }
  have hwords : m.memory.size = 12 := by
    change Program.shiftingMemory.size = 12
    decide
  have hpoised : m.Poised 0 (max target.depth source.depth) start 10 11 := by
    rw [hdepth]
    exact ⟨rfl, Int.le_refl 0, rfl, rfl, fun i hlo hhi => by omega⟩
  have hT := Program.shiftingRow_denotes (m := m) rfl rfl (by decide) htarget
  have hS := Program.shiftingRow_denotes (m := m) rfl rfl (by decide) hsource
  obtain ⟨_, _, _, hassigns, _⟩ := haccesses m start 10 11 rfl (by rw [hwords]; decide)
  obtain ⟨address, _, hinside⟩ := hassigns target (.ref source) span entries c hmem hst
  obtain ⟨_, cs, heq, _, _, hcopies⟩ := (hinside _ hpoised hT).2 (by decide)
  cases heq
  exact ⟨a, code, m, start, target, source, Code.keep address ++ cs, ha,
    Program.shifting_distinctNodes, hcompile, rfl, hT, hS, hcopies _ hS⟩

open Build in
/-- Something is read into a record without fields, which stands before a variable. -/
def Build.hollow : Build Program := do
  let e ← varDecl ["e"] (← record [])
  let x ← varDecl ["x"] (← integer)
  program "hollow" [← vars [e, x]]
    [← assign (← var "x") (← const 5), ← read (← var "e"), ← write (.ref (← var "x"))]

def Program.hollow : Program := (StateT.run (m := Id) Build.hollow {}).1

/-- The state of that program when it comes to `read`. -/
def Program.hollowState (code : ObjectCode) : Machine :=
  { Machine.load code ⟨10, 0⟩ [7] with
    memory := { words := #[5, 0, 0, 0, 0, 0, 0, 0, 0, 0] }, registers :=
      { mp := 9, displayOff := 1, pc := 16 } }

/-- The record has no word, and yet `read` stores one: that of the variable behind it, which
then has the value that was read instead of the one that was assigned to it. -/
theorem Program.hollow_reads_outside :
    ∃ (a : Analysis) (code : ObjectCode) (target : VarRef) (span : Span) (c : Code),
    Program.hollow.analyze = .ok a ∧ Program.hollow.DistinctNodes ∧
    Program.hollow.compile {} = .ok code ∧
      .read target span ∈ Program.hollow.body ∧
      (Stmt.read target span).StandsAt a [] (Program.hollowState code).code 16 c ∧
      (Program.hollowState code).Poised 0 target.depth 16 9 9 ∧
      (Program.hollowState code).Denotes a 9 9 target ⟨0, 0⟩ ∧ ¬Extent.Has ⟨0, 0⟩ 0 ∧
      ⟨.st, .ac2, 0⟩ ∈ (Program.hollowState code).touches c.length ∧
      Program.hollow.run [7] {} ⟨100, 100⟩ = .ok [7] := by
  have hcheck : (Program.hollow.analyze.toOption.any fun a =>
      (Program.hollow.compile {}).toOption.any fun code =>
      Program.hollow.body.any fun st => st.reads?.any fun y =>
          (a.variableFor? y.1.node).any fun v =>
        (Stmt.code a [] 16 (.read y.1 y.2)).toOption.any fun c =>
          decide (a.part? v.type 0 y.1.selector = some (0, v.type) ∧ a.types.size v.type = 0 ∧
            y.1.selector.index? = none ∧ y.1.depth = 0) &&
          decide (((Program.hollowState code).data.without 9 9).base v = .ok 0) &&
          decide (Code.At (Program.hollowState code).code 16 c ∧
            ⟨.st, .ac2, 0⟩ ∈ (Program.hollowState code).touches c.length)) =
            true := by decide +kernel
  obtain ⟨a, ha, hcheck⟩ := Except.exists_of_any_toOption hcheck
  obtain ⟨code, hcompile, hcheck⟩ := Except.exists_of_any_toOption hcheck
  obtain ⟨st, hst, hcheck⟩ := List.any_eq_true.mp hcheck
  obtain ⟨⟨target, span⟩, hreads, hcheck⟩ := (Option.any_eq_true ..).mp hcheck
  obtain ⟨v, hv, hcheck⟩ := (Option.any_eq_true ..).mp hcheck
  obtain ⟨c, hc, hcheck⟩ := Except.exists_of_any_toOption hcheck
  simp only [Bool.and_eq_true, decide_eq_true_eq] at hcheck
  obtain ⟨⟨⟨hpart, hsize, hindex, hdepth⟩, hbase⟩, hat, htouch⟩ := hcheck
  have hpoised : (Program.hollowState code).Poised 0 target.depth 16 9 9 := by
    rw [hdepth]
    exact ⟨rfl, Int.le_refl 0, rfl, rfl, fun i hlo hhi => by omega⟩
  have hdenotes : (Program.hollowState code).Denotes a 9 9 target ⟨0, 0⟩ := by
    refine ⟨v, 0, 0, 0, v.type, hv, ?_, hpart, hbase, by rw [hsize]; rfl,
      fun i hlo hhi => by dsimp only at hlo hhi; omega⟩
    intro e he
    cases hindex.symm.trans he
  rw [Stmt.eq_of_reads? hreads] at hst
  exact ⟨a, code, target, span, c, ha, by decide +kernel, hcompile, hst, ⟨hc, hat⟩, hpoised,
    hdenotes, by decide, htouch, by decide +kernel⟩

end BlockLang
