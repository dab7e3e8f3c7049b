import BlockLang.Proofs.Execution
import BlockLang.Proofs.Layouts

/-!
# Data words that are accessed

The machine touches its data memory with two operations only, `LD` and `ST`.
`Machine.touches` lists what the next steps touch, and `Machine.Touches` is
`Machine.Passes` with that list. Which role an access has is told by its base register:
code finds frames through the display, temporaries through `mp`, and the value that a
reference denotes through `ac` when it is loaded and through `ac2` when it is stored.

* `Machine.Touches.append`: two pieces of code touch what the first and then what the
  second touches.
* `Machine.touches_ld` and `Machine.touches_st`: a load or a store touches its address,
  and no other.
* `Machine.touches_copyWords`: a copy of `n` words touches the words of the source and of
  the target in turn, from the first to the last (`Machine.copying`), and leaves the words
  of the source in the target. By induction on the number of words; the word that is
  copied next is still what it was at the start, since source and target have no word in
  common.
-/

namespace BlockLang

/-- A load or store of the word at `base` and an offset. -/
structure Touch where
  op : Opcode
  base : Register
  address : Int
  deriving DecidableEq, Repr

namespace Machine

/-- The data word that the next instruction touches. -/
def touch? (m : Machine) : Option Touch :=
  match m.fetch? m.registers.pc with
  | some (.memory .ld _ offset base) =>
    some ⟨.ld, base,
      offset.toInt + ((m.setRegister .pc (m.registers.pc + 1)).register base).toInt⟩
  | some (.memory .st _ offset base) =>
    some ⟨.st, base,
      offset.toInt + ((m.setRegister .pc (m.registers.pc + 1)).register base).toInt⟩
  | _ => none

/-- The data words that the next `n` steps touch. -/
def touches : Nat → Machine → List Touch
  | 0, _ => []
  | n + 1, m => m.touch?.toList ++ touches n m.pace.1

theorem Reaches.touches_add {m m' : Machine} {n : Nat} (h : Reaches m n m') (n' : Nat) :
    touches (n + n') m = touches n m ++ touches n' m' := by
  induction h with
  | refl => simp [touches]
  | @step m m' m'' n hpace _ ih =>
    rw [Nat.add_right_comm, touches, touches, hpace, ih, List.append_assoc]

/-- From the start of `c` the machine comes to its end, and then it is `m'`. On the way it
touches the listed words. -/
def Touches (m : Machine) (c : Code) (l : List Touch) (m' : Machine) : Prop :=
  m'.code = m.code ∧ ∀ base, Code.Addressable m.code → Code.At m.code base c →
    ∃ n, Reaches (m.goto base) n (m'.goto (base + c.length)) ∧ touches n (m.goto base) = l

namespace Touches

variable {m m' m'' : Machine} {c c' : Code} {l l' : List Touch}

/-- Code of which the accesses are known is passed. -/
theorem passes (h : m.Touches c l m') : m.Passes c m' := by
  refine ⟨h.1, fun base hm hat => ?_⟩
  obtain ⟨n, hreaches, _⟩ := h.2 base hm hat
  exact ⟨n, hreaches⟩

theorem nil (m : Machine) : m.Touches [] [] m := ⟨rfl, fun _ _ _ => ⟨0, .refl, rfl⟩⟩

theorem append (h : m.Touches c l m') (h' : m'.Touches c' l' m'') :
    m.Touches (c ++ c') (l ++ l') m'' := by
  refine ⟨h'.1.trans h.1, fun base hm hat => ?_⟩
  obtain ⟨hc, hc'⟩ := Code.at_append.mp hat
  obtain ⟨n, hn, hl⟩ := h.2 base hm hc
  obtain ⟨n', hn', hl'⟩ := h'.2 (base + c.length) (h.1 ▸ hm) (h.1 ▸ hc')
  refine ⟨n + n', ?_, by rw [hn.touches_add, hl, hl']⟩
  rw [Nat.add_assoc, ← List.length_append] at hn'
  exact hn.trans hn'

end Touches

/-! ## Single instructions -/

section

variable {m m' : Machine} {r b : Register} {offset : Word} {i : Nat}

/-- A load or a store is about to touch its address. -/
theorem touch?_goto {base : Nat} {op : Opcode} {c : Code}
    (hm : Code.Addressable m.code) (hb : b ≠ .pc)
    (hop : op = .ld ∨ op = .st) (h : Code.At m.code base (.memory op r offset b :: c)) :
    (m.goto base).touch? = some ⟨op, b, offset.toInt + (m.register b).toInt⟩ := by
  have hfetch := fetch?_goto hm h
  have hregister : ((m.goto base).setRegister .pc ((m.goto base).registers.pc + 1)).register
      b = m.register b := by
    rw [register_setRegister_of_ne _ hb, register_goto m hb]
  unfold touch?
  rcases hop with rfl | rfl
  · simp only [hfetch, hregister]
  · simp only [hfetch, hregister]

/-- A load or a store that succeeds touches its address. -/
theorem touches_of_perform {op : Opcode} (hb : b ≠ .pc) (hop : op = .ld ∨ op = .st)
    (hcode : m'.code = m.code) (haddress : offset.toInt + (m.register b).toInt = i)
    (h : ∀ base, (m.goto (base + 1)).perform base (.memory op r offset b) =
      (m'.goto (base + 1), .running)) :
    m.Touches [.memory op r offset b] [⟨op, b, i⟩] m' := by
  refine ⟨hcode, fun base hm hat => ⟨1, .single ?_, ?_⟩⟩
  · rw [pace_goto hm hat, h]
    rfl
  · rw [touches, touches, touch?_goto hm hb hop hat, haddress]
    rfl

theorem touches_ld (hr : r ≠ .pc) (hb : b ≠ .pc)
    (haddress : offset.toInt + (m.register b).toInt = i) (hi : i < m.memory.size) :
    m.Touches [.memory .ld r offset b] [⟨.ld, b, i⟩] (m.setRegister r (m.word i)) :=
  touches_of_perform hb (.inl rfl) rfl haddress (perform_ld hr hb haddress hi)

/-- A store touches one word. -/
theorem touches_st (hr : r ≠ .pc) (hb : b ≠ .pc)
    (haddress : offset.toInt + (m.register b).toInt = i) (hi : i < m.memory.size) :
    m.Touches [.memory .st r offset b] [⟨.st, b, i⟩] (m.put i (m.register r)) :=
  touches_of_perform hb (.inr rfl) rfl haddress (perform_st hr hb haddress hi)

end

/-! ## Copies -/

/-- The address `start + k` from the contents of `b` on is `dst + k`, for the first `n`
words. -/
def Targets (m : Machine) (b : Register) (start : Int) (dst n : Nat) : Prop :=
  ∀ k, k < n → (Int64.ofInt (start + k)).toInt + (m.register b).toInt = (dst + k : Nat)

/-- What a copy touches: each word of the source, and then the word of the target for it. -/
def copying (b : Register) (src dst : Int) (n : Nat) : List Touch :=
  (List.range n).flatMap fun (k : Nat) => [⟨.ld, .ac, src + k⟩, ⟨.st, b, dst + k⟩]

theorem copying_succ (b : Register) (src dst : Int) (n : Nat) :
    copying b src dst (n + 1) = copying b src dst n ++ [⟨.ld, .ac, src + n⟩] ++
    [⟨.st, b, dst + n⟩] := by
  simp [copying, List.range_succ]

/-- The words of a copy are touched in turn. They are copied as if at once, unless source and
target overlap partially. -/
theorem touches_copyWords {m : Machine} {b : Register} {start : Int} {src dst n : Nat}
    (hb : b ≠ .ac ∧ b ≠ .ac1 ∧ b ≠ .pc) (hac : (m.register .ac).toInt = src)
    (hdst : m.Targets b start dst n) (hn : (n : Int) ≤ Word.greatest)
    (hsrc_le : src + n ≤ m.memory.size) (hdst_le : dst + n ≤ m.memory.size) :
    ∃ m', m.Touches (Code.copyWords n start b) (copying b src dst n) m' ∧
    m.Same dst (dst + n) m' ∧
      (Layout.Aligned n src dst → ∀ k, k < n → m'.word (dst + k) = m.word (src + k)) := by
  -- After `j` words they stand in the target, and nothing else has changed.
  have hloop : ∀ j, j ≤ n →
      ∃ m', m.Touches (Code.copyWords j start b) (copying b src dst j) m' ∧
      m.Same dst (dst + j) m' ∧ m'.register .ac = m.register .ac ∧
      (Layout.Aligned n src dst → ∀ k, k < j → m'.word (dst + k) = m.word (src + k)) := by
    intro j hj
    induction j with
    | zero => exact ⟨m, .nil m, .refl .., rfl, fun _ k hk => absurd hk (Nat.not_lt_zero k)⟩
    | succ j ih =>
      obtain ⟨m₁, htouches, hsame, hac₁, hcopied⟩ := ih (by omega)
      have hsize₁ := hsame.size
      have hcode : Code.copyWords (j + 1 : Nat) start b =
          Code.copyWords j start b ++ [.memory .ld .ac1 (Int64.ofNat j) .ac] ++
            [.memory .st .ac1 (Int64.ofInt (start + j)) b] := by
        simp [Code.copyWords, Code.copyWord, List.range_succ]
      have hload : m₁.Touches [.memory .ld .ac1 (Int64.ofNat j) .ac]
          [⟨.ld, .ac, (src + j : Nat)⟩] (m₁.setRegister .ac1 (m₁.word (src + j))) := by
        refine touches_ld (by decide) (by decide) ?_ (by omega)
        rw [hac₁, hac, toInt_ofNat (by omega)]
        omega
      let m₂ := m₁.setRegister .ac1 (m₁.word (src + j))
      have hb₂ : m₂.register b = m.register b := by
        rw [register_setRegister_of_ne m₁ hb.2.1, hsame.register b hb.1 hb.2.1 hb.2.2]
      have hstore : m₂.Touches [.memory .st .ac1 (Int64.ofInt (start + j)) b]
          [⟨.st, b, (dst + j : Nat)⟩] (m₂.put (dst + j) (m₂.register .ac1)) :=
        touches_st (by decide) hb.2.2 (by rw [hb₂]; exact hdst j (by omega))
          (show dst + j < m₁.memory.size by omega)
      refine ⟨m₂.put (dst + j) (m₂.register .ac1), ?_, ?_, hac₁, ?_⟩
      · rw [hcode, copying_succ]
        exact (htouches.append hload).append hstore
      · have hsame' : m.Same dst (dst + (j + 1)) m₁ := hsame.mono (Nat.le_refl _) (by omega)
        exact (hsame'.trans (.setRegister (.inr rfl) ..)).trans
          (.put (by omega) (by omega) ..)
      · intro haligned k hk
        by_cases hkj : k = j
        · subst hkj
          rw [word_put_self (m := m₂) (show dst + k < m₁.memory.size by omega),
            register_setRegister_self]
          refine hsame.word _ ?_
          unfold Layout.Aligned at haligned
          omega
        · rw [word_put_of_ne _ (by omega)]
          exact hcopied haligned k (by omega)
  obtain ⟨m', htouches, hsame, _, hcopied⟩ := hloop n (Nat.le_refl n)
  exact ⟨m', htouches, hsame, hcopied⟩

end Machine

end BlockLang
