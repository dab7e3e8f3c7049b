import BlockLang.Proofs.Activations

/-!
# Frames that do not fit

The code of arguments goes straight on, whatever memory holds: it comes to its end or to a
fault, and the registers of the frame stay as they are. So a call whose frame does not fit
into memory comes to a fault, at the latest where the last word of the frame is stored.

* `Code.Straight` says this of a piece of code, for every machine. It is kept by putting
  pieces together (`Code.Straight.append`), holds of every instruction that computes,
  loads or stores (`Code.Straight.ld`, `Code.Straight.st`) and so of expressions
  (`Expr.straight_code`) and arguments (`Expr.straight_argumentsCode`). Nothing has to be
  known of addresses: one that is not in memory is a fault (`Machine.faults_access`).
* `Machine.faults_transfer`: the display is the last part of a frame, and its last word is
  stored before control is transferred. If the frame does not fit, this word is beyond
  memory.
-/

namespace BlockLang

/-! ## Straight code -/

/-- From any machine the code comes to its end or to a fault. -/
def Code.Straight (c : Code) : Prop :=
  ∀ m : Machine, (∃ m', m.Passes c m' ∧ m.Same 0 m.memory.size m') ∨ ∃ f, m.Faults c f

/-- An access outside memory is a fault. -/
theorem Machine.faults_access {m : Machine} {op : Opcode}
    (hop : op = .ld ∨ op = .st) {r b : Register} {offset : Word} (hb : b ≠ .pc)
    (hout : ¬ (0 ≤ offset.toInt + (m.register b).toInt ∧
        offset.toInt + (m.register b).toInt < m.memory.size)) :
    m.Faults [.memory op r offset b]
    (.dataOutOfRange (Word.clamp (offset.toInt + (m.register b).toInt))) := by
  intro base hm hat
  refine ⟨0, m.goto base, base, .refl, ?_⟩
  have hslot : (m.goto (base + 1)).slot offset ((m.goto (base + 1)).register b) base =
      .error (.dataOutOfRange (Word.clamp (offset.toInt + (m.register b).toInt)) base) := by
    rw [register_goto m hb]
    exact ((m.goto (base + 1)).slot_eq offset _ base).trans (if_neg hout)
  unfold Ends
  rw [pace_goto hm hat]
  rcases hop with rfl | rfl <;> simp only [perform, performMemory, hslot]

namespace Code.Straight

open Machine

theorem nil : Code.Straight [] := fun m => .inl ⟨m, .nil m, .refl ..⟩

theorem append {c c' : Code} (h : c.Straight) (h' : Code.Straight c') :
    Code.Straight (c ++ c') := by
  intro m
  rcases h m with ⟨m₁, hpass, hsame⟩ | ⟨f, hfaults⟩
  · rcases h' m₁ with ⟨m₂, hpass', hsame'⟩ | ⟨f, hfaults⟩
    · rw [hsame.size] at hsame'
      exact .inl ⟨m₂, hpass.append hpass', hsame.trans hsame'⟩
    · exact .inr ⟨f, hpass.faults hfaults⟩
  · exact .inr ⟨f, hfaults.append⟩

theorem cons {i : Instruction} {c : Code} (h : Code.Straight [i]) (h' : c.Straight) :
    Code.Straight (i :: c) := h.append h'

theorem flatMap {α : Type} {f : α → Code} (h : ∀ x, (f x).Straight) (xs : List α) :
    Code.Straight (xs.flatMap f) := by
  induction xs with
  | nil => exact .nil
  | cons x rest ih => exact (h x).append ih

theorem ldc {r : Register} (hr : r = .ac ∨ r = .ac1) (offset : Word) (b : Register) :
    Code.Straight [.memory .ldc r offset b] := fun m =>
  .inl ⟨_, passes_ldc m (by rcases hr with rfl | rfl <;> decide) offset b, .setRegister hr ..⟩

/-- A load comes through or faults. -/
theorem ld {r b : Register} (hr : r = .ac ∨ r = .ac1) (hb : b ≠ .pc) (offset : Word) :
    Code.Straight [.memory .ld r offset b] := by
  intro m
  by_cases hin : 0 ≤ offset.toInt + (m.register b).toInt ∧
    offset.toInt + (m.register b).toInt < m.memory.size
  · refine .inl ⟨_, passes_ld (by rcases hr with rfl | rfl <;> decide) hb ?_
      (Int.toNat_lt' (by omega) |>.mpr hin.2), .setRegister hr ..⟩
    exact (Int.toNat_of_nonneg hin.1).symm
  · exact .inr ⟨_, faults_access (.inl rfl) hb hin⟩

/-- A store comes through or faults. -/
theorem st {r b : Register} (hr : r ≠ .pc) (hb : b ≠ .pc) (offset : Word) :
    Code.Straight [.memory .st r offset b] := by
  intro m
  by_cases hin : 0 ≤ offset.toInt + (m.register b).toInt ∧
    offset.toInt + (m.register b).toInt < m.memory.size
  · obtain ⟨i, hi⟩ := Int.eq_ofNat_of_zero_le hin.1
    exact .inl ⟨_, passes_st hr hb hi (by omega), .put (Nat.zero_le i) (by omega) ..⟩
  · exact .inr ⟨_, faults_access (.inr rfl) hb hin⟩

/-- An operation comes through, or divides by zero. -/
theorem operate (op : BinaryOp) : (Code.operate op).Straight := by
  intro m
  have hyields := m.yields_operate op 0 m.memory.size
  cases op with
  | div =>
    by_cases hzero : m.register .ac = 0
    · exact .inr ⟨_, (fails_div (by decide) hzero).faults⟩
    · exact .inl ⟨_, passes_div (by decide) (by decide) (by decide) hzero,
        .setRegister (.inl rfl) ..⟩
  | _ =>
    obtain ⟨m', hpass, _, hsame⟩ := hyields
    exact .inl ⟨m', hpass, hsame⟩

theorem scaleIndex (low : Word) (size k : Int) : (Code.scaleIndex low size k).Straight := by
  intro m
  obtain ⟨m', hpass, _, hsame⟩ := m.passes_scaleIndex low size k 0 m.memory.size
  exact .inl ⟨m', hpass, hsame⟩

theorem addBase (v : Variable) : (Code.addBase v).Straight := by
  have hadd : Code.Straight [.register .add .ac .ac .ac1] := fun m =>
    .inl ⟨_, passes_arithmetic m (f := (· + ·)) rfl (by decide) (by decide) (by decide),
      .setRegister (.inl rfl) ..⟩
  unfold Code.addBase
  refine .append (.cons (.ld (.inr rfl) (by decide) _) ?_) hadd
  split
  · exact .ld (.inr rfl) (by decide) _
  · exact .nil

/-- A copy comes through or faults. -/
theorem copyWords (count start : Int) {b : Register} (hb : b ≠ .pc) :
    (Code.copyWords count start b).Straight :=
  .flatMap (fun k =>
    .cons (.ld (.inr rfl) (by decide) (Int64.ofNat k)) (.st (by decide) hb _)) _

end Code.Straight

section

variable {a : Analysis} {Γ : Names}

mutual

/-- Expressions go straight on. -/
theorem Expr.straight_code : ∀ (e : Expr) {t : Int} {c : Code}, e.code a t = .ok c →
    c.Straight
  | .const .., _, _, h => by
    cases h
    exact .ldc (.inl rfl) _ _
  | .ref r, _, _, h => by
    obtain ⟨address, haddress, rfl⟩ := Expr.code_ref_eq_ok h
    exact (Reference.straight_code r haddress).append (.ld (.inl rfl) (by decide) 0)
  | .binary _ op left right _, _, _, h => by
    obtain ⟨l, r, hl, hr, rfl⟩ := Expr.code_binary_eq_ok h
    refine ((Expr.straight_code left hl).append
      (.cons (.st (by decide) (by decide) _) ?_)).append ?_
    · exact Expr.straight_code right hr
    · exact .cons (.ld (.inr rfl) (by decide) _) (.operate op)

theorem Reference.straight_code :
    ∀ (r : Reference Expr) {t : Int} {c : Code}, r.code a t = .ok c → c.Straight
  | ⟨_, _, selector, _⟩, _, _, h => by
    obtain ⟨_, v, relative, _, _, hrelative, rfl⟩ := Reference.code_eq_ok h
    exact (Selector.straight_code selector hrelative).append (.addBase v)

theorem Selector.straight_code :
    ∀ (selector : Selector Expr) {t : Int} {v : Variable} {name : Ident} {span : Span}
    {c : Code}, selector.code a t v name span = .ok c → c.Straight
  | .whole, _, _, _, _, _, h => by
    cases h
    exact .ldc (.inl rfl) _ _
  | .element index, _, _, _, _, _, h => by
    obtain ⟨_, _, _, _, i, _, hi, rfl⟩ := Selector.code_element_eq_ok h
    exact (Expr.straight_code index hi).append (.scaleIndex _ _ _)
  | .field _, _, _, _, _, _, h => by
    obtain ⟨_, _, _, _, _, rfl⟩ := Selector.code_field_eq_ok h
    exact .ldc (.inl rfl) _ _
  | .fieldElement _ index, _, _, _, _, _, h => by
    obtain ⟨_, _, _, _, _, _, _, i, _, _, _, hi, rfl⟩ := Selector.code_fieldElement_eq_ok h
    exact (Expr.straight_code index hi).append (.scaleIndex _ _ _)

end

theorem Expr.StoreCode.straight {type : TypeId} {start : Int} {b : Register} (hb : b ≠ .pc)
    {e : Expr} {c : Code} (h : Expr.StoreCode a type start b e c) : c.Straight := by
  cases h with
  | word _ hc => exact (Expr.straight_code _ hc).append (.st (by decide) hb _)
  | words _ hc => exact (Reference.straight_code _ hc).append (.copyWords _ _ hb)

theorem Expr.straight_argumentsCode {params : List SymbolId} {args : List Expr}
    (hargs : List.Forall₂ (Expr.ResolvedFor a Γ) params args) :
    ∀ {c : Code}, Expr.argumentsCode a args params = .ok c → c.Straight := by
  induction hargs with
  | nil =>
    intro c hc
    cases hc
    exact .nil
  | @cons param arg _ _ harg _ ih =>
    intro c hc
    obtain ⟨c₁, c₂, hc₁, hc₂, rfl⟩ := Expr.argumentsCode_cons_eq_ok hc
    refine Code.Straight.append ?_ (ih hc₂)
    obtain ⟨v, _, hforms⟩ := Expr.argumentCode_eq_ok hc₁
    cases haccess : v.access with
    | direct =>
      rw [haccess] at hforms
      exact Expr.StoreCode.straight (by decide) hforms
    | indirect =>
      rw [haccess] at hforms
      obtain ⟨r, address, rfl, haddress, rfl⟩ := hforms
      exact (Reference.straight_code r haddress).append (.st (by decide) (by decide) _)

/-! ## Calls without room -/

open Machine in
/-- A call whose frame ends behind the memory comes to a fault. -/
theorem Machine.faults_transfer {m : Machine} {args : Code} (hargs : args.Straight) {t : Nat}
    (htop : m.register .top = Int64.ofNat t) (htop_le : t ≤ m.memory.size)
    (hsize : (m.memory.size : Int) ≤ Word.greatest)
    {p : Procedure} (hbase : 0 ≤ p.displayBase)
    (hframe : p.frameSize = p.displayBase + p.level + 1) (hfits : Word.Fits p.frameSize)
    (hlt : m.memory.size < t + p.frameSize) (entry start : Nat) :
    ∃ f, m.Faults (args ++ Code.transfer p entry start) f := by
  let resume := start + (Code.saveRegisters p).length + 2 +
    (Code.buildDisplay p ++ Code.enterFrame p).length + 1
  let first := args ++ (Code.saveRegisters p ++ Code.saveReturn resume ++
    (List.range p.level).flatMap (Code.copyDisplay p))
  let last : Instruction := .memory .st .top (Int64.ofInt (p.displayBase + p.level)) .top
  have hcode : args ++ Code.transfer p entry start = first ++ [last] ++ (Code.enterFrame p ++
      [.memory .lda .pc (Int64.ofNat entry - Int64.ofNat resume) .pc]) := by
    simp [first, last, resume, Code.transfer, Code.buildDisplay, Nat.add_assoc]
  have hst : ∀ {r : Register} (k : Word), r ≠ .pc → Code.Straight [.memory .st r k .top] :=
      fun k hr =>
    .st hr (by decide) k
  have hfirst : Code.Straight first := by
    refine hargs.append (.append (.append ?_ ?_) (.flatMap (fun k => ?_) _))
    · refine .cons (hst _ (by decide))
        (.cons (hst _ (by decide)) (.cons (hst _ (by decide)) (.cons (hst _ (by decide))
          (.cons (hst _ (by decide)) (.cons (.ldc (.inl rfl) _ _) (hst _ (by decide)))))))
    · exact .cons (.ldc (.inl rfl) _ _) (hst _ (by decide))
    · exact .cons (.ld (.inl rfl) (by decide) _) (hst _ (by decide))
  rw [hcode]
  rcases hfirst m with ⟨m₁, hpass, hsame⟩ | ⟨f, hfaults⟩
  · -- The last word of the frame lies behind the memory.
    have hlast : m₁.Faults [last] _ := faults_access (.inr rfl) (by decide) (by
      have hfits' : Word.Fits (p.displayBase + p.level) :=
        ⟨by unfold Word.least; omega, by have := hfits.2; omega⟩
      rw [hsame.register .top (by decide) (by decide) (by decide), htop, toInt_ofInt hfits',
        toInt_ofNat (by omega), hsame.size]
      omega)
    exact ⟨_, (hpass.faults hlast).append⟩
  · exact ⟨f, hfaults.append.append⟩

end

end BlockLang
