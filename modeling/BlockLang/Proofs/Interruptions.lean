import BlockLang.Proofs.Addressing

/-!
# What a division by zero leaves behind

Where an expression has no value because it divides by zero, the machine faults in the
midst of its code. Up to there the code has done what it does otherwise: it has changed
temporaries and nothing else.

`Machine.Breaks c f lo hi` says so of code `c` with the fault `f`: somewhere in `c` the
machine comes to it, and until then has changed the words from `lo` up to `hi` at most.

* Where there is no value: of the operations only division stops for this reason
  (`BinaryOp.apply_eq_divisionByZero`), and a reference only for its index
  (`Reference.divisionByZero_index`), since a source refuses addresses for another reason.
* `Expr.breaks`: by induction over the expression. If the left operand has no value, the
  code breaks in its midst, and what stands behind does not matter
  (`Machine.Breaks.append`). If the right one has none, the left one has been computed
  before (`Machine.Breaks.before`), and the temporary that holds it is one more word that
  has changed (`Machine.Breaks.mono`).
-/

namespace BlockLang

/-! ## Where there is no value -/

section

variable {a : Analysis} {x : Source}

/-- Only a division divides by zero. -/
theorem BinaryOp.apply_eq_divisionByZero {op : BinaryOp}
    {u v : Word} (h : op.apply u v = .error .divisionByZero) :
    op = .div ∧ v = 0 := by
  cases op with
  | div =>
    by_cases hv : v = 0
    · exact ⟨rfl, hv⟩
    · rw [show BinaryOp.apply .div u v = _ from if_neg hv] at h
      cases h
  | add | sub | mul | less | equal => cases h

/-- Only an index can divide by zero where an address is computed. -/
theorem Selector.divisionByZero_index {s : Selector Expr} {type : TypeId}
    (h : s.distanceIn a x type = .error .divisionByZero) :
    ∃ e, s.index? = some e ∧ e.valueIn a x = .error .divisionByZero := by
  have hdistance :
      ∀ {type : TypeId} {i : Word}, a.elementDistance type i ≠ .error .divisionByZero := by
    intro type i
    unfold Analysis.elementDistance
    split <;> simp
  have hfield : ∀ {type : TypeId} {name : String},
      a.fieldNamed type name ≠ .error .divisionByZero := by
    intro type name
    unfold Analysis.fieldNamed
    split
    · split <;> simp
    · simp
  cases s with
  | whole => cases h
  | element index =>
    rw [Selector.distanceIn] at h
    rcases Except.bind_eq_error h with hindex | ⟨i, _, h⟩
    · exact ⟨index, rfl, hindex⟩
    · exact absurd h hdistance
  | field name =>
    rw [Selector.distanceIn] at h
    rcases Except.bind_eq_error h with h | ⟨f, _, h⟩
    · exact absurd h hfield
    · cases h
  | fieldElement name index =>
    rw [Selector.distanceIn] at h
    rcases Except.bind_eq_error h with hindex | ⟨i, _, h⟩
    · exact ⟨index, rfl, hindex⟩
    rcases Except.bind_eq_error h with h | ⟨f, _, h⟩
    · exact absurd h hfield
    rcases Except.bind_eq_error h with h | ⟨d, _, h⟩
    · exact absurd h hdistance
    · cases h

/-- What cannot be read is out of bounds, so reading does not divide by zero. -/
theorem Source.start_ne_divisionByZero
    (hx : ∀ {address s}, x.read address = .error s → s = .outOfBounds) (v : Variable) :
    x.start v ≠ .error .divisionByZero := by
  intro h
  rcases Except.bind_eq_error h with h | ⟨frame, _, h⟩
  · cases hx h
  · cases haccess : v.access with
    | direct =>
      rw [haccess] at h
      cases h
    | indirect =>
      rw [haccess] at h
      cases hx h

/-- A reference divides by zero in its index only. -/
theorem Reference.divisionByZero_index
    (hx : ∀ {address s}, x.read address = .error s → s = .outOfBounds) {r : VarRef}
    (h : r.addressIn a x = .error .divisionByZero) :
    ∃ e, r.selector.index? = some e ∧ e.valueIn a x = .error .divisionByZero := by
  obtain ⟨node, name, selector, span⟩ := r
  cases hv : a.variableFor? node with
  | none =>
    unfold Analysis.variableFor? at hv
    rw [Reference.addressIn, hv] at h
    cases h
  | some v =>
    rw [Reference.addressIn_eq hv] at h
    rcases Except.bind_eq_error h with h | ⟨d, _, h⟩
    · exact Selector.divisionByZero_index h
    rcases Except.bind_eq_error h with h | ⟨w, _, h⟩
    · exact absurd h (Source.start_ne_divisionByZero hx v)
    · cases h

end

/-! ## Where the machine faults -/

namespace Machine

/-- The machine goes through a first part of `c`, changes no word there but those from `lo` up
to `hi`, and faults at the instruction behind it. -/
def Breaks (m : Machine) (c : Code) (f : Nat → Fault) (lo hi : Nat) : Prop :=
  ∃ c₁ i c₂ m', c = c₁ ++ i :: c₂ ∧ m.Passes c₁ m' ∧ m.Same lo hi m' ∧ m'.Fails i f

namespace Breaks

variable {m m' : Machine} {c c' : Code} {f : Nat → Fault} {lo hi : Nat}

theorem append (h : m.Breaks c f lo hi) (c' : Code) : m.Breaks (c ++ c') f lo hi := by
  obtain ⟨c₁, i, c₂, m', rfl, hrest⟩ := h
  exact ⟨c₁, i, c₂ ++ c', m', by simp, hrest⟩

/-- Code before the break, which changes temporaries only. -/
theorem before (hpass : m.Passes c m') (hsame : m.Same lo hi m') (h : m'.Breaks c' f lo hi) :
    m.Breaks (c ++ c') f lo hi := by
  obtain ⟨c₁, i, c₂, m₁, rfl, hpass', hsame', hfails⟩ := h
  exact ⟨c ++ c₁, i, c₂, m₁, by simp, hpass.append hpass', hsame.trans hsame', hfails⟩

theorem mono (h : m.Breaks c f lo hi) {hi' : Nat} (hle : hi ≤ hi') : m.Breaks c f lo hi' := by
  obtain ⟨c₁, i, c₂, m', hc, hpass, hsame, hfails⟩ := h
  exact ⟨c₁, i, c₂, m', hc, hpass, hsame.mono (Nat.le_refl _) hle, hfails⟩

end Breaks

/-- A reference faults in its index. -/
theorem Serves.breaks_ref {a : Analysis} {x : Source} {m : Machine} {lo hi : Nat} {t : Int}
    {r : VarRef} {c : Code} (h : m.Serves x lo hi) (hc : (Expr.ref r).code a t = .ok c)
    (hvalue : (Expr.ref r).valueIn a x = .error .divisionByZero)
    (hindex : ∀ e ci, r.selector.index? = some e → e.code a t = .ok ci →
      e.valueIn a x = .error .divisionByZero →
      m.Breaks ci .divisionByZero lo hi) : m.Breaks c .divisionByZero lo hi := by
  obtain ⟨address, haddress, rfl⟩ := Expr.code_ref_eq_ok hc
  obtain ⟨v, ci, rest, _, hci, rfl, _⟩ := Reference.code_split haddress
  rw [Expr.valueIn] at hvalue
  have haddressIn : r.addressIn a x = .error .divisionByZero := by
    rcases Except.bind_eq_error hvalue with hvalue | ⟨w, _, hvalue⟩
    · exact hvalue
    · cases h.refused hvalue
  obtain ⟨e, he, hevalue⟩ := Reference.divisionByZero_index h.refused haddressIn
  unfold Selector.indexCode at hci
  rw [he] at hci
  exact ((hindex e ci he hci hevalue).append rest).append _

end Machine

open Machine in
/-- The code of an expression changes nothing but temporaries before it divides by zero. -/
theorem Expr.breaks {a : Analysis} {x : Source}
    {lo : Nat} {e : Expr} (hlevels : e.Levelled a x) :
    ∀ {t : Int} {hi : Nat} {m : Machine} {c : Code}, t ≤ 0 → m.Serves x lo hi →
    m.Spares t lo hi e.depth →
      e.code a t = .ok c → e.valueIn a x = .error .divisionByZero →
      m.Breaks c .divisionByZero lo hi := by
  induction e with
  | const node value span =>
    intro t hi m c _ _ _ _ hvalue
    rw [Expr.valueIn] at hvalue
    cases hvalue
  | whole node name span | field node name field span =>
    intro t hi m c _ h _ hc hvalue
    refine h.breaks_ref hc hvalue ?_
    intro e ci he
    cases he
  | element node name index span ih | fieldElement node name field index span ih =>
    intro t hi m c ht h hspares hc hvalue
    refine h.breaks_ref hc hvalue ?_
    intro e ci he hci hevalue
    cases he
    exact ih (fun hr => hlevels (List.mem_cons_of_mem _ hr)) ht h hspares hci hevalue
  | binary node op left right span ihl ihr =>
    intro t hi m c ht h hspares hc hvalue
    have hl : left.Levelled a x :=
      fun hr => hlevels (List.mem_cons_of_mem _ (List.mem_append_left _ hr))
    have hr : right.Levelled a x :=
      fun hr => hlevels (List.mem_cons_of_mem _ (List.mem_append_right _ hr))
    obtain ⟨cl, cr, hcl, hcr, rfl⟩ := Expr.code_binary_eq_ok hc
    have hspares₁ : m.Spares t lo hi left.depth := hspares.mono (Nat.le_max_left ..)
    have hspares : m.Spares t lo hi (right.depth + 1) := hspares.mono (Nat.le_max_right ..)
    rw [Expr.valueIn] at hvalue
    rw [List.append_assoc, List.cons_append]
    -- The left operand divides by zero, or the right one does while the left one waits, or
    -- the operation itself does.
    rcases Except.bind_eq_error hvalue with hleft | ⟨u, hu, hvalue⟩
    · exact (ihl hl ht h hspares₁ hcl hleft).append _
    have hyields := (Expr.evaluates hl ht h hspares₁).1 cl hcl
    rw [hu] at hyields
    obtain ⟨m₁, hpass₁, rfl, hsame₁⟩ := hyields
    obtain ⟨m₂, hsave, hsame₂, hspares₂, hword₂⟩ := hspares.saves ht hsame₁
    have h₂ := (h.same hsame₂).mono (Nat.sub_le hi 1)
    rw [← List.singleton_append, ← List.append_assoc]
    rcases Except.bind_eq_error hvalue with hright | ⟨v, hv, happly⟩
    · have hbreaks := (ihr hr (by omega) h₂ hspares₂ hcr hright).mono (Nat.sub_le hi 1)
      exact .before (hpass₁.append hsave) hsame₂ (hbreaks.append _)
    have hyields := (Expr.evaluates hr (by omega) h₂ hspares₂).1 cr hcr
    rw [hv] at hyields
    obtain ⟨m₃, hpass₃, rfl, hsame₃⟩ := hyields
    obtain ⟨hload, hsame₄⟩ := hspares.restores ht hsame₂ hsame₃ hword₂
    obtain ⟨rfl, hzero⟩ := BinaryOp.apply_eq_divisionByZero happly
    have hfails : (m₃.setRegister .ac1 (m₁.register .ac)).Fails
        (.register .div .ac .ac1 .ac) .divisionByZero :=
      fails_div (by decide) hzero
    refine ⟨_, _, [], _, ?_, ((hpass₁.append hsave).append hpass₃).append hload,
      hsame₄, hfails⟩
    simp [Code.operate]

end BlockLang
