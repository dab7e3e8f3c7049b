import BlockLang.Proofs.Blocks
import BlockLang.Proofs.Loading

/-!
# Arguments in a new frame

An argument is stored behind the running frame, at the offset that its parameter has in
the new one: all words of its value, or its address. The temporaries lie behind the new
frame, so that storing one argument changes neither what the next one reads nor what an
earlier one has passed.

* `Expr.passed` gives the words that an argument passes, computed from the words below a
  limit, and `Machine.Carries` says that they stand in the slot of the parameter.
* What stops an argument is that it reads beyond the limit or divides by zero
  (`Expr.ResolvedFor.readable`), and nothing else: no accepted program is ill-formed.
* `Expr.argumentCode_eq_ok` takes the code of an argument apart, and
  `Machine.Views.yields_passed` says that it stores what is passed.
* `Machine.Views.yields_passedAll`: all arguments, by induction on them. Slots follow each
  other, so what is carried already stays (`Machine.Carries.mono_all`).
-/

namespace BlockLang

/-- The words that an argument passes to a parameter: its value, or its address. -/
def Expr.passed (a : Analysis) (x : View) (v : Variable) (e : Expr) :
    Except Stop (List Word) :=
  match v.access with
  | .direct => e.loadAll a x v.type
  | .indirect =>
    match e.asRef? with
    | some r => do return [← r.address a x]
    | none => .error .illFormed

/-- What the arguments pass to the parameters, one after the other. -/
def Expr.passedAll (a : Analysis) (x : View) : List Variable → List Expr →
    Except Stop (List (List Word))
  | v :: rest, e :: args => do
    let words ← e.passed a x v
    let others ← Expr.passedAll a x rest args
    return words :: others
  | _, _ => return []

/-! ## What stops an argument -/

section

variable {a : Analysis} {Γ : Names}

/-- A resolved expression is stopped by an address or a division only. -/
theorem Expr.Resolved.readable {e : Expr} {type : TypeId}
    (he : e.Resolved a Γ type) (x : View) :
    Readable (e.load a x) ∧ ∀ r, e = .ref r → Readable (r.address a x) := by
  obtain ⟨hvalue, haddress⟩ := he.readableIn (x := x.source) fun _ _ hs =>
    .inl (View.refused_of_read hs)
  refine ⟨Expr.load_eq a x e ▸ hvalue, ?_⟩
  intro r hr
  rw [Reference.address_eq]
  exact haddress r hr

theorem Expr.ResolvedFor.readable (hbuiltins : ({} : TypeTable) ≤ a.types)
    {id : SymbolId} {v : Variable} {e : Expr}
    (he : e.ResolvedFor a Γ id) (hid : a.symbols.variableAt? id = some v) (x : View) :
    Readable (e.passed a x v) := by
  obtain ⟨v', hid', href, hresolved⟩ := he
  rw [hid] at hid'
  cases hid'
  obtain ⟨hload, haddress⟩ := hresolved.readable x
  unfold Expr.passed
  cases haccess : v.access with
  | direct =>
    dsimp only
    unfold Expr.loadAll
    by_cases hsize : a.types.size v.type = 1
    · rw [if_pos hsize]
      exact hload.bind fun _ => .ok _
    · obtain ⟨r, rfl⟩ := hresolved.asRef?_isSome hbuiltins hsize
      rw [if_neg hsize]
      exact (haddress r rfl).bind fun _ => .ite (.ok _)
  | indirect =>
    obtain ⟨r, hr⟩ := Option.isSome_iff_exists.mp (href haccess)
    cases e with
    | ref r' => exact (haddress r' rfl).bind fun _ => .ok _
    | const => cases hr
    | binary => cases hr

theorem Expr.readable_passedAll (hbuiltins : ({} : TypeTable) ≤ a.types)
    {params : List SymbolId} {args : List Expr}
    (hargs : List.Forall₂ (Expr.ResolvedFor a Γ) params args) (x : View) :
    Readable (Expr.passedAll a x (a.variables params) args) := by
  induction hargs with
  | nil => exact .ok _
  | @cons param e params args he _ ih =>
    obtain ⟨v, hid, _⟩ := id he
    have hvariables : a.variables (param :: params) = v :: a.variables params :=
      List.filterMap_cons_some hid
    rw [hvariables, Expr.passedAll]
    exact (he.readable hbuiltins hid x).bind fun _ => ih.bind fun _ => .ok _

end

/-! ## Storing arguments -/

/-- The words of a variable stand in its slot of the frame at `t`. -/
def Machine.Carries (a : Analysis) (t : Nat) (m : Machine) (v : Variable)
    (words : List Word) : Prop :=
  words.length = a.words v ∧ ∀ k w, words[k]? = some w → m.word (t + v.offset.toNat + k) = w

namespace Machine.Carries

variable {a : Analysis} {t : Nat} {m m' : Machine}

/-- Only the words of the slot matter. -/
theorem mono {v : Variable} {words : List Word} (h : m.Carries a t v words)
    (hoffset : 0 ≤ v.offset) (hword : ∀ i : Nat, t + v.offset ≤ i →
      i < t + v.offset + a.words v → m'.word i = m.word i) :
    m'.Carries a t v words := by
  obtain ⟨hlength, hwords⟩ := h
  refine ⟨hlength, fun k w hk => ?_⟩
  have hlt := (List.getElem?_eq_some_iff.mp hk).1
  rw [hword _ (by omega) (by omega)]
  exact hwords k w hk

/-- Slots that are filled stay so while later ones are filled. -/
theorem mono_all {level : Nat} {start stop : Int} {vs : List Variable}
    {passed : List (List Word)} (h : List.Forall₂ (m.Carries a t) vs passed)
    (hlined : a.Lined level start vs stop) (hstart : 0 ≤ start)
    (hword : ∀ i : Nat, t + start ≤ i → i < t + stop → m'.word i = m.word i) :
    List.Forall₂ (m'.Carries a t) vs passed := by
  induction h generalizing start with
  | nil => exact .nil
  | cons hfirst _ ih =>
    obtain ⟨hoffset, _, hwords, _, hrest⟩ := hlined
    have hle := hrest.le
    refine .cons (hfirst.mono (by omega) fun i hi hi' => hword i (by omega) (by omega)) ?_
    exact ih hrest (by omega) fun i hi hi' => hword i (by omega) hi'

end Machine.Carries

section

variable {a : Analysis} {Γ : Names} {x : View} {lo hi t : Nat}

/-- The forms of the code that stores an argument. -/
theorem Expr.argumentCode_eq_ok {id : SymbolId} {e : Expr}
    {c : Code} (hc : e.argumentCode a id = .ok c) :
    ∃ v, a.symbols.variableAt? id = some v ∧ match v.access with
      | .direct => Expr.StoreCode a v.type v.offset .top e c
      | .indirect => ∃ r address, e = .ref r ∧ r.code a 0 = .ok address ∧
          c = address ++ [.memory .st .ac (Int64.ofInt v.offset) .top] := by
  unfold Expr.argumentCode at hc
  obtain ⟨v, hv, hc⟩ := Except.bind_eq_ok hc
  refine ⟨v, Analysis.variableOf_ok hv, ?_⟩
  cases haccess : v.access with
  | direct =>
    rw [haccess] at hc
    dsimp only at hc ⊢
    by_cases hsize : a.types.size v.type = 1
    · rw [if_pos hsize] at hc
      obtain ⟨cv, hcv, hc⟩ := Except.bind_eq_ok hc
      cases hc
      exact .word hsize hcv
    · rw [if_neg hsize] at hc
      cases e with
      | ref r =>
        obtain ⟨cr, hcr, hc⟩ := Except.bind_eq_ok hc
        cases hc
        exact .words hsize hcr
      | const => cases hc
      | binary => cases hc
  | indirect =>
    rw [haccess] at hc
    dsimp only at hc ⊢
    cases e with
    | ref r =>
      obtain ⟨address, haddress, hc⟩ := Except.bind_eq_ok hc
      cases hc
      exact ⟨r, address, rfl, haddress, rfl⟩
    | const => cases hc
    | binary => cases hc

open Machine in
/-- An argument is stored in the slot of its parameter, at `dst` behind the running frame. -/
theorem Machine.Views.yields_passed {m : Machine}
    (h : m.Views x) {id : SymbolId} {v : Variable}
    (hid : a.symbols.variableAt? id = some v) {e : Expr} (he : e.ResolvedFor a Γ id)
    (hoffers : m.Offers 0 lo hi e.depth) {c : Code} (hc : e.argumentCode a id = .ok c)
    (htop : m.register .top = Int64.ofNat t) (hlimit : x.limit ≤ t) (hlo : t ≤ lo)
    {dst n : Nat} (hdst : (t : Int) + v.offset = dst) (hoffset : 0 ≤ v.offset)
    (hn : a.words v = n) (hle : dst + n ≤ m.memory.size) :
    m.Yields c (e.passed a x v) fun words m' => m'.Carries a t v words ∧
    m.Writes lo dst n m' := by
  obtain ⟨v', hid', hforms⟩ := Expr.argumentCode_eq_ok hc
  cases hid.symm.trans hid'
  obtain ⟨v', hid', _, hresolved⟩ := he
  cases hid.symm.trans hid'
  have hsize := h.size_le
  have hslot : t + v.offset.toNat = dst := by omega
  have htargets : m.Targets .top v.offset dst n := by
    intro k hk
    rw [htop, toInt_ofNat (by omega), toInt_ofInt ⟨by unfold Word.least; omega, by omega⟩]
    omega
  unfold Expr.passed
  unfold Carries
  rw [hslot, hn]
  unfold Analysis.words at hn
  -- A parameter that holds a value gets its words, and one that is a reference gets the
  -- address, in one word.
  cases haccess : v.access with
  | direct =>
    rw [haccess] at hforms hn
    refine (h.yields_store hresolved (by omega) hoffers hforms (by decide) hn htargets hle
      ?_).mono ?_
    · intro r address words _ _ _ src _ hsrc
      unfold Layout.Aligned
      omega
    · rintro words m' ⟨hlength, hwords, hwrites⟩
      exact ⟨⟨by rw [hlength], hwords⟩, hwrites⟩
  | indirect =>
    rw [haccess] at hforms hn
    obtain ⟨r, address, rfl, haddress, rfl⟩ := hforms
    obtain rfl : n = 1 := by
      have : (1 : Int) = n := hn
      omega
    refine ((hresolved.loads (d := 0) h (by omega) hoffers).2 r rfl address haddress).bind ?_
    rintro w m₁ ⟨rfl, hsame⟩
    have hlt : dst < m₁.memory.size := by rw [hsame.size]; omega
    have hstore := (htargets.same (by decide) hsame).passes_st (by decide) hlt
    refine ⟨_, hstore, ⟨rfl, fun k w hk => ?_⟩,
      .of_same hsame (.put (Nat.le_refl _) (by omega) ..)⟩
    cases k with
    | zero =>
      cases hk
      exact word_put_self hlt _
    | succ k => cases hk

/-- All arguments are stored, in the order of the parameters. -/
theorem Machine.Views.yields_passedAll {level : Nat} {stop : Int} {stop' : Nat}
    (hstop : (t : Int) + stop = stop') (hlimit : x.limit ≤ t)
    (hle : stop' ≤ lo) {params : List SymbolId}
    {args : List Expr} (hargs : List.Forall₂ (Expr.ResolvedFor a Γ) params args) :
    ∀ {m : Machine} {c : Code} {start : Int} {start' : Nat}, m.Views x →
    m.Offers 0 lo hi (Expr.depthAll args) →
      Expr.argumentsCode a args params = .ok c →
      m.register .top = Int64.ofNat t → lo ≤ m.memory.size →
      a.Lined level start (a.variables params) stop → 0 ≤ start → (t : Int) + start = start' →
      m.Yields c (Expr.passedAll a x (a.variables params) args) fun passed m' =>
        List.Forall₂ (m'.Carries a t) (a.variables params) passed ∧
            m.Writes lo start' (stop' - start') m' := by
  induction hargs with
  | nil =>
    intro m c start start' h _ hc _ _ _ _ _
    cases hc
    exact ⟨m, .nil m, .nil, .refl ..⟩
  | @cons param e params args he _ ih =>
    intro m c start start' h hoffers hc htop hsize hlined hnonneg hstart
    obtain ⟨v, hid, _⟩ := id he
    have hvariables : a.variables (param :: params) = v :: a.variables params :=
      List.filterMap_cons_some hid
    rw [hvariables] at hlined ⊢
    obtain ⟨hoffset, _, hwords, _, hrest⟩ := hlined
    have hrest_le := hrest.le
    obtain ⟨c₁, c₂, hc₁, hc₂, rfl⟩ := Expr.argumentsCode_cons_eq_ok hc
    obtain ⟨n, hn⟩ := Int.eq_ofNat_of_zero_le hwords
    have hdst : (t : Int) + v.offset = start' := by omega
    refine (h.yields_passed hid he (hoffers.mono (Nat.le_max_left ..)) hc₁ htop hlimit
      (by omega) hdst (by omega) hn (by omega)).bind ?_
    rintro words m₁ ⟨hcarries, hwrites₁⟩
    have h₁ := h.writes hwrites₁ (by omega) (by omega)
    have htop₁ := (hwrites₁.register .top (by decide) (by decide) (by decide)).trans htop
    have hnext : (t : Int) + (start + a.words v) = (start' + n : Nat) := by omega
    refine (ih h₁ ((hoffers.mono (Nat.le_max_right ..)).writes hwrites₁) hc₂ htop₁
      (by rwa [hwrites₁.size]) hrest (by omega) hnext).andThen ?_
    rintro passed m₂ ⟨hothers, hwrites₂⟩
    refine ⟨m₂, .nil m₂, .cons (hcarries.mono (by omega) fun i hi hi' => ?_) hothers, ?_⟩
    · -- The later arguments are stored behind this one.
      exact hwrites₂.word _ (by omega) (.inl (by omega))
    · exact (hwrites₁.mono (Nat.le_refl _) (by omega)).trans
        (hwrites₂.mono (by omega) (by omega))

end

end BlockLang
