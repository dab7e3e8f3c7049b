import BlockLang.Proofs.Frames
import BlockLang.Proofs.Passing
import BlockLang.Proofs.Placement
import BlockLang.Proofs.Statements

/-!
# Code of calls

A call stores its arguments behind the running frame, at the offsets that the parameters
have in the new frame. Then it fills in the header and the display of the new frame, makes
it the running one and jumps. The procedure comes back to the address in the header, where
the caller's registers are restored from the frame that is left.

* Arguments: `Machine.Hosts.refines_argument` compares what is passed with what the
  interpreter passes, and `Machine.Hosts.yields_arguments` says that the code stores it.
  What is stored for one argument is not read by the next, since it lies behind the
  running frame (`Machine.Hosts.writes`).
* Header: `Machine.passes_saveRegisters` and `Machine.passes_saveReturn`, by induction on
  the registers that are stored.
* Display: `Machine.passes_buildDisplay` copies the entries of the levels around the
  procedure and adds the new frame, by induction on the level.
* `Machine.reaches_transfer`: all of it, from the end of the arguments to the entry of the
  procedure. `Machine.Enters` collects what is known of the machine there.
-/

namespace BlockLang

section

variable {a : Analysis} {final : Linkage} {s : Stage} {m m' m'' : Machine} {env : Env}
    {Γ : Names} {σ : Storage}

/-! ## Arguments -/

/-- Behind the running frame words may be written. -/
theorem Machine.Hosts.writes (h : m.Hosts a final s env Γ σ)
    {lo dst n : Nat} (hwrites : m.Writes lo dst n m')
    (hlo : s.top ≤ lo) (hdst : s.top ≤ dst) : m'.Hosts a final s env Γ σ := by
  refine h.keeps (hwrites.keeps hlo fun i hi _ hlt => by omega)
    (h.holds.mono fun r hr i hi => ?_)
  have hle := h.ordered.le r hr
  exact hwrites.word i (by have := hi.2; omega) (by have := hi.2; omega)

/-- What an argument passes is what the parameter gets. -/
theorem Machine.Hosts.refines_argument
    (hbuiltins : ({} : TypeTable) ≤ a.types) (h : m.Hosts a final s env Γ σ)
    {id : SymbolId} {type : TypeId} {mode : ParamMode} {level : Nat} {offset : Int}
    (hid : a.symbols.variableAt? id = some ⟨type, mode.access, level, offset⟩) {e : Expr}
    (he : e.ResolvedFor a Γ id) (t : Nat) : Refines (fun arg words =>
      ∀ m' : Machine, m'.Carries a t ⟨type, mode.access, level, offset⟩ words →
        arg.Stands a s.rooms m' type (t + offset.toNat) mode)
      (e.argument env σ mode) (e.passed a (s.view m) ⟨type, mode.access, level, offset⟩) := by
  obtain ⟨v, hid', href, hresolved⟩ := he
  rw [hid] at hid'
  cases hid'
  cases mode with
  | value =>
    refine (hresolved.refines_value hbuiltins h).before ?_
    rintro ⟨lay, words⟩ _ ⟨hlays, rfl⟩
    refine ⟨.value lay words, rfl, fun m' hcarries => ⟨hlays, ?_, hcarries.2⟩⟩
    have hlength : (words.length : Int) = a.types.size type := hcarries.1
    rw [hlays.size_eq] at hlength
    exact Int.ofNat.inj hlength
  | reference =>
    cases e with
    | ref r =>
      refine ((hresolved.refines h).2 r rfl).bind ?_
      rintro p _ ⟨target, hp, rfl, hlays⟩
      exact .of_ok fun m' hcarries => ⟨hlays, target, hp, hcarries.2 0 _ rfl⟩
    | const => cases href rfl
    | binary => cases href rfl

theorem Machine.Hosts.refines_arguments
    (hbuiltins : ({} : TypeTable) ≤ a.types) (h : m.Hosts a final s env Γ σ)
    {level : Nat} {l l' : Layer} {formals : List (ParamMode × String)} {ids : List SymbolId}
    (hbinds : l.Binds a level formals ids l') (t : Nat) : ∀ {args : List Expr}, 0 ≤ l.offset →
    List.Forall₂ (Expr.ResolvedFor a Γ) ids args → Refines (fun vals passed =>
      ∀ m' : Machine, List.Forall₂ (m'.Carries a t) (a.variables ids) passed →
        m'.Receives a s.rooms t level l formals vals l')
      (Expr.arguments env σ formals args)
      (Expr.passedAll a (s.view m) (a.variables ids) args) := by
  induction hbinds with
  | nil =>
    intro args _ hargs
    cases hargs
    exact .of_ok fun m' _ => .nil
  | @cons Γ' offset mode name id type formals ids l' hid hslot _ ih =>
    intro args hoffset hargs
    dsimp only at hoffset
    cases hargs with
    | @cons _ e _ args he hargs =>
      have hvariables : a.variables (id :: ids) = _ :: a.variables ids :=
        List.filterMap_cons_some hid
      rw [hvariables]
      refine (h.refines_argument hbuiltins hid he t).bind fun arg words harg => ?_
      refine (ih (by dsimp only; omega) hargs).bind fun vals passed hvals =>
        .of_ok fun m' hcarries => ?_
      cases hcarries with
      | cons hfirst hothers => exact .cons hid (by omega) (harg m' hfirst) (hvals m' hothers)

/-- All arguments are stored, in the order of the parameters. -/
theorem Machine.Hosts.yields_arguments
    (hbuiltins : ({} : TypeTable) ≤ a.types) (h : m.Hosts a final s env Γ σ)
    {level : Nat} {l l' : Layer} {formals : List (ParamMode × String)} {ids : List SymbolId}
    (hbinds : l.Binds a level formals ids l')
    (hlined : a.Lined level l.offset (a.variables ids) l'.offset) {args : List Expr}
    (hargs : List.Forall₂ (Expr.ResolvedFor a Γ) ids args) {lo hi floor : Nat}
    (hfits : Demand.Fits m.memory.size ⟨floor, Expr.depthAll args⟩) {c : Code}
    (hc : Expr.argumentsCode a args ids = .ok c) (hoffset : 0 ≤ l.offset)
    (hlo : (s.top : Int) + l.offset = lo) (hhi : (s.top : Int) + l'.offset = hi)
    (hle : hi ≤ floor) (hfloor : floor ≤ m.memory.size) :
    m.Yields c (Expr.arguments env σ formals args) fun vals m' =>
      m'.Receives a s.rooms s.top level l formals vals l' ∧
          m.Writes floor lo (hi - lo) m' := by
  refine ((h.refines_arguments hbuiltins hbinds s.top hoffset hargs).yields fun _ =>
    h.views.yields_passedAll hhi (Nat.le_refl _) hle hargs
      (h.offers hfits) hc h.top hfloor hlined hoffset hlo).mono ?_
  rintro vals m' ⟨passed, hreceives, hcarries, hwrites⟩
  exact ⟨hreceives m' hcarries, hwrites⟩

end

/-! ## The new frame -/

/-- The code that stores registers one behind the other in the new frame, from slot `k` on. -/
def Code.storeAll (k : Nat) : List Register → Code
  | [] => []
  | r :: rest => .memory .st r (Int64.ofNat k) .top :: Code.storeAll (k + 1) rest

namespace Machine

section

variable {m : Machine} {t : Nat} {p : Procedure}

/-- A register is stored in the new frame. -/
theorem passes_stTop {r : Register} {k : Nat}
    (hr : r ≠ .pc) (htop : m.register .top = Int64.ofNat t)
    (hlt : t + k < m.memory.size) (hsize : (m.memory.size : Int) ≤ Word.greatest) :
    m.Passes [.memory .st r (Int64.ofNat k) .top] (m.put (t + k) (m.register r)) := by
  refine passes_st hr (by decide) ?_ hlt
  rw [htop, toInt_ofNat (by omega), toInt_ofNat (by omega)]
  omega

theorem passes_storeAll (rs : List Register) (hrs : .pc ∉ rs)
    (htop : m.register .top = Int64.ofNat t) (hsize : (m.memory.size : Int) ≤ Word.greatest)
    {k : Nat} (hle : t + k + rs.length ≤ m.memory.size) :
    ∃ m', m.Passes (Code.storeAll k rs) m' ∧ m.Same (t + k) (t + k + rs.length) m' ∧
      (∀ r, m'.register r = m.register r) ∧ ∀ j r, rs[j]? = some r →
      m'.word (t + k + j) = m.register r := by
  induction rs generalizing m k with
  | nil => exact ⟨m, .nil m, .refl .., fun _ => rfl, nofun⟩
  | cons r rest ih =>
    have hr : r ≠ .pc := Ne.symm (List.ne_of_not_mem_cons hrs)
    have hrest := List.not_mem_of_not_mem_cons hrs
    rw [List.length_cons] at hle ⊢
    obtain ⟨m', hpass, hsame, hregister, hword⟩ :=
      ih (m := m.put (t + k) (m.register r)) (k := k + 1) hrest htop
      (by rwa [size_put]) (by rw [size_put]; omega)
    refine ⟨m', .cons (passes_stTop hr htop (by omega) hsize) hpass, ?_, hregister,
      fun j r' hj => ?_⟩
    · exact (Same.put (Nat.le_refl _) (by omega) ..).trans (hsame.mono (by omega) (by omega))
    · cases j with
      | zero =>
        cases hj
        rw [hsame.word _ (by omega), Nat.add_zero, word_put_self (by omega)]
      | succ j =>
        have heq : t + k + (j + 1) = t + (k + 1) + j := by omega
        rw [heq]
        exact hword j r' hj

/-- The header gets the registers of the caller. -/
theorem passes_saveRegisters (htop : m.register .top = Int64.ofNat t)
    (hlt : t + 6 < m.memory.size) (hsize : (m.memory.size : Int) ≤ Word.greatest) :
    ∃ m', m.Passes (Code.saveRegisters p) m' ∧ m.Same t (t + 6) m' ∧
      (∀ j r, [Register.sp, .ac, .ac1, .ac2, .displayOff][j]? = some r →
        m'.word (t + j) = m.register r) ∧ m'.word (t + 5) = Int64.ofNat p.level := by
  obtain ⟨m₁, hpass₁, hsame₁, hregister, hword⟩ := passes_storeAll (m := m) (k := 0)
    [.sp, .ac, .ac1, .ac2, .displayOff] (by decide) htop hsize (by simp; omega)
  let m₂ := m₁.setRegister .ac (Int64.ofNat p.level)
  have hpass₂ : m₁.Passes [.memory .ldc .ac (Int64.ofNat p.level) .ac] m₂ :=
    passes_ldc m₁ (by decide) _ _
  have hstore :
      m₂.Passes [.memory .st .ac (Int64.ofNat 5) .top] (m₂.put (t + 5) (m₂.register .ac)) :=
    passes_stTop (by decide) ((hregister .top).trans htop)
      (by rw [memory_setRegister, hsame₁.size]; omega)
      (by rwa [memory_setRegister, hsame₁.size])
  refine ⟨_, (hpass₁.append hpass₂).append hstore, ?_, ?_, ?_⟩
  · exact ((hsame₁.mono (by omega) (by simp)).trans (.setRegister (.inl rfl) ..)).trans
      (.put (by omega) (by omega) ..)
  · intro j r hj
    have hlt := (List.getElem?_eq_some_iff.mp hj).1
    rw [word_put_of_ne _ (by simp at hlt; omega), word_setRegister]
    exact hword j r hj
  · rw [word_put_self (by rw [memory_setRegister, hsame₁.size]; omega),
      register_setRegister_self]

/-- The header gets the address to come back to. -/
theorem passes_saveReturn (htop : m.register .top = Int64.ofNat t)
    (hlt : t + 6 < m.memory.size)
    (hsize : (m.memory.size : Int) ≤ Word.greatest) (address : Nat) :
    ∃ m', m.Passes (Code.saveReturn address) m' ∧ m.Same (t + 6) (t + 7) m' ∧
      m'.word (t + 6) = Int64.ofNat address := by
  let m₁ := m.setRegister .ac (Int64.ofNat address)
  have hload : m.Passes [.memory .ldc .ac (Int64.ofNat address) .ac] m₁ :=
    passes_ldc m (by decide) _ _
  have hstore :
      m₁.Passes [.memory .st .ac (Int64.ofNat 6) .top] (m₁.put (t + 6) (m₁.register .ac)) :=
    passes_stTop (by decide) htop hlt hsize
  refine ⟨_, hload.append hstore, ?_, ?_⟩
  · exact (Same.setRegister (.inl rfl) ..).trans (.put (by omega) (by omega) ..)
  · exact (word_put_self (m := m₁) hlt _).trans (register_setRegister_self ..)

/-- The display of the caller, up to the level of the procedure, and the base of the new frame
behind it. -/
theorem passes_buildDisplay {d b : Nat} (htop : m.register .top = Int64.ofNat t)
    (hdisplay : m.register .displayOff = Int64.ofNat d)
    (hd : d + p.level ≤ t) (hb : p.displayBase = b)
    (hlt : t + b + p.level < m.memory.size) (hsize : (m.memory.size : Int) ≤ Word.greatest) :
    ∃ m', m.Passes (Code.buildDisplay p) m' ∧ m.Same (t + b) (t + b + p.level + 1) m' ∧
      (∀ k, k < p.level → m'.word (t + b + k) = m.word (d + k)) ∧
      m'.word (t + b + p.level) = Int64.ofNat t := by
  -- After `j` words of the caller's display nothing else has changed.
  have hloop : ∀ j, j ≤ p.level →
      ∃ m', m.Passes ((List.range j).flatMap (Code.copyDisplay p)) m' ∧
      m.Same (t + b) (t + b + j) m' ∧ ∀ k, k < j → m'.word (t + b + k) = m.word (d + k) := by
    intro j hj
    induction j with
    | zero => exact ⟨m, .nil m, .refl .., nofun⟩
    | succ j ih =>
      obtain ⟨m₁, hpass, hsame, hcopied⟩ := ih (by omega)
      have hsize₁ := hsame.size
      let m₂ := m₁.setRegister .ac (m₁.word (d + j))
      have hload : m₁.Passes [.memory .ld .ac (Int64.ofNat j) .displayOff] m₂ := by
        refine passes_ld (by decide) (by decide) ?_ (by omega)
        rw [hsame.register .displayOff (by decide) (by decide) (by decide), hdisplay,
          toInt_ofNat (by omega), toInt_ofNat (by omega)]
        omega
      have hstore : m₂.Passes [.memory .st .ac (Int64.ofNat (b + j)) .top]
          (m₂.put (t + (b + j)) (m₂.register .ac)) :=
        passes_stTop (by decide)
          ((hsame.register .top (by decide) (by decide) (by decide)).trans htop)
          (by rw [memory_setRegister]; omega) (by rwa [memory_setRegister, hsize₁])
      have hcode : (List.range (j + 1)).flatMap (Code.copyDisplay p) =
          (List.range j).flatMap (Code.copyDisplay p) ++
          [.memory .ld .ac (Int64.ofNat j) .displayOff] ++
          [.memory .st .ac (Int64.ofNat (b + j)) .top] := by
        rw [← Int64.ofInt_eq_ofNat (n := b + j), Int.natCast_add, ← hb]
        simp [Code.copyDisplay, List.range_succ]
      refine ⟨_, hcode ▸ (hpass.append hload).append hstore, ?_, fun k hk => ?_⟩
      · exact ((hsame.mono (Nat.le_refl _) (by omega)).trans
          (.setRegister (.inl rfl) ..)).trans (.put (by omega) (by omega) ..)
      · by_cases hkj : k = j
        · subst hkj
          rw [Nat.add_assoc, word_put_self (by rw [memory_setRegister]; omega),
            register_setRegister_self]
          exact hsame.word _ (by omega)
        · rw [word_put_of_ne _ (by omega)]
          exact hcopied k (by omega)
  obtain ⟨m₁, hpass, hsame, hcopied⟩ := hloop p.level (Nat.le_refl _)
  have htop₁ := (hsame.register .top (by decide) (by decide) (by decide)).trans htop
  have hstore : m₁.Passes [.memory .st .top (Int64.ofInt (p.displayBase + p.level)) .top]
      (m₁.put (t + (b + p.level)) (m₁.register .top)) := by
    rw [hb, ← Int.natCast_add, Int64.ofInt_eq_ofNat]
    exact passes_stTop (by decide) htop₁ (by rw [hsame.size]; omega) (by rwa [hsame.size])
  refine ⟨_, hpass.append hstore, ?_, fun k hk => ?_, ?_⟩
  · exact (hsame.mono (Nat.le_refl _) (by omega)).trans (.put (by omega) (by omega) ..)
  · rw [word_put_of_ne _ (by omega)]
    exact hcopied k hk
  · rw [Nat.add_assoc, word_put_self (by rw [hsame.size]; omega), htop₁]

/-- The registers are set to the new frame. -/
theorem passes_enterFrame {b n : Nat} (htop : m.register .top = Int64.ofNat t)
    (hb : p.displayBase = b) (hn : p.frameSize = n) : m.Passes (Code.enterFrame p)
    (((m.setRegister .sp (Int64.ofNat t)).setRegister .top (Int64.ofNat (t + n))).setRegister
      .displayOff (Int64.ofNat (t + b))) := by
  have hsum : ∀ k : Nat, Int64.ofInt k + Int64.ofNat t = Int64.ofNat (t + k) := fun k => by
    rw [Int64.ofInt_eq_ofNat, Int64.ofNat_add, Int64.add_comm]
  let m₁ := m.setRegister .sp (Int64.ofNat t)
  let m₂ := m₁.setRegister .top (Int64.ofNat (t + n))
  have h₁ : m.Passes [.memory .lda .sp 0 .top] m₁ := by
    have hlda := passes_lda m (r := .sp) (b := .top) (by decide) (by decide) 0
    rwa [htop, Int64.zero_add] at hlda
  have h₂ : m₁.Passes [.memory .lda .top (Int64.ofInt p.frameSize) .sp] m₂ := by
    have hlda :=
      passes_lda m₁ (r := .top) (b := .sp) (by decide) (by decide) (Int64.ofInt p.frameSize)
    rwa [register_setRegister_self, hn, hsum, ← hn] at hlda
  have h₃ : m₂.Passes [.memory .lda .displayOff (Int64.ofInt p.displayBase) .sp]
      (m₂.setRegister .displayOff (Int64.ofNat (t + b))) := by
    have hlda := passes_lda m₂ (r := .displayOff) (b := .sp) (by decide) (by decide)
      (Int64.ofInt p.displayBase)
    rwa [register_setRegister_of_ne _ (by decide), register_setRegister_self, hb,
      hsum, ← hb] at hlda
  exact (h₁.append h₂).append h₃

/-- A jump to an address, given by its distance from the next instruction. -/
theorem pace_jump {base entry : Nat} {c : Code} (hm : Code.Addressable m.code) (h : Code.At
      m.code base (.memory .lda .pc (Int64.ofNat entry - Int64.ofNat (base + 1)) .pc :: c)) :
    (m.goto base).pace = (m.goto entry, .running) := by
  rw [pace_goto hm h]
  change (m.setRegister .pc (Int64.ofNat entry - Int64.ofNat (base + 1) +
      Int64.ofNat (base + 1)), Outcome.running) = _
  rw [show Int64.ofNat entry - Int64.ofNat (base + 1) + Int64.ofNat (base + 1) =
    Int64.ofNat entry by grind]
  rfl

end

/-- A new frame for `p` stands at `t` and is the running one; the caller's display was at `d`.
Of the words below the frame and of those for its variables none has changed. -/
structure Enters (t d : Nat) (p : Procedure) (resume : Nat) (m m' : Machine) : Prop where
  code : m'.code = m.code
  input : m'.input = m.input
  output : m'.output = m.output
  size : m'.memory.size = m.memory.size
  sp : m'.register .sp = Int64.ofNat t
  top : m'.register .top = Int64.ofNat (t + p.frameSize.toNat)
  displayOff : m'.register .displayOff = Int64.ofNat (t + p.displayBase.toNat)
  mp : m'.register .mp = m.register .mp
  below : ∀ i, i < t → m'.word i = m.word i
  between : ∀ i : Nat, t + 7 ≤ i → i < t + p.displayBase → m'.word i = m.word i
  saved : ∀ j r, [Register.sp, .ac, .ac1, .ac2, .displayOff][j]? = some r →
    m'.word (t + j) = m.register r
  level : m'.word (t + 5) = Int64.ofNat p.level
  resume : m'.word (t + 6) = Int64.ofNat resume
  display : ∀ k, k < p.level → m'.word (t + p.displayBase.toNat + k) = m.word (d + k)
  own : m'.word (t + p.displayBase.toNat + p.level) = Int64.ofNat t

/-- Control goes to a procedure, with a new frame. -/
theorem reaches_transfer {m : Machine} {t d : Nat}
    (hm : Code.Addressable m.code) {p : Procedure} {entry start : Nat}
    (hat : Code.At m.code start (Code.transfer p entry start))
    (htop : m.register .top = Int64.ofNat t)
    (hdisplay : m.register .displayOff = Int64.ofNat d) (hd : d + p.level ≤ t)
    (hbase : 7 ≤ p.displayBase) (hframe : p.frameSize = p.displayBase + p.level + 1)
    (hle : t + p.frameSize ≤ m.memory.size) (hsize : (m.memory.size : Int) ≤ Word.greatest) :
    ∃ n m', Reaches (m.goto start) (n + 1) (m'.goto entry) ∧
      m.Enters t d p (start + (Code.transfer p entry start).length) m' := by
  obtain ⟨b, hb⟩ := Int.eq_ofNat_of_zero_le (show 0 ≤ p.displayBase by omega)
  obtain ⟨n, hn⟩ := Int.eq_ofNat_of_zero_le (show 0 ≤ p.frameSize by omega)
  -- The address to come back to is fixed by the lengths of the pieces before it.
  let resume := start + (Code.saveRegisters p).length + 2 +
    (Code.buildDisplay p ++ Code.enterFrame p).length + 1
  have hlength : start + (Code.transfer p entry start).length = resume := by
    simp only [Code.transfer, Code.saveReturn, List.length_append, List.length_cons,
      List.length_nil, resume]
    omega
  rw [hlength]
  obtain ⟨m₁, hpass₁, hsame₁, hsaved, hlevel⟩ :=
    passes_saveRegisters (p := p) htop (by omega) hsize
  obtain ⟨m₂, hpass₂, hsame₂, hresume⟩ := passes_saveReturn (m := m₁) (t := t)
    ((hsame₁.register .top (by decide) (by decide) (by decide)).trans htop)
    (by rw [hsame₁.size]; omega) (by rwa [hsame₁.size]) resume
  -- The display is stored behind the header, which stays as it was filled in.
  have hsame₁₂ : m.Same t (t + 7) m₂ :=
    (hsame₁.mono (Nat.le_refl _) (by omega)).trans (hsame₂.mono (by omega) (Nat.le_refl _))
  have htop₂ := (hsame₁₂.register .top (by decide) (by decide) (by decide)).trans htop
  obtain ⟨m₃, hpass₃, hsame₃, hcopied, hown⟩ := passes_buildDisplay (m := m₂) (t := t) htop₂
    ((hsame₁₂.register .displayOff (by decide) (by decide) (by decide)).trans hdisplay) hd hb
    (by rw [hsame₁₂.size]; omega) (by rwa [hsame₁₂.size])
  have hpass₄ := passes_enterFrame (m := m₃)
    ((hsame₃.register .top (by decide) (by decide) (by decide)).trans htop₂) hb hn
  let c := Code.saveRegisters p ++ Code.saveReturn resume ++
    (Code.buildDisplay p ++ Code.enterFrame p)
  have hc : start + c.length + 1 = resume := by
    simp only [c, Code.saveReturn, List.length_append, List.length_cons,
      List.length_nil, resume]
    omega
  obtain ⟨hat₁, hat₂⟩ := Code.at_append (c := c).mp hat
  change Code.At m.code _
    [.memory .lda .pc (Int64.ofNat entry - Int64.ofNat resume) .pc] at hat₂
  rw [← hc] at hat₂
  have hpass := (hpass₁.append hpass₂).append (hpass₃.append hpass₄)
  obtain ⟨k, hreaches⟩ := hpass.2 start hm hat₁
  have hjump := pace_jump (hpass.1 ▸ hm) (hpass.1 ▸ hat₂)
  refine ⟨k, _, hreaches.trans (.single hjump), ?_⟩
  exact {
    code := hpass.1
    input := hsame₃.input.trans hsame₁₂.input
    output := hsame₃.output.trans hsame₁₂.output
    size := hsame₃.size.trans hsame₁₂.size
    sp := rfl
    top := by rw [hn]; rfl
    displayOff := by rw [hb]; rfl
    mp := (hsame₃.register .mp (by decide) (by decide) (by decide)).trans
      (hsame₁₂.register .mp (by decide) (by decide) (by decide))
    below := fun i hi => (hsame₃.word i (by omega)).trans (hsame₁₂.word i (by omega))
    between := fun i hi hi' => (hsame₃.word i (by omega)).trans (hsame₁₂.word i (by omega))
    saved := fun j r hj => by
      have hlt : j < 5 := (List.getElem?_eq_some_iff.mp hj).1
      exact ((hsame₃.word _ (by omega)).trans (hsame₂.word _ (by omega))).trans
        (hsaved j r hj)
    level := ((hsame₃.word _ (by omega)).trans (hsame₂.word _ (by omega))).trans hlevel
    resume := (hsame₃.word _ (by omega)).trans hresume
    display := fun k hk => by
      rw [hb]
      exact (hcopied k hk).trans (hsame₁₂.word _ (by omega))
    own := by rw [hb]; exact hown }

end Machine

end BlockLang
