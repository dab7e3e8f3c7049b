import BlockLang.Compiler
import BlockLang.Proofs.Simulation

/-!
# Compiled programs do what they mean

A program that the analysis accepts is compiled, and its code does on the machine what the
interpreter says: it writes the same values and comes to the same end. The machine needs
room for the frames of the procedures that are active together and for the temporaries.

`Program.run_interprets` is the theorem. How the proof goes:

1. The code of a program is the opening, the procedures behind a jump each, the prologue,
   the body and `HALT` (`Program.code_eq_ok`).
2. From the start the machine comes to the prologue, with memory as it was but for the
   word that the opening has read and cleared (`Machine.reaches_prologue`).
3. The prologue sets up the frame of the main program (`Machine.passes_mainPrologue`), or
   faults where even the frame of the main program does not fit
   (`Machine.faults_mainPrologue`).
4. Then memory stands for the storage of the interpretation (`Program.Resolved.begins`),
   and the machine follows the body (`Stmt.followed_runFor`).
5. What it does is a result of a run: `Result.Tells` compares the result of the
   interpreter with the runs of the machine under all limits (`Machine.Follows.tells`). If
   memory runs out it is a fault (`Result.Exhausts`).

`Program.Resolved.tells_or_exhausts` has both outcomes, without saying when memory is
enough; from it follow the theorem here and the one about memory that runs out.
-/

namespace BlockLang

/-! ## The main program begins -/

/-- All of memory is zero, and the registers are those of the main program. -/
structure Machine.Ready (a : Analysis) (m : Machine) : Prop where
  word : ∀ i, m.word i = 0
  sp : m.register .sp = Int64.ofNat 0
  displayOff : m.register .displayOff = Int64.ofNat a.mainDisplayBase.toNat
  top : m.register .top = Int64.ofNat (a.mainDisplayBase.toNat + 1)
  mp : m.register .mp = Int64.ofNat (m.memory.size - 1)

namespace Machine

variable {a : Analysis} {m : Machine}

/-- The highest data address goes to `mp`, and the word that held it is cleared. -/
theorem passes_opening {size : Nat} (hac : m.register .ac = 0)
    (hsize : m.memory.size = size + 1)
    (hzero : m.word 0 = Int64.ofNat size) (hrest : ∀ i, i ≠ 0 → m.word i = 0) :
    ∃ m', m.Passes Code.opening m' ∧ (∀ i, m'.word i = 0) ∧
    m'.register .mp = Int64.ofNat size ∧
      m'.memory.size = size + 1 ∧ m'.input = m.input ∧ m'.output = m.output := by
  let m₁ := m.setRegister .mp (m.word 0)
  have hload : m.Passes [.memory .ld .mp 0 .ac] m₁ :=
    passes_ld (by decide) (by decide) (by rw [hac]; rfl) (by omega)
  have hstore : m₁.Passes [.memory .st .ac 0 .ac] (m₁.put 0 (m₁.register .ac)) :=
    passes_st (by decide) (by decide) (by rw [show m₁.register .ac = 0 from hac]; rfl)
      (show 0 < m.memory.size by omega)
  refine ⟨_, hload.append hstore, fun i => ?_, hzero, (size_put ..).trans hsize, rfl, rfl⟩
  by_cases hi : i = 0
  · rw [hi]
    exact (word_put_self (m := m₁) (show 0 < m.memory.size by omega) _).trans hac
  · rw [word_put_of_ne _ (Ne.symm hi)]
    exact hrest i hi

/-- The registers of the main program, as its prologue sets them before it touches memory. -/
theorem passes_mainRegisters (m : Machine) {b : Nat} (hb : a.mainDisplayBase = b) :
    ∃ m', m.Passes ((Code.mainPrologue a).take 5) m' ∧ m'.memory = m.memory ∧
    m'.register .sp = 0 ∧
      m'.register .displayOff = Int64.ofNat b ∧ m'.register .mp = m.register .mp ∧
      m'.input = m.input ∧ m'.output = m.output := by
  let m₁ := m.setRegister .ac 0
  let m₂ := m₁.setRegister .ac1 0
  let m₃ := m₂.setRegister .ac2 0
  let m₄ := m₃.setRegister .sp 0
  have h₁ : m.Passes [.memory .ldc .ac 0 .ac] m₁ := passes_ldc m (by decide) ..
  have h₂ : m₁.Passes [.memory .ldc .ac1 0 .ac] m₂ := passes_ldc m₁ (by decide) ..
  have h₃ : m₂.Passes [.memory .ldc .ac2 0 .ac] m₃ := passes_ldc m₂ (by decide) ..
  have h₄ : m₃.Passes [.memory .ldc .sp 0 .ac] m₄ := passes_ldc m₃ (by decide) ..
  have h₅ := passes_lda m₄ (r := .displayOff) (b := .sp) (by decide) (by decide)
    (Int64.ofInt a.mainDisplayBase)
  refine ⟨_, h₁.cons (h₂.cons (h₃.cons (h₄.cons h₅))), rfl, rfl, ?_, rfl, rfl, rfl⟩
  rw [register_setRegister_self, hb, Int64.ofInt_eq_ofNat]
  exact Int64.add_zero _

/-- The prologue leaves the registers and the display of the main program. -/
theorem passes_mainPrologue {b : Nat} (hb : a.mainDisplayBase = b) (hword : ∀ i, m.word i = 0)
    (hmp : m.register .mp = Int64.ofNat (m.memory.size - 1)) (hlt : b < m.memory.size)
    (hsize : (m.memory.size : Int) ≤ Word.greatest) :
    ∃ m', m.Passes (Code.mainPrologue a) m' ∧ m'.Ready a ∧ m'.memory.size = m.memory.size ∧
    m'.input = m.input ∧
      m'.output = m.output := by
  obtain ⟨m₁, hpass, hmemory, hsp, hdisplay, hmp₁, hinput, houtput⟩ :=
    passes_mainRegisters m hb
  have hsize₁ : m₁.memory.size = m.memory.size := congrArg Memory.size hmemory
  let m₂ := m₁.put b (m₁.register .sp)
  have h₁ : m₁.Passes [.memory .st .sp 0 .displayOff] m₂ := by
    refine passes_st (by decide) (by decide) ?_ (hsize₁ ▸ hlt)
    rw [hdisplay, toInt_ofNat (by omega)]
    exact Int.zero_add _
  have h₂ : m₂.Passes [.memory .lda .top 1 .displayOff]
      (m₂.setRegister .top (1 + m₂.register .displayOff)) :=
    passes_lda m₂ (by decide) (by decide) _
  refine ⟨_, hpass.append (h₁.cons h₂), ⟨fun i => ?_, hsp, ?_, ?_, ?_⟩,
    (size_put ..).trans hsize₁, hinput, houtput⟩
  · by_cases hi : i = b
    · rw [hi]
      exact (word_put_self (m := m₁) (hsize₁ ▸ hlt) _).trans hsp
    · rw [word_setRegister, word_put_of_ne m₁ (Ne.symm hi), word, hmemory]
      exact hword i
  · rw [hb, Int.toNat_natCast]
    exact hdisplay
  · rw [hb, Int.toNat_natCast, register_setRegister_self, show m₂.register .displayOff =
      Int64.ofNat b from hdisplay, Int64.ofNat_add, Int64.add_comm]
    rfl
  · rw [memory_setRegister, size_put, hsize₁]
    exact hmp₁.trans hmp

/-- Where the variables of the main program do not fit, its prologue comes to a fault. -/
theorem faults_mainPrologue {b : Nat} (hb : a.mainDisplayBase = b)
    (hbound : (b : Int) < Word.greatest)
    (hle : m.memory.size ≤ b) : ∃ f, m.Faults (Code.mainPrologue a) f := by
  obtain ⟨m₁, hpass, hmemory, _, hdisplay, _⟩ := passes_mainRegisters m hb
  have hfaults : m₁.Faults [.memory .st .sp 0 .displayOff] _ :=
      faults_access (.inr rfl) (by decide) (by
    rw [hdisplay, toInt_ofNat (by omega), hmemory]
    simp only [Int64.toInt_zero]
    omega)
  have hrest :
    m₁.Faults ([.memory .st .sp 0 .displayOff] ++ [.memory .lda .top 1 .displayOff]) _ :=
    hfaults.append
  exact ⟨_, hpass.faults hrest⟩

end Machine

section

variable {a : Analysis} {final : Linkage} {p : Program} {l : Layer} {Γ : Names} {m : Machine}

/-- The main program has its variables, all of them zero, and its body can begin. -/
theorem Program.Resolved.begins (h : p.Resolved a l Γ) (hready : m.Ready a)
    (hplaced : ∀ q, .procedure q ∈ p.decls → q.Placed a final m.code)
    (hle : a.mainDisplayBase + 1 ≤ m.memory.size)
    (hgreatest : (m.memory.size : Int) ≤ Word.greatest) :
    ∃ s x, Decl.declareSections (some 0) p.decls ⟨[], []⟩ = .ok x ∧
      m.Hosts a final s (Decl.declareProcedures p.decls x.env) Γ x.storage ∧ s.level = 0 ∧
      (s.top : Int) = a.mainDisplayBase + 1 := by
  -- The main program has no header and no frame around it: its level is 0 and its base is
  -- address 0.
  let s₀ : Stage := ⟨[], fun _ => 0, 0, 0, a.mainDisplayBase.toNat, 0⟩
  have h₀ : m.Builds a final s₀ ⟨[], 0⟩ ⟨[], []⟩ :=
    ⟨.nil, nofun, ⟨rfl, nofun⟩, ⟨.nil, nofun⟩, Int.le_refl 0, rfl⟩
  have hinit : ∀ w, some (0 : Word) = some w → ∀ i, m.word i = w :=
    fun w hw i => (hready.word i).trans (Option.some.inj hw)
  obtain ⟨s₁, x, hx, hs, h₁⟩ := h₀.declareSections h.builtins hinit h.sections rfl
  have hlevel : s₁.level = 0 := hs.level
  have hbases : s₁.bases = fun _ => 0 := hs.bases
  have hsp : s₁.sp = 0 := by rw [hs.rest]
  have hdisplay : s₁.display = a.mainDisplayBase.toNat := by rw [hs.rest]
  have htop : (s₁.top : Int) = a.mainDisplayBase := by
    rw [h₁.top, hbases, h.offset]
    exact Int.zero_add _
  obtain ⟨henv, hwithin⟩ :=
    Env.Matches.declareProcedures p.decls h.procedures hplaced (hlevel ▸ h₁.within) h₁.env
  refine ⟨{ s₁ with top := s₁.top + 1 }, x, hx, ?_, hlevel, ?_⟩
  · exact {
      env := henv.extends (s₁.extends_grow 1)
      within := by rwa [hlevel]
      holds := h₁.holds
      ordered := h₁.ordered.mono (Nat.le_add_right ..)
      sp := by rw [hsp]; exact hready.sp
      top := by
        have heq : a.mainDisplayBase.toNat + 1 = s₁.top + 1 := by omega
        rw [hready.top, heq]
      displayOff := by rw [hdisplay]; exact hready.displayOff
      mp := hready.mp
      display := fun k hk => by
        change k ≤ s₁.level at hk
        refine ⟨h₁.ordered.free (show s₁.top ≤ s₁.display + k by omega), ?_⟩
        rw [hready.word, hbases]
        rfl
      display_lt := by
        change s₁.display + s₁.level < s₁.top + 1
        omega
      header := fun hpos => absurd hpos (by rw [hlevel]; decide)
      top_le := by
        change s₁.top + 1 ≤ m.memory.size
        omega
      size_le := hgreatest }
  · change ((s₁.top + 1 : Nat) : Int) = _
    omega

/-! ## From the first step to the body -/

/-- The parts of the code of a program, and where they stand. -/
theorem Program.code_eq_ok {c : Code} (hc : p.code a = .ok c) :
    ∃ procedures entries body, Decl.codeAll a [] (Code.opening.length + 1) p.decls =
    .ok (procedures, entries) ∧
      Stmt.codeAll a entries
        (Code.opening.length + 1 + procedures.length + (Code.mainPrologue a).length) p.body =
        .ok body ∧
      c = Code.opening ++ Code.skip procedures.length :: procedures ++
      (Code.mainPrologue a ++ (body ++ [Code.halt])) ∧
      Code.At c.toArray (Code.opening.length + 1) procedures ∧
      Code.At c.toArray (Code.opening.length + 1 + procedures.length)
      (Code.mainPrologue a ++ (body ++ [Code.halt])) := by
  unfold Program.code at hc
  obtain ⟨⟨procedures, entries⟩, hprocedures, hc⟩ := Except.bind_eq_ok hc
  obtain ⟨body, hbody, hc⟩ := Except.bind_eq_ok hc
  have hparts : c = Code.opening ++ Code.skip procedures.length :: procedures ++
      (Code.mainPrologue a ++ (body ++ [Code.halt])) := by
    cases hc
    simp only [List.append_assoc]
  have hat : Code.At c.toArray 0 c := Code.at_self c
  rw [hparts] at hat
  obtain ⟨hat₁, hat₂⟩ := Code.at_append.mp hat
  obtain ⟨_, _, hat₁⟩ := Code.at_append.mp hat₁
  refine ⟨procedures, entries, body, hprocedures, hbody, hparts, ?_, ?_⟩
  · rwa [Nat.zero_add, ← hparts] at hat₁
  · rwa [List.length_append, List.length_cons, Nat.zero_add, ← Nat.add_assoc,
      Nat.add_right_comm, ← hparts] at hat₂

/-- The linkage of the code of a program. -/
def Program.Resolved.linkage (h : p.Resolved a l Γ)
    {start : Nat} {c : Code} {entries : Entries}
    (hc : Decl.codeAll a [] start p.decls = .ok (c, entries)) : Linkage where
  entries := entries
  distinct := by
    obtain ⟨new, hnew, hkeys⟩ := Decl.codeAll_entries p.decls hc
    rw [hnew, List.append_nil, hkeys, List.nodup_reverse]
    exact h.distinct
  depth := p.depth

namespace Machine

/-- A machine is loaded without the clock. -/
theorem load_timed (code : ObjectCode) (size limit : Nat) (input : List Word) :
    load code ⟨size, limit⟩ input = (load code ⟨size, 0⟩ input).timed limit 0 := rfl

/-- The machine steps over the procedures to the prologue of the main program. All of memory
is zero then. -/
theorem reaches_prologue {code : ObjectCode} {size k : Nat} (hk : max size 1 = k + 1)
    (hsize : k + 1 ≤ 2 ^ 63) {procedures rest : Code} (hcode : code.instructions =
      Code.opening ++ Code.skip procedures.length :: procedures ++ rest)
    (hm : Code.Addressable code.instructions.toArray) (input : List Word) :
    ∃ (n : Nat) (m : Machine), Reaches (load code ⟨size, 0⟩ input) n
        (m.goto (Code.opening.length + 1 + procedures.length)) ∧
      (∀ i, m.word i = 0) ∧ m.register .mp = Int64.ofNat (m.memory.size - 1) ∧
      m.code = code.instructions.toArray ∧
      m.memory.size = k + 1 ∧ m.input = input ∧ m.output = #[] := by
  let m₀ := load code ⟨size, 0⟩ input
  have hstart : m₀ = m₀.goto 0 := rfl
  have hat : Code.At m₀.code 0 code.instructions := Code.at_self code.instructions
  rw [hcode] at hat
  obtain ⟨hat, _⟩ := Code.at_append.mp hat
  obtain ⟨hopening, hskip⟩ := Code.at_append.mp hat
  -- Word 0 holds the greatest address when the machine is loaded, and all others are zero.
  have hmemory : m₀.memory.words =
      (Array.replicate (k + 1) 0).setIfInBounds 0 (Int64.ofNat (k + 1) - 1) := by
    have hwords : min (max size 1) (2 ^ 63) = k + 1 := by omega
    change (Array.replicate (min (max size 1) (2 ^ 63)) 0).setIfInBounds 0
      (Int64.ofNat (min (max size 1) (2 ^ 63)) - 1) = _
    rw [hwords]
  have hsize₀ : m₀.memory.size = k + 1 := by
    rw [Memory.size, hmemory, Array.size_setIfInBounds, Array.size_replicate]
  have hzero : m₀.word 0 = Int64.ofNat k := by
    unfold word Memory.get
    rw [hmemory]
    simp only [Array.getD_eq_getD_getElem?, Array.getElem?_setIfInBounds_self,
      Array.size_replicate]
    rw [if_pos (by omega), Option.getD_some, Int64.ofNat_add]
    exact Int64.add_sub_cancel _ _
  have hrest : ∀ i, i ≠ 0 → m₀.word i = 0 := by
    intro i hi
    unfold word Memory.get
    rw [hmemory]
    simp only [Array.getD_eq_getD_getElem?, Array.getElem?_setIfInBounds_ne (Ne.symm hi),
      Array.getElem?_replicate]
    split <;> rfl
  obtain ⟨m₁, hpass₁, hword₁, hmp₁, hsize₁, hinput₁, houtput₁⟩ :=
    passes_opening (m := m₀) rfl hsize₀ hzero hrest
  obtain ⟨n₁, hreaches₁⟩ := hpass₁.2 0 hm hopening
  have hskip₁ := pace_skip (hpass₁.1 ▸ hm) (hpass₁.1 ▸ hskip)
  rw [Nat.zero_add] at hreaches₁ hskip₁
  refine ⟨_, m₁, hreaches₁.trans (.single hskip₁), hword₁, ?_, hpass₁.1, hsize₁, hinput₁,
    houtput₁⟩
  rw [hsize₁, Nat.add_sub_cancel]
  exact hmp₁

end Machine

end

/-! ## Runs -/

/-- What a result of the interpreter says of the runs of a compiled program, of which there is
one for each limit. They write the same values and come to the same end, provided that the
limit leaves them the steps. Where the interpreter comes to no end with its fuel, a run takes
at least as many steps. -/
def Result.Tells (r : Result) (fuel : Nat) (run : Nat → Except RunError (List Word)) : Prop :=
  match r.ending with
  | .finished => ∃ n, ∀ limit, run limit =
      if n < limit then .ok r.world.output else .error (.fault (.stepLimitExceeded limit))
  | .returned => False
  | .stopped x => x.Shows fun f => ∃ n pc, ∀ limit, run limit =
      if n < limit then .error (.fault (f pc)) else .error (.fault (.stepLimitExceeded limit))
  | .timeout => ∀ limit, limit < fuel → run limit = .error (.fault (.stepLimitExceeded limit))

/-- A program that comes to its end has its output written, under every limit that is high
enough. -/
theorem Result.Tells.finished {r : Result} {fuel : Nat}
    {run : Nat → Except RunError (List Word)}
    (h : r.Tells fuel run) (hending : r.ending = .finished) :
    ∃ n, ∀ limit, run limit =
      if n < limit then .ok r.world.output
      else .error (.fault (.stepLimitExceeded limit)) := by
  unfold Result.Tells at h
  rwa [hending] at h

section

variable {p : Program} {o : Options} {code : ObjectCode} {size : Nat} {input : List Word}
    {m : Machine} {n : Nat}

/-- A run of a program is one of the machine with its code. -/
theorem Program.run_eq (hcompile : p.compile o = .ok code) (limit : Nat) :
    p.run input o ⟨size, limit⟩ =
    ((Machine.load code ⟨size, 0⟩ input).timed limit 0).run.mapError .fault := by
  unfold Program.run
  rw [hcompile, ← Machine.load_timed]

/-- What a machine that is loaded comes to is the result of a run. -/
theorem Program.run_of_ends (hcompile : p.compile o = .ok code)
    (hreaches : Machine.Reaches (Machine.load code ⟨size, 0⟩ input) n m)
    {r : Except Fault (List Word)} (hends : m.Ends r)
    (limit : Nat) : p.run input o ⟨size, limit⟩ =
      if n < limit then r.mapError .fault
      else .error (.fault (.stepLimitExceeded limit)) := by
  rw [Program.run_eq hcompile, Machine.run_of_ends hreaches hends]
  split <;> rfl

/-- At `HALT` a run ends with what was written. -/
theorem Machine.ends_halt {stop : Nat} {c : Code} (hm : Code.Addressable m.code)
    (h : Code.At m.code stop (Code.halt :: c)) :
    (m.goto stop).Ends (.ok m.output.toList) := by
  unfold Machine.Ends
  rw [pace_goto hm h]
  rfl

/-- Where statements are gone through to their end, the frames fitted. -/
theorem Machine.Follows.peak_le {s : Stage} {fuel base stop : Nat}
    {r : Result} (h : m.Follows s fuel base stop r)
    (hending : r.ending = .finished) : r.world.peak ≤ m.memory.size := by
  unfold Machine.Follows at h
  rw [hending] at h
  obtain ⟨_, _, _, hbecomes⟩ := h
  exact hbecomes.keeps.size ▸ hbecomes.peak

/-- What the machine does from the first step on shows in the runs. -/
theorem Machine.Follows.tells {s : Stage} {fuel base stop : Nat}
    {r : Result} (hcompile : p.compile o = .ok code)
    (hreaches : Machine.Reaches (Machine.load code ⟨size, 0⟩ input) n (m.goto base))
    (hm : Code.Addressable m.code) (hhalt : Code.At m.code stop [Code.halt])
    (hlevel : s.level = 0) (h : m.Follows s fuel base stop r) :
    r.Tells fuel fun limit => p.run input o ⟨size, limit⟩ := by
  obtain ⟨ending, w⟩ := r
  cases ending with
  | finished =>
    obtain ⟨k, m', hreaches', hbecomes⟩ := h
    have hcode := hbecomes.keeps.code
    have hends := Machine.ends_halt (hcode ▸ hm) (hcode ▸ hhalt)
    rw [hbecomes.output] at hends
    exact ⟨n + k, Program.run_of_ends hcompile (hreaches.trans hreaches') hends⟩
  | returned => exact Nat.lt_irrefl 0 (hlevel ▸ h.1)
  | stopped x =>
    unfold Machine.Follows at h
    unfold Result.Tells
    refine Stop.Shows.mono h ?_
    rintro f ⟨k, m', pc, hreaches', hends⟩
    exact ⟨n + k, pc, Program.run_of_ends hcompile (hreaches.trans hreaches') hends⟩
  | timeout =>
    obtain ⟨k, m', hle, hreaches'⟩ := h
    intro limit hlt
    dsimp only
    rw [Program.run_eq hcompile,
      Machine.run_of_reaches_of_lt (hreaches.trans hreaches') (by omega)]
    rfl

/-- The interpretation is one of the body, with the variables of the program. -/
theorem Program.interpret_eq {x : Activation}
    (hx : Decl.declareSections (some 0) p.decls ⟨[], []⟩ = .ok x)
    (frame : ProcDecl Decl → Int) (base : Int) (input : List Word) (fuel : Nat) :
    p.interpret frame base input fuel =
    Stmt.runFor frame fuel (Decl.declareProcedures p.decls x.env) base p.body
      { storage := x.storage, input, demands := [⟨base, 0⟩] } := by
  unfold Program.interpret
  rw [hx]
  rfl

/-- The main program itself demands memory. -/
theorem Program.base_le_peak (frame : ProcDecl Decl → Int)
    (base : Int) (input : List Word) (fuel : Nat) :
    base ≤ (p.interpret frame base input fuel).world.peak := by
  have hnotes : [⟨base, 0⟩] <:+ (p.interpret frame base input fuel).world.demands :=
    Result.demands_attempt (w := { storage := [], input, demands := [⟨base, 0⟩] }) fun x =>
      Stmt.notes_runFor frame fuel _ _ _
        { storage := x.storage, input, demands := [⟨base, 0⟩] }
  exact World.used_le_peak (x := ⟨base, 0⟩) (hnotes.subset List.mem_cons_self)

/-- The frames take more words than there are, and every run says so: it ends in a fault. -/
def Result.Exhausts (r : Result) (size : Nat)
    (run : Nat → Except RunError (List Word)) : Prop :=
  (size : Int) < r.world.peak ∧ ∃ n f, ∀ limit, run limit =
    if n < limit then .error (.fault f) else .error (.fault (.stepLimitExceeded limit))

/-- As far as there is room for the temporaries, a run either does what the interpreter says
or ends in a fault because the frames do not fit. -/
theorem Program.Resolved.tells_or_exhausts {a : Analysis}
    {l : Layer} {Γ : Names} (h : p.Resolved a l Γ)
    (hcompile : p.compile o = .ok code) (hcode : p.code a = .ok code.instructions)
    (hm : Code.Addressable code.instructions.toArray) {k fuel : Nat} (hk : max size 1 = k + 1)
    (hsize : ((k + 1 : Nat) : Int) ≤ Word.greatest)
    (hroomy : (p.interpret a.frameSize (a.mainDisplayBase + 1) input fuel).world.Roomy (k + 1)
      p.depth) : ((p.interpret a.frameSize (a.mainDisplayBase + 1) input fuel).Tells fuel
        (fun limit => p.run input o ⟨size, limit⟩) ∧
      ((p.interpret a.frameSize (a.mainDisplayBase + 1) input fuel).ending = .finished →
        (p.interpret a.frameSize (a.mainDisplayBase + 1) input fuel).world.peak ≤
        (k + 1 : Nat))) ∨
    (p.interpret a.frameSize (a.mainDisplayBase + 1) input fuel).Exhausts (k + 1)
      fun limit => p.run input o ⟨size, limit⟩ := by
  obtain ⟨procedures, entries, body, hprocedures, hbody, hinstructions, hat₁, hat⟩ :=
    Program.code_eq_ok hcode
  have hnonneg : 0 ≤ a.mainDisplayBase := h.offset ▸ h.sections.offset_mono
  obtain ⟨b, hb⟩ := Int.eq_ofNat_of_zero_le hnonneg
  obtain ⟨n₀, m₀, hreaches₀, hword, hmp, hcode₀, hsize₀, hinput₀, houtput₀⟩ :=
    Machine.reaches_prologue hk
      (by unfold Word.greatest at hsize; omega) hinstructions hm input
  rw [← hcode₀] at hat₁ hat
  obtain ⟨hat₂, hat⟩ := Code.at_append.mp hat
  obtain ⟨hat₃, hat₄⟩ := Code.at_append.mp hat
  -- Either there is room for the frame of the main program, or its display does not fit.
  by_cases hroom : b < k + 1
  · obtain ⟨m, hpass, hready, hmsize, hminput, hmoutput⟩ :=
      Machine.passes_mainPrologue hb hword hmp (by omega) (hsize₀ ▸ hsize)
    obtain ⟨n, hreaches⟩ := hpass.2 _ (hcode₀ ▸ hm) hat₂
    have hmcode : m.code = code.instructions.toArray := hpass.1.trans hcode₀
    rw [hsize₀] at hmsize
    rw [← hpass.1] at hat₁ hat₃ hat₄
    let final := h.linkage hprocedures
    have hplaced : ∀ q, .procedure q ∈ p.decls → q.Placed a final m.code :=
      ProcDecl.placed_of_codeAll p.decls hprocedures hat₁ (List.suffix_refl _)
        (Nat.le_max_left ..)
    obtain ⟨s, x, hx, hhosts, hlevel, htop⟩ :=
      h.begins hready hplaced (by omega) (hmsize ▸ hsize)
    rw [Program.interpret_eq hx, ← htop] at hroomy ⊢
    have hpresents : m.Presents a final s (Decl.declareProcedures p.decls x.env) Γ
        { storage := x.storage, input, demands := [⟨s.top, 0⟩] } :=
      ⟨hhosts, hminput.trans hinput₀, by rw [hmoutput, houtput₀], Int.max_le.mpr
        ⟨show (s.top : Int) ≤ _ by omega, Int.natCast_nonneg _⟩, hmcode ▸ hm⟩
    have hcopes := Stmt.followed_runFor h.builtins fuel hpresents (hlevel ▸ h.body)
      (Nat.le_max_right ..) hbody (List.suffix_refl _) hat₃ (hmsize ▸ hroomy)
    have hreaches' := hreaches₀.trans hreaches
    -- The machine follows to the end, or a frame does not fit further on.
    rcases hcopes with hfollows | ⟨hpeak, n', m', f, hreaches'', hends⟩
    · exact .inl ⟨hfollows.tells hcompile hreaches' (hmcode ▸ hm) hat₄ hlevel, fun hending =>
        hmsize ▸ hfollows.peak_le hending⟩
    · exact .inr ⟨hmsize ▸ hpeak, _, f,
        Program.run_of_ends hcompile (hreaches'.trans hreaches'') hends⟩
  · obtain ⟨f, hfaults⟩ := Machine.faults_mainPrologue (m := m₀) hb
      (by rw [← hb, ← h.offset]; exact h.bound) (by omega)
    obtain ⟨n, m', pc, hreaches, hends⟩ := hfaults _ (hcode₀ ▸ hm) hat₂
    have hbase := Program.base_le_peak (p := p) a.frameSize (a.mainDisplayBase + 1) input fuel
    exact .inr ⟨by omega, _, f pc,
      Program.run_of_ends hcompile (hreaches₀.trans hreaches) hends⟩

end

/-- A program that is accepted is compiled, and what its names mean has been found out. -/
theorem Program.compile_of_analyze {p : Program} {a : Analysis}
    (ha : p.analyze = .ok a) (hnodes : p.DistinctNodes) (o : Options) :
    ∃ code l Γ, p.compile o = .ok code ∧ p.code a = .ok code.instructions ∧
    p.Resolved a l Γ := by
  obtain ⟨l, Γ, hresolved⟩ := Program.resolved_of_analyze ha hnodes
  obtain ⟨code, hgenerate, hcode⟩ := hresolved.generate_ok o
  refine ⟨code, l, Γ, ?_, hcode, hresolved⟩
  unfold Program.compile
  rw [ha]
  dsimp only
  rw [hgenerate]
  rfl

/-- Code of fewer instructions than there are positive words is addressable. -/
theorem Code.addressable_of_length {c : Code} (h : c.length < 2 ^ 63) :
    Code.Addressable c.toArray := by
  unfold Code.Addressable Word.greatest
  rw [List.size_toArray]
  omega

/-- Compiled programs do what the interpreter says. Of the memory, the frames of the active
procedures may take as much as the temporaries and one more word leave. -/
theorem Program.run_interprets {p : Program} {a : Analysis}
    (ha : p.analyze = .ok a) (hnodes : p.DistinctNodes) (o : Options) :
    ∃ code, p.compile o = .ok code ∧ (code.instructions.length < 2 ^ 63 →
      ∀ (input : List Word) (fuel memorySize : Nat), memorySize < 2 ^ 63 →
        (p.interpret a.frameSize (a.mainDisplayBase + 1) input fuel).world.peak +
        p.depth + 1 ≤ memorySize →
        (p.interpret a.frameSize (a.mainDisplayBase + 1) input fuel).Tells fuel
          fun limit => p.run input o ⟨memorySize, limit⟩) := by
  obtain ⟨code, l, Γ, hcompile, hcode, hresolved⟩ := Program.compile_of_analyze ha hnodes o
  refine ⟨code, hcompile, fun hlength input fuel memorySize hmemory hpeak => ?_⟩
  have hbase := Program.base_le_peak (p := p) a.frameSize (a.mainDisplayBase + 1) input fuel
  have hnonneg : 0 ≤ a.mainDisplayBase := hresolved.offset ▸ hresolved.sections.offset_mono
  obtain ⟨k, rfl⟩ : ∃ k, memorySize = k + 1 := ⟨memorySize - 1, by omega⟩
  have hroomy : (p.interpret a.frameSize (a.mainDisplayBase + 1) input fuel).world.Roomy
      (k + 1) p.depth := by
    intro x hx hdepth
    have hused := World.used_le_peak hx
    exact .inl (.inr (by omega))
  rcases hresolved.tells_or_exhausts hcompile hcode (Code.addressable_of_length hlength)
    (Nat.max_eq_left (by omega)) (by unfold Word.greatest; omega) hroomy with
    ⟨htells, _⟩ | ⟨hlt, _⟩
  · exact htells
  · omega

theorem Program.doubling_code_length {code : ObjectCode}
    (hcompile : Program.doubling.compile {} = .ok code) :
    code.instructions.length < 2 ^ 63 :=
  Except.of_any_toOption (P := fun code => code.instructions.length < 2 ^ 63) hcompile
    (by decide +kernel)

/-- What the interpreter says. -/
theorem Program.doubling_interpret {a : Analysis} (ha : Program.doubling.analyze = .ok a) :
    ∃ fuel, (Program.doubling.interpret a.frameSize (a.mainDisplayBase + 1) [3] fuel).ending =
    .finished ∧
      (Program.doubling.interpret a.frameSize (a.mainDisplayBase + 1) [3] fuel).world.output =
      [24] ∧
      (Program.doubling.interpret a.frameSize (a.mainDisplayBase + 1) [3] fuel).world.peak +
      Program.doubling.depth + 1 ≤
        (48 : Nat) := by
  have hcheck : (match Program.doubling.analyze with
      | .ok a =>
        let r := Program.doubling.interpret a.frameSize (a.mainDisplayBase + 1) [3] 8
        decide (r.ending = .finished ∧ r.world.output = [24] ∧
          r.world.peak + Program.doubling.depth + 1 ≤ (48 : Nat))
      | .error _ => false) = true := by decide +kernel
  rw [ha] at hcheck
  exact ⟨8, of_decide_eq_true hcheck⟩

/-- Three is doubled three times, in as little memory as this takes. -/
theorem Program.doubling_run_interprets :
    ∃ a code fuel, Program.doubling.analyze = .ok a ∧ Program.doubling.DistinctNodes ∧
      Program.doubling.compile {} = .ok code ∧ code.instructions.length < 2 ^ 63 ∧
      (Program.doubling.interpret a.frameSize (a.mainDisplayBase + 1) [3] fuel).world.peak +
      Program.doubling.depth + 1 ≤
        (48 : Nat) ∧
      ∃ n, ∀ limit, Program.doubling.run [3] {} ⟨48, limit⟩ =
        if n < limit then .ok [24] else .error (.fault (.stepLimitExceeded limit)) := by
  obtain ⟨a, ha⟩ := Program.doubling_accepted
  have hnodes := Program.doubling_distinctNodes
  obtain ⟨code, hcompile, hrun⟩ := Program.run_interprets ha hnodes {}
  have hlength := Program.doubling_code_length hcompile
  obtain ⟨fuel, hending, houtput, hpeak⟩ := Program.doubling_interpret ha
  obtain ⟨n, hn⟩ := (hrun hlength [3] fuel 48 (by decide) hpeak).finished hending
  rw [houtput] at hn
  exact ⟨a, code, fuel, ha, hnodes, hcompile, hlength, hpeak, n, hn⟩

end BlockLang
