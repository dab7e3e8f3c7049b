import BlockLang.Proofs.Overflow

/-!
# The machine follows the interpreter

For every statement the machine does what the interpreter does, by recursion over the
statement and, for the bodies of procedures and the rounds of loops, by induction on the
fuel. The interpreter notes what is asked of the memory. The machine needs room for the
temporaries behind the frames whenever there are any; where a frame does not fit at all it
comes to a fault.

* What is noted stays: `Stmt.demands_exec` says that demands are only added. So if all
  demands of a run fit, those of every part do (`World.Roomy.of_suffix`), and a frame that
  did not fit at some point is among those that did not fit in the end
  (`World.peak_mono`).
* `Machine.Copes`: the machine follows, or the frames take more words than there are and
  it comes to a fault. Both compose: `Machine.Copes.before` for code that only computes,
  `Machine.Copes.attempt` for a value, `Machine.Copes.andThen` for what comes behind,
  `Machine.Copes.leave` for the return from a procedure.
* `Executor.Followed` is the hypothesis about the fuel: the machine copes with whatever is
  run with less of it.
* `Call.copes`: arguments, transfer of control, body and return. If the new frame does not
  fit there is a fault on the way (`Machine.Presents.overruns`).
* `Stmt.copes` has one case for each form of a statement. `Stmt.followed_runFor` closes
  the induction on the fuel.
-/

namespace BlockLang

/-- The words in the frame of a procedure. -/
def Analysis.frameSize (a : Analysis) (p : ProcDecl Decl) : Int :=
  match (a.annotations.symbol? p.node).bind a.symbols.procedureAt? with
  | some q => q.frameSize
  | none => 0

/-- The frame of a procedure has the size that its symbol has. -/
theorem Analysis.frameSize_eq {a : Analysis}
    {p : ProcDecl Decl} {id : SymbolId} {P : Procedure}
    (hid : a.annotations.symbol? p.node = some id) (hP : a.symbols.procedureAt? id = some P) :
    a.frameSize p = P.frameSize := by
  unfold frameSize
  rw [hid, Option.bind_some, hP]

/-! ## What is noted stays -/

namespace World

variable {w w' : World}

/-- The peak is above all demands. -/
theorem used_le_peak {x : Demand} (h : x ∈ w.demands) : x.used ≤ w.peak := by
  unfold peak
  generalize w.demands = demands at h
  induction demands with
  | nil => cases h
  | cons y rest ih =>
    rw [List.map_cons, List.foldr_cons]
    rcases List.mem_cons.mp h with rfl | h
    · exact Int.le_max_left ..
    · exact Int.le_trans (ih h) (Int.le_max_right ..)

/-- More demands have a peak that is no lower. -/
theorem peak_mono (h : w.demands <:+ w'.demands) : w.peak ≤ w'.peak := by
  obtain ⟨new, hnew⟩ := h
  unfold peak
  rw [← hnew]
  clear hnew
  induction new with
  | nil => exact Int.le_refl _
  | cons y rest ih => exact Int.le_trans ih (Int.le_max_right ..)

/-- Wherever there were temporaries, no more than `depth` at once, there was room for them in
a memory of the given size, unless the frames themselves did not fit. -/
def Roomy (size depth : Nat) (w : World) : Prop :=
  ∀ x ∈ w.demands, x.depth ≤ depth → x.Fits size ∨ (size : Int) < x.used

/-- Room for all demands is room for the earlier ones. -/
theorem Roomy.of_suffix {size depth : Nat} (h : w'.Roomy size depth)
    (hsuffix : w.demands <:+ w'.demands) :
    w.Roomy size depth := fun x hx => h x (hsuffix.subset hx)

end World

/-- The executor keeps what is noted. -/
def Executor.Notes (again : Executor) : Prop :=
  ∀ env used body w, w.demands <:+ (again env used body w).world.demands

namespace Result

variable {α : Type} {w : World}

/-- An attempt adds demands only. -/
theorem demands_attempt {x : Except Stop α} {next : α → Result}
    (h : ∀ v, w.demands <:+ (next v).world.demands) :
    w.demands <:+ (attempt w x next).world.demands := by
  cases x with
  | ok v => exact h v
  | error s => exact List.suffix_refl _

/-- What comes behind adds demands only. -/
theorem demands_andThen {r : Result} {next : World → Result}
    (h : ∀ w, w.demands <:+ (next w).world.demands) :
    r.world.demands <:+ (r.andThen next).world.demands := by
  unfold andThen
  split
  · exact h _
  · exact List.suffix_refl _

theorem demands_leave (r : Result) (blocks : Nat) :
    (r.leave blocks).world.demands = r.world.demands := by
  unfold leave
  split <;> rfl

end Result

section

variable {frame : ProcDecl Decl → Int} {again : Executor} {env : Env} {used : Int}

/-- A call notes the words that its frame takes on top of the others. -/
theorem Call.demands_exec (hagain : again.Notes) {c : Call} {p : ProcDecl Decl} {around : Env}
    (hp : env.find? c.callee.name = some (.proc p, around)) (w : World) :
    (w.demand (used + frame p) (Expr.depthAll c.args)).demands <:+
    (c.exec frame again env used w).world.demands := by
  unfold Call.exec
  rw [hp]
  refine Result.demands_attempt
    (w := w.demand (used + frame p) (Expr.depthAll c.args)) fun args => ?_
  refine Result.demands_attempt
    (w := w.demand (used + frame p) (Expr.depthAll c.args)) fun x => ?_
  rw [Result.demands_leave]
  exact hagain x.env (used + frame p) p.body
    { (w.demand (used + frame p) (Expr.depthAll c.args)) with storage := x.storage }

mutual

/-- A statement adds demands only. -/
theorem Stmt.demands_exec (hagain : again.Notes) : ∀ (s : Stmt) (w : World),
    w.demands <:+ (Stmt.exec frame again env used s w).world.demands
  | .assign .., w =>
    Result.demands_attempt fun _ => Result.demands_attempt fun _ => List.suffix_refl _
  | .ifElse _ thenBranch elseBranch _, w => by
    rw [Stmt.exec]
    refine Result.demands_attempt fun x => ?_
    split
    · exact Stmt.demands_execAll hagain elseBranch w
    · exact Stmt.demands_execAll hagain thenBranch w
  | .whileDo _ body _, w => by
    rw [Stmt.exec]
    refine Result.demands_attempt fun x => ?_
    split
    · exact List.suffix_refl _
    · exact (Stmt.demands_execAll hagain body w).trans
        (Result.demands_andThen fun _ => hagain ..)
  | .read .., w => by
    rw [Stmt.exec]
    refine Result.demands_attempt fun p => ?_
    cases w.input <;> exact List.suffix_refl _
  | .write .., w => Result.demands_attempt fun _ => List.suffix_refl _
  | .call c, w => by
    rw [Stmt.exec]
    by_cases hfind : ∃ p around, env.find? c.callee.name = some (.proc p, around)
    · obtain ⟨p, around, hfind⟩ := hfind
      exact (List.suffix_cons ..).trans (Call.demands_exec hagain hfind w)
    · unfold Call.exec
      split
      next p around hp => exact absurd ⟨p, around, hp⟩ hfind
      · exact List.suffix_refl _
  | .ret _, w => List.suffix_refl _

/-- Statements add demands only. -/
theorem Stmt.demands_execAll (hagain : again.Notes) : ∀ (body : List Stmt) (w : World),
    w.demands <:+ (Stmt.execAll frame again env used body w).world.demands
  | [], w => List.suffix_refl _
  | s :: rest, w => by
    rw [Stmt.execAll]
    exact ((List.suffix_cons ..).trans
      (Stmt.demands_exec hagain s (w.demand used s.ownDepth))).trans
      (Result.demands_andThen (Stmt.demands_execAll hagain rest))

end

/-- Runs with fuel add demands only. -/
theorem Stmt.notes_runFor (frame : ProcDecl Decl → Int) (fuel : Nat) :
    (Stmt.runFor frame fuel).Notes := by
  induction fuel with
  | zero => exact fun _ _ _ _ => List.suffix_refl _
  | succ fuel ih => exact fun _ _ body w => Stmt.demands_execAll ih body w

end

/-! ## Following, or a fault for lack of room -/

/-- The frames take more words than there are, and the machine comes to a fault. -/
def Machine.Overruns (base : Nat) (m : Machine) (r : Result) : Prop :=
  (m.memory.size : Int) < r.world.peak ∧ ∃ n m' f, Reaches (m.goto base) n m' ∧
    m'.Ends (.error f)

/-- From `base` the machine does what statements do, as far as the memory has room for the
frames. -/
def Machine.Copes (s : Stage) (fuel base stop : Nat) (m : Machine) (r : Result) : Prop :=
  m.Follows s fuel base stop r ∨ m.Overruns base r

section

variable {a : Analysis} {final : Linkage} {s : Stage} {m m' : Machine} {env : Env} {Γ : Names}
  {w : World} {again : Executor} {entries : Entries} {base fuel : Nat} {c : Code}

/-- The next instruction leads on. -/
theorem Machine.Follows.jump {mid stop : Nat} {r : Result} (h : m.Follows s fuel base mid r)
    (hjump : ∀ m' : Machine, m'.code = m.code →
      (m'.goto mid).pace = (m'.goto stop, .running)) :
    m.Follows s fuel base stop r := by
  unfold Machine.Follows at *
  split at h
  · obtain ⟨n, m', hreaches, hbecomes⟩ := h
    exact ⟨n + 1, m', hreaches.trans (.single (hjump m' hbecomes.keeps.code)), hbecomes⟩
  all_goals exact h

namespace Machine.Copes

variable {stop mid : Nat} {r : Result} {σ : Storage}

/-- Code that computes, before the machine copes. -/
theorem before (h : m.Hosts a final s env Γ σ) {n base₁ : Nat} {m₁ : Machine}
    (hreaches : Reaches (m.goto base) n (m₁.goto base₁)) (hkeeps : m.Keeps s m₁)
    (hcopes : m₁.Copes s fuel base₁ stop r) : m.Copes s (n + fuel) base stop r := by
  rcases hcopes with hfollows | ⟨hpeak, n', m', f, hreaches', hends⟩
  · exact .inl (.before h hreaches hkeeps hfollows)
  · exact .inr ⟨hkeeps.size ▸ hpeak, n + n', m', f, hreaches.trans hreaches', hends⟩

theorem mono {fuel' : Nat} (h : m.Copes s fuel base stop r) (hle : fuel' ≤ fuel) :
    m.Copes s fuel' base stop r :=
  h.imp_left fun hfollows => hfollows.mono hle

/-- A jump behind the code of statements. -/
theorem jump (h : m.Copes s fuel base mid r) (hjump : ∀ m' : Machine, m'.code = m.code →
      (m'.goto mid).pace = (m'.goto stop, .running)) :
    m.Copes s fuel base stop r := h.imp_left fun hfollows => hfollows.jump hjump

/-- The machine copes with one thing after the other. -/
theorem andThen (h : m.Hosts a final s env Γ σ) {next : World → Result}
    (hdemands : ∀ w, w.demands <:+ (next w).world.demands) (hr : m.Copes s fuel base mid r)
    (hnext : r.ending = .finished → ∀ m', m.Becomes s r.world m' →
      m'.Copes s fuel mid stop (next r.world)) :
    m.Copes s fuel base stop (r.andThen next) := by
  rcases hr with hr | ⟨hpeak, hfault⟩
  · unfold Result.andThen
    unfold Follows at hr
    split
    next hending =>
      rw [hending] at hr
      obtain ⟨n, m', hreaches, hbecomes⟩ := hr
      exact (before h hreaches hbecomes.keeps (hnext hending m' hbecomes)).mono (by omega)
    next hending =>
      refine .inl ?_
      unfold Follows
      split at hr
      next hfinished => exact absurd hfinished hending
      all_goals exact hr
  · exact .inr ⟨Int.lt_of_lt_of_le hpeak
      (World.peak_mono (Result.demands_andThen hdemands)), hfault⟩

/-- A value is computed first. -/
theorem attempt {α : Type} (h : m.Hosts a final s env Γ σ) (hm : Code.Addressable m.code)
    (hat : Code.At m.code base c) {x : Except Stop α} {P : α → Machine → Prop}
    (hx : m.Yields c x P) (hkeeps : ∀ v m', P v m' → m.Keeps s m') {next : α → Result}
    (hnext : ∀ v m', x = .ok v → P v m' → m'.Copes s fuel (base + c.length) stop (next v)) :
    m.Copes s fuel base stop (.attempt w x next) := by
  rcases hx.reaches hm hat with ⟨x, rfl, hshows⟩ | ⟨v, m', n, rfl, hv, hreaches⟩
  · exact .inl hshows
  · exact (before h hreaches (hkeeps v m' hv) (hnext v m' rfl hv)).mono (by omega)

/-- The code of a condition, and the jump behind it. -/
theorem condition (h : m.Presents a final s env Γ w) {e : Expr} {type : TypeId}
    (he : e.Resolved a Γ type) (hfits : Demand.Fits m.memory.size ⟨s.top, e.depth⟩)
    (hc : e.code a 0 = .ok c) {n : Nat} {rest : Code}
    (hat : Code.At m.code base (c ++ Code.skipIfZero n :: rest)) {next : Word → Result}
    (hzero : ∀ m', e.eval env w.storage = .ok 0 → m.Becomes s w m' →
      m'.Copes s fuel (base + c.length + 1 + n) stop (next 0))
    (hother : ∀ x m', e.eval env w.storage = .ok x → x ≠ 0 → m.Becomes s w m' →
      m'.Copes s fuel (base + c.length + 1) stop (next x)) :
    m.Copes s fuel base stop (.attempt w (e.eval env w.storage) next) := by
  obtain ⟨hat₁, hat₂⟩ := Code.at_append.mp hat
  have hyields := h.hosts.yields_eval he (Nat.le_refl _) hfits hc
  refine .attempt h.hosts h.addressable hat₁ hyields
    (fun x m' hx => (h.same hx.2 (Nat.le_refl _)).keeps) ?_
  rintro x m' hx ⟨hac, hsame⟩
  have hbecomes := h.same hsame (Nat.le_refl _)
  have hjump :=
    jumpsIf_jeq m' (base + c.length) n rest (hsame.code ▸ h.addressable) (hsame.code ▸ hat₂)
  rw [hac] at hjump
  by_cases hzero' : x = 0
  · subst hzero'
    rw [if_pos rfl] at hjump
    exact (before (h.becomes hbecomes).hosts (.single hjump) (.refl s m')
      (hzero m' hx hbecomes)).mono (by omega)
  · rw [if_neg hzero'] at hjump
    exact (before (h.becomes hbecomes).hosts (.single hjump) (.refl s m')
      (hother x m' hx hzero' hbecomes)).mono (by omega)

/-- After the body of a procedure, however it is left, the caller goes on. -/
theorem leave {s' : Stage} {P : Procedure} {resume : Nat} (h : m.Hosts a final s env Γ σ)
    (henters : m.Enters s.top s.display P resume m')
    (hs : s.Above s') {env' : Env} {Γ' : Names} {σ' : Storage}
    (h' : m'.Hosts a final s' env' Γ' σ') (hm : Code.Addressable m.code) {n start entry : Nat}
    (hreaches : Reaches (m.goto start) (n + 1) (m'.goto entry))
    (hleave : Code.At m.code stop Code.leave)
    (hrestore : Code.At m.code resume Code.restoreRegisters)
    (hr : m'.Copes s' fuel entry stop r) :
    m.Copes s (fuel + 1) start (resume + Code.restoreRegisters.length)
    (r.leave σ.length) := by
  rcases hr with hr | ⟨hpeak, n', m'', f, hreaches', hends⟩
  · exact .inl (hr.leave h henters hs h' hm hreaches hleave hrestore)
  · refine .inr ⟨?_, _, m'', f, hreaches.trans hreaches', hends⟩
    unfold World.peak
    rw [Result.demands_leave]
    exact henters.size ▸ hpeak

end Machine.Copes

/-! ## Calls -/

/-- For `fuel` rounds the machine follows the executor, wherever the code of statements
stands. -/
def Executor.Followed (a : Analysis) (final : Linkage) (fuel : Nat)
    (again : Executor) : Prop :=
  ∀ {s : Stage} {m : Machine} {env : Env} {Γ : Names} {w : World} {body : List Stmt}
    {entries : Entries} {base : Nat} {c : Code}, m.Presents a final s env Γ w →
    (∀ st ∈ body, st.Resolved a Γ s.level) → Stmt.depthAll body ≤ final.depth →
    Stmt.codeAll a entries base body = .ok c → entries <:+ final.entries →
    Code.At m.code base c → (again env s.top body w).world.Roomy m.memory.size final.depth →
    m.Copes s fuel base (base + c.length) (again env s.top body w)

/-- A name that denotes a procedure is bound to it, with the bindings around its
declaration. -/
theorem Machine.Hosts.findProcedure {σ : Storage} (h : m.Hosts a final s env Γ σ)
    {name : String} {id : SymbolId} {P : Procedure}
    (hname : Γ.lookup name = some id) (hP : a.symbols.procedureAt? id = some P) :
    ∃ p around Γ' level, env.find? name = some (.proc p, around) ∧
    Env.Matches a final s m around Γ' ∧
      ProcDecl.Resolved a level Γ' id p ∧ p.Placed a final m.code ∧ Γ'.Within a level ∧
      P.level ≤ s.level + 1 := by
  obtain ⟨b, around, Γ', hfind, hb, haround⟩ := h.env.find? hname
  have hlevel := (h.within (name, id) (Names.mem_of_lookup hname)).2 P hP
  cases b with
  | type l =>
    obtain ⟨type, htype, _⟩ := hb
    rw [SymbolTable.procedureAt?_of_typeAt? htype] at hP
    cases hP
  | var p =>
    obtain ⟨v, _, hv, _⟩ := hb
    rw [SymbolTable.procedureAt?_of_variableAt? hv] at hP
    cases hP
  | proc p =>
    obtain ⟨level, hresolved, hplaced, hwithin⟩ := hb
    exact ⟨p, around, Γ', level, hfind, haround, hresolved, hplaced, hwithin, hlevel⟩

/-- The parameters of a procedure are bound one after the other, side by side behind the
header of its frame. -/
theorem ParamDecl.Resolved.binds {level : Nat} {added : Names} {p : ProcDecl Decl} {l : Layer}
    (h : ParamDecl.Resolved a level ⟨Γ, Frame.headerSize⟩ p.params l)
    (hadded : l.names = added ++ Γ) :
    Layer.Binds a level ⟨Γ, Frame.headerSize⟩ p.formals (added.map (·.2)).reverse l ∧
      a.Lined level Frame.headerSize (a.variables (added.map (·.2)).reverse) l.offset := by
  constructor
  · obtain ⟨ids, hbinds⟩ := Layer.Binds.of_resolved h
    obtain ⟨added', hadded', rfl⟩ := hbinds.names
    rw [hadded] at hadded'
    rwa [List.append_cancel_right hadded']
  · obtain ⟨added', hadded', _, hlined⟩ := h.lines
    rw [hadded] at hadded'
    rwa [List.append_cancel_right hadded']

/-- When a procedure has been entered, the machine stands for the world that its body starts
in. -/
theorem Machine.Presents.entered (h : m.Presents a final s env Γ w)
    {floor lo n t resume : Nat} {d : Nat} {m₁ m₂ : Machine} {P : Procedure}
    (hwrites : m.Writes floor lo n m₁) (henters : m₁.Enters t d P resume m₂)
    {s' : Stage} {x : Activation} {Γ' : Names} (h' : m₂.Hosts a final s' x.env Γ' x.storage)
    (htop : (s'.top : Int) ≤ m.memory.size) (depth : Nat) :
    m₂.Presents a final s' x.env Γ' { (w.demand s'.top depth) with
      storage := x.storage } := by
  refine ⟨h', ?_, ?_, ?_, henters.code.trans hwrites.code ▸ h.addressable⟩
  · rw [henters.input, hwrites.input, h.input]
    rfl
  · rw [henters.output, hwrites.output, h.output]
    rfl
  · rw [henters.size.trans hwrites.size]
    exact Int.max_le.mpr ⟨htop, h.peak⟩

/-- A call whose frame does not fit ends in a fault before the procedure is entered. -/
theorem Machine.Presents.overruns (h : m.Presents a final s env Γ w) {P : Procedure}
    {args : List Expr} (hargs : List.Forall₂ (Expr.ResolvedFor a Γ) P.params args)
    (hc : Expr.argumentsCode a args P.params = .ok c) (hbase : 0 ≤ P.displayBase)
    (hframe : P.frameSize = P.displayBase + P.level + 1) (hfits : Word.Fits P.frameSize)
    (hlt : m.memory.size < s.top + P.frameSize) {entry start : Nat}
    (hat : Code.At m.code base (c ++ Code.transfer P entry start)) {r : Result} {depth : Nat}
    (hnoted : ⟨s.top + P.frameSize, depth⟩ ∈ r.world.demands) : m.Overruns base r := by
  have hstraight := Expr.straight_argumentsCode hargs hc
  obtain ⟨f, hfaults⟩ := Machine.faults_transfer hstraight h.hosts.top h.hosts.top_le
    h.hosts.size_le hbase hframe hfits hlt entry start
  obtain ⟨n, m', pc, hreaches, hends⟩ := hfaults base h.addressable hat
  exact ⟨Int.lt_of_lt_of_le hlt (World.used_le_peak hnoted), n, m', f pc, hreaches, hends⟩

/-- The machine copes with a call. -/
theorem Call.copes (hbuiltins : ({} : TypeTable) ≤ a.types)
    (hagain : again.Followed a final fuel) (hnotes : again.Notes)
    (h : m.Presents a final s env Γ w) {call : Call} (hcall : call.Resolved a Γ)
    (hdepth : Expr.depthAll call.args ≤ final.depth) (hc : call.code a entries base = .ok c)
    (hentries : entries <:+ final.entries) (hat : Code.At m.code base c)
    (hroomy :
      (call.exec a.frameSize again env s.top w).world.Roomy m.memory.size final.depth) :
    m.Copes s (fuel + 1) base (base + c.length)
    (call.exec a.frameSize again env s.top w) := by
  obtain ⟨id, P, hname, hP, hnode, hargs⟩ := hcall
  obtain ⟨p, around, Γ', level, hfind, haround, hresolved, hplaced, hwithin, hlevel_le⟩ :=
    h.hosts.findProcedure hname hP
  obtain ⟨entry, args, hentry, hargsCode, rfl⟩ := Call.code_eq_ok hnode hP hc
  have hnoted : ⟨s.top + a.frameSize p, Expr.depthAll call.args⟩ ∈
      (call.exec a.frameSize again env s.top w).world.demands :=
    (Call.demands_exec hnotes hfind w).subset List.mem_cons_self
  obtain ⟨hat₁₂, hat₃⟩ := Code.at_append.mp hat
  cases hresolved with
  | @intro _ _ _ _ P' added l₁ l₂ Γ'' hid hP' hlevel hparams hadded hids hsections hbase
      hframe hfits hprocedures hbody =>
    rw [hP] at hP'
    cases hP'
    have hsize := Analysis.frameSize_eq hid hP
    obtain ⟨hbinds, hlined⟩ := hparams.binds hadded
    rw [← hids] at hbinds hlined
    have hheader : 7 ≤ l₁.offset := hbinds.offset_mono
    have hgrow := hsections.offset_mono
    rw [hsize] at hnoted
    -- Arguments are stored before anything tells whether the frame fits, so the cases part
    -- here.
    by_cases hroom : s.top + P.frameSize ≤ m.memory.size
    · obtain ⟨floor, hfloor⟩ : ∃ floor : Nat, (s.top : Int) + P.frameSize = floor :=
        Int.eq_ofNat_of_zero_le (by omega)
      have hfits' : Demand.Fits m.memory.size ⟨floor, Expr.depthAll call.args⟩ := by
        have hdemand := hroomy _ hnoted hdepth
        rw [hfloor] at hdemand
        exact hdemand.resolve_right (Int.not_lt.mpr (hfloor ▸ hroom))
      have hlo : (s.top : Int) + Frame.headerSize = (s.top + 7 : Nat) := rfl
      obtain ⟨hi, hhi⟩ : ∃ hi : Nat, (s.top : Int) + l₁.offset = hi :=
        Int.eq_ofNat_of_zero_le (by omega)
      have hyields := h.hosts.yields_arguments hbuiltins hbinds hlined hargs hfits' hargsCode
        (by exact Int.natCast_nonneg 7) hlo hhi (by omega) (by omega)
      obtain ⟨hat₁, hat₂⟩ := Code.at_append.mp hat₁₂
      have hkeeps : ∀ {m₁ : Machine} {n : Nat}, m.Writes floor (s.top + 7) n m₁ →
          m.Keeps s m₁ := fun hwrites =>
        hwrites.keeps (by omega) fun i hi _ hlt => by omega
      unfold Call.exec at hroomy ⊢
      rw [hfind] at hroomy ⊢
      dsimp only at hroomy ⊢
      refine .attempt h.hosts h.addressable hat₁ hyields (fun vals m₁ hv => hkeeps hv.2) ?_
      rintro vals m₁ hvals ⟨hreceives, hwrites⟩
      rw [show (w.demand (s.top + a.frameSize p) (Expr.depthAll call.args)).storage =
        w.storage from rfl, hvals] at hroomy
      have h₁ := h.hosts.writes hwrites (by omega) (by omega)
      have hm₁ : Code.Addressable m₁.code := hwrites.code ▸ h.addressable
      have hdisplay := h.hosts.display_lt
      obtain ⟨n, m₂, hreaches, henters⟩ :=
        Machine.reaches_transfer hm₁ (hwrites.code ▸ hat₂) h₁.top h₁.displayOff
        (by omega) (by omega) (by omega) (by rwa [hwrites.size]) h₁.size_le
      obtain ⟨nested, body, _, entries₂, hnested, hbodyCode, hentries₂, hcode⟩ :=
        hplaced.entry hid hentries hentry
      obtain ⟨hcode₁, hcode₃⟩ := Code.at_append.mp hcode
      obtain ⟨hcode₁, hcode₂⟩ := Code.at_append.mp hcode₁
      have hdepth₂ := (Nat.max_le.mp (Decl.depth_procedure p ▸ hplaced.1)).2
      have haround₁ : Env.Matches a final s m₁ around Γ' :=
        haround.mono hwrites.code (fun _ _ hp => hp) fun _ _ _ _ _ hstands =>
        hstands.keeps (hkeeps hwrites)
      obtain ⟨s', x, hx, h₂, habove, hlevel', htop'⟩ :=
        h₁.begins hbuiltins haround₁ hwithin hlevel (by omega) hsections hbase hframe
        (by rwa [hwrites.size]) hprocedures (hwrites.code ▸ hplaced.nested) henters hreceives
      change World.Roomy _ _ (Result.attempt _ (p.activate around w.storage vals) _).world
        at hroomy
      change Machine.Copes _ _ _ _ _ (Result.attempt _ (p.activate around w.storage vals) _)
      rw [hx] at hroomy ⊢
      rw [hsize, ← htop'] at hroomy ⊢
      rw [World.Roomy, Result.attempt, Result.demands_leave] at hroomy
      have hcode' : m₂.code = m.code := henters.code.trans hwrites.code
      have hsize' : m₂.memory.size = m.memory.size := henters.size.trans hwrites.size
      have hpresents := h.entered hwrites henters h₂ (by omega) (Expr.depthAll call.args)
      have hcopes := hagain hpresents (hlevel' ▸ hbody) hdepth₂ hbodyCode hentries₂
        (hcode' ▸ hcode₂) (hsize' ▸ hroomy)
      obtain ⟨k, hskip⟩ := (m₂.passes_nestedCode p.decls hnested).2 entry
        (hcode' ▸ h.addressable) (hcode' ▸ hcode₁)
      have hreaches' := hreaches.trans hskip
      rw [Nat.add_right_comm] at hreaches'
      have hstop : base + (args ++ Code.transfer P entry (base + args.length) ++
          Code.restoreRegisters).length =
          base + args.length + (Code.transfer P entry (base + args.length)).length +
          Code.restoreRegisters.length := by
        simp only [List.length_append]
        omega
      rw [hstop]
      rw [List.length_append, ← Nat.add_assoc] at hcode₃ hat₃
      exact .leave h₁ henters habove h₂ hm₁ hreaches' (hwrites.code ▸ hcode₃)
        (hwrites.code ▸ hat₃) hcopes
    · exact .inr (h.overruns hargs hargsCode (by omega) (by omega) hfits (by omega)
        hat₁₂ hnoted)

/-! ## Statements -/

/-- A jump back to the start of `n` instructions, of which it is the last. -/
theorem Machine.pace_back {n : Nat} (hm : Code.Addressable m.code)
    (h : Code.At m.code (base + n) (Code.back (n + 1) :: c)) :
    (m.goto (base + n)).pace = (m.goto base, .running) := by
  rw [pace_goto hm h]
  change (m.setRegister .pc (-Int64.ofNat (n + 1) + Int64.ofNat (base + n + 1)),
    Outcome.running) = _
  have haddress : -Int64.ofNat (n + 1) + Int64.ofNat (base + n + 1) = Int64.ofNat base := by
    rw [Nat.add_assoc, Int64.ofNat_add base]
    grind
  rw [haddress]
  rfl

theorem Stmt.codeAll_singleton {st : Stmt} (hc : st.code a entries base = .ok c) :
    Stmt.codeAll a entries base [st] = .ok c := by
  rw [Stmt.codeAll, hc]
  change Except.ok (c ++ []) = _
  rw [List.append_nil]

mutual

/-- The machine copes with a statement. -/
theorem Stmt.copes (hbuiltins : ({} : TypeTable) ≤ a.types)
    (hagain : again.Followed a final fuel)
    (hnotes : again.Notes) (hentries : entries <:+ final.entries) :
    ∀ (st : Stmt) {m : Machine} {w : World} {base : Nat} {c : Code},
    m.Presents a final s env Γ w → st.Resolved a Γ s.level → st.depth ≤ final.depth →
    st.code a entries base = .ok c → Code.At m.code base c →
    Demand.Fits m.memory.size ⟨s.top, st.ownDepth⟩ →
    (st.exec a.frameSize again env s.top w).world.Roomy m.memory.size final.depth →
    m.Copes s (fuel + 1) base (base + c.length) (st.exec a.frameSize again env s.top w)
  | .assign target value span, m, w, base, c, h, .assign htarget hvalue, _, hc, hat,
      hfits, _ =>
    .inl (Stmt.follows_assign hbuiltins h htarget hvalue hfits (by rwa [Stmt.code] at hc) hat)
  | .ifElse condition thenBranch elseBranch span, m, w, base, c,
      h, .ifElse hcondition hthen helse, hdepth, hc, hat,
      hfits, hroomy => by
    rw [Stmt.depth, Nat.max_le, Nat.max_le] at hdepth
    obtain ⟨c₁, t, e, hc₁, ht, he, rfl⟩ := Stmt.code_ifElse_eq_ok hc
    rw [List.append_assoc, List.cons_append] at hat ⊢
    obtain ⟨_, _, hat'⟩ := Code.at_append.mp hat
    obtain ⟨hat₁, hat₂⟩ := Code.at_append.mp hat'
    have hstop : base +
        (c₁ ++ Code.skipIfZero (t.length + 1) :: (t ++ Code.skip e.length :: e)).length =
        base + c₁.length + 1 + t.length + 1 + e.length := by
      simp only [List.length_append, List.length_cons]
      omega
    rw [Stmt.exec] at hroomy ⊢
    rw [hstop]
    refine .condition h hcondition hfits hc₁ hat
      (fun m' hx hbecomes => ?_) fun x m' hx hx' hbecomes => ?_
    · rw [hx] at hroomy
      exact Stmt.copesAll hbuiltins hagain hnotes hentries elseBranch (h.becomes hbecomes)
        helse hdepth.2.2 he (hbecomes.keeps.code ▸ hat₂.2) (hbecomes.keeps.size ▸ hroomy)
    · rw [hx] at hroomy
      simp only [Result.attempt, if_neg hx'] at hroomy ⊢
      have hcopes :=
        Stmt.copesAll hbuiltins hagain hnotes hentries thenBranch (h.becomes hbecomes) hthen
        hdepth.2.1 ht (hbecomes.keeps.code ▸ hat₁) (hbecomes.keeps.size ▸ hroomy)
      -- Behind the first branch a jump leads over the second one.
      refine hcopes.jump fun m'' hcode => ?_
      rw [hbecomes.keeps.code] at hcode
      exact Machine.pace_skip (hcode ▸ h.addressable) (hcode ▸ hat₂)
  | .whileDo condition body span, m, w, base, c, h, .whileDo hcondition hbody, hdepth, hc,
      hat, hfits, hroomy => by
    -- What is left of the loop after a round is the loop again, run with less fuel.
    have hagain' :=
      fun {m' : Machine} {w' : World} (h' : m'.Presents a final s env Γ w') hat' =>
      hagain h' (List.forall_mem_singleton.mpr (.whileDo hcondition hbody))
      (by simpa [Stmt.depthAll] using hdepth) (Stmt.codeAll_singleton hc) hentries hat'
    rw [Stmt.depth, Nat.max_le] at hdepth
    obtain ⟨c₁, b, hc₁, hb, rfl⟩ := Stmt.code_whileDo_eq_ok hc
    rw [List.append_assoc, List.cons_append] at hat hagain' ⊢
    obtain ⟨_, _, hat'⟩ := Code.at_append.mp hat
    obtain ⟨hat₁, hat₂⟩ := Code.at_append.mp hat'
    rw [Stmt.exec] at hroomy ⊢
    refine .condition h hcondition hfits hc₁ hat
      (fun m' hx hbecomes => ?_) fun x m' hx hx' hbecomes => ?_
    · have hstop : base + (c₁ ++ Code.skipIfZero (b.length + 1) ::
          (b ++ [Code.back (c₁.length + b.length + 2)])).length =
          base + c₁.length + 1 + (b.length + 1) := by
        simp only [List.length_append, List.length_cons, List.length_nil]
        omega
      rw [hstop]
      exact .inl ⟨0, m', .refl, { hbecomes with keeps := .refl s m' }⟩
    · rw [hx] at hroomy
      simp only [Result.attempt, if_neg hx'] at hroomy ⊢
      have h' := h.becomes hbecomes
      have hnotes' := hnotes env s.top [.whileDo condition body span]
      have hroomy₁ := hroomy.of_suffix (Result.demands_andThen hnotes')
      refine .andThen h'.hosts hnotes' (Stmt.copesAll hbuiltins hagain hnotes hentries body h'
        hbody hdepth.2 hb (hbecomes.keeps.code ▸ hat₁) (hbecomes.keeps.size ▸ hroomy₁)) ?_
      intro hending m'' hbecomes'
      unfold Result.andThen at hroomy
      rw [hending] at hroomy
      have hcode : m''.code = m.code := hbecomes'.keeps.code.trans hbecomes.keeps.code
      have hsize : m''.memory.size = m.memory.size :=
        hbecomes'.keeps.size.trans hbecomes.keeps.size
      -- The step back to the condition is the one that the fuel is paid with.
      have hback := Machine.pace_back (m := m'') (n := c₁.length + 1 + b.length) (c := [])
        (hcode ▸ h.addressable) (by
          rw [hcode]
          rw [show c₁.length + b.length + 2 = c₁.length + 1 + b.length + 1 by omega] at hat₂
          rwa [← Nat.add_assoc, ← Nat.add_assoc])
      rw [← Nat.add_assoc, ← Nat.add_assoc] at hback
      have h'' := h'.becomes hbecomes'
      exact (Machine.Copes.before h''.hosts (.single hback) (.refl s m'')
        (hagain' h'' (hcode ▸ hat) (hsize ▸ hroomy))).mono (by omega)
  | .read target span, m, w, base, c, h, .read htarget, _, hc, hat, hfits, _ => by
    obtain ⟨address, haddress, rfl⟩ := Stmt.code_read_eq_ok hc
    have hcode : address ++
        [.memory .lda .ac2 0 .ac, .register .inp .ac .ac .ac, .memory .st .ac 0 .ac2] =
        Code.keep address ++ [.register .inp .ac .ac .ac, .memory .st .ac 0 .ac2] := by
      simp [Code.keep]
    rw [hcode] at hat ⊢
    rw [List.length_append, ← Nat.add_assoc]
    exact .inl (Stmt.follows_read h htarget hfits haddress hat)
  | .write value span, m, w, base, c, h, .write hvalue, _, hc, hat, hfits, _ => by
    obtain ⟨cv, hcv, rfl⟩ := Stmt.code_write_eq_ok hc
    exact .inl (Stmt.follows_write h hvalue hfits hcv hat)
  | .call q, m, w, base, c, h, .call hcall, hdepth, hc, hat, _, hroomy => by
    rw [Stmt.exec] at hroomy ⊢
    exact q.copes hbuiltins hagain hnotes h hcall hdepth
      (by rwa [Stmt.code] at hc) hentries hat hroomy
  | .ret span, m, w, base, c, h, .ret hlevel, _, hc, hat, _, _ => by
    rw [Stmt.code] at hc
    cases hc
    have hlt := (h.hosts.header hlevel 6 (by decide)).2
    have htop := h.hosts.top_le
    have hpace :=
      Machine.pace_leave (c := []) h.addressable hat h.hosts.sp (by omega) h.hosts.size_le
    exact .inl ⟨hlevel, 1, m, .single hpace, .refl s m, h.hosts.holds, h.input,
      h.output, h.peak⟩

/-- The machine copes with statements in order. -/
theorem Stmt.copesAll (hbuiltins : ({} : TypeTable) ≤ a.types)
    (hagain : again.Followed a final fuel)
    (hnotes : again.Notes) (hentries : entries <:+ final.entries) :
    ∀ (body : List Stmt) {m : Machine} {w : World} {base : Nat} {c : Code},
    m.Presents a final s env Γ w → (∀ st ∈ body, st.Resolved a Γ s.level) →
    Stmt.depthAll body ≤ final.depth →
    Stmt.codeAll a entries base body = .ok c → Code.At m.code base c →
    (Stmt.execAll a.frameSize again env s.top body w).world.Roomy m.memory.size final.depth →
    m.Copes s (fuel + 1) base (base + c.length)
    (Stmt.execAll a.frameSize again env s.top body w)
  | [], m, w, base, c, h, _, _, hc, _, _ => by
    cases hc
    exact .inl ⟨0, m, .refl, .refl s m, h.hosts.holds, h.input, h.output, h.peak⟩
  | st :: rest, m, w, base, c, h, hbody, hdepth, hc, hat, hroomy => by
    rw [Stmt.depthAll, Nat.max_le] at hdepth
    obtain ⟨c₁, c₂, hc₁, hc₂, rfl⟩ := Stmt.codeAll_cons_eq_ok hc
    obtain ⟨hat₁, hat₂⟩ := Code.at_append.mp hat
    obtain ⟨hst, hrest⟩ := List.forall_mem_cons.mp hbody
    rw [Stmt.execAll] at hroomy ⊢
    rw [List.length_append, ← Nat.add_assoc]
    have htop := h.hosts.top_le
    have h' : m.Presents a final s env Γ (w.demand s.top st.ownDepth) :=
      { h with peak := Int.max_le.mpr ⟨Int.ofNat_le.mpr htop, h.peak⟩ }
    have hnext :
        ∀ w, w.demands <:+ (Stmt.execAll a.frameSize again env s.top rest w).world.demands :=
      Stmt.demands_execAll hnotes rest
    have hroomy₁ := hroomy.of_suffix (Result.demands_andThen hnext)
    -- The frames are there already, so it is the temporaries that need room.
    have hfits : Demand.Fits m.memory.size ⟨s.top, st.ownDepth⟩ := by
      have hnoted : ⟨s.top, st.ownDepth⟩ ∈
          (st.exec a.frameSize again env s.top (w.demand s.top st.ownDepth)).world.demands :=
        (Stmt.demands_exec hnotes st _).subset List.mem_cons_self
      refine (hroomy₁ _ hnoted (Nat.le_trans st.ownDepth_le_depth hdepth.1)).resolve_right ?_
      dsimp only
      omega
    refine .andThen h'.hosts hnext (Stmt.copes hbuiltins hagain hnotes hentries st h' hst
      hdepth.1 hc₁ hat₁ hfits hroomy₁) ?_
    intro hending m' hbecomes
    unfold Result.andThen at hroomy
    rw [hending] at hroomy
    exact Stmt.copesAll hbuiltins hagain hnotes hentries rest (h'.becomes hbecomes) hrest
      hdepth.2 hc₂ (hbecomes.keeps.code ▸ hat₂) (hbecomes.keeps.size ▸ hroomy)

end

/-- Whatever the fuel, the machine follows the interpreter. -/
theorem Stmt.followed_runFor (hbuiltins : ({} : TypeTable) ≤ a.types) (fuel : Nat) :
    (Stmt.runFor a.frameSize fuel).Followed a final fuel := by
  induction fuel with
  | zero =>
    exact fun {_ m _ _ _ _ _ base _} _ _ _ _ _ _ _ =>
      .inl ⟨0, m.goto base, Nat.le_refl 0, .refl⟩
  | succ fuel ih =>
    intro s m env Γ w body entries base c h hbody hdepth hc hentries hat hroomy
    exact Stmt.copesAll hbuiltins ih
      (Stmt.notes_runFor _ fuel) hentries body h hbody hdepth hc hat hroomy

end

end BlockLang
