import BlockLang.Proofs.Emission
import Mathlib.Algebra.Group.Nat.Defs
import Mathlib.Order.Nat

/-!
# An emitter is a partial map from addresses to lines

An emitter writes at its cursor, which moves on, back to reserved addresses and forward
again to the frontier. A `WriteLog` only notes what was written, reserved and remarked on.
Whatever is done to a new emitter, its cursor and its frontier are those of the log, and
the finished code has at each address the last line that was written there.

`Emitter.refines_log` is the theorem. It has both arrays of an emitter at one length,
seeks that fail and change nothing, and the condition under which code can be finished.

* `Emitter.Logged e l` relates an emitter to its log. The line at an address is looked up
  in two arrays, one for instructions and one for comments; an emitter is in order while
  they have one length and the cursor is not beyond the frontier.
* One operation: `Emitter.Logged.write`, `Emitter.Logged.note` and
  `Emitter.Logged.reserve`, and `Emitter.Logged.perform` for all of them. A write replaces
  an entry or appends one, and it has to do the same to both arrays (`Emitter.code_write`,
  `Emitter.comments_write`).
* Seeking: `Emitter.seek_of_lt` looks at the emitter that a failing seek hands back.
* Handing over: notes are sorted by insertion, and those of one address stay in order
  (`Note.filter_sort`). `Emitter.Logged.finish_error_iff` and `Emitter.Logged.finish_ok`
  say when finishing fails and what it gives, and `Emitter.Logged.finish_alike` that logs
  with the same last lines give the same.
-/

namespace BlockLang

/-! ## Operations -/

/-- What can be done to an emitter. -/
inductive Emission where
  | register (op : Opcode) (form : op.form = .register) (dst src1 src2 : Register)
    (comment : String)
  | memory (op : Opcode) (form : op.form = .memory) (reg : Register) (offset : Word)
      (base : Register) (comment : String)
  /-- A memory instruction that reaches a code address relative to `pc`. -/
  | relative (op : Opcode) (form : op.form = .memory) (reg : Register) (target : Nat)
      (bound : target < 2 ^ 63) (comment : String)
  | note (text : String)
  | reserve (count : Nat)
  | seek (address : Nat)
  | resume

namespace Emitter

/-- The emitter as an operation leaves it. -/
def perform (e : Emitter) : Emission → Option Emitter
  | .register op _ dst src1 src2 comment => e.register? op dst src1 src2 comment
  | .memory op _ reg offset base comment => e.memory? op reg offset base comment
  | .relative op _ reg target _ comment => e.relative? op reg target comment
  | .note text => some (e.note text)
  | .reserve count => some (e.reserve count).2
  | .seek address => some (e.seek address).2
  | .resume => some e.resume

def performAll (e : Emitter) (ops : List Emission) : Option Emitter := ops.foldlM perform e

end Emitter

/-! ## Logs -/

/-- The comment that stays with a line: none without tracing, and none that is empty. -/
def Line.kept (trace : Bool) (comment : String) : Option String :=
  if trace ∧ comment ≠ "" then some comment else none

/-- What was done to an emitter. -/
structure WriteLog where
  cursor : Nat := 0
  /-- The lines and their addresses, the latest first. -/
  writes : List (Nat × Line) := []
  reserved : List Nat := []
  /-- The notes in the order in which they were made. -/
  notes : List Note := []
  deriving DecidableEq

namespace WriteLog

/-- The addresses that were written or reserved. -/
def touched (l : WriteLog) : List Nat := l.writes.map (·.1) ++ l.reserved

/-- One past the highest address that was written or reserved. -/
def frontier (l : WriteLog) : Nat := (l.touched.map (· + 1)).foldr max 0

/-- The last line that was written at an address. -/
def last? (l : WriteLog) (address : Nat) : Option Line := l.writes.lookup address

def write (l : WriteLog) (line : Line) : WriteLog :=
  { l with cursor := l.cursor + 1, writes := (l.cursor, line) :: l.writes }

def perform (trace : Bool) (l : WriteLog) : Emission → WriteLog
  | .register op _ dst src1 src2 comment =>
    l.write ⟨.register op dst src1 src2, Line.kept trace comment⟩
  | .memory op _ reg offset base comment =>
    l.write ⟨.memory op reg offset base, Line.kept trace comment⟩
  | .relative op _ reg target _ comment =>
    l.write ⟨.memory op reg (Int64.ofInt (target - (l.cursor + 1))) .pc,
      Line.kept trace comment⟩
  | .note text => if trace then { l with notes := l.notes ++ [⟨l.cursor, text⟩] } else l
  | .reserve count =>
    { l with
      cursor := l.cursor + count, reserved := List.range' l.cursor count ++ l.reserved }
  | .seek address => if address ≤ l.frontier then { l with cursor := address } else l
  | .resume => { l with cursor := l.frontier }

def performAll (trace : Bool) (l : WriteLog) (ops : List Emission) : WriteLog :=
  ops.foldl (perform trace) l

/-- The frontier is the end of what was touched. -/
theorem frontier_le_iff (l : WriteLog) (n : Nat) :
    l.frontier ≤ n ↔ ∀ a ∈ l.touched, a < n := by
  unfold frontier
  induction l.touched with
  | nil => simp
  | cons a rest ih =>
    rw [List.map_cons, List.foldr_cons, Nat.max_le, ih, Nat.succ_le_iff]
    simp

@[simp] theorem cursor_write (l : WriteLog) (line : Line) :
    (l.write line).cursor = l.cursor + 1 := rfl

theorem frontier_write (l : WriteLog) (line : Line) :
    (l.write line).frontier = max l.frontier (l.cursor + 1) := by
  refine eq_of_forall_ge_iff fun n => ?_
  rw [frontier_le_iff, Nat.max_le, frontier_le_iff, Nat.succ_le_iff]
  simp [write, touched, and_comm]

/-- The last line at the cursor is the one written. -/
theorem last?_write (l : WriteLog) (line : Line) (a : Nat) :
    (l.write line).last? a = if a = l.cursor then some line else l.last? a := by
  by_cases h : a = l.cursor
  · simp [last?, write, h]
  · have hne : (a == l.cursor) = false := by simpa using h
    simp [last?, write, List.lookup_cons, h, hne]

/-- Reserving moves the frontier behind what is reserved. -/
theorem frontier_reserve {l : WriteLog}
    (h : l.cursor ≤ l.frontier) (trace : Bool) (count : Nat) :
    (l.perform trace (.reserve count)).frontier = max l.frontier (l.cursor + count) := by
  have htouched : ∀ a, a ∈ (l.perform trace (.reserve count)).touched ↔
      a ∈ l.touched ∨ l.cursor ≤ a ∧ a < l.cursor + count := by
    intro a
    simp only [touched, perform, List.mem_append, List.mem_range'_1]
    grind
  refine eq_of_forall_ge_iff fun n => ?_
  rw [frontier_le_iff, Nat.max_le, frontier_le_iff]
  constructor
  · intro hall
    have hold : ∀ a ∈ l.touched, a < n := fun a ha => hall a ((htouched a).mpr (.inl ha))
    refine ⟨hold, ?_⟩
    have hcursor : l.cursor ≤ n := Nat.le_trans h ((frontier_le_iff l n).mpr hold)
    cases count with
    | zero => exact hcursor
    | succ count => exact hall (l.cursor + count) ((htouched _).mpr (.inr (by omega)))
  · rintro ⟨hold, hcount⟩ a ha
    rcases (htouched a).mp ha with ha | ha
    · exact hold a ha
    · omega

end WriteLog

/-! ## One operation -/

namespace Emitter

variable {e : Emitter} {l : WriteLog}

/-- The line at an address: its instruction, if there is one, and its comment. -/
def line? (e : Emitter) (a : Nat) : Option Line :=
  e.code[a]?.join.map fun i => ⟨i, e.comments[a]?.join⟩

/-- The emitter has done what the log says. -/
structure Logged (e : Emitter) (l : WriteLog) : Prop where
  cursor : e.cursor = l.cursor
  frontier : e.frontier = l.frontier
  within : e.cursor ≤ e.frontier
  aligned : e.Aligned
  lines : ∀ a, e.line? a = l.last? a
  notes : e.notes.toList = l.notes

theorem frontier_write (h : e.cursor ≤ e.frontier) (i : Instruction) (comment : String) :
    (e.write i comment).frontier = max e.frontier (e.cursor + 1) := by
  unfold frontier at h ⊢
  unfold write
  split
  · simp
    omega
  · simp
    omega

/-- A write puts the instruction at the cursor and nowhere else. -/
theorem code_write (h : e.cursor ≤ e.frontier)
    (i : Instruction) (comment : String) (a : Nat) :
    (e.write i comment).code[a]? = if a = e.cursor then some (some i) else e.code[a]? := by
  unfold frontier at h
  unfold write
  split
  · next hend => rw [Array.getElem?_push, ← hend]
  · next hend =>
    rw [Array.getElem?_setIfInBounds]
    grind

/-- A write puts the comment at the cursor and nowhere else. -/
theorem comments_write (h : e.cursor ≤ e.frontier) (haligned : e.Aligned) (i : Instruction)
    (comment : String) (a : Nat) :
    (e.write i comment).comments[a]? =
      if a = e.cursor then some (Line.kept e.trace comment) else e.comments[a]? := by
  unfold frontier at h
  unfold Aligned at haligned
  unfold write
  split
  · next hend =>
    rw [Array.getElem?_push, haligned, ← hend]
    rfl
  · next hend =>
    rw [Array.getElem?_setIfInBounds]
    have hkept : e.kept comment = Line.kept e.trace comment := rfl
    grind

@[simp] theorem notes_write (e : Emitter) (i : Instruction) (comment : String) :
    (e.write i comment).notes = e.notes := by
  unfold write
  split <;> rfl

@[simp] theorem trace_write (e : Emitter) (i : Instruction) (comment : String) :
    (e.write i comment).trace = e.trace := by
  unfold write
  split <;> rfl

/-- A write is one in the log. -/
theorem Logged.write (h : e.Logged l) (i : Instruction) (comment : String) :
    (e.write i comment).Logged (l.write ⟨i, Line.kept e.trace comment⟩) where
  cursor := by simp [h.cursor]
  frontier := by rw [frontier_write h.within, WriteLog.frontier_write, h.frontier, h.cursor]
  within := by
    rw [frontier_write h.within, cursor_write]
    exact Nat.le_max_right _ _
  aligned := h.aligned.write i comment
  lines := by
    intro a
    rw [WriteLog.last?_write, ← h.lines, ← h.cursor, line?, code_write h.within,
      comments_write h.within h.aligned]
    split <;> rfl
  notes := by rw [notes_write, h.notes]; rfl

theorem trace_note (e : Emitter) (text : String) : (e.note text).trace = e.trace := by
  unfold note
  split <;> rfl

theorem frontier_note (e : Emitter) (text : String) :
    (e.note text).frontier = e.frontier := by
  unfold note
  split <;> rfl

/-- A note is one in the log. -/
theorem Logged.note (h : e.Logged l) (text : String) :
    (e.note text).Logged (l.perform e.trace (.note text)) := by
  unfold Emitter.note WriteLog.perform
  dsimp only
  split
  · exact ⟨h.cursor, h.frontier, h.within, h.aligned, h.lines, by simp [h.notes, h.cursor]⟩
  · exact h

/-! A skip past the frontier moves it by one; any other skip moves the cursor only. -/

theorem frontier_skip (h : e.cursor ≤ e.frontier) :
    e.skip.frontier = max e.frontier (e.cursor + 1) := by
  unfold frontier at h ⊢
  unfold skip
  split
  · simp
    omega
  · dsimp only
    omega

/-- A skipped address holds no line that it did not hold before. -/
theorem line?_skip (e : Emitter) (a : Nat) : e.skip.line? a = e.line? a := by
  have hpush : ∀ {α : Type} (xs : Array (Option α)),
      (xs.push none)[a]?.join = xs[a]?.join := by
    intro α xs
    rw [Array.getElem?_push]
    split
    · next ha => simp [ha]
    · rfl
  unfold skip
  split
  · simp only [line?, hpush]
  · rfl

@[simp] theorem notes_skip (e : Emitter) : e.skip.notes = e.notes := by
  unfold skip
  split <;> rfl

@[simp] theorem trace_skip (e : Emitter) : e.skip.trace = e.trace := by
  unfold skip
  split <;> rfl

theorem frontier_skipMany (h : e.cursor ≤ e.frontier) (count : Nat) :
    (e.skipMany count).frontier = max e.frontier (e.cursor + count) := by
  induction count generalizing e with
  | zero => exact (Nat.max_eq_left h).symm
  | succ count ih =>
    have hwithin : e.skip.cursor ≤ e.skip.frontier := by
      rw [cursor_skip, frontier_skip h]
      exact Nat.le_max_right _ _
    rw [skipMany, ih hwithin, cursor_skip, frontier_skip h]
    omega

theorem frontier_reserve (h : e.cursor ≤ e.frontier) (count : Nat) :
    (e.reserve count).2.frontier = max e.frontier (e.cursor + count) :=
  frontier_skipMany h count

/-- Reserving writes no line. -/
theorem line?_reserve (e : Emitter) (count a : Nat) :
    (e.reserve count).2.line? a = e.line? a :=
  skipMany_of_skip (P := fun e' => e'.line? a = e.line? a)
    (fun h => (line?_skip _ a).trans h) rfl count

theorem notes_reserve (e : Emitter) (count : Nat) : (e.reserve count).2.notes = e.notes :=
  skipMany_of_skip (P := fun e' => e'.notes = e.notes)
    (fun h => (notes_skip _).trans h) rfl count

theorem trace_reserve (e : Emitter) (count : Nat) : (e.reserve count).2.trace = e.trace :=
  skipMany_of_skip (P := fun e' => e'.trace = e.trace)
    (fun h => (trace_skip _).trans h) rfl count

/-- Reserving is the same in the log. -/
theorem Logged.reserve (h : e.Logged l) (count : Nat) :
    (e.reserve count).2.Logged (l.perform e.trace (.reserve count)) where
  cursor := by simp [WriteLog.perform, h.cursor]
  frontier := by
    have hwithin : l.cursor ≤ l.frontier := h.cursor ▸ h.frontier ▸ h.within
    rw [frontier_reserve h.within, WriteLog.frontier_reserve hwithin, h.frontier, h.cursor]
  within := by
    rw [frontier_reserve h.within, cursor_reserve]
    exact Nat.le_max_right _ _
  aligned := skipMany_of_skip (P := Aligned) Aligned.skip h.aligned count
  lines a := (line?_reserve e count a).trans (h.lines a)
  notes := by
    rw [notes_reserve]
    exact h.notes

/-- A seek up to the frontier moves the cursor. -/
theorem seek_of_le {address : Nat} (h : address ≤ e.frontier) :
    e.seek address = (.ok (), { e with cursor := address }) :=
  if_neg (Nat.not_lt.mpr h)

/-- A seek beyond the frontier fails, and hands the emitter back as it was. -/
theorem seek_of_lt {address : Nat} (h : e.frontier < address) :
    e.seek address = (.error (.patchOutOfRange address e.frontier), e) :=
  if_pos h

/-- A cursor that cannot be moved stays where it is, and all else as well. -/
theorem seek_snd_of_lt {address : Nat} (h : e.frontier < address) :
    (e.seek address).2 = e := by
  rw [seek_of_lt h]

/-- A seek fails exactly beyond the frontier. -/
theorem seek_fails_iff (e : Emitter) (address : Nat) (d : Defect) :
    (e.seek address).1 = .error d ↔
      e.frontier < address ∧ d = .patchOutOfRange address e.frontier := by
  rcases Nat.lt_or_ge e.frontier address with h | h
  · simp [seek_of_lt h, h, eq_comm]
  · simp [seek_of_le h, Nat.not_lt_of_le h]

/-- The distance to a target, from behind the cursor. -/
theorem offsetTo_eq (e : Emitter) (target : Nat) :
    e.offsetTo target = Int64.ofInt (target - (e.cursor + 1)) := by
  rw [offsetTo, Int64.ofInt_sub, Int64.ofInt_add]
  rfl

/-- An operation succeeds and does to the log what it does to the emitter. -/
theorem Logged.perform (h : e.Logged l) (op : Emission) :
    ∃ e', e.perform op = some e' ∧ e'.Logged (l.perform e.trace op) ∧ e'.trace = e.trace ∧
    e.frontier ≤ e'.frontier := by
  have hgrown : ∀ i comment, e.frontier ≤ (e.write i comment).frontier := by
    intro i comment
    rw [frontier_write h.within]
    exact Nat.le_max_left _ _
  cases op with
  | register op form dst src1 src2 comment =>
    exact ⟨_, e.register?_of_form form .., h.write _ _, trace_write .., hgrown _ _⟩
  | memory op form reg offset base comment =>
    exact ⟨_, e.memory?_of_form form .., h.write _ _, trace_write .., hgrown _ _⟩
  | relative op form reg target bound comment =>
    refine ⟨_, e.relative?_of_form form .., ?_, trace_write .., hgrown _ _⟩
    rw [offsetTo_eq, h.cursor]
    exact h.write _ _
  | note text =>
    exact ⟨_, rfl, h.note text, trace_note e text, Nat.le_of_eq (frontier_note e text).symm⟩
  | reserve count =>
    refine ⟨_, rfl, h.reserve count, trace_reserve e count, ?_⟩
    rw [frontier_reserve h.within]
    exact Nat.le_max_left _ _
  | seek address =>
    refine ⟨_, rfl, ?_⟩
    by_cases haddress : address ≤ e.frontier
    · rw [seek_of_le haddress, WriteLog.perform, if_pos (h.frontier ▸ haddress)]
      exact ⟨⟨rfl, h.frontier, haddress, h.aligned, h.lines, h.notes⟩, rfl, Nat.le_refl _⟩
    · rw [seek_snd_of_lt (Nat.lt_of_not_le haddress), WriteLog.perform,
        if_neg (h.frontier ▸ haddress)]
      exact ⟨h, rfl, Nat.le_refl _⟩
  | resume =>
    exact ⟨_, rfl, ⟨h.frontier, h.frontier, Nat.le_refl _, h.aligned, h.lines, h.notes⟩, rfl,
      Nat.le_refl _⟩

/-! ## Runs -/

/-- A new emitter has an empty log. -/
theorem logged_empty (trace : Bool) : Logged { trace } {} where
  cursor := rfl
  frontier := rfl
  within := Nat.le_refl _
  aligned := rfl
  lines a := by simp [line?, WriteLog.last?]
  notes := rfl

/-- Whatever is done to an emitter succeeds, and is in the log. -/
theorem Logged.performAll (h : e.Logged l) (ops : List Emission) :
    ∃ e', e.performAll ops = some e' ∧ e'.Logged (l.performAll e.trace ops) ∧
    e'.trace = e.trace := by
  induction ops generalizing e l with
  | nil => exact ⟨e, rfl, h, rfl⟩
  | cons op ops ih =>
    obtain ⟨e₁, hstep, hlogged, htrace, -⟩ := h.perform op
    obtain ⟨e₂, hrun, hlogged', htrace'⟩ := ih hlogged
    refine ⟨e₂, ?_, htrace ▸ hlogged', htrace'.trans htrace⟩
    rw [Emitter.performAll, List.foldlM_cons, hstep]
    exact hrun

end Emitter

/-! ## Handing over -/

namespace Note

theorem mem_insert {n m : Note} {notes : List Note} :
    m ∈ insert n notes ↔ m = n ∨ m ∈ notes := by
  induction notes with
  | nil => simp [insert]
  | cons first rest ih =>
    rw [insert]
    split <;> simp [ih, or_left_comm]

/-- Inserting keeps notes sorted. -/
theorem pairwise_insert (n : Note) {notes : List Note}
    (h : notes.Pairwise (·.address ≤ ·.address)) :
    (insert n notes).Pairwise (·.address ≤ ·.address) := by
  induction notes with
  | nil => simp [insert]
  | cons first rest ih =>
    obtain ⟨hfirst, hrest⟩ := List.pairwise_cons.mp h
    rw [insert]
    split
    · next hle =>
      refine List.pairwise_cons.mpr ⟨?_, h⟩
      intro m hm
      rcases List.mem_cons.mp hm with rfl | hm
      · exact hle
      · exact Nat.le_trans hle (hfirst m hm)
    · next hle =>
      refine List.pairwise_cons.mpr ⟨?_, ih hrest⟩
      intro m hm
      rcases mem_insert.mp hm with rfl | hm
      · exact Nat.le_of_not_le hle
      · exact hfirst m hm

/-- A note comes before those of its address, and all others stay as they were. -/
theorem filter_insert (n : Note) (notes : List Note) (a : Nat) :
    (insert n notes).filter (·.address = a) = (n :: notes).filter (·.address = a) := by
  induction notes with
  | nil => rfl
  | cons first rest ih =>
    rw [insert]
    split
    · rfl
    · next hle =>
      have hne : ¬ (n.address = a ∧ first.address = a) := by omega
      rw [List.filter_cons, ih]
      by_cases hn : n.address = a <;> by_cases hfirst : first.address = a <;> simp_all

/-- Sorted notes are in the order of their addresses. -/
theorem pairwise_sort (notes : List Note) :
    (sort notes).Pairwise (·.address ≤ ·.address) := by
  induction notes with
  | nil => exact List.Pairwise.nil
  | cons n rest ih => exact pairwise_insert n ih

/-- Sorting keeps the notes of each address, in their order. -/
theorem filter_sort (notes : List Note) (a : Nat) :
    (sort notes).filter (·.address = a) = notes.filter (·.address = a) := by
  induction notes with
  | nil => rfl
  | cons n rest ih =>
    show (insert n (sort rest)).filter _ = _
    rw [filter_insert, List.filter_cons, ih, List.filter_cons]

end Note

namespace Emitter

variable {e : Emitter} {l : WriteLog}

/-- Nothing was written to an address exactly if there is no instruction. -/
theorem Logged.last?_eq_none_iff (h : e.Logged l) {a : Nat} (ha : a < e.code.toList.length) :
    l.last? a = none ↔ e.code.toList[a].isNone = true := by
  have hget : e.code[a]? = some e.code.toList[a] := by
    simp [Array.getElem?_eq_getElem (by simpa using ha)]
  rw [← h.lines, line?, hget]
  simp

/-- Object code is refused for the lowest address that was reserved and never written. -/
theorem Logged.finish_error_iff (h : e.Logged l) (d : Defect) :
    e.finish = .error d ↔
      ∃ a, d = .unfilledSlot a ∧ a < l.frontier ∧ l.last? a = none ∧
      ∀ b < a, l.last? b ≠ none := by
  have hlength : e.code.toList.length = l.frontier := Array.length_toList.trans h.frontier
  have hfind : ∀ a, e.code.toList.findIdx? Option.isNone = some a ↔
      a < l.frontier ∧ l.last? a = none ∧ ∀ b < a, l.last? b ≠ none := by
    intro a
    rw [List.findIdx?_eq_some_iff_getElem, ← hlength]
    constructor
    · rintro ⟨ha, hnone, hbefore⟩
      refine ⟨ha, (h.last?_eq_none_iff ha).mpr hnone, ?_⟩
      intro b hb hlast
      exact hbefore b hb ((h.last?_eq_none_iff (by omega)).mp hlast)
    · rintro ⟨ha, hnone, hbefore⟩
      refine ⟨ha, (h.last?_eq_none_iff ha).mp hnone, ?_⟩
      intro b hb hlast
      exact hbefore b hb ((h.last?_eq_none_iff (by omega)).mpr hlast)
  unfold finish
  cases hfound : e.code.toList.findIdx? Option.isNone with
  | none =>
    simp only [reduceCtorEq, false_iff]
    rintro ⟨a, -, ha⟩
    have hsome := (hfind a).mpr ha
    simp [hfound] at hsome
  | some found =>
    simp only [Except.error.injEq]
    constructor
    · rintro rfl
      exact ⟨found, rfl, (hfind found).mp hfound⟩
    · rintro ⟨a, rfl, ha⟩
      have hsome := (hfind a).mpr ha
      rw [hfound] at hsome
      rw [Option.some.inj hsome]

/-- Code without a hole is a list of instructions. -/
theorem exists_code_of_findIdx? {slots : List (Option Instruction)}
    (h : slots.findIdx? Option.isNone = none) : ∃ c : Code, slots = c.map some := by
  refine ⟨slots.filterMap id, ?_⟩
  rw [List.findIdx?_eq_none_iff] at h
  induction slots with
  | nil => rfl
  | cons slot rest ih =>
    obtain ⟨hslot, hrest⟩ := List.forall_mem_cons.mp h
    obtain ⟨i, rfl⟩ := Option.isSome_iff_exists.mp (by simpa using hslot)
    exact congrArg (some i :: ·) (ih hrest)

/-- Finished code has at each address the last line written there, and the notes by
address. -/
theorem Logged.finish_ok (h : e.Logged l) {p : ObjectCode} (hp : e.finish = .ok p) :
    (∀ a, p.lines[a]? = l.last? a) ∧ p.notes = Note.sort l.notes := by
  unfold finish at hp
  cases hfound : e.code.toList.findIdx? Option.isNone with
  | some found => simp [hfound] at hp
  | none =>
    -- no address is left open, so the instructions are those of the code as they stand
    obtain ⟨code, hcode⟩ := exists_code_of_findIdx? hfound
    rw [hfound] at hp
    cases hp
    refine ⟨fun a => ?_, by rw [h.notes]⟩
    have hsize : e.comments.toList.length = code.length := by
      have hsizes : e.comments.toList.length = e.code.toList.length := h.aligned
      rw [hsizes, hcode, List.length_map]
    have hinstruction : e.code[a]? = code[a]?.map some := by
      rw [← Array.getElem?_toList, hcode, List.getElem?_map]
    have hsame : (code.map some).filterMap id = code := by
      rw [List.filterMap_map]; exact List.filterMap_some
    rw [← h.lines, line?, hinstruction, hcode, hsame,
      List.getElem?_zipWith, ← Array.getElem?_toList]
    cases hc : code[a]? with
    | none => rfl
    | some i =>
      have hlt : a < e.comments.toList.length := hsize ▸ (List.getElem?_eq_some_iff.mp hc).1
      rw [List.getElem?_eq_getElem hlt]
      rfl

/-- There is finished code if and only if every address below the frontier was written. -/
theorem Logged.finish_ok_iff (h : e.Logged l) :
    (∃ p, e.finish = .ok p) ↔ ∀ a < l.frontier, l.last? a ≠ none := by
  constructor
  · rintro ⟨p, hp⟩ a ha
    induction a using Nat.strong_induction_on with
    | _ a ih =>
      intro hnone
      have herror := (h.finish_error_iff (.unfilledSlot a)).mpr ⟨a, rfl, ha, hnone,
        fun b hb => ih b hb (by omega)⟩
      simp [hp] at herror
  · intro hall
    cases hfinish : e.finish with
    | ok p => exact ⟨p, rfl⟩
    | error d =>
      obtain ⟨a, -, ha, hnone, -⟩ := (h.finish_error_iff d).mp hfinish
      exact absurd hnone (hall a ha)

/-- Emitters whose last writes are alike hand over the same instructions, and the same lines
if comments are alike too. How the lines got there does not matter. -/
theorem Logged.finish_alike {e' : Emitter}
    {l' : WriteLog} (h : e.Logged l) (h' : e'.Logged l')
    (hlast : ∀ a, (l.last? a).map (·.instruction) = (l'.last? a).map (·.instruction))
    {p p' : ObjectCode} (hp : e.finish = .ok p) (hp' : e'.finish = .ok p') :
    p.instructions = p'.instructions ∧
    ((∀ a, l.last? a = l'.last? a) → p.lines = p'.lines) := by
  obtain ⟨hlines, -⟩ := h.finish_ok hp
  obtain ⟨hlines', -⟩ := h'.finish_ok hp'
  constructor
  · refine List.ext_getElem? fun a => ?_
    simp only [ObjectCode.instructions, List.getElem?_map, hlines, hlines', hlast]
  · intro hsame
    refine List.ext_getElem? fun a => ?_
    rw [hlines, hlines', hsame]

/-- Logs with the same last instructions give the same instructions. -/
theorem Logged.finish_map_instructions {e' : Emitter}
    {l' : WriteLog} (h : e.Logged l) (h' : e'.Logged l')
    (hlast : ∀ a, (l.last? a).map (·.instruction) = (l'.last? a).map (·.instruction))
    (hfrontier : l.frontier = l'.frontier) :
    e.finish.map (·.instructions) = e'.finish.map (·.instructions) := by
  have hnone : ∀ a, l.last? a = none ↔ l'.last? a = none := by
    intro a
    have hmap := congrArg (· = none) (hlast a)
    simpa using hmap
  have herror : ∀ d, e.finish = .error d ↔ e'.finish = .error d := by
    intro d
    simp only [h.finish_error_iff, h'.finish_error_iff, hfrontier, hnone, ne_eq]
  cases hp : e.finish with
  | error d => simp [Except.map, (herror d).mp hp]
  | ok p =>
    cases hp' : e'.finish with
    | error d => simp [hp] at herror; exact absurd hp' (herror d)
    | ok p' => simp [Except.map, (h.finish_alike h' hlast hp hp').1]

/-- The distance is exact where addresses are words. -/
theorem toInt_offsetTo {target : Nat} (htarget : target < 2 ^ 63)
    (hcursor : e.cursor < 2 ^ 63) : (e.offsetTo target).toInt = target - (e.cursor + 1) := by
  rw [offsetTo_eq]
  exact Int64.toInt_ofInt_of_le (by omega) (by omega)

/-- **An emitter is a partial map from addresses to lines.** Whatever is done to a new emitter
succeeds, and leaves cursor and frontier as the log has them and both arrays at one length; a
write lands in bounds, a seek that fails changes nothing and the frontier never sinks. Object
code is finished if and only if every address below the frontier was written, and then has the
last line written at each. So neither the order of the writes nor the way to them shows in
it. -/
theorem refines_log (trace : Bool) (ops : List Emission) :
    ∃ e, performAll { trace } ops = some e ∧
      let l := WriteLog.performAll trace {} ops
      (e.cursor = l.cursor ∧ e.frontier = l.frontier ∧ e.cursor ≤ e.frontier) ∧
      e.comments.size = e.code.size ∧
      (∀ op, ∃ e', e.perform op = some e' ∧ e.frontier ≤ e'.frontier) ∧
      (∀ i comment a,
        (e.write i comment).code[a]? = (if a = e.cursor then some (some i) else e.code[a]?) ∧
        (e.write i comment).comments[a]? =
          if a = e.cursor then some (Line.kept trace comment) else e.comments[a]?) ∧
      (∀ target < 2 ^ 63, e.cursor < 2 ^ 63 →
        (e.offsetTo target).toInt = target - (e.cursor + 1)) ∧
      (∀ address d, (e.seek address).1 = .error d ↔
        e.frontier < address ∧ d = .patchOutOfRange address e.frontier) ∧
      (∀ address, e.frontier < address → (e.seek address).2 = e) ∧
      ((∃ p, e.finish = .ok p) ↔ ∀ a < l.frontier, l.last? a ≠ none) ∧
      (∀ d, e.finish = .error d ↔
        ∃ a, d = .unfilledSlot a ∧ a < l.frontier ∧ l.last? a = none ∧
        ∀ b < a, l.last? b ≠ none) ∧
      (∀ p, e.finish = .ok p →
        (∀ a, p.lines[a]? = l.last? a) ∧
        p.notes.Pairwise (·.address ≤ ·.address) ∧
        ∀ a, p.notes.filter (·.address = a) = l.notes.filter (·.address = a)) ∧
      ∀ trace' ops' e', performAll { trace := trace' } ops' = some e' →
        let l' := WriteLog.performAll trace' {} ops'
        (∀ a, (l.last? a).map (·.instruction) = (l'.last? a).map (·.instruction)) →
        (l.frontier = l'.frontier →
          e.finish.map (·.instructions) = e'.finish.map (·.instructions)) ∧
        ∀ p p', e.finish = .ok p → e'.finish = .ok p' →
          p.instructions = p'.instructions ∧
          ((∀ a, l.last? a = l'.last? a) → p.lines = p'.lines) := by
  obtain ⟨e, hrun, h, htrace⟩ := (logged_empty trace).performAll ops
  refine ⟨e, hrun, ⟨h.cursor, h.frontier, h.within⟩, h.aligned, ?_, ?_, ?_, seek_fails_iff e,
    fun _ => seek_snd_of_lt, h.finish_ok_iff, h.finish_error_iff, ?_, ?_⟩
  · intro op
    obtain ⟨e', hstep, -, -, hfrontier⟩ := h.perform op
    exact ⟨e', hstep, hfrontier⟩
  · intro i comment a
    rw [code_write h.within, comments_write h.within h.aligned, htrace]
    exact ⟨rfl, rfl⟩
  · intro target htarget hcursor
    exact toInt_offsetTo htarget hcursor
  · intro p hp
    obtain ⟨hlines, hnotes⟩ := h.finish_ok hp
    rw [hnotes]
    exact ⟨hlines, Note.pairwise_sort _, Note.filter_sort _⟩
  · intro trace' ops' e' hrun' l' hlast
    obtain ⟨e₁, hrun₁, h', -⟩ := (logged_empty trace').performAll ops'
    rw [hrun'] at hrun₁
    cases hrun₁
    refine ⟨h.finish_map_instructions h' hlast, ?_⟩
    intro p p' hp hp'
    exact h.finish_alike h' hlast hp hp'

/-- A jump filled in after the code that it skips is the jump written in its place, with
comments or without. -/
theorem skipping_refines_log :
    let patched : List Emission :=
      [.reserve 1, .note "skipped", .register .out rfl .ac .ac .ac "", .seek 4, .seek 0,
      .relative .lda rfl .pc 2 (by decide) "jump over", .resume,
      .register .halt rfl .ac .ac .ac ""]
    let direct : List Emission :=
      [.memory .lda rfl .pc 1 .pc "jump over", .register .out rfl .ac .ac .ac "",
      .register .halt rfl .ac .ac .ac ""]
    ∃ e e' p p', performAll { trace := true } patched = some e ∧
      performAll { trace := false } direct = some e' ∧
      e.seek 4 = (.error (.patchOutOfRange 4 3), e) ∧ (e.offsetTo 1).toInt = -3 ∧
      e.finish = .ok p ∧ e'.finish = .ok p' ∧
      p.lines[0]? = some ⟨.memory .lda .pc 1 .pc, some "jump over"⟩ ∧
      p.instructions = p'.instructions := by
  intro patched direct
  obtain ⟨e, hrun, ⟨hcursor, hfrontier, -⟩, -, -, -, hoffset, hrefused, hseek, hfinish, -,
    hlines, halike⟩ :=
    refines_log true patched
  obtain ⟨e', hrun', -, -, -, -, -, -, -, hfinish', -⟩ := refines_log false direct
  obtain ⟨p, hp⟩ := hfinish.mpr (by decide)
  obtain ⟨p', hp'⟩ := hfinish'.mpr (by decide)
  have hthree : e.cursor = 3 ∧ e.frontier = 3 := ⟨hcursor, hfrontier⟩
  have hlast : ∀ a, ((WriteLog.performAll true {} patched).last? a).map (·.instruction) =
      ((WriteLog.performAll false {} direct).last? a).map (·.instruction) := by
    intro a
    rcases a with _ | _ | _ | _ <;> rfl
  have hfar : e.frontier < 4 := by omega
  have hfailed : (e.seek 4).1 = .error (.patchOutOfRange 4 3) :=
    (hrefused 4 _).mpr ⟨hfar, by rw [hthree.2]⟩
  refine ⟨e, e', p, p', hrun, hrun', Prod.ext hfailed (hseek 4 hfar), ?_, hp, hp', ?_, ?_⟩
  · rw [hoffset 1 (by decide) (by omega), hthree.1]
    rfl
  · exact ((hlines p hp).1 0).trans (by decide)
  · exact ((halike false direct e' hrun' hlast).2 p p' hp hp').1

end Emitter

end BlockLang
