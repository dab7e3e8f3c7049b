import BlockLang.Proofs.WriteLog

/-!
# The order of a listing

A listing goes through the instructions once and puts the pending notes before them. A
note that is anchored further on holds back all notes behind it. So a note does not stand
at its own anchor but at the furthest one among its own and those of the notes before it;
the two are the same when notes are in the order of their addresses, as an emitter hands
them over.

The entries of a listing are its lines before they are printed: what each of them shows,
and where that comes from. `ObjectCode.listing_arranged` says of every listing that it is
made of such entries, what the text of each is, and that nothing is lost and nothing
reordered.

* `Entry.text` is the text of an entry. For an instruction it is the address in a column,
  the text of the instruction and the comment, if there is one (`Entry.text_line`); for a
  note a star and its text (`Entry.text_note`).
* `Entry.arrange` merges lines and notes as a listing does. Its texts are the lines of the
  listing (`Entry.map_text_arrange`); its instructions are all instructions in order
  (`Entry.filterMap_line?_arrange`), and so for its notes
  (`Entry.filterMap_note?_arrange`).
* `Entry.findSome?_line?_of_suffix` finds the first instruction behind a note, by
  induction along the merging.
* Notes that an emitter hands over are sorted, and then the furthest anchor up to a note
  is its own (`Note.furthest_take`). None is anchored beyond the end of the code
  (`Emitter.Logged.notes_le_frontier`).
-/

namespace BlockLang

/-! ## Entries -/

/-- What a line of a listing shows. -/
inductive Entry where
  /-- The instruction at an address, with its comment. -/
  | line (l : Line) (address : Nat)
  /-- A note, with its position among the notes. -/
  | note (n : Note) (position : Nat)

namespace Entry

/-- The entry as it is printed. -/
def text : Entry → String
  | .line l address => l.listed address
  | .note n _ => n.listed

def line? : Entry → Option (Line × Nat)
  | .line l address => some (l, address)
  | .note .. => none

def note? : Entry → Option (Note × Nat)
  | .line .. => none
  | .note n position => some (n, position)

theorem text_note (n : Note) (position : Nat) :
    (Entry.note n position).text = "* " ++ n.text := rfl

/-- The text of an instruction with its address and comment. -/
theorem text_line (l : Line) (address : Nat) :
    (Entry.line l address).text =
      Text.spaces (3 - (toString address).length) ++ toString address ++ ":  " ++
        l.instruction.text ++ (l.comment.map ("\t* " ++ ·)).getD "" := by
  simp only [text, Line.listed, Text.pad]
  cases l.comment with
  | none => simp
  | some comment => simp [String.append_assoc]

/-- The entries for the lines from an address on and the notes from a position on. -/
def arrange (address position : Nat) : List Line → List Note → List Entry
  | [], notes => (notes.zipIdx position).map fun x => .note x.1 x.2
  | l :: rest, [] => .line l address :: arrange (address + 1) position rest []
  | l :: rest, n :: notes =>
    if n.address ≤ address
      then .note n position :: arrange address (position + 1) (l :: rest) notes
    else .line l address :: arrange (address + 1) position rest (n :: notes)
termination_by lines notes => lines.length + notes.length

end Entry

/-- The furthest anchor of some notes. -/
def Note.furthest (notes : List Note) : Nat := (notes.map (·.address)).foldr max 0

theorem Note.furthest_cons (n : Note) (notes : List Note) :
    Note.furthest (n :: notes) = max n.address (Note.furthest notes) := rfl

/-! ## Lines and notes of the entries -/

/-- A note that is due comes first. -/
theorem Line.listAll_of_le {n : Note} {address : Nat} (h : n.address ≤ address)
    (l : Line) (rest : List Line) (notes : List Note) :
    Line.listAll address (l :: rest) (n :: notes) =
    n.listed :: Line.listAll address (l :: rest) notes := by
  simp [Line.listAll, h]

/-- A note that is not due waits behind the instruction. -/
theorem Line.listAll_of_lt {n : Note} {address : Nat} (h : ¬ n.address ≤ address)
    (l : Line) (rest : List Line) (notes : List Note) :
    Line.listAll address (l :: rest) (n :: notes) =
    l.listed address :: Line.listAll (address + 1) rest (n :: notes) := by
  simp [Line.listAll, h]

namespace Entry

variable (address position : Nat) (lines : List Line) (notes : List Note)

/-- The texts of the entries are the lines of the listing. -/
theorem map_text_arrange :
    (arrange address position lines notes).map text = Line.listAll address lines notes := by
  fun_induction arrange address position lines notes with
  | case1 address position notes =>
    have htexts : (notes.zipIdx position).map (text ∘ fun x => .note x.1 x.2) =
        ((notes.zipIdx position).map Prod.fst).map Note.listed := by
      rw [List.map_map]
      rfl
    rw [List.map_map, htexts, List.zipIdx_map_fst, Line.listAll]
  | case2 address position l rest ih =>
    rw [List.map_cons, ih]
    rfl
  | case3 address position l rest n notes h ih =>
    rw [List.map_cons, ih, Line.listAll_of_le h]
    rfl
  | case4 address position l rest n notes h ih =>
    rw [List.map_cons, ih, Line.listAll_of_lt h]
    rfl

/-- Every instruction is listed once, in the order of addresses. -/
theorem filterMap_line?_arrange :
    (arrange address position lines notes).filterMap line? = lines.zipIdx address := by
  fun_induction arrange address position lines notes with
  | case1 address position notes => simp [List.filterMap_map, Function.comp_def, line?]
  | case2 address position l rest ih =>
    simp only [List.filterMap_cons, line?, ih, List.zipIdx_cons]
  | case3 address position l rest n notes h ih => simp only [List.filterMap_cons, line?, ih]
  | case4 address position l rest n notes h ih =>
    simp only [List.filterMap_cons, line?, ih, List.zipIdx_cons]

/-- Every note is listed once, in order. -/
theorem filterMap_note?_arrange :
    (arrange address position lines notes).filterMap note? = notes.zipIdx position := by
  fun_induction arrange address position lines notes with
  | case1 address position notes => simp [List.filterMap_map, Function.comp_def, note?]
  | case2 address position l rest ih => simp only [List.filterMap_cons, note?, ih]
  | case3 address position l rest n notes h ih =>
    simp only [List.filterMap_cons, note?, ih, List.zipIdx_cons]
  | case4 address position l rest n notes h ih => simp only [List.filterMap_cons, note?, ih]

/-! ## The place of a note -/

theorem findSome?_line?_arrange : (arrange address position lines notes).findSome? line? =
    (lines.zipIdx address).head? := by
  rw [← List.head?_filterMap, filterMap_line?_arrange]

variable {address position lines notes}

/-- A note that is listed is the one at its position. -/
theorem mem_zipIdx_of_note_mem {n : Note} {i : Nat}
    (h : .note n i ∈ arrange address position lines notes) :
    (n, i) ∈ notes.zipIdx position := by
  rw [← filterMap_note?_arrange address position lines]
  exact List.mem_filterMap.mpr ⟨_, h, rfl⟩

/-- The first instruction behind a note is the one that the furthest anchor up to the note
names, or the first of all if that anchor is passed already. -/
theorem findSome?_line?_of_suffix {n : Note} {i : Nat} {after : List Entry}
    (h : .note n i :: after <:+ arrange address position lines notes) :
    ∃ k, address + k = max address (Note.furthest (notes.take (i - position + 1))) ∧
      after.findSome? line? = lines[k]?.map (·, address + k) := by
  have hle : position ≤ i :=
    (List.mem_zipIdx (mem_zipIdx_of_note_mem (h.mem List.mem_cons_self))).1
  fun_induction arrange address position lines notes with
  | case1 address position notes =>
    -- Only notes are left, and no instruction follows them.
    have hnone : after.findSome? line? = none := by
      refine List.findSome?_eq_none_iff.mpr fun x hx => ?_
      obtain ⟨y, -, rfl⟩ := List.mem_map.mp (h.mem (List.mem_cons_of_mem _ hx))
      rfl
    exact ⟨max address (Note.furthest (notes.take (i - position + 1))) - address, by omega,
      by simpa using hnone⟩
  | case2 address position l rest ih =>
    rcases List.suffix_cons_iff.mp h with heq | h
    · cases heq
    · cases mem_zipIdx_of_note_mem (h.mem List.mem_cons_self)
  | case3 address position l rest m notes hm ih =>
    rcases List.suffix_cons_iff.mp h with heq | h
    · cases heq
      refine ⟨0, ?_, ?_⟩
      · simp [Note.furthest, hm]
      · rw [findSome?_line?_arrange, List.zipIdx_cons]
        rfl
    · have hlt : position + 1 ≤ i :=
        (List.mem_zipIdx (mem_zipIdx_of_note_mem (h.mem List.mem_cons_self))).1
      obtain ⟨k, hk, hfind⟩ := ih h hlt
      refine ⟨k, ?_, hfind⟩
      have hi : i - position + 1 = i - (position + 1) + 1 + 1 := by omega
      rw [hk, hi, List.take_succ_cons, Note.furthest_cons]
      omega
  | case4 address position l rest m notes hm ih =>
    rcases List.suffix_cons_iff.mp h with heq | h
    · cases heq
    · obtain ⟨k, hk, hfind⟩ := ih h hle
      refine ⟨k + 1, ?_, ?_⟩
      · rw [List.take_succ_cons, Note.furthest_cons] at hk ⊢
        omega
      · rw [hfind, List.getElem?_cons_succ, Nat.add_assoc, Nat.add_comm 1]

end Entry

/-! ## Notes in the order of their addresses -/

/-- In sorted notes the furthest anchor up to a note is its own. -/
theorem Note.furthest_take {notes : List Note}
    (h : notes.Pairwise (·.address ≤ ·.address)) {i : Nat} {n : Note}
    (hn : notes[i]? = some n) : Note.furthest (notes.take (i + 1)) = n.address := by
  induction notes generalizing i with
  | nil => simp at hn
  | cons m rest ih =>
    obtain ⟨hm, hrest⟩ := List.pairwise_cons.mp h
    rw [List.take_succ_cons, Note.furthest_cons]
    cases i with
    | zero =>
      cases hn
      simp [Note.furthest]
    | succ i =>
      rw [List.getElem?_cons_succ] at hn
      rw [ih hrest hn]
      exact Nat.max_eq_right (hm n (List.mem_of_getElem? hn))

theorem Note.mem_sort {n : Note} {notes : List Note} : n ∈ Note.sort notes ↔ n ∈ notes := by
  induction notes with
  | nil => rfl
  | cons m rest ih =>
    rw [Note.sort, List.foldr_cons, ← Note.sort, Note.mem_insert, ih, List.mem_cons]

/-- A new note is anchored at the frontier. -/
theorem WriteLog.mem_notes_perform {l : WriteLog} {trace : Bool} {op : Emission} {n : Note}
    (h : n ∈ (l.perform trace op).notes) : n ∈ l.notes ∨ n.address = l.cursor := by
  cases op with
  | note text =>
    rw [WriteLog.perform] at h
    split at h
    · rcases List.mem_append.mp h with h | h
      · exact .inl h
      · cases List.mem_singleton.mp h
        exact .inr rfl
    · exact .inl h
  | seek address =>
    rw [WriteLog.perform] at h
    split at h <;> exact .inl h
  | _ => exact .inl h

namespace Emitter

variable {e : Emitter} {l : WriteLog}

/-- No note is made beyond the frontier, which never sinks below it again. -/
theorem Logged.notes_le_frontier (h : e.Logged l)
    (hnotes : ∀ n ∈ l.notes, n.address ≤ l.frontier) (ops : List Emission) :
    ∀ n ∈ (l.performAll e.trace ops).notes,
    n.address ≤ (l.performAll e.trace ops).frontier := by
  induction ops generalizing e l with
  | nil => exact hnotes
  | cons op ops ih =>
    obtain ⟨e', -, hlogged, htrace, hfrontier⟩ := h.perform op
    rw [← htrace]
    refine ih (htrace ▸ hlogged) fun n hn => ?_
    rw [htrace, ← hlogged.frontier]
    refine Nat.le_trans ?_ hfrontier
    rw [htrace] at hn
    rcases WriteLog.mem_notes_perform hn with hn | hn
    · exact h.frontier ▸ hnotes n hn
    · exact hn ▸ h.cursor ▸ h.within

/-- Finished code reaches to the frontier. -/
theorem Logged.frontier_le_size (h : e.Logged l) {p : ObjectCode} (hp : e.finish = .ok p) :
    l.frontier ≤ p.size := by
  refine Nat.le_of_not_lt fun hlt => ?_
  have hwritten := h.finish_ok_iff.mp ⟨p, hp⟩ p.size hlt
  rw [← (h.finish_ok hp).1] at hwritten
  exact hwritten (List.getElem?_eq_none (Nat.le_refl _))

end Emitter

/-- **A listing loses nothing and reorders nothing.** Its lines are entries: the instructions,
once each in the order of their addresses, and the notes, once each in their order. The first
instruction behind a note is the one at the furthest anchor up to the note; there is none if
that anchor is beyond the last instruction. So in finished code every note stands before the
instruction at its own address, and the notes of one address are in the order in which they
were made. -/
theorem ObjectCode.listing_arranged (p : ObjectCode) :
    ∃ entries : List Entry,
      p.listing = String.join (entries.map (·.text ++ "\n")) ∧
      (∀ n position, (Entry.note n position).text = "* " ++ n.text) ∧
      (∀ l address, (Entry.line l address).text =
        Text.spaces (3 - (toString address).length) ++ toString address ++ ":  " ++
          l.instruction.text ++ (l.comment.map ("\t* " ++ ·)).getD "") ∧
      entries.filterMap Entry.line? = p.lines.zipIdx ∧
      entries.filterMap Entry.note? = p.notes.zipIdx ∧
      (∀ n i after, .note n i :: after <:+ entries →
        let address := Note.furthest (p.notes.take (i + 1))
        after.findSome? Entry.line? = p.lines[address]?.map (·, address)) ∧
      ∀ trace ops e, Emitter.performAll { trace } ops = some e → e.finish = .ok p →
        (∀ n i after, .note n i :: after <:+ entries →
          n.address ≤ p.size ∧
          after.findSome? Entry.line? = p.lines[n.address]?.map (·, n.address)) ∧
        ∀ address, ((entries.filterMap Entry.note?).map (·.1)).filter (·.address = address) =
          (WriteLog.performAll trace {} ops).notes.filter (·.address = address) := by
  have hlines := Entry.filterMap_line?_arrange 0 0 p.lines p.notes
  have hnotes := Entry.filterMap_note?_arrange 0 0 p.lines p.notes
  have hplace : ∀ n i after, .note n i :: after <:+ Entry.arrange 0 0 p.lines p.notes →
      let address := Note.furthest (p.notes.take (i + 1))
      after.findSome? Entry.line? = p.lines[address]?.map (·, address) := by
    intro n i after hafter
    obtain ⟨k, hk, hfind⟩ := Entry.findSome?_line?_of_suffix hafter
    rw [Nat.zero_add, Nat.zero_max, Nat.sub_zero] at hk
    rw [hfind, Nat.zero_add, hk]
  refine ⟨Entry.arrange 0 0 p.lines p.notes, ?_, Entry.text_note, Entry.text_line, hlines,
    hnotes, hplace, ?_⟩
  · rw [ObjectCode.listing, ObjectCode.listedLines, ← Entry.map_text_arrange 0 0,
      List.map_map]
    rfl
  · intro trace ops e hrun hp
    obtain ⟨e', hrun', h, -⟩ := (Emitter.logged_empty trace).performAll ops
    cases hrun.symm.trans hrun'
    -- An emitter hands its notes over sorted, which is what puts each at its own anchor.
    obtain ⟨-, hsorted⟩ := h.finish_ok hp
    constructor
    · intro n i after hafter
      have hn : p.notes[i]? = some n :=
        List.mem_zipIdx_iff_getElem?.mp
          (Entry.mem_zipIdx_of_note_mem (hafter.mem List.mem_cons_self))
      constructor
      · have hmade : n ∈ (WriteLog.performAll trace {} ops).notes := by
          rw [← Note.mem_sort, ← hsorted]
          exact List.mem_of_getElem? hn
        have hfrontier := (Emitter.logged_empty trace).notes_le_frontier (by simp) ops n hmade
        exact Nat.le_trans hfrontier (h.frontier_le_size hp)
      · have hfurthest := Note.furthest_take (hsorted ▸ Note.pairwise_sort _) hn
        rw [hplace n i after hafter, hfurthest]
    · intro address
      rw [hnotes, List.zipIdx_map_fst, hsorted, Note.filter_sort]

/-- A note made on the way back to a reserved address stands behind the one made there before,
and a last note stands behind all instructions. So does every note behind one that is anchored
too far. -/
theorem ObjectCode.remarked_listing_arranged :
    let ops : List Emission :=
      [.note "first", .reserve 1, .note "skipped", .register .out rfl .ac .ac .ac "", .seek 0,
      .note "second", .relative .lda rfl .pc 2 (by decide) "jump over", .resume,
      .register .halt rfl .ac .ac .ac "", .note "last"]
    (∃ e p entries, Emitter.performAll { trace := true } ops = some e ∧ e.finish = .ok p ∧
      p.listing = "* first\n* second\n  0:    LDA  7,1(7)\t* jump over\n* skipped\n" ++
        "  1:    OUT  0,0,0\n  2:   HALT  0,0,0\n* last\n" ∧
      p.listing = String.join (entries.map (Entry.text · ++ "\n")) ∧
      ((entries.filterMap Entry.note?).map (·.1)).filter (·.address = 0) =
      [⟨0, "first"⟩, ⟨0, "second"⟩] ∧ ∀ i after, .note ⟨3, "last"⟩ i :: after <:+ entries →
      after.findSome? Entry.line? = none) ∧
    ∃ entries, (ObjectCode.mk [⟨.register .halt .ac .ac .ac, none⟩] [⟨5, "far"⟩,
            ⟨0, "near"⟩]).listing =
        String.join (entries.map (Entry.text · ++ "\n")) ∧
      (Entry.note ⟨0, "near"⟩ 1).text = "* near" ∧
      ∀ after, .note ⟨0, "near"⟩ 1 :: after <:+ entries →
      after.findSome? Entry.line? = none := by
  intro ops
  constructor
  · obtain ⟨e, hrun, h, -⟩ := (Emitter.logged_empty true).performAll ops
    obtain ⟨p, hp⟩ := h.finish_ok_iff.mpr (by decide)
    have hprinted : ((Emitter.performAll { trace := true } ops).map fun e =>
        match e.finish with
        | .ok p => p.listing
        | .error _ =>
          "") = some ("* first\n* second\n  0:    LDA  7,1(7)\t* jump over\n* skipped\n" ++
          "  1:    OUT  0,0,0\n  2:   HALT  0,0,0\n* last\n") := by decide +kernel
    rw [hrun] at hprinted
    simp only [Option.map_some, hp, Option.some.injEq] at hprinted
    obtain ⟨entries, hlisting, -, -, -, -, -, hfinished⟩ := ObjectCode.listing_arranged p
    obtain ⟨hplace, horder⟩ := hfinished true ops e hrun hp
    refine ⟨e, p, entries, hrun, hp, hprinted, hlisting, horder 0, ?_⟩
    intro i after hafter
    rw [(hplace _ i after hafter).2, (h.finish_ok hp).1]
    rfl
  · obtain ⟨entries, hlisting, hnote, -, -, -, hplace, -⟩ :=
      ObjectCode.listing_arranged ⟨[⟨.register .halt .ac .ac .ac, none⟩],
        [⟨5, "far"⟩, ⟨0, "near"⟩]⟩
    exact ⟨entries, hlisting, hnote _ 1, hplace _ 1⟩

end BlockLang
