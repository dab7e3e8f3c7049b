import BlockLang.Machine.ObjectCode

/-!
# The text of a listing determines the code

No line of a listing holds a newline, so the text falls apart into its lines, and the
address in front of a line is known from its place. What is left is the text of an
instruction. Mnemonics fill a column of fixed width; the other parts are of any length,
but each ends at a character that it does not hold itself: a register at the comma, an
offset at the parenthesis. An instruction of the one form has a second comma and one of
the other form has none.

`ObjectCode.listing_ofInstructions_inj` says that two lists of instructions have the same
listing only if they are the same.

* `Text.cut_inj` cuts two texts at a character that neither part in front of it holds.
* Numbers: a number is read back from its digits (`Text.ofDigitChars_decimal`), and a sign
  tells negative ones from others (`Word.text_inj`).
* Mnemonics: the columns of the operations are all different (`Opcode.column_inj`), which
  is found by going through them.
* `Instruction.text_inj` puts the parts together, and `ObjectCode.listingFrom_inj` goes
  through the lines, by induction on one of the two lists.
-/

namespace BlockLang

/-! ## Pieces of text -/

/-- The text before the first separator and the text behind it can be told apart. -/
theorem Text.cut_inj {sep : Char} {x y rest rest' : List Char} (hx : sep ∉ x) (hy : sep ∉ y)
    (h : x ++ sep :: rest = y ++ sep :: rest') : x = y ∧ rest = rest' := by
  induction x generalizing y with
  | nil =>
    cases y with
    | nil => exact ⟨rfl, List.tail_eq_of_cons_eq h⟩
    | cons d y =>
      cases h
      exact absurd List.mem_cons_self hy
  | cons c x ih =>
    cases y with
    | nil =>
      cases h
      exact absurd List.mem_cons_self hx
    | cons d y =>
      obtain ⟨hhead, htail⟩ := List.cons.inj h
      obtain ⟨hbefore, hrest⟩ :=
        ih (List.not_mem_of_not_mem_cons hx) (List.not_mem_of_not_mem_cons hy) htail
      exact ⟨List.cons_eq_cons.mpr ⟨hhead, hbefore⟩, hrest⟩

/-- A decimal number has digits only. -/
theorem Text.not_mem_decimal {c : Char} (hc : c.isDigit = false) (n : Nat) :
    c ∉ (toString n).toList := by
  intro hmem
  rw [Nat.toString_eq_repr, Nat.toList_repr] at hmem
  have hdigit := Nat.isDigit_of_mem_toDigits (by decide) (by decide) hmem
  simp [hc] at hdigit

/-- The digits of a number, read back, give the number. -/
theorem Text.ofDigitChars_decimal (n : Nat) :
    Nat.ofDigitChars 10 (toString n).toList 0 = n := by
  rw [Nat.toString_eq_repr, Nat.toList_repr, Nat.ofDigitChars_ten_toDigits]

/-- A decimal number is determined by its text. -/
theorem Text.decimal_inj {n k : Nat} (h : (toString n).toList = (toString k).toList) :
    n = k := by
  rw [← Text.ofDigitChars_decimal n, h, Text.ofDigitChars_decimal k]

namespace Register

theorem not_mem_text {c : Char} (hc : c.isDigit = false) (r : Register) : c ∉ r.text.toList :=
  Text.not_mem_decimal hc r.index

/-- A register is determined by its text. -/
theorem text_inj {r s : Register} (h : r.text.toList = s.text.toList) : r = s := by
  have hindex : r.index = s.index := Text.decimal_inj h
  have hr := ofIndex_index r
  rw [hindex, ofIndex_index s] at hr
  exact (Except.ok.inj hr).symm

end Register

namespace Word

/-- A word is printed as digits, with a sign in front of them if it is negative. -/
theorem toList_text (w : Word) : w.text.toList =
    if 0 ≤ w.toInt then (toString w.toInt.toNat).toList
    else '-' :: (toString (-w.toInt).toNat).toList := by
  have htext : w.text =
      if 0 ≤ w.toInt then toString w.toInt.toNat else "-" ++ toString (-w.toInt).toNat :=
    Int.repr_eq_if
  rw [htext]
  split
  · rfl
  · rw [String.toList_append]
    rfl

theorem not_mem_text {c : Char} (hc : c.isDigit = false) (hsign : c ≠ '-') (w : Word) :
    c ∉ w.text.toList := by
  rw [toList_text]
  split
  · exact Text.not_mem_decimal hc _
  · exact List.not_mem_cons_of_ne_of_not_mem hsign (Text.not_mem_decimal hc _)

/-- Two words with the same text are the same. They have the same sign, since a sign is no
digit, and then the same digits. -/
theorem text_inj {v w : Word} (h : v.text.toList = w.text.toList) : v = w := by
  have hsign (n : Nat) : '-' ∉ (toString n).toList := Text.not_mem_decimal (by decide) n
  rw [toList_text, toList_text] at h
  apply Int64.toInt_inj.mp
  split at h <;> split at h
  · have hnat := Text.decimal_inj h
    omega
  · exact absurd (h ▸ List.mem_cons_self) (hsign v.toInt.toNat)
  · exact absurd (h ▸ List.mem_cons_self) (hsign w.toInt.toNat)
  · have hnat := Text.decimal_inj (List.tail_eq_of_cons_eq h)
    omega

end Word

namespace Opcode

/-- The mnemonic as it stands in a listing. -/
def column (op : Opcode) : List Char := (op.text .right 5 none).toList

theorem length_column (op : Opcode) : op.column.length = 5 := by
  cases op <;> decide

theorem newline_not_mem_column (op : Opcode) : '\n' ∉ op.column := by
  cases op <;> decide

/-- Each column belongs to one operation, the first in the table that has it. -/
theorem find?_column (op : Opcode) : all.find? (·.column = op.column) = some op := by
  cases op <;> decide

/-- An operation is determined by its column. -/
theorem column_inj {op op' : Opcode} (h : op.column = op'.column) : op = op' := by
  have hfind := find?_column op
  rw [h, find?_column op'] at hfind
  exact (Option.some.inj hfind).symm

end Opcode

/-! ## Instructions -/

namespace Instruction

/-- The first register of the operands. -/
def first : Instruction → Register
  | .register _ dst _ _ => dst
  | .memory _ reg _ _ => reg

/-- The text of the operands behind the first register. -/
def operands : Instruction → List Char
  | .register _ _ src1 src2 => src1.text.toList ++ ',' :: src2.text.toList
  | .memory _ _ offset base => offset.text.toList ++ '(' :: (base.text.toList ++ [')'])

/-- The text of an instruction: operation, first register, the rest. -/
theorem toList_text (i : Instruction) : i.text.toList = i.op.column ++
    (' ' :: ' ' :: (i.first.text.toList ++ ',' :: i.operands)) := by
  cases i <;> simp [text, op, first, operands, Opcode.column]

/-- Only register instructions have another comma. -/
theorem comma_mem_operands_iff (i : Instruction) : ',' ∈ i.operands ↔ i.form = .register := by
  cases i with
  | register op dst src1 src2 => simp [operands, form]
  | memory op reg offset base =>
    simp [operands, form, Word.not_mem_text (c := ',') rfl (by decide),
      Register.not_mem_text (c := ',') rfl]

/-- The text of an instruction has no newline. -/
theorem newline_not_mem_text (i : Instruction) : '\n' ∉ i.text.toList := by
  have hregister := Register.not_mem_text (c := '\n') rfl
  have hword := Word.not_mem_text (c := '\n') rfl (by decide)
  rw [toList_text]
  cases i <;> simp [Opcode.newline_not_mem_column, first, operands, hregister, hword]

/-- An instruction is determined by its operation, its first register and the rest. -/
theorem eq_of_parts {i j : Instruction} (hop : i.op = j.op) (hfirst : i.first = j.first)
    (hoperands : i.operands = j.operands) : i = j := by
  have hform : i.form = .register ↔ j.form = .register := by
    rw [← comma_mem_operands_iff, ← comma_mem_operands_iff, hoperands]
  cases i with
  | register op dst src1 src2 =>
    cases j with
    | register op' dst' src1' src2' =>
      obtain ⟨h₁, h₂⟩ := Text.cut_inj (Register.not_mem_text rfl src1)
        (Register.not_mem_text rfl src1') hoperands
      cases hop
      cases hfirst
      rw [Register.text_inj h₁, Register.text_inj h₂]
    | memory op' reg' offset' base' => simp [form] at hform
  | memory op reg offset base =>
    cases j with
    | register op' dst' src1' src2' => simp [form] at hform
    | memory op' reg' offset' base' =>
      have hoffset := Word.not_mem_text (c := '(') rfl (by decide)
      obtain ⟨h₁, h₂⟩ := Text.cut_inj (hoffset offset) (hoffset offset') hoperands
      cases hop
      cases hfirst
      rw [Word.text_inj h₁, Register.text_inj (List.append_cancel_right h₂)]

/-- An instruction is determined by its text. -/
theorem text_inj {i j : Instruction} (h : i.text.toList = j.text.toList) : i = j := by
  rw [toList_text, toList_text] at h
  obtain ⟨hcolumn, h⟩ :=
    List.append_inj h ((Opcode.length_column i.op).trans (Opcode.length_column j.op).symm)
  have hrest := List.tail_eq_of_cons_eq (List.tail_eq_of_cons_eq h)
  obtain ⟨hfirst, hoperands⟩ :=
    Text.cut_inj (Register.not_mem_text rfl i.first) (Register.not_mem_text rfl j.first) hrest
  exact eq_of_parts (Opcode.column_inj hcolumn) (Register.text_inj hfirst) hoperands

end Instruction

/-! ## Listings -/

namespace ObjectCode

/-- The text of a listing from an address on. -/
def listingFrom (address : Nat) (code : List Instruction) : List Char :=
  (String.join ((Line.listAll address (ofInstructions code).lines []).map (· ++ "\n"))).toList

/-- A listing starts with the line of the first instruction. -/
theorem listingFrom_cons (address : Nat) (i : Instruction) (code : List Instruction) :
    listingFrom address (i :: code) =
    (Text.pad .right 3 (toString address) ++ ":  ").toList ++
      (i.text.toList ++ '\n' :: listingFrom (address + 1) code) := by
  simp [listingFrom, ofInstructions, Line.listAll, Line.listed]

/-- Listings from one address on are the same for the same instructions only. -/
theorem listingFrom_inj {address : Nat} {code code' : List Instruction}
    (h : listingFrom address code = listingFrom address code') : code = code' := by
  induction code generalizing address code' with
  | nil =>
    cases code' with
    | nil => rfl
    | cons j code' =>
      rw [listingFrom_cons] at h
      simp [listingFrom, ofInstructions, Line.listAll] at h
  | cons i code ih =>
    cases code' with
    | nil =>
      rw [listingFrom_cons] at h
      simp [listingFrom, ofInstructions, Line.listAll] at h
    | cons j code' =>
      -- Both lines have the same address, so their texts differ in the instruction if at all.
      rw [listingFrom_cons, listingFrom_cons] at h
      obtain ⟨htext, hrest⟩ :=
        Text.cut_inj i.newline_not_mem_text j.newline_not_mem_text (List.append_cancel_left h)
      rw [Instruction.text_inj htext, ih hrest]

/-- **The text of a listing determines the code.** Any two lists of instructions, whatever
their operations, forms, registers and offsets, have the same listing only if they are the
same. -/
theorem listing_ofInstructions_inj {code code' : List Instruction} :
    (ofInstructions code).listing = (ofInstructions code').listing ↔ code = code' := by
  constructor
  · intro h
    exact listingFrom_inj (congrArg String.toList h)
  · rintro rfl
    rfl

end ObjectCode

end BlockLang
