import Mathlib.Algebra.Ring.Int.Defs
import BlockLang.Proofs.FrameLayout
import BlockLang.Proofs.TableInvariant

/-!
# Tables of types as they are built

A table starts with the built-in types and grows by one array or record type at a time,
made of types that it has already. Components therefore stand before what they make up:
the types of a table can be gone through recursively, and `TypeTable.describe` needs no
more depth than it allows itself. Sizes and offsets are the exact sums and products, since
a type whose size is no word is refused.

`TypeTable.performAll_wellFormed` says so of every table that operations can make, and
says of every further operation when it is refused, that the table stays as it is then,
and which identity the new type has otherwise.

* Sizes: `TypeTable.layFields?_eq_none_iff` and `TypeTable.arraySize?_eq_none_iff` say
  when a record or an array is too large. A checked sum fails at the first field that
  takes it beyond the words; sizes are not negative, so that is the case exactly if the
  whole sum is beyond them. `TypeTable.layFields?_exact` and `TypeTable.layFields?_tiles`
  say what the offsets are otherwise.
* One operation: `TypeTable.Built.perform_cases` says what it does, on success and on
  failure. A table keeps `TypeTable.Built` under each of them (`TypeTable.Built.step`).
* Runs: `TypeTable.Built.performAll`, by induction on the operations.
* Recursion: components have lower numbers, so the relation is well-founded
  (`TypeTable.Built.wellFounded`), and two depths that are both enough give the same text
  (`TypeTable.Built.describeTo_eq`). The text of a type therefore stays as the table grows
  (`TypeTable.Built.describe_mono`).
-/

namespace BlockLang

/-! ## Operations -/

/-- What can be asked of a table: a new type. -/
inductive TypeOp where
  | array (element : TypeId) (low high : Word)
  | record (fields : List (String × TypeId))

namespace TypeOp

/-- The type is made of types of the table, and an array has an element. -/
def Admissible (t : TypeTable) : TypeOp → Prop
  | .array element low high => t.Has element ∧ low ≤ high
  | .record fields => ∀ x ∈ fields, t.Has x.2

instance (t : TypeTable) : (op : TypeOp) → Decidable (op.Admissible t)
  | .array _ _ _ => inferInstanceAs (Decidable (_ ∧ _))
  | .record fields => inferInstanceAs (Decidable (∀ x ∈ fields, t.Has x.2))

/-- The exact number of the elements or words of the type is no word. -/
def TooLarge (t : TypeTable) : TypeOp → Prop
  | .array element low high =>
    Word.greatest < high.toInt - low.toInt + 1 ∨
      Word.greatest < (high.toInt - low.toInt + 1) * t.size element
  | .record fields => Word.greatest < (fields.map fun x => t.size x.2).sum

/-- The type is the one that is asked for, whatever its size and offsets are. -/
def Describes : TypeOp → TypeDescriptor → Prop
  | .array element low high, d => ∃ size, d = .array element low high size
  | .record named, d =>
    ∃ fields size, d = .record fields size ∧ fields.map (fun f => (f.name, f.type)) = named

end TypeOp

namespace TypeTable

/-- The identity of the new type, if there is one, and the table afterwards. -/
def perform (t : TypeTable) : TypeOp → Option TypeId × TypeTable
  | .array element low high => t.addArray? element low high
  | .record fields => t.addRecord? fields

/-- The table after some operations. -/
def performAll (t : TypeTable) : List TypeOp → TypeTable
  | [] => t
  | op :: ops => (t.perform op).2.performAll ops

/-- Every operation is admissible when its turn comes. -/
def AdmissibleAll (t : TypeTable) : List TypeOp → Prop
  | [] => True
  | op :: ops => op.Admissible t ∧ (t.perform op).2.AdmissibleAll ops

instance decidableAdmissibleAll : (t : TypeTable) → (ops : List TypeOp) →
    Decidable (t.AdmissibleAll ops)
  | _, [] => inferInstanceAs (Decidable True)
  | t, op :: ops =>
    have := decidableAdmissibleAll (t.perform op).2 ops
    inferInstanceAs (Decidable (_ ∧ _))

end TypeTable

/-! ## Sizes and offsets -/

/-- What is not beyond the words passes the check. -/
theorem Word.checked_of_le {n : Int} (h : 0 ≤ n) (hle : n ≤ Word.greatest) :
    Word.checked n = some n :=
  if_pos ⟨Int.le_trans (by decide) h, hle⟩

/-- What is beyond the words does not. -/
theorem Word.checked_of_lt {n : Int} (h : Word.greatest < n) : Word.checked n = none :=
  if_neg fun hfits => absurd hfits.2 (Int.not_le.mpr h)

/-- A type at its place in the table. Its components stand before it, elements fill an array,
and fields fill a record one behind the other. -/
structure TypeDescriptor.Built (t : TypeTable) (id : TypeId) (d : TypeDescriptor) : Prop where
  earlier : ∀ c ∈ d.components, c.index < id.index
  size_nonneg : 0 ≤ d.size
  elements : ∀ {element low high size}, d = .array element low high size →
    low ≤ high ∧ size = (high.toInt - low.toInt + 1) * t.size element
  total : ∀ {fields size}, d = .record fields size →
    size = (fields.map fun f => t.size f.type).sum
  offsets : ∀ {fields size}, d = .record fields size → ∀ i f, fields[i]? = some f →
    f.offset = ((fields.take i).map fun f => t.size f.type).sum
  tiles : ∀ {fields size}, d = .record fields size →
    Tiles 0 size (fields.map fun f => (f.offset, f.offset + t.size f.type))

namespace TypeTable

variable {t t' : TypeTable}

/-- Every type of the table is at its place. -/
structure Built (t : TypeTable) : Prop where
  builtins : ({} : TypeTable) ≤ t
  types : ∀ {id d}, t.get? id = some d → d.Built t id

theorem Built.size_nonneg (h : t.Built) (id : TypeId) : 0 ≤ t.size id := by
  cases hd : t.get? id with
  | none => simp [size, hd]
  | some d =>
    rw [size_of_get? hd]
    exact (h.types hd).size_nonneg

theorem sum_size_nonneg (hsize : ∀ id, 0 ≤ t.size id) (named : List (String × TypeId)) :
    0 ≤ (named.map fun x => t.size x.2).sum := by
  induction named with
  | nil => simp
  | cons x rest ih =>
    have hx := hsize x.2
    simp only [List.map_cons, List.sum_cons]
    omega

/-- Fields are refused exactly if their exact end is no word. -/
theorem layFields?_eq_none_iff (hsize : ∀ id, 0 ≤ t.size id) (named : List (String × TypeId))
    {offset : Int} (hoffset : 0 ≤ offset) (hle : offset ≤ Word.greatest) :
    t.layFields? offset named = none ↔
    Word.greatest < offset + (named.map fun x => t.size x.2).sum := by
  induction named generalizing offset with
  | nil => simpa [layFields?] using hle
  | cons x rest ih =>
    obtain ⟨name, type⟩ := x
    have hnext : 0 ≤ offset + t.size type := Int.add_nonneg hoffset (hsize type)
    have hrest := sum_size_nonneg hsize rest
    simp only [layFields?, List.map_cons, List.sum_cons]
    rw [← Int.add_assoc]
    by_cases hfits : offset + t.size type ≤ Word.greatest
    · rw [← ih hnext hfits, Word.checked_of_le hnext hfits]
      cases hlay : t.layFields? (offset + t.size type) rest <;> simp [hlay]
    · have hgreater :
        Word.greatest < offset + t.size type + (rest.map fun x => t.size x.2).sum := by omega
      simp [Word.checked_of_lt (Int.not_le.mp hfits), hgreater]

/-- Fields keep their names and types, and start at the sums of the sizes before them. -/
theorem layFields?_exact {named : List (String × TypeId)} {offset size : Int}
    {fields : List Field} (h : t.layFields? offset named = some (fields, size)) :
    fields.map (fun f => (f.name, f.type)) = named ∧
    size = offset + (fields.map fun f => t.size f.type).sum ∧
      ∀ i f, fields[i]? = some f →
      f.offset = offset + ((fields.take i).map fun f => t.size f.type).sum := by
  induction named generalizing offset size fields with
  | nil =>
    cases h
    simp
  | cons x rest ih =>
    obtain ⟨_, others, hrest, rfl⟩ := layFields?_cons_eq_some h
    obtain ⟨hnames, htotal, hoffsets⟩ := ih hrest
    refine ⟨by simp [hnames], by simp [htotal, Int.add_assoc], ?_⟩
    intro i f hf
    cases i with
    | zero =>
      cases hf
      simp
    | succ i =>
      rw [hoffsets i f hf]
      simp [Int.add_assoc]

/-- Fields lie side by side and leave no gap. -/
theorem layFields?_tiles (hsize : ∀ id, 0 ≤ t.size id) {named : List (String × TypeId)}
    {offset size : Int} {fields : List Field} (hoffset : offset ≤ Word.greatest)
    (h : t.layFields? offset named = some (fields, size)) :
    Tiles offset size (fields.map fun f => (f.offset, f.offset + t.size f.type)) := by
  induction named generalizing offset size fields with
  | nil =>
    cases h
    exact .nil offset
  | cons x rest ih =>
    obtain ⟨hfits, others, hrest, rfl⟩ := layFields?_cons_eq_some h
    have hbounds := layFields?_bounds hsize hfits hrest
    exact (ih hfits hrest).cons (Int.le_add_of_nonneg_right (hsize x.2)) hbounds.1

/-- An array has no size exactly if the number of its elements or of its words is no word. -/
theorem arraySize?_eq_none_iff {element : TypeId} {low high : Word}
    (hsize : 0 ≤ t.size element) (hle : low ≤ high) :
    t.arraySize? element low high = none ↔ (TypeOp.array element low high).TooLarge t := by
  have hbounds := Int64.le_iff_toInt_le.mp hle
  have hcount : 0 ≤ high.toInt - low.toInt + 1 := by omega
  have hwords := Int.mul_nonneg hcount hsize
  unfold arraySize?
  by_cases hfew : high.toInt - low.toInt + 1 ≤ Word.greatest
  · have hfar : Word.checked (high.toInt - low.toInt) = some _ :=
      Word.checked_of_le (by omega) (by omega)
    have hcount' : Word.checked (high.toInt - low.toInt + 1) = some _ :=
      Word.checked_of_le hcount hfew
    by_cases hfits : (high.toInt - low.toInt + 1) * t.size element ≤ Word.greatest
    · have hsmall : ¬ (TypeOp.array element low high).TooLarge t :=
        not_or.mpr ⟨Int.not_lt.mpr hfew, Int.not_lt.mpr hfits⟩
      simp [hfar, hcount', Word.checked_of_le hwords hfits, hsmall]
    · have hlarge : (TypeOp.array element low high).TooLarge t := .inr (Int.not_le.mp hfits)
      simp [hfar, hcount', Word.checked_of_lt (Int.not_le.mp hfits), hlarge]
  · have hmany := Int.not_le.mp hfew
    have hnone : (Word.checked (high.toInt - low.toInt)).bind
        (fun distance => Word.checked (distance + 1)) = none := by
      by_cases hfar : high.toInt - low.toInt ≤ Word.greatest
      · simp [Word.checked_of_le (by omega : 0 ≤ high.toInt - low.toInt) hfar,
          Word.checked_of_lt hmany]
      · simp [Word.checked_of_lt (Int.not_le.mp hfar)]
    have hlarge : (TypeOp.array element low high).TooLarge t := .inl hmany
    simp only [hlarge, iff_true, Option.bind_eq_bind]
    rw [← Option.bind_assoc, hnone, Option.bind_none]

/-! ## One operation -/

/-- An array or record of types of the table is at its place at the end. -/
theorem Built.array {element : TypeId} {low high : Word}
    (h : t.Built) (helement : t.Has element) (hle : low ≤ high) :
    (TypeDescriptor.array element low high
      ((high.toInt - low.toInt + 1) * t.size element)).Built t ⟨t.length⟩ := by
  have hbounds := Int64.le_iff_toInt_le.mp hle
  constructor
  case earlier =>
    intro c hc
    cases List.mem_singleton.mp hc
    exact helement
  case size_nonneg => exact Int.mul_nonneg (by omega) (h.size_nonneg element)
  case elements =>
    intro element low high size heq
    cases heq
    exact ⟨hle, rfl⟩
  case total | offsets | tiles =>
    intro fields size heq
    cases heq

/-- A record type that fits has a descriptor that is built. -/
theorem Built.record {named : List (String × TypeId)}
    {fields : List Field} {size : Int} (h : t.Built)
    (hnamed : ∀ x ∈ named, t.Has x.2) (hlay : t.layFields? 0 named = some (fields, size)) :
    (TypeDescriptor.record fields size).Built t ⟨t.length⟩ := by
  obtain ⟨hnames, htotal, hoffsets⟩ := layFields?_exact hlay
  simp only [Int.zero_add] at htotal hoffsets
  constructor
  case earlier =>
    intro c hc
    have htypes : fields.map (·.type) = named.map (·.2) := by simp [← hnames]
    rw [TypeDescriptor.components, htypes] at hc
    obtain ⟨x, hx, rfl⟩ := List.mem_map.mp hc
    exact hnamed x hx
  case size_nonneg => exact (layFields?_bounds h.size_nonneg (by decide) hlay).1
  case elements =>
    intro element low high size heq
    cases heq
  case total =>
    intro fields size heq
    cases heq
    exact htotal
  case offsets =>
    intro fields size heq
    cases heq
    exact hoffsets
  case tiles =>
    intro fields size heq
    cases heq
    exact layFields?_tiles h.size_nonneg (by decide) hlay

/-- Everything that an admissible operation can do: nothing if the type is too large, and else
add a type at the end. -/
theorem Built.perform_cases (h : t.Built) {op : TypeOp} (hop : op.Admissible t) :
    (op.TooLarge t ∧ t.perform op = (none, t)) ∨
    (¬ op.TooLarge t ∧ ∃ d, op.Describes d ∧ d.Built t ⟨t.length⟩ ∧
      t.perform op = (some ⟨t.length⟩, (t.push d).2)) := by
  cases op with
  | array element low high =>
    have hnone := arraySize?_eq_none_iff (h.size_nonneg element) hop.2
    cases hsize : t.arraySize? element low high with
    | none => exact .inl ⟨hnone.mp hsize, by simp only [perform, addArray?, hsize]⟩
    | some size =>
      obtain ⟨rfl, -⟩ := arraySize?_eq_some hsize
      refine .inr ⟨fun hlarge => ?_, _, ⟨_, rfl⟩, h.array hop.1 hop.2, ?_⟩
      · rw [hnone.mpr hlarge] at hsize
        cases hsize
      · simp only [perform, addArray?, hsize]
        rfl
  | record named =>
    have hnone := layFields?_eq_none_iff h.size_nonneg named (Int.le_refl 0) (by decide)
    rw [Int.zero_add] at hnone
    cases hlay : t.layFields? 0 named with
    | none => exact .inl ⟨hnone.mp hlay, by simp only [perform, addRecord?, hlay]⟩
    | some laid =>
      obtain ⟨fields, size⟩ := laid
      refine .inr ⟨fun hlarge => ?_, _, ⟨fields, size, rfl, (layFields?_exact hlay).1⟩,
        h.record hop hlay, ?_⟩
      · rw [hnone.mpr hlarge] at hlay
        cases hlay
      · simp only [perform, addRecord?, hlay]
        rfl

end TypeTable

/-- A type stays at its place when the table grows behind it. -/
theorem TypeDescriptor.Built.mono {t t' : TypeTable} {id : TypeId} {d : TypeDescriptor}
    (h : d.Built t id) (hid : id.index ≤ t.length) (ht : t ≤ t') : d.Built t' id := by
  have hsize : ∀ c ∈ d.components, t'.size c = t.size c := by
    intro c hc
    have hhas : t.Has c := Nat.lt_of_lt_of_le (h.earlier c hc) hid
    exact hhas.size_eq ht
  have hfields : ∀ {fields size}, d = .record fields size →
      ∀ f ∈ fields, t'.size f.type = t.size f.type := by
    intro fields size heq f hf
    cases heq
    exact hsize f.type (List.mem_map_of_mem hf)
  constructor
  case earlier => exact h.earlier
  case size_nonneg => exact h.size_nonneg
  case elements =>
    intro element low high size heq
    rw [hsize element (by simp [heq, TypeDescriptor.components])]
    exact h.elements heq
  case total =>
    intro fields size heq
    rw [h.total heq, List.map_congr_left (hfields heq)]
  case offsets =>
    intro fields size heq i f hf
    rw [h.offsets heq i f hf, List.map_congr_left fun f hf =>
      hfields heq f (List.mem_of_mem_take hf)]
  case tiles =>
    intro fields size heq
    have hspans : (fields.map fun f => (f.offset, f.offset + t'.size f.type)) =
        fields.map fun f => (f.offset, f.offset + t.size f.type) :=
      List.map_congr_left fun f hf => by rw [hfields heq f hf]
    rw [hspans]
    exact h.tiles heq

namespace TypeTable

variable {t t' : TypeTable}

/-- A new type is built of those before it, and the old ones stay as they are. -/
theorem Built.push (h : t.Built) {d : TypeDescriptor} (hd : d.Built t ⟨t.length⟩) :
    (t.push d).2.Built where
  builtins := le_trans h.builtins (le_push t d)
  types {id d'} hget := by
    rw [get?_push] at hget
    split at hget
    next hid =>
      cases hget
      obtain rfl : id = ⟨t.length⟩ := by
        cases id
        exact congrArg TypeId.mk hid
      exact hd.mono (Nat.le_refl _) (le_push t d)
    next => exact (h.types hget).mono (Nat.le_of_lt (lt_length_of_get? hget)) (le_push t d)

/-- An admissible operation keeps a table built, and only adds to it. -/
theorem Built.step (h : t.Built) {op : TypeOp} (hop : op.Admissible t) :
    (t.perform op).2.Built ∧ t ≤ (t.perform op).2 := by
  rcases h.perform_cases hop with ⟨_, heq⟩ | ⟨_, d, _, hd, heq⟩
  · rw [heq]
    exact ⟨h, le_refl t⟩
  · rw [heq]
    exact ⟨h.push hd, le_push t d⟩

/-- The built-in types have no components and one word each. -/
theorem built_empty : Built {} where
  builtins := le_refl _
  types {id d} hget := by
    have hmem : d ∈ [TypeDescriptor.integer, .char, .boolean] := by
      simpa using Array.mem_of_getElem? hget
    simp only [List.mem_cons, List.not_mem_nil, or_false] at hmem
    rcases hmem with rfl | rfl | rfl <;> constructor <;>
      simp [TypeDescriptor.components, TypeDescriptor.size]

/-! ## Runs -/

theorem Built.performAll (h : t.Built) {ops : List TypeOp} (hops : t.AdmissibleAll ops) :
    (t.performAll ops).Built ∧ t ≤ t.performAll ops := by
  induction ops generalizing t with
  | nil => exact ⟨h, le_refl t⟩
  | cons op ops ih =>
    obtain ⟨hop, hrest⟩ := hops
    obtain ⟨hstep, hle⟩ := h.step hop
    obtain ⟨hbuilt, hle'⟩ := ih hstep hrest
    exact ⟨hbuilt, le_trans hle hle'⟩

/-! ## Recursion over types -/

/-- `c` is a component of the type. -/
def Contains (t : TypeTable) (c id : TypeId) : Prop :=
  ∃ d, t.get? id = some d ∧ c ∈ d.components

/-- Recursion over components ends. -/
theorem Built.wellFounded (h : t.Built) : WellFounded t.Contains := by
  refine Subrelation.wf ?_ (InvImage.wf TypeId.index Nat.lt_wfRel.wf)
  intro c id hc
  obtain ⟨d, hget, hmem⟩ := hc
  exact (h.types hget).earlier c hmem

/-- More depth than the place of a type changes nothing. A component of the type needs
less. -/
theorem Built.describeTo_eq (h : t.Built) {n n' : Nat}
    {id : TypeId} (hn : id.index < n) (hn' : id.index < n') :
    t.describeTo n id = t.describeTo n' id := by
  induction n generalizing n' id with
  | zero => omega
  | succ n ih =>
    cases n' with
    | zero => omega
    | succ n' =>
      have hcomponent : ∀ {d}, t.get? id = some d →
          ∀ c ∈ d.components, t.describeTo n c = t.describeTo n' c := by
        intro d hget c hc
        have hlt := (h.types hget).earlier c hc
        exact ih (by omega) (by omega)
      cases hget : t.get? id with
      | none => simp only [describeTo, hget]
      | some d =>
        cases d with
        | integer | char | boolean => simp only [describeTo, hget]
        | array element low high size =>
          simp only [describeTo, hget,
            hcomponent hget element (by simp [TypeDescriptor.components])]
        | record fields size =>
          have hfields : (fields.map fun f => f.name ++ ": " ++ t.describeTo n f.type) =
              fields.map fun f => f.name ++ ": " ++ t.describeTo n' f.type :=
            List.map_congr_left fun f hf =>
              by rw [hcomponent hget f.type (List.mem_map_of_mem hf)]
          simp only [describeTo, hget, hfields]

/-- The text of an array type is made of that of its elements. -/
theorem Built.describe_array (h : t.Built) {id element : TypeId} {low high : Word}
    {size : Int} (hget : t.get? id = some (.array element low high size)) :
    t.describe id = s!"array [{low.text}..{high.text}] of " ++ t.describe element := by
  have hlt : element.index < id.index :=
    (h.types hget).earlier element (by simp [TypeDescriptor.components])
  have helement : t.describeTo id.index element = t.describe element :=
    h.describeTo_eq hlt (Nat.lt_succ_self _)
  rw [describe, describeTo]
  simp only [hget, helement]

/-- The text of a record type is made of those of its fields. -/
theorem Built.describe_record (h : t.Built) {id : TypeId} {fields : List Field} {size : Int}
    (hget : t.get? id = some (.record fields size)) :
    t.describe id =
      "record " ++ "; ".intercalate (fields.map fun f =>
        f.name ++ ": " ++ t.describe f.type) ++ " end" := by
  have hfields : (fields.map fun f => f.name ++ ": " ++ t.describeTo id.index f.type) =
      fields.map fun f => f.name ++ ": " ++ t.describe f.type := by
    refine List.map_congr_left fun f hf => ?_
    have hlt : f.type.index < id.index :=
      (h.types hget).earlier f.type (List.mem_map_of_mem hf)
    have htype : t.describeTo id.index f.type = t.describe f.type :=
      h.describeTo_eq hlt (Nat.lt_succ_self _)
    rw [htype]
  rw [describe, describeTo]
  simp only [hget, hfields]

/-- The text of a type is the same in a table that has grown. -/
theorem Built.describe_mono (h : t.Built) (h' : t'.Built)
    (ht : t ≤ t') {id : TypeId} (hid : t.Has id) :
    t'.describe id = t.describe id := by
  induction id using h.wellFounded.induction with
  | _ id ih =>
    obtain ⟨d, hget⟩ := has_iff.mp hid
    have hget' := ht id d hget
    have hcomponent : ∀ c ∈ d.components, t'.describe c = t.describe c := by
      intro c hc
      have hlt := Nat.lt_trans ((h.types hget).earlier c hc) hid
      exact ih c ⟨d, hget, hc⟩ hlt
    cases d with
    | integer | char | boolean => simp only [describe, describeTo, hget, hget']
    | array element low high size =>
      rw [h'.describe_array hget', h.describe_array hget,
        hcomponent element (by simp [TypeDescriptor.components])]
    | record fields size =>
      rw [h'.describe_record hget', h.describe_record hget]
      have hfields : (fields.map fun f => f.name ++ ": " ++ t'.describe f.type) =
          fields.map fun f => f.name ++ ": " ++ t.describe f.type :=
        List.map_congr_left fun f hf => by rw [hcomponent f.type (List.mem_map_of_mem hf)]
      rw [hfields]

/-- The table of types, after whatever admissible operations. Every type is at its place: its
components stand before it, so that recursion over components ends and the text of a type is
made of the texts of its components. Further operations leave every identity its meaning. An
operation is refused exactly if the exact number of elements or words is no word, and then the
table stays as it is; else the new type has the next identity. -/
theorem performAll_wellFormed (ops : List TypeOp) (hops : AdmissibleAll {} ops) :
    let t := performAll {} ops
    (∀ id d, t.get? id = some d → d.Built t id) ∧
    (WellFounded t.Contains ∧
      (∀ id element low high size, t.get? id = some (.array element low high size) →
        t.describe id = s!"array [{low.text}..{high.text}] of " ++ t.describe element) ∧
      ∀ id fields size, t.get? id = some (.record fields size) →
        t.describe id =
          "record " ++ "; ".intercalate (fields.map fun f =>
            f.name ++ ": " ++ t.describe f.type) ++ " end") ∧
    (∀ more, t.AdmissibleAll more → ∀ id, t.Has id →
      (t.performAll more).get? id = t.get? id ∧ (t.performAll more).size id = t.size id ∧
        (t.performAll more).describe id = t.describe id) ∧
    ∀ op, op.Admissible t →
      ((t.perform op).1 = none ↔ op.TooLarge t) ∧
      ((t.perform op).1 = none → (t.perform op).2 = t) ∧
      ∀ id, (t.perform op).1 = some id →
        id = ⟨t.length⟩ ∧ (t.perform op).2.length = t.length + 1 ∧
          ∃ d, (t.perform op).2.get? id = some d ∧ op.Describes d := by
  intro t
  have h : t.Built := (built_empty.performAll hops).1
  refine ⟨fun id d hget => h.types hget, ⟨h.wellFounded, ?_, ?_⟩, ?_, ?_⟩
  · intro id element low high size hget
    exact h.describe_array hget
  · intro id fields size hget
    exact h.describe_record hget
  · intro more hmore id hid
    obtain ⟨h', hle⟩ := h.performAll hmore
    obtain ⟨d, hget⟩ := has_iff.mp hid
    exact ⟨by rw [hget, hle id d hget], hid.size_eq hle, h.describe_mono h' hle hid⟩
  · intro op hop
    -- The table is looked at on both paths: it is handed back as it was, or with one more
    -- type.
    rcases h.perform_cases hop with ⟨hlarge, heq⟩ | ⟨hlarge, d, hdescribes, _, heq⟩
    · simp [heq, hlarge]
    · simp only [heq, hlarge, Option.some.injEq]
      refine ⟨by simp, by simp, ?_⟩
      intro id hid
      subst hid
      exact ⟨rfl, length_push t d, d, get?_push_self t d, hdescribes⟩

/-- A record without fields, an array of such records, an array of as many words as there can
be, a record that would have one word more, and a record with two fields of no words between
others. -/
def layered : List TypeOp :=
  [.record [], .array ⟨3⟩ 0 5, .array .integer 1 Int64.maxValue, .record [("a", ⟨5⟩),
      ("b", .char)], .record [("x", .integer), ("y", ⟨4⟩), ("z", ⟨4⟩), ("w", .char)]]

/-- The fourth operation is refused, so the last type has the identity after that of the third
one. -/
theorem layered_performAll_wellFormed :
    let t := performAll {} layered
    AdmissibleAll {} layered ∧ t.length = 7 ∧ Tiles 0 2 [(0, 1), (1, 1), (1, 1), (1, 2)] ∧
      t.describe ⟨4⟩ = "array [0..5] of " ++ t.describe ⟨3⟩ ∧
      t.perform (.array .integer Int64.minValue Int64.maxValue) = (none, t) := by
  intro t
  have hops : AdmissibleAll {} layered := by decide +kernel
  obtain ⟨hbuilt, ⟨_, harray, _⟩, _, hperform⟩ := performAll_wellFormed layered hops
  obtain ⟨hnone, hsame, _⟩ :=
    hperform (.array .integer Int64.minValue Int64.maxValue) (by decide +kernel)
  have hlarge := hnone.mpr (.inl (by decide))
  have hget : t.get? ⟨6⟩ = some (.record [⟨"x", .integer, 0⟩, ⟨"y", ⟨4⟩, 1⟩, ⟨"z", ⟨4⟩, 1⟩,
        ⟨"w", .char, 1⟩] 2) := by
    decide +kernel
  refine ⟨hops, by decide +kernel, (hbuilt _ _ hget).tiles rfl, ?_,
    Prod.ext hlarge (hsame hlarge)⟩
  exact harray ⟨4⟩ ⟨3⟩ 0 5 0 (by decide +kernel)

end TypeTable

end BlockLang
