import BlockLang.Word

/-!
# Types

Types are compared by identity: every array or record type that is written in a program
becomes a type of its own, and two values have the same type only if their type identities
are equal. The table describes each identity. Sizes and offsets count words.

* `TypeTable.addArray?` and `TypeTable.addRecord?` give a new type, and the table with it.
  They give no type, and the table as it was, where the number of elements or of words is
  no word.
* `TypeTable.layFields?` lays the fields of a record one behind the other.
* `TypeTable.describe` is the text of a type. Components stand before the types that they
  make up, so it can follow them no deeper than the type's place in the table.
-/

namespace BlockLang

/-- The identity of a type: its place in the table. -/
structure TypeId where
  index : Nat
  deriving DecidableEq, Repr, Inhabited

namespace TypeId

def integer : TypeId := ⟨0⟩

def char : TypeId := ⟨1⟩

/-- The type of comparisons; no variable has it. -/
def boolean : TypeId := ⟨2⟩

end TypeId

/-- A field of a record, at its offset from the record's first word. -/
structure Field where
  name : String
  type : TypeId
  offset : Int
  deriving DecidableEq, Repr

inductive TypeDescriptor where
  | integer
  | char
  | boolean
  /-- `array [low..high] of element` -/
  | array (element : TypeId) (low high : Word) (size : Int)
  /-- Fields in the order of declaration. Two may have the same name: the first one is
  meant. -/
  | record (fields : List Field) (size : Int)
  deriving DecidableEq, Repr

namespace TypeDescriptor

def size : TypeDescriptor → Int
  | .integer | .char | .boolean => 1
  | .array _ _ _ size => size
  | .record _ size => size

/-- Values of a scalar type fit into a register. -/
def isScalar : TypeDescriptor → Bool
  | .integer | .char | .boolean => true
  | .array .. | .record .. => false

def field? (name : String) : TypeDescriptor → Option Field
  | .record fields _ => fields.find? (·.name == name)
  | _ => none

/-- The types that a type is made of. -/
def components : TypeDescriptor → List TypeId
  | .integer | .char | .boolean => []
  | .array element _ _ _ => [element]
  | .record fields _ => fields.map (·.type)

end TypeDescriptor

structure TypeTable where
  descriptors : Array TypeDescriptor := #[.integer, .char, .boolean]
  deriving DecidableEq, Repr

namespace TypeTable

def get? (t : TypeTable) (id : TypeId) : Option TypeDescriptor := t.descriptors[id.index]?

/-- The number of types. -/
def length (t : TypeTable) : Nat := t.descriptors.size

/-- Words that a value of the type takes; none for an identity that is not in the table. -/
def size (t : TypeTable) (id : TypeId) : Int := ((t.get? id).map TypeDescriptor.size).getD 0

def isScalar (t : TypeTable) (id : TypeId) : Bool := (t.get? id).any TypeDescriptor.isScalar

def field? (t : TypeTable) (id : TypeId) (name : String) : Option Field :=
  (t.get? id).bind (·.field? name)

/-- The table with one more type, and that type's identity. -/
def push (t : TypeTable) (d : TypeDescriptor) : TypeId × TypeTable :=
  (⟨t.descriptors.size⟩, ⟨t.descriptors.push d⟩)

/-- The words of an array, unless the number of its elements or of its words is no word. -/
def arraySize? (t : TypeTable) (element : TypeId) (low high : Word) : Option Int := do
  let distance ← Word.checked (high.toInt - low.toInt)
  let count ← Word.checked (distance + 1)
  Word.checked (count * t.size element)

/-- A new array type, unless it has no size. -/
def addArray? (t : TypeTable) (element : TypeId) (low high : Word) :
    Option TypeId × TypeTable :=
  match t.arraySize? element low high with
  | none => (none, t)
  | some size =>
    let (id, t) := t.push (.array element low high size)
    (some id, t)

/-- Fields side by side from an offset on, and the offset behind the last one. -/
def layFields? (t : TypeTable) : Int → List (String × TypeId) → Option (List Field × Int)
  | offset, [] => some ([], offset)
  | offset, (name, type) :: rest => do
    let next ← Word.checked (offset + t.size type)
    let (fields, size) ← t.layFields? next rest
    return (⟨name, type, offset⟩ :: fields, size)

/-- A new record type, unless the number of its words is no word. -/
def addRecord? (t : TypeTable) (fields : List (String × TypeId)) :
    Option TypeId × TypeTable :=
  match t.layFields? 0 fields with
  | none => (none, t)
  | some (fields, size) =>
    let (id, t) := t.push (.record fields size)
    (some id, t)

/-- The text of a type, whose components are followed `depth` levels down. -/
def describeTo (t : TypeTable) : Nat → TypeId → String
  | 0, _ => ""
  | depth + 1, id =>
    match t.get? id with
    | none => ""
    | some .integer => "integer"
    | some .char => "char"
    | some .boolean => "boolean"
    | some (.array element low high _) =>
      s!"array [{low.text}..{high.text}] of " ++ t.describeTo depth element
    | some (.record fields _) =>
      let parts := fields.map fun f => f.name ++ ": " ++ t.describeTo depth f.type
      "record " ++ "; ".intercalate parts ++ " end"

/-- The text of a type. Components stand before the types they make up, so no type nests
deeper than its place in the table. -/
def describe (t : TypeTable) (id : TypeId) : String := t.describeTo (id.index + 1) id

end TypeTable

end BlockLang
