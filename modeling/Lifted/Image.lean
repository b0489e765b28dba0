import Lifted.Error

/-!
# Images

What is known of the memory image that expressions were lifted from.

* `ImageQueries`: the questions about an address, each of which may fail.
* `Image`: an image that is written down: mapped sections, functions and typed locations.
* `Image.section?`: the section that holds an address, the first one added of several.
* `Image.location?`: the last location that starts at or before an address, if it reaches that far.
-/

namespace Lifted

/-- A source that knows an image. -/
structure ImageQueries where
  /-- The address is mapped. -/
  isMapped : (address : UInt64) → Except Error Bool
  /-- A function begins at the address. -/
  isFunction : (address : UInt64) → Except Error Bool
  /-- The name of what the function at the address stands for, if it only passes a call on. -/
  thunkName : (address : UInt64) → Except Error (Option String)
  /-- The string that the address lies in, written out. -/
  stringLiteral : (address : UInt64) → Except Error (Option String)
  /-- The width of a pointer in bytes. -/
  pointerWidth : UInt8

/-- A named range of mapped memory. -/
structure Section where
  base : UInt64
  size : UInt64
  name : String
  deriving DecidableEq, Repr, Inhabited

/-- The section holds the address. -/
def Section.contains (s : Section) (address : UInt64) : Bool :=
  s.base ≤ address && address - s.base < s.size

/-- What a location holds: a string of bytes, a string of 16-bit units, a pointer or a number. -/
inductive LocationKind where
  | string | unicode | pointer | number
  deriving DecidableEq, Repr, Inhabited

/-- A piece of data in an image. -/
structure Location where
  start : UInt64
  size : UInt64
  kind : LocationKind
  /-- The content, for a string. -/
  text : Option String
  deriving DecidableEq, Repr, Inhabited

namespace Location

/-- The location holds the address. One of no size still holds its start. -/
def contains (l : Location) (address : UInt64) : Bool :=
  l.start ≤ address && address - l.start < max l.size 1

/-- The location holds a string of either kind. -/
def isString (l : Location) : Bool :=
  match l.kind with
  | .string | .unicode => true
  | .pointer | .number => false

/-- The location written out: a string in quotes, anything else by its address. -/
def literal (l : Location) : String :=
  match l.kind with
  | .string => "'" ++ l.text.getD "" ++ "'"
  | .unicode => "u'" ++ l.text.getD "" ++ "'"
  | .pointer => "ptr_" ++ Hex.padded 8 l.start.toNat
  | .number => "num_" ++ Hex.padded 8 l.start.toNat

/-- A string of bytes with a zero byte behind it. -/
def ofString (start : UInt64) (text : String) : Location :=
  ⟨start, (text.utf8ByteSize + 1).toUInt64, .string, some text⟩

/-- The number of 16-bit units of a text; a character beyond the first 65536 has two. -/
def units (text : String) : Nat :=
  text.toList.foldr (fun c count => (if c.val < 0x10000 then 1 else 2) + count) 0

/-- A string of 16-bit units with a zero unit behind it. -/
def ofUnicode (start : UInt64) (text : String) : Location :=
  ⟨start, ((units text + 1) * 2).toUInt64, .unicode, some text⟩

end Location

/-- An image that is written down. -/
structure Image where
  /-- The mapped sections, in the order they were added. -/
  sections : List Section
  /-- The functions with the name a thunk has, the last one added first. -/
  functions : List (UInt64 × Option String)
  /-- The locations, at most one for each start. -/
  locations : List Location
  /-- The width of a pointer in bytes. -/
  pointerWidth : UInt8
  deriving DecidableEq, Repr

namespace Image

/-- Nothing is mapped, and pointers are four bytes wide. -/
def empty : Image := ⟨[], [], [], 4⟩

instance : Inhabited Image := ⟨empty⟩

/-- Maps a section. -/
def addSection (i : Image) (s : Section) : Image := { i with sections := i.sections ++ [s] }

/-- Records a function, in place of one that begins at the same address. -/
def addFunction (i : Image) (address : UInt64) (thunk : Option String) : Image :=
  { i with functions := (address, thunk) :: i.functions }

/-- Records a location, in place of one with the same start. -/
def addLocation (i : Image) (l : Location) : Image :=
  { i with locations := l :: i.locations.filter (·.start != l.start) }

/-- The first section that holds the address. -/
def section? (i : Image) (address : UInt64) : Option Section :=
  i.sections.find? (·.contains address)

/-- Of two locations the one that starts later; of one start the first. -/
def later (l : Location) (best : Option Location) : Option Location :=
  match best with
  | some m => if l.start < m.start then some m else some l
  | none => some l

/-- The location with the greatest start at or before the address. -/
def lastStart? (i : Image) (address : UInt64) : Option Location :=
  (i.locations.filter (·.start ≤ address)).foldr later none

/-- The location with the greatest start at or before the address, if it holds the address. No
other location is looked at. -/
def location? (i : Image) (address : UInt64) : Option Location :=
  (i.lastStart? address).filter (·.contains address)

/-- A function begins at the address. -/
def isFunction (i : Image) (address : UInt64) : Bool := (i.functions.lookup address).isSome

/-- The name of the thunk at the address. -/
def thunkName (i : Image) (address : UInt64) : Option String := (i.functions.lookup address).join

/-- The string location that holds the address, written out. -/
def stringLiteral (i : Image) (address : UInt64) : Option String :=
  ((i.location? address).filter (·.isString)).map (·.literal)

/-- The image as a source that always answers. -/
def queries (i : Image) : ImageQueries where
  isMapped address := .ok (i.section? address).isSome
  isFunction address := .ok (i.isFunction address)
  thunkName address := .ok (i.thunkName address)
  stringLiteral address := .ok (i.stringLiteral address)
  pointerWidth := i.pointerWidth

end Image
end Lifted
