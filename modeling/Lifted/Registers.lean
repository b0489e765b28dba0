import Lifted.Error

/-!
# Registers

Which variable names are registers.

* `Registers`: answers the question, or fails to.
* `RegisterList`: answers it from a list of names.
* `Architecture`: the lists of some processors.
-/

namespace Lifted

/-- A source that knows the registers of a machine. -/
structure Registers where
  /-- The index of the register called `name`, or none if there is no such register. -/
  index : (name : String) → Except Error (Option Nat)

/-- Register names in the order of their indices. A name that comes again has its first index. -/
structure RegisterList where
  names : List String
  deriving DecidableEq, Repr, Inhabited

namespace RegisterList

/-- The index of `name`. -/
def index (r : RegisterList) (name : String) : Option Nat := r.names.findIdx? (· == name)

/-- The list names such a register. -/
def contains (r : RegisterList) (name : String) : Bool := r.names.contains name

/-- The number of registers. -/
def size (r : RegisterList) : Nat := r.names.eraseDups.length

/-- There is no register. -/
def isEmpty (r : RegisterList) : Bool := r.names.isEmpty

/-- The list as a source that always answers. -/
def registers (r : RegisterList) : Registers := ⟨fun name => .ok (r.index name)⟩

theorem index_isSome (r : RegisterList) (name : String) :
    (r.index name).isSome = r.contains name := by
  rw [Bool.eq_iff_iff]
  simp [index, contains, List.findIdx?_isSome]

end RegisterList

/-- A processor architecture. -/
inductive Architecture where
  | i386 | amd64 | arm
  deriving DecidableEq, Repr, Inhabited

namespace Architecture

/-- Every architecture once. -/
def all : List Architecture := [i386, amd64, arm]

/-- The name, in lower case. -/
def name : Architecture → String
  | i386 => "i386"
  | amd64 => "amd64"
  | arm => "arm"

/-- The architecture of this name. -/
def ofName? (text : String) : Option Architecture := all.find? (·.name == text)

/-- The register names, in the order of their indices. -/
def registerNames : Architecture → List String
  | i386 =>
    ["eax", "ecx", "edx", "ebx", "esp", "ebp", "esi", "edi", "eip", "eflags", "ax", "cx", "dx",
      "bx", "sp", "bp", "si", "di", "al", "cl", "dl", "bl", "ah", "ch", "dh", "bh", "es", "cs",
      "ss", "ds", "fs", "gs"]
  | amd64 =>
    ["rax", "rcx", "rdx", "rbx", "rsp", "rbp", "rsi", "rdi", "r8", "r9", "r10", "r11", "r12",
      "r13", "r14", "r15", "rip", "rflags", "eax", "ecx", "edx", "ebx", "esp", "ebp", "esi", "edi",
      "r8d", "r9d", "r10d", "r11d", "r12d", "r13d", "r14d", "r15d", "ax", "cx", "dx", "bx", "sp",
      "bp", "si", "di", "al", "cl", "dl", "bl", "spl", "bpl", "sil", "dil"]
  | arm =>
    ["r0", "r1", "r2", "r3", "r4", "r5", "r6", "r7", "r8", "r9", "r10", "r11", "r12", "sp", "lr",
      "pc", "cpsr"]

/-- The registers as a list to look names up in. -/
def registerList (a : Architecture) : RegisterList := ⟨a.registerNames⟩

/-- The width of a pointer in bytes. -/
def pointerWidth : Architecture → UInt8
  | i386 | arm => 4
  | amd64 => 8

theorem ofName?_name (a : Architecture) : ofName? a.name = some a := by cases a <;> decide

end Architecture
end Lifted
