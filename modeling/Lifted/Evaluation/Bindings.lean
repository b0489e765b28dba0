/-!
# Bindings

Concrete values for variables and for memory cells, under which expressions are evaluated.

* `Bindings.empty`: nothing is bound.
* `Bindings.setVar`, `Bindings.setCell`: one binding more, in place of an earlier one.
-/

namespace Lifted

/-- The values of the variables and of the memory cells that have one. -/
structure Bindings where
  var : String → Option UInt64
  cell : UInt64 → Option UInt64

namespace Bindings

/-- Nothing has a value. -/
def empty : Bindings := ⟨fun _ => none, fun _ => none⟩

instance : Inhabited Bindings := ⟨empty⟩

/-- Binds the variable `name` to `value`. -/
def setVar (b : Bindings) (name : String) (value : UInt64) : Bindings :=
  { b with var := fun n => if n = name then some value else b.var n }

/-- Binds the cell at `address` to `value`. -/
def setCell (b : Bindings) (address value : UInt64) : Bindings :=
  { b with cell := fun a => if a = address then some value else b.cell a }

end Bindings
end Lifted
