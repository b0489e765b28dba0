import Lifted.Proofs.Expr.Leaves
import Lifted.Proofs.Lists

/-!
# Heaps of nodes

A heap says which node an identity belongs to. Trees that one heap holds share nodes soundly: equal
identities are equal nodes. Making a node under a new identity grows the heap and leaves all that it
held in place, which is how coherence is kept through the passes of a run.

* `Heap.Holds`: every node of a tree is the one that the heap has for its identity.
* `Heap.Below`: the identities in use are smaller than a bound, so the bound is new.
* `Heap.holds_insert`, `Heap.le_insert`: a node made around nodes of the heap.
* `Heap.of`, `Heap.holds_of`, `Heap.coherent_of_holds`: coherent trees are the trees that some heap
  holds.
-/

namespace Lifted

/-- The node that each identity belongs to. -/
def Heap : Type := NodeId → Option Expr

namespace Heap

/-- `h'` has all that `h` has. -/
instance instLE : LE Heap := ⟨fun h h' => ∀ id e, h id = some e → h' id = some e⟩

/-- The heap has every node of `e` under its identity. -/
def Holds (h : Heap) (e : Expr) : Prop := ∀ x ∈ e.nodes, h x.id = some x

/-- Every identity in use is smaller than `bound`. -/
def Below (h : Heap) (bound : NodeId) : Prop := ∀ id e, h id = some e → id < bound

/-- The heap with one node more. -/
def insert (h : Heap) (e : Expr) : Heap := fun id => if id = e.id then some e else h id

variable {h h' h'' : Heap} {e f x : Expr} {bound : NodeId}

theorem le_refl (h : Heap) : h ≤ h := fun _ _ he => he

theorem le_trans (hle : h ≤ h') (hle' : h' ≤ h'') : h ≤ h'' := fun id e he =>
  hle' id e (hle id e he)

theorem Below.mono (hb : h.Below bound) {bound' : NodeId} (hle : bound ≤ bound') :
    h.Below bound' := fun id e he => Nat.lt_of_lt_of_le (hb id e he) hle

theorem holds_iff : h.Holds e ↔ h e.id = some e ∧ ∀ c ∈ e.children, h.Holds c := by
  unfold Holds
  rw [Expr.forall_mem_nodes_iff]

namespace Holds

theorem root (he : h.Holds e) : h e.id = some e := (holds_iff.mp he).1

theorem child (he : h.Holds e) {c : Expr} (hc : c ∈ e.children) : h.Holds c :=
  (holds_iff.mp he).2 c hc

theorem mono (he : h.Holds e) (hle : h ≤ h') : h'.Holds e := fun x hx => hle _ _ (he x hx)

theorem node (he : h.Holds e) (hx : x ∈ e.nodes) : h.Holds x := fun y hy =>
  he y (Expr.nodes_trans hx hy)

/-- A heap holds one tree for an identity. -/
theorem eq (he : h.Holds e) (hf : h.Holds f) (same : e.id = f.id) : e = f := by
  have := he.root
  rw [same, hf.root] at this
  exact (Option.some.inj this).symm

theorem of_isLeaf (leaf : e.isLeaf) (he : h e.id = some e) : h.Holds e := by
  rw [holds_iff, Expr.children_of_isLeaf leaf]
  exact ⟨he, fun c hc => by cases hc⟩

end Holds

theorem insert_self (h : Heap) (e : Expr) : h.insert e e.id = some e := if_pos rfl

theorem le_insert (hb : h.Below bound) (new : bound ≤ e.id) : h ≤ h.insert e := by
  intro id x hx
  have old : id ≠ e.id := Nat.ne_of_lt (Nat.lt_of_lt_of_le (hb id x hx) new)
  unfold insert
  rw [if_neg old]
  exact hx

theorem below_insert (hb : h.Below bound) (hle : bound ≤ e.id) : (h.insert e).Below (e.id + 1) := by
  intro id x hx
  unfold insert at hx
  split at hx
  case isTrue same => exact Nat.lt_succ_of_le (Nat.le_of_eq same)
  case isFalse => exact Nat.lt_succ_of_lt (Nat.lt_of_lt_of_le (hb id x hx) hle)

/-- A node made around trees of the heap is held once it is in the heap. -/
theorem holds_insert (hb : h.Below bound) (new : bound ≤ e.id)
    (children : ∀ c ∈ e.children, h.Holds c) : (h.insert e).Holds e :=
  holds_iff.mpr ⟨insert_self h e, fun c hc => (children c hc).mono (le_insert hb new)⟩

/-! ## The heap of a batch -/

/-- The nodes of `es` under their identities. -/
def of (es : List Expr) : Heap := fun id => (Expr.nodesOf es).find? (·.id == id)

theorem of_eq_some {es : List Expr} {id : NodeId} (hx : of es id = some x) :
    x ∈ Expr.nodesOf es ∧ x.id = id := of_find?_eq_some hx

theorem holds_of {es : List Expr} (coherent : Expr.Coherent es) (he : e ∈ es) :
    (of es).Holds e := by
  intro x hx
  have hx' : x ∈ Expr.nodesOf es := Expr.mem_nodesOf.mpr ⟨e, he, hx⟩
  cases hy : of es x.id with
  | none =>
    have := List.find?_eq_none.mp hy x hx'
    simp at this
  | some y =>
    obtain ⟨mem, same⟩ := of_eq_some hy
    rw [coherent y mem x hx' same]

theorem below_of {es : List Expr} (hb : Expr.Below bound es) : (of es).Below bound := by
  intro id x hx
  obtain ⟨mem, rfl⟩ := of_eq_some hx
  exact hb x mem

theorem coherent_of_holds {es : List Expr} (held : ∀ e ∈ es, h.Holds e) : Expr.Coherent es := by
  intro x hx y hy same
  obtain ⟨e, he, hx⟩ := Expr.mem_nodesOf.mp hx
  obtain ⟨f, hf, hy⟩ := Expr.mem_nodesOf.mp hy
  exact ((held e he).node hx).eq ((held f hf).node hy) same

end Heap
end Lifted
