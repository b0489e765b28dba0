import Lifted.Expr.Basic

/-!
# Positions and sharing

A node below several parents stands at several positions. A position is a node together with the
nodes above it.

* `Expr.positions`: every position of a tree, a node before its children and these from left to
  right.
* `Expr.nodes`: the nodes of a tree, one for each position.
* `Expr.Coherent`: nodes with one identity are one node, throughout several trees.
* `Expr.Below`: every identity of several trees is smaller than a bound.
* `Expr.mapIds`: other identities, the same content.
-/

namespace Lifted

/-- A node and the nodes above it, its parent first and the root last. -/
structure Position where
  above : List Expr
  node : Expr

namespace Position

/-- The nodes on the way from the root down to the node itself. -/
def path (p : Position) : List Expr := (p.node :: p.above).reverse

end Position

namespace Expr

mutual

/-- The positions in `e`, a tree that stands below the nodes `above`, in front of `rest`. -/
def positionsOnto (above : List Expr) (e : Expr) (rest : List Position) : List Position :=
  ⟨above, e⟩ ::
    match e with
    | .const .. | .var .. => rest
    | .mem _ address size =>
      address.positionsOnto (e :: above) (size.positionsOnto (e :: above) rest)
    | .op _ _ operands => positionsOfAllOnto (e :: above) operands rest

/-- The positions in several trees that stand below the nodes `above`, tree by tree, in front of
`rest`. -/
def positionsOfAllOnto (above es : List Expr) (rest : List Position) : List Position :=
  match es with
  | [] => rest
  | e :: es => e.positionsOnto above (positionsOfAllOnto above es rest)

end

/-- The positions in `e`, a tree that stands below the nodes `above`. -/
def positionsBelow (above : List Expr) (e : Expr) : List Position := e.positionsOnto above []

private theorem positionsOfAllOnto_eq (above es : List Expr) (rest : List Position)
    (h : ∀ e ∈ es, ∀ rest, e.positionsOnto above rest = e.positionsBelow above ++ rest) :
    positionsOfAllOnto above es rest = es.flatMap (positionsBelow above) ++ rest := by
  induction es with
  | nil => rfl
  | cons e es ih =>
    rw [positionsOfAllOnto, ih fun x hx => h x (List.mem_cons_of_mem _ hx),
      h e List.mem_cons_self, List.flatMap_cons, List.append_assoc]

theorem positionsOnto_eq (above : List Expr) (e : Expr) (rest : List Position) :
    e.positionsOnto above rest = e.positionsBelow above ++ rest := by
  induction e generalizing above rest with
  | const | var => rfl
  | mem id address size ihAddress ihSize =>
    rw [positionsBelow, positionsOnto, positionsOnto, ihAddress, ihSize,
      ihAddress _ (size.positionsOnto _ []), List.cons_append, List.append_assoc]
    rfl
  | op id kind operands ih =>
    have all := fun above => positionsOfAllOnto_eq above operands
    rw [positionsBelow, positionsOnto, positionsOnto, all _ _ fun e he => ih e he _,
      all _ _ fun e he => ih e he _, List.append_nil, List.cons_append]

theorem positionsBelow_eq (above : List Expr) (e : Expr) :
    e.positionsBelow above = ⟨above, e⟩ :: e.children.flatMap (positionsBelow (e :: above)) := by
  cases e with
  | const | var => rfl
  | mem id address size =>
    rw [positionsBelow, positionsOnto, positionsOnto_eq, children]
    simp only [List.flatMap_cons, List.flatMap_nil, List.append_nil]
    rfl
  | op id kind operands =>
    rw [positionsBelow, positionsOnto,
      positionsOfAllOnto_eq _ operands _ fun e _ => positionsOnto_eq _ e, List.append_nil, children]

/-- Every position in `e`, in the order of a walk that meets a node before its children. -/
def positions (e : Expr) : List Position := e.positionsBelow []

/-- The nodes of `e`, once for each position. -/
def nodes (e : Expr) : List Expr := e.positions.map Position.node

/-- The nodes of several trees. -/
def nodesOf (es : List Expr) : List Expr := es.flatMap nodes

/-- Throughout `es`, one identity is one node. -/
def Coherent (es : List Expr) : Prop :=
  ∀ x ∈ nodesOf es, ∀ y ∈ nodesOf es, x.id = y.id → x = y

/-- Every identity in `es` is smaller than `bound`, so a node with identity `bound` is new. -/
def Below (bound : NodeId) (es : List Expr) : Prop := ∀ x ∈ nodesOf es, x.id < bound

mutual

/-- The expression with each identity `i` replaced by `f i`. -/
def mapIds (f : NodeId → NodeId) : Expr → Expr
  | .const id value bytes => .const (f id) value bytes
  | .var id name bytes label => .var (f id) name bytes label
  | .mem id address size => .mem (f id) (address.mapIds f) (size.mapIds f)
  | .op id kind operands => .op (f id) kind (mapIdsOf f operands)

/-- `mapIds` on several expressions. -/
def mapIdsOf (f : NodeId → NodeId) : List Expr → List Expr
  | [] => []
  | e :: rest => e.mapIds f :: mapIdsOf f rest

end

theorem mapIdsOf_eq_map (f : NodeId → NodeId) (es : List Expr) :
    mapIdsOf f es = es.map (mapIds f) := by
  induction es with
  | nil => rfl
  | cons e es ih => simp [mapIdsOf, ih]

theorem id_mapIds (f : NodeId → NodeId) (e : Expr) : (e.mapIds f).id = f e.id := by
  cases e <;> rfl

end Expr
end Lifted
