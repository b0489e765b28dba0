import Lifted.Proofs.Expr.Leaves
import Lifted.Walk.Recursive

/-!
# The walk by frames is the walk by recursion

`walk` keeps a stack of frames, `walkTree` follows the tree. In every lawful monad they show the
visitor the same nodes in the same order and yield the same tree, whatever the visitor does.

* `rebuild_of_same`, `rebuild_of_changed`: a node whose children came back as they were, or not.
* `walkTree_eq`: one equation for `walkTree`, in terms of the list of children.
* `walkFrames_eq`: the frame at the top of the stack finishes with what the recursion makes of its
  pending children, and then the frame below it goes on (`Frame.resume`).
* `walk_eq_walkTree`: the two walks are equal; `mapM_walk` is the same for several trees.
* `walkTree_congr`: a walk goes by what the visitor does at the nodes of the tree.
-/

namespace Lifted

section

variable {m : Type → Type} [Monad m] [MonadStateOf Supply m] [LawfulMonad m]
variable (visitor : Visitor m)

theorem walkTrees_eq_mapM (above es : List Expr) :
    walkTrees visitor above es = es.mapM (walkTree visitor above) := by
  induction es with
  | nil => rw [walkTrees, List.mapM_nil]
  | cons e es ih => rw [walkTrees, List.mapM_cons, ih]

omit [Monad m] [MonadStateOf Supply m] [LawfulMonad m] in
/-- Every child came back as the very same node. -/
theorem all_sameNode_iff {children results : List Expr} (len : results.length = children.length) :
    ((children.zip results).all fun p => p.2.sameNode p.1) = true ↔
      results.map Expr.id = children.map Expr.id := by
  induction children generalizing results with
  | nil => simp [List.length_eq_zero_iff.mp len]
  | cons c children ih =>
    cases results with
    | nil => cases len
    | cons r results =>
      rw [List.zip_cons_cons, List.all_cons, Bool.and_eq_true, ih (Nat.succ.inj len)]
      simp [Expr.sameNode]

omit [LawfulMonad m] in
theorem rebuild_of_same {node : Expr} {results : List Expr}
    (same : results.map Expr.id = node.children.map Expr.id) :
    rebuild (m := m) node results = pure node := by
  have len : results.length = node.children.length := by simpa using congrArg List.length same
  rw [rebuild, if_pos ((all_sameNode_iff len).mpr same)]

omit [LawfulMonad m] in
theorem rebuild_of_changed {node : Expr} {results : List Expr}
    (len : results.length = node.children.length)
    (changed : results.map Expr.id ≠ node.children.map Expr.id) :
    rebuild (m := m) node results = node.withChildren results := by
  rw [rebuild, if_neg fun all => changed ((all_sameNode_iff len).mp all)]

omit [LawfulMonad m] in
theorem rebuild_nil {node : Expr} (h : node.children = []) :
    rebuild (m := m) node [] = pure node := rebuild_of_same (by rw [h])

/-- The recursion treats all nodes alike: the visitor, then the children, then the node anew. -/
theorem walkTree_eq (above : List Expr) (node : Expr) :
    walkTree visitor above node = (do
      match ← visitor above node with
      | some replacement => pure replacement
      | none =>
        let results ← walkTrees visitor (node :: above) node.children
        rebuild node results) := by
  rw [walkTree.eq_def]
  congr 1
  funext replacement?
  cases replacement? with
  | some replacement => rfl
  | none =>
    cases node with
    | const id value bytes => simp only [Expr.children, walkTrees, pure_bind]; rfl
    | var id name bytes label => simp only [Expr.children, walkTrees, pure_bind]; rfl
    | mem id address size => simp only [Expr.children, walkTrees, bind_assoc, pure_bind]
    | op id kind operands => rfl

namespace Frame

/-- The frame once its pending children `cs` have become `results`. -/
def settleAll (f : Frame) (cs results : List Expr) : Frame :=
  { f with
    pending := []
    walked := results.reverse ++ f.walked
    changed := f.changed || !(cs.zip results).all fun p => p.2.sameNode p.1 }

theorem settleAll_settle (f : Frame) (c r : Expr) (cs rs : List Expr) :
    ({ f with pending := cs }.settle c r).settleAll cs rs = f.settleAll (c :: cs) (r :: rs) := by
  simp [settleAll, settle, Bool.or_assoc]

omit [LawfulMonad m] in
/-- A frame whose children are all walked leaves behind what the recursion makes of its node. -/
theorem leave_settleAll_enter (above : List Expr) (node : Expr) (results : List Expr) :
    ((enter above node).settleAll node.children results).leave (m := m) = rebuild node results := by
  simp only [leave, settleAll, enter, rebuild, List.append_nil, List.reverse_reverse,
    Bool.false_or, Bool.not_eq_true']
  cases (node.children.zip results).all fun p => p.2.sameNode p.1 <;> simp

/-- Goes on with the frames below one whose node has become `result`. -/
def resume (below : List Frame) (node result : Expr) : m Expr :=
  match below with
  | [] => pure result
  | parent :: rest => walkFrames visitor (parent.settle node result) rest

end Frame

omit [LawfulMonad m] in
theorem walkFrames_nil (top : Frame) (below : List Frame) (h : top.pending = []) :
    walkFrames visitor top below = top.leave >>= Frame.resume visitor below top.node := by
  rw [walkFrames]
  split
  case h_1 => cases below <;> rfl
  case h_2 pending =>
    rw [h] at pending
    cases pending

omit [LawfulMonad m] in
theorem walkFrames_cons (top : Frame) (below : List Frame) {child : Expr} {later : List Expr}
    (h : top.pending = child :: later) :
    walkFrames visitor top below = (do
      match ← visitor top.path child with
      | some replacement =>
        walkFrames visitor ({ top with pending := later }.settle child replacement) below
      | none =>
        if child.children.isEmpty then
          walkFrames visitor ({ top with pending := later }.settle child child) below
        else
          walkFrames visitor (Frame.enter top.path child)
            ({ top with pending := later } :: below)) := by
  rw [walkFrames]
  split
  case h_1 pending =>
    rw [h] at pending
    cases pending
  case h_2 c cs pending =>
    rw [h] at pending
    obtain ⟨rfl, rfl⟩ := List.cons.inj pending
    rfl

/-- The frames treat the next child as the recursion does. -/
def FramesFollow (child : Expr) : Prop :=
  ∀ (top : Frame) (below : List Frame) (later : List Expr), top.pending = child :: later →
    walkFrames visitor top below = (do
      let result ← walkTree visitor top.path child
      walkFrames visitor ({ top with pending := later }.settle child result) below)

/-- If the frames treat each child as the recursion does, then the frame at the top ends as the
recursion does. -/
theorem walkFrames_eq_of_follow (cs : List Expr) (follow : ∀ c ∈ cs, FramesFollow visitor c)
    (top : Frame) (below : List Frame) (h : top.pending = cs) :
    walkFrames visitor top below = (do
      let results ← walkTrees visitor top.path cs
      let result ← (top.settleAll cs results).leave
      Frame.resume visitor below top.node result) := by
  induction cs generalizing top with
  | nil =>
    have same : top.settleAll [] [] = top := by
      cases top
      subst h
      simp [Frame.settleAll]
    rw [walkFrames_nil visitor top below h, walkTrees, pure_bind, same]
  | cons c cs ih =>
    rw [follow c List.mem_cons_self top below cs h, walkTrees]
    simp only [bind_assoc, pure_bind]
    congr 1
    funext r
    rw [ih (fun x hx => follow x (List.mem_cons_of_mem _ hx)) _ rfl]
    simp only [Frame.settleAll_settle]
    rfl

/-- By induction on the child: its own children are walked in a frame of their own. -/
theorem framesFollow (child : Expr) : FramesFollow visitor child := by
  induction child using Expr.induct_children with
  | step c follow =>
  intro top below later h
  rw [walkFrames_cons visitor top below h, walkTree_eq, bind_assoc]
  congr 1
  funext replacement?
  cases replacement? with
  | some replacement => rw [pure_bind]
  | none =>
    simp only [bind_assoc]
    by_cases hc : c.children = []
    · simp only [hc, List.isEmpty_nil, ↓reduceIte, walkTrees, pure_bind, rebuild_nil (m := m) hc]
    · rw [List.isEmpty_eq_false_iff.mpr hc, if_neg Bool.false_ne_true,
        walkFrames_eq_of_follow visitor c.children follow _ _ rfl]
      congr 1
      funext results
      rw [Frame.leave_settleAll_enter]
      rfl

theorem walkFrames_eq (top : Frame) (below : List Frame) :
    walkFrames visitor top below = (do
      let results ← walkTrees visitor top.path top.pending
      let result ← (top.settleAll top.pending results).leave
      Frame.resume visitor below top.node result) :=
  walkFrames_eq_of_follow visitor _ (fun c _ => framesFollow visitor c) _ _ rfl

/-- The walk with a stack is the walk by recursion. -/
theorem walk_eq_walkTree (root : Expr) : walk visitor root = walkTree visitor [] root := by
  unfold walk
  rw [walkTree_eq]
  congr 1
  funext replacement?
  cases replacement? with
  | some replacement => rfl
  | none =>
    by_cases hc : root.children = []
    · simp only [hc, List.isEmpty_nil, ↓reduceIte, walkTrees, pure_bind, rebuild_nil (m := m) hc]
    · simp only [List.isEmpty_eq_false_iff.mpr hc, Bool.false_eq_true, ↓reduceIte, walkFrames_eq]
      congr 1
      funext results
      have pending : (Frame.enter [] root).pending = root.children := rfl
      rw [pending, Frame.leave_settleAll_enter]
      exact bind_pure _

theorem mapM_walk (trees : List Expr) : trees.mapM (walk visitor) = walkTrees visitor [] trees := by
  rw [walkTrees_eq_mapM]
  exact congrArg (trees.mapM ·) (funext (walk_eq_walkTree visitor))

/-! ## Other visitors -/

variable {visitor} {visitor' : Visitor m}

omit [LawfulMonad m] in
theorem walkTrees_congr {es : List Expr} (above : List Expr)
    (each : ∀ e ∈ es, walkTree visitor above e = walkTree visitor' above e) :
    walkTrees visitor above es = walkTrees visitor' above es := by
  induction es with
  | nil => rw [walkTrees, walkTrees]
  | cons e es ih =>
    obtain ⟨first, rest⟩ := List.forall_mem_cons.mp each
    rw [walkTrees, walkTrees, first, ih rest]

theorem walkTree_congr {e : Expr}
    (same : ∀ x ∈ e.nodes, ∀ above, visitor above x = visitor' above x) (above : List Expr) :
    walkTree visitor above e = walkTree visitor' above e := by
  induction e using Expr.induct_children generalizing above with
  | step e ih =>
    obtain ⟨here, below⟩ := Expr.forall_mem_nodes_iff.mp same
    rw [walkTree_eq, walkTree_eq, here above,
      walkTrees_congr (e :: above) fun c hc => ih c hc (below c hc) (e :: above)]

end

end Lifted
