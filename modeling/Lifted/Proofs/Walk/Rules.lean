import Lifted.Proofs.Run
import Lifted.Proofs.Walk.Frames
import Mathlib

/-!
# The rules of the replacing walk

A walk with a visitor that has a state of its own, makes nodes and may fail, as a set of rules: at
which positions the visitor is called, in which order, and what becomes of the tree. The walk with
a stack follows these rules and no others, failures and the state after them included.

* `Visiting`, `Visiting.outcome`: computations of such a visitor, and what they end with.
* `Rewrites`, `RewritesAll`: the rules, for a tree and for several trees below the same nodes.
* `exists_rewrites`: some rule applies, whatever the visitor does.
* `recorded`: a visitor that keeps a list of its calls; `Watches`: a visitor that does the same as
  another and knows of its calls.
* `Watches.follows`: what the rules say is what the walk does; `outcome_recorded_iff` and
  `outcome_walk_iff`: and nothing else, with the calls recorded or not.
* `Rewrites.sublist`: the visitor is called at most once at each position, in their order.
* `Rewrites.kept_or_anew`: when a node becomes the very same node.
* `visit_eq_forM`: a walk that replaces nothing shows every position to the visitor.
* `walk_follows_rules`: all this for the walk with a stack.
-/

namespace Lifted

/-- Computations that have a state, make nodes and may fail. A failure keeps both the state and the
identities that were taken. -/
abbrev Visiting (ε σ : Type) := ExceptT ε (StateT σ (StateM Supply))

namespace Visiting

variable {ε σ α β : Type} {w w' : σ × Supply}

/-- What `x` ends with, from a state and a supply: its result or failure, and the two that are
left. -/
def outcome (x : Visiting ε σ α) (w : σ × Supply) : Except ε α × σ × Supply :=
  let done := ((ExceptT.run x).run w.1).run w.2
  (done.1.1, done.1.2, done.2)

theorem outcome_bind (x : Visiting ε σ α) (f : α → Visiting ε σ β) :
    (x >>= f).outcome w =
      match x.outcome w with
      | (.ok a, w') => (f a).outcome w'
      | (.error err, w') => (.error err, w') := by
  simp only [outcome, ExceptT.run_bind, StateT.run_bind]
  generalize ((ExceptT.run x).run w.1).run w.2 = done
  obtain ⟨⟨r, st⟩, s⟩ := done
  cases r <;> rfl

theorem outcome_bind_ok {x : Visiting ε σ α} {f : α → Visiting ε σ β} {a : α}
    (h : x.outcome w = (.ok a, w')) : (x >>= f).outcome w = (f a).outcome w' := by
  rw [outcome_bind, h]

theorem outcome_bind_error {x : Visiting ε σ α} {f : α → Visiting ε σ β} {err : ε}
    (h : x.outcome w = (.error err, w')) : (x >>= f).outcome w = (.error err, w') := by
  rw [outcome_bind, h]

end Visiting

/-! ## The rules -/

section

variable {ε σ τ : Type}

mutual

/-- From the state and the supply `w`, the tree `node` that stands below `above` becomes this
result, or is left with this failure, and `w'` is left; the visitor is called at `calls`. -/
inductive Rewrites (visitor : Visitor (Visiting ε σ)) : (above : List Expr) → (node : Expr) →
    (w : σ × Supply) → (calls : List Position) → Except ε Expr → (w' : σ × Supply) → Prop
  /-- The visitor fails at the node. -/
  | failed {above node w w' err}
      (visited : (visitor above node).outcome w = (.error err, w')) :
      Rewrites visitor above node w [⟨above, node⟩] (.error err) w'
  /-- The visitor replaces the node. Nothing below it is visited, nor is the replacement. -/
  | replaced {above node w w' replacement}
      (visited : (visitor above node).outcome w = (.ok (some replacement), w')) :
      Rewrites visitor above node w [⟨above, node⟩] (.ok replacement) w'
  /-- The visitor keeps the node and fails somewhere below it. -/
  | stopped {above node w w₁ w' calls err}
      (visited : (visitor above node).outcome w = (.ok none, w₁))
      (children : RewritesAll visitor (node :: above) node.children w₁ calls (.error err) w') :
      Rewrites visitor above node w (⟨above, node⟩ :: calls) (.error err) w'
  /-- Every child becomes the very same node, and so does the node. -/
  | kept {above node w w₁ w' calls results}
      (visited : (visitor above node).outcome w = (.ok none, w₁))
      (children : RewritesAll visitor (node :: above) node.children w₁ calls (.ok results) w')
      (same : results.map Expr.id = node.children.map Expr.id) :
      Rewrites visitor above node w (⟨above, node⟩ :: calls) (.ok node) w'
  /-- The address or the size becomes another node, and the memory read is made anew. -/
  | mem {above id address size w w₁ w' calls address' size'}
      (visited : (visitor above (.mem id address size)).outcome w = (.ok none, w₁))
      (children : RewritesAll visitor (.mem id address size :: above) [address, size] w₁ calls
        (.ok [address', size']) w')
      (changed : [address'.id, size'.id] ≠ [address.id, size.id]) :
      Rewrites visitor above (.mem id address size) w (⟨above, .mem id address size⟩ :: calls)
        (.ok (.mem w'.2.next address' size')) (w'.1, w'.2.advance)
  /-- Some operand becomes another node, and the operator is made anew. -/
  | op {above id kind operands w w₁ w' calls operands'}
      (visited : (visitor above (.op id kind operands)).outcome w = (.ok none, w₁))
      (children : RewritesAll visitor (.op id kind operands :: above) operands w₁ calls
        (.ok operands') w')
      (changed : operands'.map Expr.id ≠ operands.map Expr.id) :
      Rewrites visitor above (.op id kind operands) w (⟨above, .op id kind operands⟩ :: calls)
        (.ok (.op w'.2.next kind operands')) (w'.1, w'.2.advance)

/-- The same for several trees that stand below `above`, from left to right. -/
inductive RewritesAll (visitor : Visitor (Visiting ε σ)) : (above : List Expr) →
    (nodes : List Expr) → (w : σ × Supply) → (calls : List Position) → Except ε (List Expr) →
    (w' : σ × Supply) → Prop
  | nil {above w} : RewritesAll visitor above [] w [] (.ok []) w
  /-- The walk fails in the first tree and does not come to the others. -/
  | first {above node rest w w' calls err}
      (head : Rewrites visitor above node w calls (.error err) w') :
      RewritesAll visitor above (node :: rest) w calls (.error err) w'
  /-- The walk fails in a later tree. -/
  | later {above node rest w w₁ w' calls calls' result err}
      (head : Rewrites visitor above node w calls (.ok result) w₁)
      (tail : RewritesAll visitor above rest w₁ calls' (.error err) w') :
      RewritesAll visitor above (node :: rest) w (calls ++ calls') (.error err) w'
  | cons {above node rest w w₁ w' calls calls' result results}
      (head : Rewrites visitor above node w calls (.ok result) w₁)
      (tail : RewritesAll visitor above rest w₁ calls' (.ok results) w') :
      RewritesAll visitor above (node :: rest) w (calls ++ calls') (.ok (result :: results)) w'

end

variable {visitor : Visitor (Visiting ε σ)} {above : List Expr} {node : Expr} {w w' : σ × Supply}
  {calls : List Position}

theorem RewritesAll.length_eq {nodes results : List Expr}
    (h : RewritesAll visitor above nodes w calls (.ok results) w') :
    results.length = nodes.length := by
  induction nodes generalizing w calls results with
  | nil =>
    cases h
    rfl
  | cons node rest ih =>
    cases h with
    | cons head tail => rw [List.length_cons, List.length_cons, ih tail]

/-! ## Some rule applies -/

theorem exists_rewritesAll {nodes : List Expr}
    (each : ∀ x ∈ nodes, ∀ above w, ∃ calls r w', Rewrites visitor above x w calls r w')
    (above : List Expr) (w : σ × Supply) :
    ∃ calls r w', RewritesAll visitor above nodes w calls r w' := by
  induction nodes generalizing w with
  | nil => exact ⟨[], .ok [], w, .nil⟩
  | cons x rest ih =>
    obtain ⟨calls, r, w₁, head⟩ := each x List.mem_cons_self above w
    cases r with
    | error err => exact ⟨_, _, _, .first head⟩
    | ok result =>
      obtain ⟨calls', rs, w', tail⟩ := ih (fun y hy => each y (List.mem_cons_of_mem _ hy)) w₁
      cases rs with
      | error err => exact ⟨_, _, _, .later head tail⟩
      | ok results => exact ⟨_, _, _, .cons head tail⟩

/-- By induction on the tree, on what the visitor answers and on what becomes of the children. -/
theorem exists_rewrites (visitor : Visitor (Visiting ε σ)) (above : List Expr) (node : Expr)
    (w : σ × Supply) : ∃ calls r w', Rewrites visitor above node w calls r w' := by
  induction node using Expr.induct_children generalizing above w with
  | step node ih =>
  obtain ⟨⟨answer, w₁⟩, visited⟩ : ∃ done, (visitor above node).outcome w = done := ⟨_, rfl⟩
  cases answer with
  | error err => exact ⟨_, _, _, .failed visited⟩
  | ok replacement? =>
    cases replacement? with
    | some replacement => exact ⟨_, _, _, .replaced visited⟩
    | none =>
      obtain ⟨calls, r, w', children⟩ := exists_rewritesAll ih (node :: above) w₁
      cases r with
      | error err => exact ⟨_, _, _, .stopped visited children⟩
      | ok results =>
        by_cases same : results.map Expr.id = node.children.map Expr.id
        · exact ⟨_, _, _, .kept visited children same⟩
        · have len := children.length_eq
          cases node with
          | const | var =>
            obtain rfl := List.length_eq_zero_iff.mp len
            exact absurd rfl same
          | mem id address size =>
            obtain ⟨address', size', rfl⟩ := List.length_eq_two.mp len
            exact ⟨_, _, _, .mem visited children same⟩
          | op id kind operands => exact ⟨_, _, _, .op visited children same⟩

/-! ## New identities -/

/-- The visitor takes identities from the supply and gives none back. -/
def Draws (visitor : Visitor (Visiting ε σ)) : Prop :=
  ∀ above node w r w', (visitor above node).outcome w = (r, w') → w.2 ≤ w'.2

theorem RewritesAll.supply_le {nodes : List Expr}
    (each : ∀ x ∈ nodes, ∀ {above w calls r w'}, Rewrites visitor above x w calls r w' → w.2 ≤ w'.2)
    {r : Except ε (List Expr)} (h : RewritesAll visitor above nodes w calls r w') :
    w.2 ≤ w'.2 := by
  induction nodes generalizing w calls r with
  | nil =>
    cases h
    exact Supply.le_refl _
  | cons x rest ih =>
    obtain ⟨now, later⟩ := List.forall_mem_cons.mp each
    cases h with
    | first head => exact now head
    | later head tail => exact Supply.le_trans (now head) (ih later tail)
    | cons head tail => exact Supply.le_trans (now head) (ih later tail)

theorem Rewrites.supply_le (draws : Draws visitor) {r : Except ε Expr}
    (h : Rewrites visitor above node w calls r w') : w.2 ≤ w'.2 := by
  induction node using Expr.induct_children generalizing above w calls r w' with
  | step node ih =>
  cases h with
  | failed visited | replaced visited => exact draws _ _ _ _ _ visited
  | stopped visited children | kept visited children =>
    exact Supply.le_trans (draws _ _ _ _ _ visited) (children.supply_le fun c hc => ih c hc)
  | mem visited children | op visited children =>
    exact Supply.le_trans (draws _ _ _ _ _ visited) (Supply.le_trans
      (children.supply_le fun c hc => ih c hc) (Supply.le_advance _))

/-- A node that the visitor keeps becomes the very same node just if its children do. Otherwise it
becomes a node around what they became, under an identity that no node of the tree has. -/
theorem Rewrites.kept_or_anew (draws : Draws visitor) {w₁ : σ × Supply} {e : Expr}
    (new : node.id < w.2.next) (visited : (visitor above node).outcome w = (.ok none, w₁))
    (h : Rewrites visitor above node w calls (.ok e) w') :
    ∃ below results w₂, calls = ⟨above, node⟩ :: below ∧
      RewritesAll visitor (node :: above) node.children w₁ below (.ok results) w₂ ∧
      (results.map Expr.id = node.children.map Expr.id ∧ e = node ∨
        results.map Expr.id ≠ node.children.map Expr.id ∧ e.sameNode node = false ∧
          e.id = w₂.2.next ∧ e.children = results) := by
  -- A new identity is not that of the node, for the supply has gone on since the node was met.
  have other : ∀ {below r w₂}, RewritesAll visitor (node :: above) node.children w₁ below r w₂ →
      ∀ e : Expr, e.id = w₂.2.next → e.sameNode node = false := by
    intro below r w₂ children e made
    have le := Supply.le_trans (draws _ _ _ _ _ visited)
      (children.supply_le fun _ _ => Rewrites.supply_le draws)
    have := Supply.next_le_next le
    rw [Expr.sameNode, beq_eq_false_iff_ne, made]
    exact Nat.ne_of_gt (Nat.lt_of_lt_of_le new this)
  cases h with
  | replaced visited' =>
    rw [visited] at visited'
    cases visited'
  | kept visited' children same =>
    obtain ⟨-, rfl⟩ := Prod.mk.inj (visited.symm.trans visited')
    exact ⟨_, _, _, rfl, children, .inl ⟨same, rfl⟩⟩
  | mem visited' children changed =>
    obtain ⟨-, rfl⟩ := Prod.mk.inj (visited.symm.trans visited')
    exact ⟨_, _, _, rfl, children, .inr ⟨changed, other children _ rfl, rfl, rfl⟩⟩
  | op visited' children changed =>
    obtain ⟨-, rfl⟩ := Prod.mk.inj (visited.symm.trans visited')
    exact ⟨_, _, _, rfl, children, .inr ⟨changed, other children _ rfl, rfl, rfl⟩⟩

/-! ## The walk follows the rules -/

/-- `watched` does what `visitor` does, and its state is a view of the calls so far and of the state
of `visitor`. -/
structure Watches (visitor : Visitor (Visiting ε σ)) (watched : Visitor (Visiting ε τ))
    (view : List Position → σ → τ) : Prop where
  outcome : ∀ above node log w r w', (visitor above node).outcome w = (r, w') →
    (watched above node).outcome (view log w.1, w.2) =
      (r, view (log ++ [⟨above, node⟩]) w'.1, w'.2)

/-- The visitor with a list of its calls in its state, the last one last. -/
def recorded (visitor : Visitor (Visiting ε σ)) : Visitor (Visiting ε (List Position × σ)) :=
  fun above node => ExceptT.mk fun (calls, st) => do
    let (r, st') ← ((visitor above node).run).run st
    pure (r, calls ++ [⟨above, node⟩], st')

theorem watches_recorded (visitor : Visitor (Visiting ε σ)) :
    Watches visitor (recorded visitor) fun calls st => (calls, st) where
  outcome above node log w r w' visited := by
    obtain ⟨rfl, rfl⟩ := Prod.mk.inj visited
    rfl

/-- A visitor that forgets its calls. -/
theorem watches_self (visitor : Visitor (Visiting ε σ)) :
    Watches visitor visitor fun _ st => st where
  outcome _ _ _ _ _ _ visited := visited

theorem outcome_walkTree_of_kept {w₁ : σ × Supply}
    (visited : (visitor above node).outcome w = (.ok none, w₁)) :
    (walkTree visitor above node).outcome w =
      (walkTrees visitor (node :: above) node.children >>= rebuild node).outcome w₁ := by
  rw [walkTree_eq, Visiting.outcome_bind_ok visited]

/-- What the rules say of the tree is what the walk does with it. -/
def FollowsRules (visitor : Visitor (Visiting ε σ)) (watched : Visitor (Visiting ε τ))
    (view : List Position → σ → τ) (node : Expr) : Prop :=
  ∀ {above w calls r w'}, Rewrites visitor above node w calls r w' → ∀ log,
    (walkTree watched above node).outcome (view log w.1, w.2) =
      (r, view (log ++ calls) w'.1, w'.2)

section

variable {watched : Visitor (Visiting ε τ)} {view : List Position → σ → τ}

theorem RewritesAll.outcome {nodes : List Expr}
    (each : ∀ x ∈ nodes, FollowsRules visitor watched view x) {r : Except ε (List Expr)}
    (h : RewritesAll visitor above nodes w calls r w') (log : List Position) :
    (walkTrees watched above nodes).outcome (view log w.1, w.2) =
      (r, view (log ++ calls) w'.1, w'.2) := by
  induction nodes generalizing w calls r log with
  | nil =>
    cases h
    rw [List.append_nil]
    rfl
  | cons x rest ih =>
    obtain ⟨now, later⟩ := List.forall_mem_cons.mp each
    rw [walkTrees]
    cases h with
    | first head => exact Visiting.outcome_bind_error (now head log)
    | later head tail =>
      rw [Visiting.outcome_bind_ok (now head log), Visiting.outcome_bind_error (ih later tail _),
        List.append_assoc]
    | cons head tail =>
      rw [Visiting.outcome_bind_ok (now head log), Visiting.outcome_bind_ok (ih later tail _),
        List.append_assoc]
      rfl

/-- By induction on the tree, with one case for each rule. -/
theorem Watches.follows (H : Watches visitor watched view) (node : Expr) :
    FollowsRules visitor watched view node := by
  induction node using Expr.induct_children with
  | step node ih =>
  intro above w calls r w' h log
  cases h with
  | failed visited =>
    rw [walkTree_eq]
    exact Visiting.outcome_bind_error (H.outcome _ _ log _ _ _ visited)
  | replaced visited =>
    rw [walkTree_eq, Visiting.outcome_bind_ok (H.outcome _ _ log _ _ _ visited)]
    rfl
  | stopped visited children =>
    rw [outcome_walkTree_of_kept (H.outcome _ _ log _ _ _ visited),
      Visiting.outcome_bind_error (children.outcome ih _), List.append_assoc]
    rfl
  | kept visited children same =>
    rw [outcome_walkTree_of_kept (H.outcome _ _ log _ _ _ visited),
      Visiting.outcome_bind_ok (children.outcome ih _), List.append_assoc, rebuild_of_same same]
    rfl
  | @mem _ id address size _ _ _ _ address' size' visited children changed =>
    have anew : (rebuild (.mem id address size) [address', size'] : Visiting ε τ Expr) = _ :=
      rebuild_of_changed rfl changed
    rw [outcome_walkTree_of_kept (H.outcome _ _ log _ _ _ visited),
      Visiting.outcome_bind_ok (children.outcome ih _), List.append_assoc, anew]
    rfl
  | @op _ id kind operands _ _ _ _ operands' visited children changed =>
    have anew : (rebuild (.op id kind operands) operands' : Visiting ε τ Expr) = _ :=
      rebuild_of_changed children.length_eq changed
    rw [outcome_walkTree_of_kept (H.outcome _ _ log _ _ _ visited),
      Visiting.outcome_bind_ok (children.outcome ih _), List.append_assoc, anew]
    rfl

end

/-- With its calls recorded, the walk ends as the rules say, and the rules say nothing else. -/
theorem outcome_recorded_iff {root : Expr} {r : Except ε Expr} :
    (walk (recorded visitor) root).outcome (([], w.1), w.2) = (r, (calls, w'.1), w'.2) ↔
      Rewrites visitor [] root w calls r w' := by
  rw [walk_eq_walkTree]
  constructor
  · intro done
    obtain ⟨calls', r', w'', h⟩ := exists_rewrites visitor [] root w
    have done' := (watches_recorded visitor).follows root h []
    obtain ⟨rfl, same⟩ := Prod.mk.inj (done.symm.trans done')
    obtain ⟨seen, supply⟩ := Prod.mk.inj same
    obtain ⟨rfl, state⟩ := Prod.mk.inj seen
    have same : w'' = w' := Prod.ext state.symm supply.symm
    rwa [same] at h
  · exact fun h => (watches_recorded visitor).follows root h []

/-- Without the record it ends in the same way. -/
theorem outcome_walk_iff {root : Expr} {r : Except ε Expr} :
    (walk visitor root).outcome w = (r, w') ↔
      ∃ calls, Rewrites visitor [] root w calls r w' := by
  rw [walk_eq_walkTree]
  constructor
  · intro done
    obtain ⟨calls, r', w'', h⟩ := exists_rewrites visitor [] root w
    have done' := (watches_self visitor).follows root h []
    obtain ⟨rfl, rfl⟩ := Prod.mk.inj (done.symm.trans done')
    exact ⟨calls, h⟩
  · rintro ⟨calls, h⟩
    exact (watches_self visitor).follows root h []

/-! ## Positions -/

theorem RewritesAll.sublist {nodes : List Expr}
    (each : ∀ x ∈ nodes, ∀ {above w calls r w'}, Rewrites visitor above x w calls r w' →
      calls.Sublist (x.positionsBelow above))
    {r : Except ε (List Expr)} (h : RewritesAll visitor above nodes w calls r w') :
    calls.Sublist (nodes.flatMap (Expr.positionsBelow above)) := by
  induction nodes generalizing w calls r with
  | nil =>
    cases h
    exact List.Sublist.refl _
  | cons x rest ih =>
    obtain ⟨now, later⟩ := List.forall_mem_cons.mp each
    rw [List.flatMap_cons]
    cases h with
    | first head => exact (now head).trans (List.sublist_append_left _ _)
    | later head tail => exact (now head).append (ih later tail)
    | cons head tail => exact (now head).append (ih later tail)

/-- The visitor is called at positions of the tree, at most once at each, and in their order. -/
theorem Rewrites.sublist {r : Except ε Expr} (h : Rewrites visitor above node w calls r w') :
    calls.Sublist (node.positionsBelow above) := by
  induction node using Expr.induct_children generalizing above w calls r w' with
  | step node ih =>
  have alone : [⟨above, node⟩].Sublist (node.positionsBelow above) := by
    rw [Expr.positionsBelow_eq]
    exact List.singleton_sublist.mpr List.mem_cons_self
  have inner : ∀ {w calls r w'}, RewritesAll visitor (node :: above) node.children w calls r w' →
      (⟨above, node⟩ :: calls).Sublist (node.positionsBelow above) := fun children => by
    rw [Expr.positionsBelow_eq]
    exact (children.sublist fun c hc => ih c hc).cons_cons _
  cases h with
  | failed | replaced => exact alone
  | stopped _ children => exact inner children
  | kept _ children => exact inner children
  | mem _ children => exact inner children
  | op _ children => exact inner children

end

section

variable {m : Type → Type} [Monad m] [MonadStateOf Supply m] [LawfulMonad m]

/-- A walk with a visitor that replaces nothing keeps the tree. -/
theorem walkTree_visit (see : (above : List Expr) → (node : Expr) → m Unit) (above : List Expr)
    (node : Expr) :
    walkTree (fun above node => do see above node; pure none) above node = (do
      (node.positionsBelow above).forM fun p => see p.above p.node
      pure node) := by
  induction node using Expr.induct_children generalizing above with
  | step node ih =>
    have below : ∀ cs : List Expr, (∀ c ∈ cs, c ∈ node.children) →
        walkTrees (fun above node => do see above node; pure none) (node :: above) cs = (do
          (cs.flatMap (Expr.positionsBelow (node :: above))).forM fun p => see p.above p.node
          pure cs) := by
      intro cs hcs
      induction cs with
      | nil => simp [walkTrees]
      | cons c cs ih' =>
        obtain ⟨hc, hcs⟩ := List.forall_mem_cons.mp hcs
        rw [walkTrees, ih c hc, ih' hcs, List.flatMap_cons]
        simp only [List.forM_eq_forM, List.forM_append, bind_assoc, pure_bind]
    rw [walkTree_eq, Expr.positionsBelow_eq]
    simp only [List.forM_eq_forM, List.forM_cons, bind_assoc, pure_bind,
      below node.children fun _ h => h, rebuild_of_same]

/-- The nodes of a tree are shown at every position, in their order. -/
theorem visit_eq_forM (see : (above : List Expr) → (node : Expr) → m Unit) (root : Expr) :
    visit see root = root.positions.forM fun p => see p.above p.node := by
  rw [visit, walk_eq_walkTree, walkTree_visit, Expr.positions, discard, map_const]
  simp

end

/-! ## The walk -/

/-- The walk with a stack is the recursive walk in every monad. With a visitor that has a state and
may fail, it ends with a result, a state and a supply just where the rules lead there, and the calls
that it makes are those of the rules, at most one at each position. A node that the visitor keeps
becomes the very same node just if its children do, and otherwise one with a new identity. A walk
that only shows the tree calls at every position until the visitor fails. -/
theorem walk_follows_rules :
    (∀ (m : Type → Type) [Monad m] [MonadStateOf Supply m] [LawfulMonad m] (visitor : Visitor m)
      (root : Expr), walk visitor root = walkTree visitor [] root) ∧
    (∀ (ε σ : Type) (visitor : Visitor (Visiting ε σ)),
      (∀ root w calls r w', (walk (recorded visitor) root).outcome (([], w.1), w.2) =
          (r, (calls, w'.1), w'.2) ↔ Rewrites visitor [] root w calls r w') ∧
      (∀ root w r w', (walk visitor root).outcome w = (r, w') ↔
        ∃ calls, Rewrites visitor [] root w calls r w') ∧
      (∀ root w calls r w', Rewrites visitor [] root w calls r w' →
        calls.Sublist root.positions) ∧
      (Draws visitor → ∀ above node w w₁ calls e w', node.id < w.2.next →
        (visitor above node).outcome w = (.ok none, w₁) →
        Rewrites visitor above node w calls (.ok e) w' →
        ∃ below results w₂, calls = ⟨above, node⟩ :: below ∧
          RewritesAll visitor (node :: above) node.children w₁ below (.ok results) w₂ ∧
          (results.map Expr.id = node.children.map Expr.id ∧ e = node ∨
            results.map Expr.id ≠ node.children.map Expr.id ∧ e.sameNode node = false ∧
              e.id = w₂.2.next ∧ e.children = results))) ∧
    ∀ (m : Type → Type) [Monad m] [MonadStateOf Supply m] [LawfulMonad m]
      (see : (above : List Expr) → (node : Expr) → m Unit) (root : Expr),
      visit see root = root.positions.forM fun p => see p.above p.node := by
  refine ⟨fun m _ _ _ => walk_eq_walkTree, fun ε σ visitor => ⟨?_, ?_, ?_, ?_⟩,
    fun m _ _ _ => visit_eq_forM⟩
  · exact fun root w calls r w' => outcome_recorded_iff
  · exact fun root w r w' => outcome_walk_iff
  · exact fun root w calls r w' h => h.sublist
  · exact fun draws above node w w₁ calls e w' new visited h => h.kept_or_anew draws new visited

namespace Sample

def seven : Expr := .const 0 7 4

def negated : Expr := .op 1 .neg [seven]

def unknown : Expr := .var 2 "x" 4 (some "shown")

/-- One operand below two places, and an operand too many. -/
def difference : Expr := .op 3 .sub [negated, unknown, negated]

/-- Counts its calls and puts new variables in place of variables; fails when it is called once
more than `limit` times. -/
def replacing (limit : Nat) : Visitor (Visiting Unit Nat) := fun _ node => do
  let count ← get
  if count = limit then throw ()
  set (count + 1)
  match node with
  | .var _ _ bytes _ => some <$> Expr.newVariable "y" bytes
  | _ => return none

end Sample

open Sample in
/-- The operand that is met twice is visited and kept twice. -/
theorem walk_follows_rules_sample :
    Rewrites (replacing 9) [] difference (0, .startingAt 10)
      [⟨[], difference⟩, ⟨[difference], negated⟩, ⟨[negated, difference], seven⟩,
        ⟨[difference], unknown⟩, ⟨[difference], negated⟩, ⟨[negated, difference], seven⟩]
      (.ok (.op 11 .sub [negated, .var 10 "y" 4 none, negated]))
      (6, (Supply.startingAt 10).advance.advance) ∧
    Rewrites (replacing 4) [] difference (0, .startingAt 10)
      [⟨[], difference⟩, ⟨[difference], negated⟩, ⟨[negated, difference], seven⟩,
        ⟨[difference], unknown⟩, ⟨[difference], negated⟩]
      (.error ()) (4, (Supply.startingAt 10).advance) := by
  obtain ⟨recursive, rules, -⟩ := walk_follows_rules
  constructor
  · refine ((rules _ _ _).1 _ _ _ _ _).mp ?_
    rw [recursive]
    cbv
  · refine ((rules _ _ _).1 _ _ _ _ _).mp ?_
    rw [recursive]
    cbv

end Lifted
