import Lifted.Expr.WellFormed
import Lifted.Proofs.Evaluation.Content
import Lifted.Proofs.Expr.Heap

/-!
# Validation decides well-formedness

Validation looks at every identity once. Where one identity is one node it overlooks nothing.

* `Expr.Searched`: the nodes looked at so far keep the rules, and their children are looked at or
  pending.
* `Expr.validateAll_of_wellFormed`, `Expr.searched_of_validateAll`: the search succeeds on
  well-formed trees, and on no others.
* `Expr.exists_fault_of_validateAll`: where it fails it names a rule that some node breaks.
* `Expr.validate_ok_iff`: the search of one tree.
* `Expr.wellFormed_congr`: well-formedness is a matter of content.
-/

namespace Lifted
namespace Expr

theorem wellFormed_iff {e : Expr} :
    e.WellFormed ↔ e.fault = none ∧ ∀ c ∈ e.children, c.WellFormed := by
  unfold WellFormed
  rw [forall_mem_nodes_iff]

/-- Whether all trees are well-formed shows in the list of what each is. -/
theorem forall_wellFormed_iff {es : List Expr} :
    (∀ e ∈ es, e.WellFormed) ↔ ∀ p ∈ es.map WellFormed, p := by
  rw [List.forall_mem_map]

/-! ## Content -/

theorem fault_congr {e f : Expr} (same : e.tree = f.tree) : e.fault = none ↔ f.fault = none := by
  cases e with
  | const | var | mem => cases f <;> simp_all [tree, fault]
  | op id kind operands =>
    obtain ⟨id', operands', rfl, contents⟩ := eq_op_of_tree_eq same
    have len := congrArg List.length contents
    rw [List.length_map, List.length_map] at len
    simp [fault, len]

theorem wellFormed_congr {e f : Expr} (same : e.tree = f.tree) : e.WellFormed ↔ f.WellFormed := by
  induction e using induct_children generalizing f with
  | step e ih =>
  rw [wellFormed_iff, wellFormed_iff (e := f), fault_congr same]
  have children : e.children.map WellFormed = f.children.map WellFormed :=
    map_eq_of_map_eq (map_tree_children_congr same) fun c hc d hcd => propext (ih c hc hcd)
  rw [forall_wellFormed_iff, forall_wellFormed_iff, children]

/-! ## The search -/

/-- What is seen keeps the rules, and what is below it is seen or pending. -/
def Searched (h : Heap) (seen : Std.HashSet NodeId) (pending : List Expr) : Prop :=
  ∀ x, h.Holds x → seen.contains x.id = true →
    x.fault = none ∧ ∀ c ∈ x.children, seen.contains c.id = true ∨ c ∈ pending

variable {h : Heap} {seen : Std.HashSet NodeId} {pending : List Expr}

theorem Searched.wellFormed (hs : Searched h seen []) {e : Expr} (he : h.Holds e)
    (there : seen.contains e.id = true) : e.WellFormed := by
  induction e using induct_children with
  | step e ih =>
  obtain ⟨rule, below⟩ := hs e he there
  refine wellFormed_iff.mpr ⟨rule, fun c hc => ih c hc (he.child hc) ?_⟩
  rcases below c hc with there | pending
  · exact there
  · cases pending

theorem Searched.skip {e : Expr} (hs : Searched h seen (e :: pending))
    (there : seen.contains e.id = true) : Searched h seen pending := by
  intro x hx hseen
  obtain ⟨rule, below⟩ := hs x hx hseen
  refine ⟨rule, fun c hc => ?_⟩
  rcases below c hc with done | wait
  · exact .inl done
  · rcases List.mem_cons.mp wait with rfl | wait
    · exact .inl there
    · exact .inr wait

theorem Searched.look {e : Expr} (he : h.Holds e) (hs : Searched h seen (e :: pending))
    (rule : e.fault = none) :
    Searched h (seen.insert e.id) (e.children.reverse ++ pending) := by
  intro x hx hseen
  rw [Std.HashSet.contains_insert, Bool.or_eq_true, beq_iff_eq] at hseen
  rcases hseen with same | hseen
  · obtain rfl := he.eq hx same
    exact ⟨rule, fun c hc => .inr (by simp [hc])⟩
  · obtain ⟨rule, below⟩ := hs x hx hseen
    refine ⟨rule, fun c hc => ?_⟩
    rcases below c hc with done | wait
    · exact .inl (by simp [done])
    · rcases List.mem_cons.mp wait with rfl | wait
      · exact .inl (by simp)
      · exact .inr (by simp [wait])

theorem validateAll_of_wellFormed (all : ∀ e ∈ pending, e.WellFormed) :
    validateAll seen pending = .ok () := by
  induction seen, pending using validateAll.induct with
  | case1 seen => rw [validateAll]
  | case2 seen e rest there ih =>
    rw [validateAll, if_pos there]
    exact ih fun x hx => all x (List.mem_cons_of_mem _ hx)
  | case3 seen e rest there cause broken =>
    rw [(wellFormed_iff.mp (all e List.mem_cons_self)).1] at broken
    cases broken
  | case4 seen e rest there rule ih =>
    rw [validateAll, if_neg there, rule]
    refine ih fun x hx => ?_
    rcases List.mem_append.mp hx with hx | hx
    · exact (wellFormed_iff.mp (all e List.mem_cons_self)).2 x (List.mem_reverse.mp hx)
    · exact all x (List.mem_cons_of_mem _ hx)

/-- The search ends with all that was pending seen, and with nothing left to look at. -/
theorem searched_of_validateAll (held : ∀ e ∈ pending, h.Holds e) (hs : Searched h seen pending)
    (done : validateAll seen pending = .ok ()) :
    ∃ seen' : Std.HashSet NodeId, Searched h seen' [] ∧
      (∀ id, seen.contains id = true → seen'.contains id = true) ∧
      ∀ e ∈ pending, seen'.contains e.id = true := by
  induction seen, pending using validateAll.induct with
  | case1 seen => exact ⟨seen, hs, fun _ h => h, fun e he => by cases he⟩
  | case2 seen e rest there ih =>
    rw [validateAll, if_pos there] at done
    obtain ⟨seen', closed, grown, all⟩ :=
      ih (fun x hx => held x (List.mem_cons_of_mem _ hx)) (hs.skip there) done
    refine ⟨seen', closed, grown, fun x hx => ?_⟩
    rcases List.mem_cons.mp hx with rfl | hx
    · exact grown _ there
    · exact all x hx
  | case3 seen e rest there cause broken =>
    rw [validateAll, if_neg there, broken] at done
    cases done
  | case4 seen e rest there rule ih =>
    have he := held e List.mem_cons_self
    rw [validateAll, if_neg there, rule] at done
    have held' : ∀ x ∈ e.children.reverse ++ rest, h.Holds x := fun x hx => by
      rcases List.mem_append.mp hx with hx | hx
      · exact he.child (List.mem_reverse.mp hx)
      · exact held x (List.mem_cons_of_mem _ hx)
    obtain ⟨seen', closed, grown, all⟩ := ih held' (hs.look he rule) done
    refine ⟨seen', closed, fun id hid => grown id (by simp [hid]), fun x hx => ?_⟩
    rcases List.mem_cons.mp hx with rfl | hx
    · exact grown _ (by simp)
    · exact all x (List.mem_append_right _ hx)

/-- A search that fails has come to a node that breaks a rule, pending or below one that is. -/
theorem exists_fault_of_validateAll {err : Error} (failed : validateAll seen pending = .error err) :
    ∃ x ∈ nodesOf pending, ∃ cause, x.fault = some cause ∧ err = .malformed cause := by
  induction seen, pending using validateAll.induct with
  | case1 seen =>
    rw [validateAll] at failed
    cases failed
  | case2 seen e rest there ih =>
    rw [validateAll, if_pos there] at failed
    obtain ⟨x, hx, broken⟩ := ih failed
    exact ⟨x, by rw [nodesOf_cons]; exact List.mem_append_right _ hx, broken⟩
  | case3 seen e rest there cause broken =>
    rw [validateAll, if_neg there, broken] at failed
    cases failed
    exact ⟨e, mem_nodesOf.mpr ⟨e, List.mem_cons_self, e.self_mem_nodes⟩, cause, broken, rfl⟩
  | case4 seen e rest there rule ih =>
    rw [validateAll, if_neg there, rule] at failed
    obtain ⟨x, hx, broken⟩ := ih failed
    obtain ⟨y, hy, hx⟩ := mem_nodesOf.mp hx
    refine ⟨x, mem_nodesOf.mpr ?_, broken⟩
    rcases List.mem_append.mp hy with hy | hy
    · exact ⟨e, List.mem_cons_self, mem_nodes_of_child (List.mem_reverse.mp hy) hx⟩
    · exact ⟨y, List.mem_cons_of_mem _ hy, hx⟩

theorem validate_ok_iff {e : Expr} (he : h.Holds e) : e.validate = .ok () ↔ e.WellFormed := by
  constructor
  · intro done
    have start : Searched h ∅ [e] := fun x _ hx => by simp at hx
    obtain ⟨seen', closed, -, all⟩ := searched_of_validateAll (by simpa using he) start done
    exact closed.wellFormed he (all e List.mem_cons_self)
  · intro wf
    exact validateAll_of_wellFormed (by simpa using wf)

end Expr
end Lifted
