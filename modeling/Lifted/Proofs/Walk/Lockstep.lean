import Lifted.Proofs.Lockstep
import Lifted.Proofs.Walk.Frames

/-!
# Walks in lockstep

A walk compares a node with what has become of it by identity, and makes nodes under new
identities. Where identities go together one by one neither tells two runs apart.

* `Pairing.RunsOn.newVariable`: new variables of one content are twins.
* `Pairing.RunsOn.withChildren`, `Pairing.RunsOn.rebuild`: so are nodes that are made anew or kept.
* `Pairing.Visits`: two visitors do the same with twins.
* `Pairing.Visits.mapM_walk`: then their walks over twins leave twins behind.
-/

namespace Lifted
namespace Pairing

variable {σ σ' : Type} {P : Pairing} {S : σ → σ' → Prop} {e e' : Expr} {es es' : List Expr}

theorem sameNode_eq {f f' : Expr} (h : e.Twins P.rel e') (h' : f.Twins P.rel f') :
    e.sameNode f = e'.sameNode f' := by
  rw [Bool.eq_iff_iff, Expr.sameNode, Expr.sameNode, beq_iff_eq, beq_iff_eq, rel_eq_iff h.id h'.id]

/-- Children come back as they were in both runs or in neither. -/
theorem all_sameNode_eq {cs cs' : List Expr} (hc : List.Forall₂ (Expr.Twins P.rel) cs cs')
    (hs : List.Forall₂ (Expr.Twins P.rel) es es') :
    ((cs.zip es).all fun p => p.2.sameNode p.1) =
      (cs'.zip es').all fun p => p.2.sameNode p.1 := by
  induction hc generalizing es es' with
  | nil => rfl
  | cons h _ ih => cases hs with
    | nil => rfl
    | cons h' hs =>
      rw [List.zip_cons_cons, List.zip_cons_cons, List.all_cons, List.all_cons, ih hs,
        sameNode_eq h' h]

namespace RunsOn

theorem fresh : P.RunsOn S P.Made Lifted.fresh Lifted.fresh := RunsOn.lift Runs.fresh

theorem newVariable (name : String) (bytes : UInt8) :
    P.RunsOn S (fun e e' => e.Twins P.rel e' ∧ P.Made e.id e'.id) (Expr.newVariable name bytes)
      (Expr.newVariable name bytes) :=
  fresh.bind fun _ _ made => .pure ⟨.var name bytes none made.rel, made⟩

/-- A node around twins, made in place of twins. -/
theorem withChildren (h : e.Twins P.rel e') (hs : List.Forall₂ (Expr.Twins P.rel) es es') :
    P.RunsOn S (Expr.Twins P.rel) (e.withChildren es) (e'.withChildren es') := by
  cases h with
  | const value bytes h => exact .pure (.const value bytes h)
  | var name bytes label h => exact .pure (.var name bytes label h)
  | op kind h hOperands => exact fresh.bind fun _ _ made => .pure (.op kind made.rel hs)
  | mem h hAddress hSize =>
    have kept := Expr.Twins.mem h hAddress hSize
    match hs with
    | .nil | .cons _ .nil | .cons _ (.cons _ (.cons _ _)) => exact .pure kept
    | .cons first (.cons second .nil) =>
      exact fresh.bind fun _ _ made => .pure (.mem made.rel first second)

/-- Both nodes are kept, or both are made anew. -/
theorem rebuild (h : e.Twins P.rel e') (hs : List.Forall₂ (Expr.Twins P.rel) es es') :
    P.RunsOn S (Expr.Twins P.rel) (Lifted.rebuild e es) (Lifted.rebuild e' es') := by
  unfold Lifted.rebuild
  rw [all_sameNode_eq h.children hs]
  split
  · exact .pure h
  · exact withChildren h hs

end RunsOn

/-- The visitors do the same with twins that stand below twins. -/
def Visits (P : Pairing) (S : σ → σ' → Prop) (visitor : Visitor (StateT σ Run))
    (visitor' : Visitor (StateT σ' Run)) : Prop :=
  ∀ above above' e e', List.Forall₂ (Expr.Twins P.rel) above above' → e.Twins P.rel e' →
    P.RunsOn S (Option.Rel (Expr.Twins P.rel)) (visitor above e) (visitor' above' e')

namespace Visits

variable {visitor : Visitor (StateT σ Run)} {visitor' : Visitor (StateT σ' Run)}
  {above above' : List Expr}

theorem walkTrees (each : ∀ e ∈ es, ∀ e', e.Twins P.rel e' →
      P.RunsOn S (Expr.Twins P.rel) (walkTree visitor above e) (walkTree visitor' above' e'))
    (hs : List.Forall₂ (Expr.Twins P.rel) es es') :
    P.RunsOn S (List.Forall₂ (Expr.Twins P.rel)) (walkTrees visitor above es)
      (walkTrees visitor' above' es') := by
  induction hs with
  | nil => exact .pure .nil
  | cons h _ ih =>
    unfold Lifted.walkTrees
    refine (each _ List.mem_cons_self _ h).bind fun r r' hr => ?_
    refine (ih fun x hx => each x (List.mem_cons_of_mem _ hx)).bind fun rs rs' hrs => ?_
    exact .pure (.cons hr hrs)

/-- By induction on the tree: both visitors give a replacement, or both walks go on below. -/
theorem walkTree (V : P.Visits S visitor visitor') (h : e.Twins P.rel e')
    (ha : List.Forall₂ (Expr.Twins P.rel) above above') :
    P.RunsOn S (Expr.Twins P.rel) (walkTree visitor above e) (walkTree visitor' above' e') := by
  induction e using Expr.induct_children generalizing e' above above' with
  | step e ih =>
  rw [walkTree_eq, walkTree_eq]
  refine (V above above' e e' ha h).bind fun r? r?' hr => ?_
  cases hr with
  | some hr => exact .pure hr
  | none =>
    exact (walkTrees (fun c hc c' hcc => ih c hc hcc (.cons h ha)) h.children).bind
      fun rs rs' hrs => .rebuild h hrs

theorem mapM_walk (V : P.Visits S visitor visitor')
    (hs : List.Forall₂ (Expr.Twins P.rel) es es') :
    P.RunsOn S (List.Forall₂ (Expr.Twins P.rel)) (es.mapM (walk visitor))
      (es'.mapM (walk visitor')) := by
  rw [Lifted.mapM_walk, Lifted.mapM_walk]
  exact walkTrees (fun e _ e' h => V.walkTree h .nil) hs

end Visits

end Pairing
end Lifted
