import Lifted.Proofs.Canonical.Numbering

/-!
# What renaming leaves behind

Renaming is a walk by plan as well: a placeholder gets the name of what it stands for, and every
other node is kept.

* `renamePlan`, `renameNode_follows`: the plan, and that renaming does as it says.
* `rename_ends`: renaming fails with the first failure of its plan, or replaces all placeholders.
* `TaggedFrom.renamePlan_image`: what the plan says of the image of a leaf, by the leaf.
-/

namespace Lifted

theorem lookup_of_nameOf {κ : Type} [BEq κ] {id : NodeId} {key : κ} {names : List (κ × String)}
    {name : String} (h : nameOf id key names = .ok name) : names.lookup key = some name := by
  unfold nameOf at h
  split at h
  case h_1 found named =>
    obtain rfl := Except.ok.inj h
    exact named
  case h_2 => cases h

section

variable (I : ImageQueries) (width : UInt8) (t : Tagged) (names : Names)

/-- What renaming is to do with a node. -/
def renamePlan : Plan := fun e =>
  match t.registers[e.id]?, t.addresses[e.id]? with
  | some referent, _ =>
    (nameOf e.id referent.key names.registers).map fun name => some ⟨name, width, none⟩
  | none, some referent =>
    match nameOf e.id referent.key names.addresses with
    | .error err => .error err
    | .ok name =>
      (I.stringLiteral referent.key).map fun label? => some ⟨name, width, label?⟩
  | none, none => .ok none

/-- A variable with a label is made of one without, and takes two identities. -/
theorem canonicalVariable_ends (e : Expr) (s : Supply) (j : Journal) :
    (canonicalVariable I width t names e).Ends s j fun r s' j' => j' = j ∧ s ≤ s' ∧
      match renamePlan I width t names e with
      | .error err => r = .error err
      | .ok none => r = .ok none
      | .ok (some v) => ∃ id, s.next ≤ id ∧ id < s'.next ∧ r = .ok (some (v.node id)) := by
  unfold canonicalVariable
  cases hr : t.registers[e.id]? with
  | some referent =>
    refine Run.Ends.bind (Run.Ends.lift ?_)
    simp only [renamePlan, hr]
    cases nameOf e.id referent.key names.registers with
    | error err => exact ⟨trivial, Supply.le_refl s, rfl⟩
    | ok name =>
      refine ⟨rfl, Supply.le_advance s, ?_⟩
      exact ⟨s.next, Nat.le_refl _, s.next_lt_next_advance, rfl⟩
  | none =>
    cases ha : t.addresses[e.id]? with
    | none =>
      simp only [renamePlan, hr, ha]
      exact ⟨rfl, Supply.le_refl s, rfl⟩
    | some referent =>
      refine Run.Ends.bind (Run.Ends.lift ?_)
      simp only [renamePlan, hr, ha]
      cases nameOf e.id referent.key names.addresses with
      | error err => exact ⟨trivial, Supply.le_refl s, rfl⟩
      | ok name =>
        refine Run.Ends.bind (Run.Ends.bind (Run.Ends.fresh (Run.Ends.pure (Run.Ends.bind
          (Run.Ends.lift ?_)))))
        cases I.stringLiteral referent.key with
        | error err => exact ⟨rfl, Supply.le_advance s, rfl⟩
        | ok label? =>
          cases label? with
          | none =>
            refine ⟨rfl, Supply.le_advance s, ?_⟩
            exact ⟨s.next, Nat.le_refl _, s.next_lt_next_advance, rfl⟩
          | some label =>
            refine ⟨rfl, Supply.le_trans (Supply.le_advance s) (Supply.le_advance _), ?_⟩
            exact ⟨s.advance.next, Nat.le_of_lt s.next_lt_next_advance,
              s.advance.next_lt_next_advance, rfl⟩

/-- What renaming writes down about a new variable. -/
def recordRename (st : Renamed) (m : Mint) : Renamed := st.insert m.leaf.id m.node

theorem renameNode_follows :
    Follows (renameNode I width t names) (renamePlan I width t names) (fun st => st)
      recordRename where
  hit above x st y known := by
    unfold renameNode
    rw [StateT.run_bind, StateT.run_get, pure_bind]
    simp only [known]
    rfl
  miss above x st s j known := by
    refine Run.Ends.runBind (Run.Ends.pure ?_)
    simp only [known]
    refine Run.Ends.runBind ?_
    rw [Run.run_liftM]
    refine Run.Ends.map ((canonicalVariable_ends I width t names x s j).imp fun r s' j' done => ?_)
    obtain ⟨rfl, hs, done⟩ := done
    cases hp : renamePlan I width t names x with
    | error err =>
      rw [hp] at done
      subst done
      exact ⟨rfl, hs, rfl⟩
    | ok v? =>
      rw [hp] at done
      cases v? with
      | none =>
        subst done
        exact ⟨rfl, hs, rfl⟩
      | some v =>
        obtain ⟨id, low, high, rfl⟩ := done
        refine ⟨rfl, hs, ?_⟩
        exact ⟨id, low, high, rfl⟩
  memo_record _ _ := rfl

end

section

variable {R : Registers} {I : ImageQueries} {o : Options} {s s' : Supply} {base h : Heap}
  {es : List Expr} {t : Tagged} {ms : List Mint} {names : Names} {width : UInt8} {x y : Expr}

/-- The leaves of the batch stand in the tagged batch as their images, and the tables say what
they were. -/
theorem TaggedFrom.image_mem (G : TaggedFrom R I o s base es t ms h s')
    (hx : x ∈ Expr.nodesOf es) (leaf : x.isLeaf) :
    imageOf ms x ∈ Expr.nodesOf t.trees ∧
      t.registers[(imageOf ms x).id]? = (R.keyOf x).map (Referent.mk x) ∧
      t.addresses[(imageOf ms x).id]? = (addressOf I o x).map (Referent.mk x) := by
  obtain ⟨q, hq, rfl⟩ := Expr.exists_position hx
  obtain ⟨p, hp, origin⟩ := exists_mem_of_forall₂ G.positions.flip hq
  have node := TaggedFrom.node_eq_imageOf origin leaf
  rw [← node]
  exact ⟨Expr.node_mem_nodesOf hp, G.registerAt hp hq origin, G.addressAt hp hq origin⟩

/-- What the plan says of the image of a leaf, by the keys of the leaf. -/
theorem TaggedFrom.renamePlan_image (G : TaggedFrom R I o s base es t ms h s')
    (hx : x ∈ Expr.nodesOf es) (leaf : x.isLeaf) :
    renamePlan I width t names (imageOf ms x) =
      match R.keyOf x, addressOf I o x with
      | some name, _ => (nameOf (imageOf ms x).id name names.registers).map fun name =>
          some ⟨name, width, none⟩
      | none, some a =>
        match nameOf (imageOf ms x).id a names.addresses with
        | .error err => .error err
        | .ok name => (I.stringLiteral a).map fun label? => some ⟨name, width, label?⟩
      | none, none => .ok none := by
  obtain ⟨-, register, address⟩ := G.image_mem hx leaf
  unfold renamePlan
  rw [register, address]
  cases R.keyOf x <;> cases addressOf I o x <;> rfl

/-- A node that is no leaf is no placeholder. -/
theorem TaggedFrom.renamePlan_inner (G : TaggedFrom R I o s base es t ms h s')
    (hy : h y.id = some y) (inner : y.isLeaf = false) :
    renamePlan I width t names y = .ok none := by
  have unknown : ∀ {κ : Type} (key : Expr → Option κ), (referentsOf key ms)[y.id]? = none := by
    intro κ key
    rw [getElem?_referentsOf G.distinct]
    cases hf : ms.find? (·.id == y.id) with
    | none => rfl
    | some m =>
      obtain ⟨hm, id⟩ := of_find?_eq_some hf
      have node := (G.minted.new m hm).2
      rw [id, hy] at node
      rw [Option.some.inj node] at inner
      cases inner
  rw [renamePlan, G.registers, G.addresses, unknown, unknown]

theorem rename_ends {j : Journal} (G : TaggedFrom R I o s base es t ms h s') :
    (rename I width t names).Ends s' j fun r s'' _ => s' ≤ s'' ∧
      match r with
      | .error err => (Expr.nodesOf t.trees).mapM (renamePlan I width t names) = .error err
      | .ok trees => ∃ ms' h', Walked (renamePlan I width t names) s' h [] [] h t.trees trees ms'
          h' s'' := by
  refine Run.Ends.map ((mapM_walk_ends (renameNode_follows I width t names) rfl
    (fun y hy inner => G.renamePlan_inner hy inner) G.walked.held G.minted.below).imp
    fun r s'' j' done => ?_)
  obtain ⟨-, hs, done⟩ := done
  cases r with
  | error err => exact ⟨hs, done⟩
  | ok out =>
    obtain ⟨ms', h', -, walked⟩ := done
    exact ⟨hs, ms', h', walked⟩

end

end Lifted
