import Lifted.Proofs.Canonical.Failure
import Lifted.Proofs.Canonical.Values

/-!
# Well-formed trees come out well-formed

The leaves that a run puts in have the width of placeholders, which the options vouch for, and the
width of a pointer, for which nobody does. So well-formed trees come out well-formed as long as no
thunk gets its name in place or the pointers of the image have a width that a leaf may have. Else a
leaf comes out that no tree may have, and if pointers have no width at all, an operator above it may
fail as malformed.

* `keeps_mask_iff`, `keeps_leafOfRole_iff`: when the leaves that a run puts in keep the rules.
* `Substituted.wellFormed_iff`: when the output is well-formed.
* `canonicalize_wellFormed`: what becomes of well-formed trees.
* `canonicalize_breaks_width`: a thunk in an image with pointers of nine bytes, and of none.
-/

namespace Lifted

variable {S : Semantics} {R : Registers} {I : ImageQueries} {i : Image} {o : Options} {b : Bindings}
  {s : Supply} {es : List Expr} {ok : UInt8 → Prop} {x : Expr} {err : Error}

/-! ## Leaves -/

/-- The options allow no placeholder that a well-formed tree could not have. -/
theorem legal_of_options (h : o.validate = .ok ()) : Width.Legal o.placeholderWidth := by
  have there : o.placeholderWidth ∈ Options.widths := by
    by_contra absent
    rw [Options.validate, if_neg absent] at h
    cases h
  simp only [Options.widths, List.mem_cons, List.not_mem_nil, or_false] at there
  rcases there with w | w | w | w <;> rw [w] <;> decide

theorem thunkOf_of_inner (inner : x.isLeaf = false) : thunkOf I o x = none := by
  cases x <;> first | rfl | cases inner

theorem keeps_mask_iff (keeps : x.Keeps ok) (placeholder : ok o.placeholderWidth) :
    (mask R I o x).Keeps ok ↔ ∀ name, thunkOf I o x = some name → ok I.pointerWidth := by
  simp only [thunkOf_eq_some_iff (R := R), mask]
  cases roleBy R I o x <;> simp [Role.placeholder?, Variable.node, keeps, placeholder]

theorem keeps_leafOfRole_iff {report : Report} (leaf : x.isLeaf) (keeps : x.Keeps ok)
    (placeholder : ok o.placeholderWidth) :
    (leafOfRole I o report x (roleBy R I o x)).Keeps ok ↔
      ∀ name, thunkOf I o x = some name → ok I.pointerWidth := by
  simp only [thunkOf_eq_some_iff (R := R)]
  have kept : (x.mapIds fun _ => 0).Keeps ok := by
    cases x with
    | const | var => exact keeps
    | mem | op => cases leaf
  cases roleBy R I o x <;> simp [leafOfRole, kept, placeholder]

/-! ## Runs -/

/-- A batch that has no value has a tree that has none with its leaves masked. -/
theorem TaggedFrom.exists_masked_error {t : Tagged} {ms : List Mint} {base h : Heap} {s' : Supply}
    (G : TaggedFrom R I o s base es t ms h s')
    (failed : occurrencesBy (S.evaluator.value b) t = .error err) :
    ∃ e ∈ es, S.masked R I o b e = .error err := by
  have mem : ∀ e ∈ es, e ∈ Expr.nodesOf es := fun e he =>
    Expr.mem_nodesOf.mpr ⟨e, he, e.self_mem_nodes⟩
  have values : discard (t.trees.mapM (S.value b)) = .error err := by
    have failed := discard_error_iff.mpr failed
    rw [discard_occurrencesBy (c := ⟨S.evaluator, R, I⟩)] at failed
    rw [discard_mapM]
    exact (Expr.forM_postorderOf t.trees).symm.trans failed
  rw [G.mapM_value mem G.walked.outlines, discard_mapM] at values
  obtain ⟨before, e, after, split, -, he⟩ := forM_error_iff.mp values
  exact ⟨e, by simp [split], discard_error_iff.mp he⟩

/-- With leaves that have widths, masked trees fail only in the evaluation. -/
theorem isEvaluation_of_masked {e : Expr} (options : o.validate = .ok ()) (wf : e.WellFormed)
    (thunks : ∀ x ∈ e.nodes, ∀ name, thunkOf I o x = some name → I.pointerWidth ≠ 0)
    (failed : S.masked R I o b e = .error err) : err.isEvaluation = true := by
  have keeps : ∀ x ∈ e.nodes, x.Keeps (· ≠ 0) := fun x hx =>
    (Expr.wellFormed_iff_keeps.mp wf x hx).imp fun _ legal => legal.1
  refine Semantics.isEvaluation_of_value ?_ failed
  refine (Expr.forall_keeps_mapLeaves_iff (fun _ => isLeaf_mask) fun x hx _ => keeps x hx).mpr ?_
  intro x hx _
  exact (keeps_mask_iff (keeps x hx) (legal_of_options options).1).mpr (thunks x hx)

/-- Well-formed trees come out well-formed unless a thunk gets a width that no leaf may have. -/
theorem Substituted.wellFormed_iff {out : Canonical} (T : Substituted R I o es out)
    (options : o.validate = .ok ()) (wf : ∀ e ∈ es, e.WellFormed) :
    (∀ e ∈ out.trees, e.WellFormed) ↔ (ThunkIn I o es → Width.Legal I.pointerWidth) := by
  have legal := legal_of_options options
  have trees : (∀ e ∈ out.trees, e.WellFormed) ↔ ∀ e ∈ es,
      (e.mapLeaves fun x => leafOfRole I o out.report x (roleBy R I o x)).WellFormed :=
    forall_mem_congr (map_eq_map_iff.mp T.content) fun _ _ => Expr.wellFormed_congr
  have leaves : ∀ e ∈ es,
      ((e.mapLeaves fun x => leafOfRole I o out.report x (roleBy R I o x)).WellFormed ↔
        ∀ x ∈ e.nodes, ∀ name, thunkOf I o x = some name → Width.Legal I.pointerWidth) := by
    intro e he
    have keeps := Expr.wellFormed_iff_keeps.mp (wf e he)
    rw [Expr.wellFormed_iff_keeps, Expr.forall_keeps_mapLeaves_iff
      (fun _ leaf => isLeaf_leafOfRole leaf _) fun x hx _ => keeps x hx]
    refine forall₂_congr fun x hx => ?_
    cases leaf : x.isLeaf with
    | true => simp [keeps_leafOfRole_iff leaf (keeps x hx) legal]
    | false => simp [thunkOf_of_inner leaf]
  rw [trees, forall₂_congr leaves]
  constructor
  · rintro all ⟨x, hx, name, thunk⟩
    obtain ⟨e, he, hx⟩ := Expr.mem_nodesOf.mp hx
    exact all e he x hx name thunk
  · intro all e he x hx name thunk
    exact all ⟨x, Expr.mem_nodesOf.mpr ⟨e, he, hx⟩, name, thunk⟩

/-- With well-formed trees, and registers that never answer that a tree is malformed, a run fails as
malformed only if a thunk is to get a name in an image whose pointers have no width. -/
theorem thunk_of_stopped {cause : Malformation} (trees : ∀ e ∈ es, e.validate = .ok ())
    (wf : ∀ e ∈ es, e.WellFormed)
    (silent : ∀ name cause, R.index name ≠ .error (.malformed cause))
    (stopped : Stopped ⟨S.evaluator, R, i.queries⟩ b o s es (.malformed cause)) :
    i.pointerWidth = 0 ∧ ThunkIn i.queries o es := by
  cases stopped with
  | options h =>
    unfold Options.validate at h
    split at h <;> cases h
  | tree _ h =>
    rw [forM_ok_iff.mpr trees] at h
    cases h
  | role _ h =>
    obtain ⟨-, x, -, -, -, h⟩ := forM_error_iff.mp
      ((discard_mapM_tagPlan (c := ⟨S.evaluator, R, i.queries⟩) _).symm.trans (congrArg _ h))
    rcases exists_of_roleOf_error (discard_error_iff.mp h) with ⟨name, h⟩ | ⟨a, h | h | h⟩
    · exact absurd h (silent name cause)
    all_goals cases h
  | value accepted t ms h' s₁ _ G h =>
    by_contra fine
    obtain ⟨e, he, h⟩ := G.exists_masked_error h
    have wide : ∀ x ∈ e.nodes, ∀ name, thunkOf i.queries o x = some name → i.pointerWidth ≠ 0 :=
      fun x hx name thunk none =>
        fine ⟨none, x, Expr.mem_nodesOf.mpr ⟨e, he, hx⟩, name, thunk⟩
    cases isEvaluation_of_masked accepted.options (wf e he) wide h
  | name _ t ms h' s₁ found registers addresses _ G evaluated keys keys' h =>
    obtain ⟨vs, hvs⟩ := exists_mapM_ok_iff.mpr fun y hy =>
      G.renamePlan_answers i.answers evaluated keys keys' hy
    rw [hvs] at h
    cases h

/-- What becomes of well-formed trees, if the registers never answer that a tree is malformed. The
run fails as malformed only if a thunk is to get a name in an image whose pointers have no width.
Where it succeeds, the output is well-formed exactly if there is no thunk or the pointers have a
width that a leaf may have. -/
theorem canonicalize_wellFormed (serves : s.Serves es) (trees : ∀ e ∈ es, e.validate = .ok ())
    (silent : ∀ name cause, R.index name ≠ .error (.malformed cause)) :
    (∀ cause, (canonicalize ⟨S.evaluator, R, i.queries⟩ b o es).outcome s =
        .error (.malformed cause) → i.pointerWidth = 0 ∧ ThunkIn i.queries o es) ∧
      ∀ out, (canonicalize ⟨S.evaluator, R, i.queries⟩ b o es).outcome s = .ok out →
        ((∀ e ∈ out.trees, e.validate = .ok ()) ↔
          (ThunkIn i.queries o es → Width.Legal i.pointerWidth)) := by
  have wf : ∀ e ∈ es, e.WellFormed := fun e he =>
    (Expr.validate_ok_iff (serves.holds e he)).mp (trees e he)
  refine ⟨fun cause failed => ?_, fun out done => ?_⟩
  · obtain ⟨-, -, ends⟩ := (canonicalize_ends (c := ⟨S.evaluator, R, i.queries⟩) (b := b) (o := o)
      serves).outcome
    rw [failed] at ends
    exact thunk_of_stopped trees wf silent ends
  · obtain ⟨options, -⟩ := exists_passed serves done
    have T := substituted_of_ok serves done
    refine Iff.trans ?_ (T.wellFormed_iff options wf)
    exact forall₂_congr fun e he => Expr.validate_ok_iff (Heap.holds_of T.coherent he)

/-! ## Widths of pointers -/

namespace Sample

theorem validate_batch : ∀ e ∈ batch, e.validate = .ok () := fun e he =>
  (Expr.validate_ok_iff (serves_batch.holds e he)).mpr
    (wellFormed_of_all (by rw [nodesOf_batch]; decide) e he)

/-- The sample's collaborators with pointers of this width. -/
def withPointers (bytes : UInt8) : Collaborators :=
  ⟨Semantics.evaluator {}, Architecture.i386.registerList.registers,
    { image with pointerWidth := bytes }.queries⟩

/-- A thunk. -/
def thunk : Expr := .const 0 0x1010 4

theorem serves_thunk : (Supply.startingAt 2).Serves [thunk] ∧
    (Supply.startingAt 2).Serves [.op 1 .neg [thunk]] := by
  refine ⟨⟨?_, ?_⟩, ?_, ?_⟩ <;>
    simp [Expr.Coherent, Expr.Below, Expr.nodesOf_cons, Expr.nodes_eq, Expr.children, Expr.id,
      thunk, Supply.next, Supply.startingAt]

end Sample

theorem canonicalize_wellFormed_sample : ∃ out,
    (canonicalize Sample.collaborators Sample.bindings Sample.options Sample.batch).outcome
      (Supply.startingAt 5) = .ok out ∧ ∀ e ∈ out.trees, e.validate = .ok () := by
  have runs : ((canonicalize Sample.collaborators Sample.bindings Sample.options
      Sample.batch).outcome (Supply.startingAt 5)).toOption.map
        (fun out => out.report.registerName "eax") = some (some "0indreg") := by cbv
  obtain ⟨out, done, -⟩ := exists_ok_of_map_eq runs
  obtain ⟨-, wellFormed⟩ := canonicalize_wellFormed (S := {}) (i := Sample.image)
    (R := Architecture.i386.registerList.registers) (b := Sample.bindings) (o := Sample.options)
    Sample.serves_batch Sample.validate_batch (fun _ _ h => by cases h)
  have legal : Width.Legal Sample.image.pointerWidth := by decide
  exact ⟨out, done, (wellFormed out done).mpr fun _ => legal⟩

/-- A thunk in an image with pointers of nine bytes comes out as no tree may have it, and with
pointers of none an operator above it fails as malformed. -/
theorem canonicalize_breaks_width :
    (Supply.startingAt 2).Serves [Sample.thunk] ∧ Sample.thunk.validate = .ok () ∧
      Sample.options.validate = .ok () ∧
      (∃ out, (canonicalize (Sample.withPointers 9) Sample.bindings Sample.options
          [Sample.thunk]).outcome (Supply.startingAt 2) = .ok out ∧
        out.trees.map Expr.validate = [.error (.malformed (.width 2 "puts" 9))]) ∧
      (Supply.startingAt 2).Serves [.op 1 .neg [Sample.thunk]] ∧
      (Expr.op 1 .neg [Sample.thunk]).validate = .ok () ∧
      (canonicalize (Sample.withPointers 0) Sample.bindings Sample.options
        [.op 1 .neg [Sample.thunk]]).outcome (Supply.startingAt 2) =
          .error (.malformed (.zeroWidth .neg)) := by
  obtain ⟨serves, serves'⟩ := Sample.serves_thunk
  have runs : ((canonicalize (Sample.withPointers 9) Sample.bindings Sample.options
      [Sample.thunk]).outcome (Supply.startingAt 2)).toOption.map
        (fun out => out.trees.map Expr.validate) =
      some [.error (.malformed (.width 2 "puts" 9))] := by cbv
  refine ⟨serves, by cbv, rfl, exists_ok_of_map_eq runs, serves', by cbv, by cbv⟩

end Lifted
