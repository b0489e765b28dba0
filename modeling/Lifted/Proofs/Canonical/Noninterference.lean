import Lifted.Proofs.Canonical.Allocation
import Lifted.Proofs.Canonical.Failure

/-!
# What an image can change

A run asks an image about the constants of its batch, and about strings. Where addresses are not
made anonymous it asks nothing. Where they are, the answers about the constants decide which names
are given, and the strings are only shown.

* `tag_congr`: a batch is tagged alike where its nodes have the same roles.
* `ImageQueries.AgreeOn`: images that give the same answers about the constants of a batch.
* `SameContent`: canonical forms of one content with one report, or one failure.
* `start_eq_of_off`: with addresses left as they are the image plays no part.
* `outcome_of_agreeOn`: images that agree and can read all strings lead to one content.
* `canonicalize_noninterference`: both for any two images, also from different supplies.
-/

namespace Lifted

/-! ## Tagging -/

section

variable {R : Registers} {I I' : ImageQueries} {o : Options}

/-- Tagging goes by the role of a node, and by the width of pointers if that is a thunk. -/
theorem tagNode_congr {x : Expr} (role : roleOf R I o x = roleOf R I' o x)
    (width : ∀ name, roleOf R I o x = .ok (.thunk name) → I.pointerWidth = I'.pointerWidth)
    (above : List Expr) : tagNode R I o above x = tagNode R I' o above x := by
  unfold tagNode
  refine bind_congr fun tagging => ?_
  cases tagging.replaced[x.id]? with
  | some before => rfl
  | none =>
    dsimp only
    rw [← role]
    refine Run.liftM_bind_congr fun role' found => ?_
    cases role' with
    | thunk name => rw [replacementFor, replacementFor, width name found]
    | kept | register | address => rfl

theorem tag_congr {es : List Expr}
    (roles : ∀ x ∈ Expr.nodesOf es, roleOf R I o x = roleOf R I' o x)
    (width : ∀ x ∈ Expr.nodesOf es, ∀ name, roleOf R I o x = .ok (.thunk name) →
      I.pointerWidth = I'.pointerWidth) : tag R I o es = tag R I' o es := by
  have walks : es.mapM (walk (tagNode R I o)) = es.mapM (walk (tagNode R I' o)) := by
    rw [mapM_walk, mapM_walk]
    refine walkTrees_congr [] fun e he => walkTree_congr (fun x hx => ?_) []
    have hx := Expr.mem_nodesOf.mpr ⟨e, he, hx⟩
    exact tagNode_congr (roles x hx) (width x hx)
  unfold tag
  rw [walks]

end

/-! ## Addresses that are left as they are -/

section

variable {R : Registers} {I : ImageQueries} {o : Options}

theorem roleOf_off (off : o.anonymizeAddresses = false) (I I' : ImageQueries) (e : Expr) :
    roleOf R I o e = roleOf R I' o e := by
  cases e with
  | const => simp [roleOf, off]
  | var | mem | op => rfl

theorem anonymizes_off (off : o.anonymizeAddresses = false) (a : UInt64) :
    o.anonymizes I a = false := by
  simp [Options.anonymizes, off]

theorem thunk?_off (off : o.anonymizeAddresses = false) (a : UInt64) : o.thunk? I a = none := by
  simp [Options.thunk?, off]

theorem addressOf_off (off : o.anonymizeAddresses = false) (e : Expr) : addressOf I o e = none := by
  simp [addressOf, anonymizes_off off]

/-- Where no placeholder stands for an address, renaming asks for no string. -/
theorem rename_congr {t : Tagged} (absent : ∀ id : NodeId, t.addresses[id]? = none)
    (I I' : ImageQueries) (width : UInt8) (names : Names) :
    rename I width t names = rename I' width t names := by
  have same : renameNode I width t names = renameNode I' width t names := by
    funext above node
    have new : canonicalVariable I width t names node =
        canonicalVariable I' width t names node := by
      unfold canonicalVariable
      rw [absent]
      cases t.registers[node.id]? <;> rfl
    unfold renameNode
    rw [new]
  unfold rename
  rw [same]

theorem TaggedFrom.no_addresses {s s' : Supply} {base h : Heap} {es : List Expr} {t : Tagged}
    {ms : List Mint} (G : TaggedFrom R I o s base es t ms h s')
    (off : o.anonymizeAddresses = false) (id : NodeId) : t.addresses[id]? = none := by
  rw [G.addresses, getElem?_referentsOf G.distinct]
  simp [addressOf_off off]

end

variable {v : Evaluator} {R : Registers} {I I' : ImageQueries} {b : Bindings} {o : Options}
  {s s' : Supply} {es es' : List Expr}

/-- With addresses left as they are, runs over any two images are the same. -/
theorem start_eq_of_off (off : o.anonymizeAddresses = false) (serves : s.Serves es) :
    (canonicalize ⟨v, R, I⟩ b o es).start s = (canonicalize ⟨v, R, I'⟩ b o es).start s := by
  refine start_congr serves (tag_congr (fun x _ => roleOf_off off I I' x) ?_)
    (fun _ _ _ _ _ => rfl) fun t ms h s₁ G names => rename_congr (G.no_addresses off) I I' _ names
  intro x _ name found
  have thunk := (thunkOf_eq_some_iff (R := R)).mpr (eq_roleBy found).symm
  obtain ⟨a, -, thunk⟩ := Option.bind_eq_some_iff.mp thunk
  rw [thunk?_off off] at thunk
  cases thunk

/-! ## Images that agree -/

/-- The images give the same answers about the constants of the batch, and their pointers are as
wide. -/
structure ImageQueries.AgreeOn (I I' : ImageQueries) (es : List Expr) : Prop where
  pointerWidth : I.pointerWidth = I'.pointerWidth
  isMapped : ∀ x ∈ Expr.nodesOf es, ∀ a, x.constant? = some a → I.isMapped a = I'.isMapped a
  isFunction : ∀ x ∈ Expr.nodesOf es, ∀ a, x.constant? = some a → I.isFunction a = I'.isFunction a
  thunkName : ∀ x ∈ Expr.nodesOf es, ∀ a, x.constant? = some a → I.thunkName a = I'.thunkName a

/-- The image has an answer about the string at every anonymous address of the batch. -/
def ImageQueries.ReadsStrings (I : ImageQueries) (o : Options) (es : List Expr) : Prop :=
  ∀ a, AddressIn I o es a → ∃ literal?, I.stringLiteral a = .ok literal?

namespace ImageQueries.AgreeOn

variable {x : Expr}

theorem roleOf (agree : I.AgreeOn I' es) (hx : x ∈ Expr.nodesOf es) :
    roleOf R I o x = roleOf R I' o x := by
  cases x with
  | const id a bytes =>
    rw [Lifted.roleOf, Lifted.roleOf, addressRole, addressRole, agree.isMapped _ hx a rfl,
      agree.isFunction _ hx a rfl, agree.thunkName _ hx a rfl]
  | var | mem | op => rfl

theorem maps (agree : I.AgreeOn I' es) (hx : x ∈ Expr.nodesOf es) {a : UInt64}
    (ha : x.constant? = some a) : I.maps a = I'.maps a := by
  rw [ImageQueries.maps, ImageQueries.maps, agree.isMapped x hx a ha]

theorem thunk? (agree : I.AgreeOn I' es) (hx : x ∈ Expr.nodesOf es) {a : UInt64}
    (ha : x.constant? = some a) : I.thunk? a = I'.thunk? a := by
  rw [ImageQueries.thunk?, ImageQueries.thunk?, agree.isFunction x hx a ha,
    agree.thunkName x hx a ha]

theorem addressOf (agree : I.AgreeOn I' es) (hx : x ∈ Expr.nodesOf es) :
    addressOf I o x = addressOf I' o x := by
  unfold Lifted.addressOf
  cases ha : x.constant? with
  | none => rfl
  | some a =>
    have same : o.anonymizes I a = o.anonymizes I' a := by
      rw [Options.anonymizes, Options.anonymizes, agree.maps hx ha, agree.thunk? hx ha]
    rw [Option.filter_some, Option.filter_some, same]

theorem thunkOf (agree : I.AgreeOn I' es) (hx : x ∈ Expr.nodesOf es) :
    thunkOf I o x = thunkOf I' o x := by
  unfold Lifted.thunkOf
  cases ha : x.constant? with
  | none => rfl
  | some a =>
    rw [Option.bind_some, Option.bind_some, Options.thunk?, Options.thunk?, agree.maps hx ha,
      agree.thunk? hx ha]

theorem roleBy (agree : I.AgreeOn I' es) (hx : x ∈ Expr.nodesOf es) :
    roleBy R I o x = roleBy R I' o x := by
  rw [Lifted.roleBy, Lifted.roleBy, agree.addressOf hx, agree.thunkOf hx]

theorem tag (agree : I.AgreeOn I' es) : tag R I o es = tag R I' o es :=
  tag_congr (fun _ hx => agree.roleOf hx) fun _ _ _ _ => agree.pointerWidth

/-- The content in place of a leaf. Strings do not count for it. -/
theorem tree_leafOfRole (agree : I.AgreeOn I' es) (report : Report) (x : Expr) (role : Role) :
    (leafOfRole I o report x role).tree = (leafOfRole I' o report x role).tree := by
  cases role with
  | thunk name => rw [leafOfRole, leafOfRole, agree.pointerWidth]
  | kept | register | address => rfl

/-- Runs over the two images pass the same checks. -/
theorem checks (agree : I.AgreeOn I' es) (reads : I.ReadsStrings o es)
    (reads' : I'.ReadsStrings o es) (s : Supply) :
    checks ⟨v, R, I⟩ b o s es = checks ⟨v, R, I'⟩ b o s es := by
  have roles : ((Expr.nodesOf es).forM fun x => discard (Lifted.roleOf R I o x)) =
      (Expr.nodesOf es).forM fun x => discard (Lifted.roleOf R I' o x) :=
    forM_congr fun x hx => congrArg _ (agree.roleOf hx)
  have addresses : (Expr.nodesOf es).filterMap (Lifted.addressOf I o) =
      (Expr.nodesOf es).filterMap (Lifted.addressOf I' o) :=
    List.filterMap_congr fun x hx => agree.addressOf hx
  have strings : (((Expr.nodesOf es).filterMap (Lifted.addressOf I' o)).forM fun a =>
      discard (I.stringLiteral a)) = ((Expr.nodesOf es).filterMap (Lifted.addressOf I' o)).forM
        fun a => discard (I'.stringLiteral a) := by
    refine forM_congr fun a ha => ?_
    obtain ⟨x, hx, here'⟩ := List.mem_filterMap.mp ha
    have here : Lifted.addressOf I o x = some a := (agree.addressOf hx).trans here'
    rw [discard_ok_iff.mpr (reads a (addressIn_iff.mpr ⟨x, hx, here⟩)),
      discard_ok_iff.mpr (reads' a (addressIn_iff.mpr ⟨x, hx, here'⟩))]
  unfold Lifted.checks
  simp only [roles, agree.tag, addresses, strings]

end ImageQueries.AgreeOn

/-- The canonical forms have one content, and the reports are equal, or both runs failed for the
same cause up to identities. Labels may differ. -/
def SameContent (r r' : Except Error Canonical) : Prop :=
  Matches (fun out out' => out.trees.map Expr.tree = out'.trees.map Expr.tree ∧
    out.report = out'.report) r r'

theorem SameOutcome.sameContent {r r' : Except Error Canonical} (h : SameOutcome r r') :
    SameContent r r' := h.imp fun _ _ same => ⟨same.1.map_tree.symm, same.2⟩

theorem SameContent.trans {r r' r'' : Except Error Canonical} (h : SameContent r r')
    (h' : SameContent r' r'') : SameContent r r'' :=
  Matches.trans h h' fun _ _ _ same same' => ⟨same.1.trans same'.1, same.2.trans same'.2⟩

/-- The report goes by what is tagged and found, and the content by the report and the roles. -/
theorem Passed.content_eq {out out' : Canonical} {t t' : Tagged} {ms ms₁ : List Mint} {h h₁ : Heap}
    {s₁ s₁' : Supply} {found found' : List (Population × Occurrence)}
    {registers registers' : List String} {addresses addresses' : List UInt64}
    {ms' ms₁' : List Mint} {h' h₁' : Heap} {s₂ s₂' : Supply} (agree : I.AgreeOn I' es)
    (P : Passed ⟨v, R, I⟩ b o s es out t ms h s₁ found registers addresses ms' h' s₂)
    (P' : Passed ⟨v, R, I'⟩ b o s es out' t' ms₁ h₁ s₁' found' registers' addresses' ms₁' h₁' s₂') :
    out.trees.map Expr.tree = out'.trees.map Expr.tree ∧ out.report = out'.report := by
  have tagging := P.tagging
  rw [show tag R I o es = tag R I' o es from agree.tag, P'.tagging] at tagging
  obtain rfl := Except.ok.inj tagging
  have evaluated := P.evaluated
  rw [show occurrencesBy (v.value b) t' = .ok found' from P'.evaluated] at evaluated
  obtain rfl := Except.ok.inj evaluated
  obtain rfl := Except.ok.inj (P.registerKeys.symm.trans P'.registerKeys)
  obtain rfl := Except.ok.inj (P.addressKeys.symm.trans P'.addressKeys)
  have report : out.report = out'.report := P.report.trans P'.report.symm
  refine ⟨?_, report⟩
  rw [P.substituted.content, P'.substituted.content, report]
  refine List.map_congr_left fun e he => Expr.tree_mapLeaves_congr fun x hx _ => ?_
  show (leafOfRole I o _ x (roleBy R I o x)).tree = (leafOfRole I' o _ x (roleBy R I' o x)).tree
  rw [agree.roleBy (Expr.mem_nodesOf.mpr ⟨e, he, hx⟩), agree.tree_leafOfRole]

/-- Runs over images that agree and read all strings fail alike, or come to one content. -/
theorem outcome_of_agreeOn (agree : I.AgreeOn I' es) (reads : I.ReadsStrings o es)
    (reads' : I'.ReadsStrings o es) (serves : s.Serves es) :
    (∃ err, (canonicalize ⟨v, R, I⟩ b o es).outcome s = .error err ∧
        (canonicalize ⟨v, R, I'⟩ b o es).outcome s = .error err) ∨
      ∃ out out', (canonicalize ⟨v, R, I⟩ b o es).outcome s = .ok out ∧
        (canonicalize ⟨v, R, I'⟩ b o es).outcome s = .ok out' ∧
        out.trees.map Expr.tree = out'.trees.map Expr.tree ∧ out.report = out'.report := by
  have same : discard ((canonicalize ⟨v, R, I⟩ b o es).outcome s) =
      discard ((canonicalize ⟨v, R, I'⟩ b o es).outcome s) := by
    rw [discard_outcome serves, discard_outcome serves, agree.checks reads reads']
  cases done : (canonicalize ⟨v, R, I⟩ b o es).outcome s with
  | error err =>
    rw [done] at same
    exact .inl ⟨err, rfl, discard_error_iff.mp same.symm⟩
  | ok out =>
    rw [done] at same
    obtain ⟨out', done'⟩ := discard_ok_iff.mp same.symm
    obtain ⟨-, -, _, _, _, _, _, _, _, _, _, _, P⟩ := exists_passed serves done
    obtain ⟨-, -, _, _, _, _, _, _, _, _, _, _, P'⟩ := exists_passed serves done'
    exact .inr ⟨out, out', rfl, done', P.content_eq agree P'⟩

/-- What an image can change in a run. With addresses left as they are it can change nothing, even
if it fails at every question, so it is asked none: the trees, their labels, the report, the journal
or the failure are the same. Otherwise only the width of pointers and the answers about the
constants of the batch count for failures, content and reports, as long as strings can be read; what
the strings are does not. From different supplies the same holds up to identities, if the evaluator
does not go by these. -/
theorem canonicalize_noninterference (v : Evaluator) (R : Registers) (I I' : ImageQueries)
    (b : Bindings) (o : Options) :
    (o.anonymizeAddresses = false →
      (∀ es s, s.Serves es →
        (canonicalize ⟨v, R, I⟩ b o es).start s = (canonicalize ⟨v, R, I'⟩ b o es).start s) ∧
      (v.Indifferent b → ∀ es es' s s', Expr.Renumbered es es' → s.Avoids es → s'.Avoids es' →
        SameOutcome ((canonicalize ⟨v, R, I⟩ b o es).outcome s)
          ((canonicalize ⟨v, R, I'⟩ b o es').outcome s'))) ∧
    ∀ es, I.AgreeOn I' es → I.ReadsStrings o es → I'.ReadsStrings o es →
      (∀ s, s.Serves es →
        (∃ err, (canonicalize ⟨v, R, I⟩ b o es).outcome s = .error err ∧
            (canonicalize ⟨v, R, I'⟩ b o es).outcome s = .error err) ∨
          ∃ out out', (canonicalize ⟨v, R, I⟩ b o es).outcome s = .ok out ∧
            (canonicalize ⟨v, R, I'⟩ b o es).outcome s = .ok out' ∧
            out.trees.map Expr.tree = out'.trees.map Expr.tree ∧ out.report = out'.report) ∧
      (v.Indifferent b → ∀ es' s s', Expr.Renumbered es es' → s.Avoids es → s'.Avoids es' →
        SameContent ((canonicalize ⟨v, R, I⟩ b o es).outcome s)
          ((canonicalize ⟨v, R, I'⟩ b o es').outcome s')) := by
  refine ⟨fun off => ⟨fun es s => start_eq_of_off off, ?_⟩, fun es agree reads reads' =>
    ⟨fun s => outcome_of_agreeOn agree reads reads', ?_⟩⟩
  · intro indifferent es es' s s' renumbered avoids avoids'
    obtain ⟨common, serves, first, last⟩ := exists_common_supply (o := o) ⟨v, R, I⟩ ⟨v, R, I'⟩
      indifferent indifferent renumbered avoids avoids'
    refine first.trans ?_
    rw [Run.outcome, start_eq_of_off off serves]
    exact last
  · intro indifferent es' s s' renumbered avoids avoids'
    obtain ⟨common, serves, first, last⟩ := exists_common_supply (o := o) ⟨v, R, I⟩ ⟨v, R, I'⟩
      indifferent indifferent renumbered avoids avoids'
    refine first.sameContent.trans (SameContent.trans ?_ last.sameContent)
    rcases outcome_of_agreeOn (v := v) (R := R) (b := b) (o := o) agree reads reads' serves with
      ⟨err, done, done'⟩ | ⟨out, out', done, done', same⟩
    · rw [done, done']
      exact .error rfl
    · rw [done, done']
      exact .ok same

namespace Sample

/-- An image that cannot be read. -/
def closed : ImageQueries :=
  let failure : Error := .unavailable "closed"
  ⟨fun _ => .error failure, fun _ => .error failure, fun _ => .error failure,
    fun _ => .error failure, 8⟩

/-- The image with another string at the start of the section, one thunk, and a second section. -/
def otherImage : Image :=
  (((Image.empty.addSection ⟨0x1000, 0x100, "data"⟩).addSection ⟨0x9000, 0x10, "more"⟩).addLocation
    (.ofUnicode 0x1000 "bye")).addFunction 0x1010 (some "puts")

theorem constant_batch {x : Expr} (hx : x ∈ Expr.nodesOf batch) {a : UInt64}
    (ha : x.constant? = some a) : a = 0x1000 ∨ a = 0x1010 := by
  rw [nodesOf_batch] at hx
  simp only [List.mem_cons, List.not_mem_nil, or_false] at hx
  rcases hx with rfl | rfl | rfl | rfl | rfl | rfl <;> cases ha
  · exact .inl rfl
  · exact .inr rfl

theorem agreeOn_otherImage : image.queries.AgreeOn otherImage.queries batch where
  pointerWidth := rfl
  isMapped x hx a ha := by rcases constant_batch hx ha with rfl | rfl <;> decide
  isFunction x hx a ha := by rcases constant_batch hx ha with rfl | rfl <;> decide
  thunkName x hx a ha := by rcases constant_batch hx ha with rfl | rfl <;> decide

theorem readsStrings (i : Image) (o : Options) (es : List Expr) : i.queries.ReadsStrings o es :=
  fun a _ => i.answers.stringLiteral a

end Sample

/-- A run that leaves addresses as they are succeeds over an image that cannot be read, and is the
run over one that can. With addresses made anonymous, one batch shows another string than the other
and has the same content. -/
theorem canonicalize_noninterference_sample :
    (∃ out, (canonicalize { Sample.collaborators with image := Sample.closed } Sample.bindings {}
        Sample.batch).outcome (Supply.startingAt 5) = .ok out) ∧
      (canonicalize Sample.collaborators Sample.bindings {} Sample.batch).start
          (Supply.startingAt 5) =
        (canonicalize { Sample.collaborators with image := Sample.closed } Sample.bindings {}
          Sample.batch).start (Supply.startingAt 5) ∧
      (∃ out out', (canonicalize Sample.collaborators Sample.bindings Sample.options
          Sample.batch).outcome (Supply.startingAt 5) = .ok out ∧
        (canonicalize { Sample.collaborators with image := Sample.otherImage.queries }
          Sample.bindings Sample.options Sample.batch).outcome (Supply.startingAt 5) = .ok out' ∧
        out.trees.map Expr.tree = out'.trees.map Expr.tree ∧ out.report = out'.report) ∧
      SameContent
        ((canonicalize Sample.collaborators Sample.bindings Sample.options Sample.batch).outcome
          (Supply.startingAt 5))
        ((canonicalize { Sample.collaborators with image := Sample.otherImage.queries }
          Sample.bindings Sample.options Sample.odd).outcome Sample.evens) := by
  obtain ⟨off, -⟩ := canonicalize_noninterference Sample.collaborators.evaluator
    Sample.collaborators.registers Sample.image.queries Sample.closed Sample.bindings {}
  obtain ⟨-, on⟩ := canonicalize_noninterference Sample.collaborators.evaluator
    Sample.collaborators.registers Sample.image.queries Sample.otherImage.queries Sample.bindings
    Sample.options
  obtain ⟨one, two⟩ := on Sample.batch Sample.agreeOn_otherImage (Sample.readsStrings _ _ _)
    (Sample.readsStrings _ _ _)
  have runs : ((canonicalize { Sample.collaborators with image := Sample.closed } Sample.bindings {}
      Sample.batch).outcome (Supply.startingAt 5)).toOption.map
        (fun out => out.trees.length) = some 2 := by cbv
  have runs' : ((canonicalize Sample.collaborators Sample.bindings Sample.options
      Sample.batch).outcome (Supply.startingAt 5)).toOption.map
        (fun out => out.trees.length) = some 2 := by cbv
  obtain ⟨out, done, -⟩ := exists_ok_of_map_eq runs
  obtain ⟨out', done', -⟩ := exists_ok_of_map_eq runs'
  refine ⟨⟨out, done⟩, (off rfl).1 _ _ Sample.serves_batch, ?_,
    two (Semantics.indifferent_evaluator {} _) _ _ _ Sample.renumbered_odd
      Sample.serves_batch.avoids Sample.avoids_evens⟩
  rcases one _ Sample.serves_batch with ⟨err, failed, -⟩ | both
  · cases done'.symm.trans failed
  · exact both

end Lifted
