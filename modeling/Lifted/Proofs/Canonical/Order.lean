import Lifted.Proofs.Canonical.Values
import Lifted.Proofs.Expr.Commute
import Mathlib

/-!
# Other orders

The order of the trees of a batch, the order of the operands of commutative operators, and the
sharing of equal nodes decide in what order placeholders are made, and so how ties are broken.
Without ties they change nothing but the places.

* `Rearranges`: a batch in another order.
* `Rearranges.flatMap_perm`, `Rearranges.forall_iff`: what is found in both batches.
* `ways`: the ways from the roots, as words and keys; `marks_eq`: they tell what names depend on.
* `Unmoved`: what no exchange of operands changes; `marks_perm`: then the marks are the same ones.
* `crowding_eq`, `keysBy_eq`: ties are the same, and without ties so are the names.
* `canonicalize_rearrange`: the two runs.
-/

namespace Lifted

/-- Tree `i` of `es` stands at `place i` in `es'`, with the operands of commutative operators
exchanged where `swap i` says so. Nothing is said of identities. -/
structure Rearranges (place : Nat → Nat) (swap : Nat → List Nat → Bool) (es es' : List Expr) :
    Prop where
  length : es'.length = es.length
  bijective : Set.BijOn place {i | i < es.length} {i | i < es.length}
  tree : ∀ i x y, es[i]? = some x → es'[place i]? = some y → y.tree = (x.commute (swap i)).tree

/-! ## Corresponding trees -/

namespace Rearranges

variable {place : Nat → Nat} {swap : Nat → List Nat → Bool} {es es' : List Expr}

/-- The batch in the other order is related tree by tree. -/
theorem exists_perm (h : Rearranges place swap es es') : ∃ xs : List Expr, xs.Perm es ∧
    List.Forall₂ (fun x y => ∃ swap, y.tree = (x.commute swap).tree) xs es' := by
  let from? (k : Nat) : Nat := Function.invFunOn place {i | i < es.length} k
  have inv := h.bijective.invOn_invFunOn
  have back : Set.BijOn from? {i | i < es.length} {i | i < es.length} := inv.symm.bijOn
    h.bijective.surjOn.mapsTo_invFunOn h.bijective.mapsTo
  -- The places that the trees of the other batch come from are all places, in some order.
  have places : ((List.range es.length).map from?).Perm (List.range es.length) := by
    refine (List.perm_ext_iff_of_nodup ?_ List.nodup_range).mpr fun i => ?_
    · exact List.Nodup.map_on (fun i hi k hk same => back.injOn (List.mem_range.mp hi)
        (List.mem_range.mp hk) same) List.nodup_range
    · rw [List.mem_map, List.mem_range]
      constructor
      · rintro ⟨k, hk, rfl⟩
        exact back.mapsTo (List.mem_range.mp hk)
      · intro hi
        obtain ⟨k, hk, same⟩ := back.surjOn hi
        exact ⟨k, List.mem_range.mpr hk, same⟩
  have all : es = (List.range es.length).map fun i => es.getD i default := by
    refine List.ext_getElem (by simp) fun i hi hi' => ?_
    rw [List.getElem_map, List.getElem_range, List.getD, List.getElem?_eq_getElem hi,
      Option.getD_some]
  refine ⟨((List.range es.length).map from?).map fun i => es.getD i default, ?_, ?_⟩
  · conv_rhs => rw [all]
    exact places.map _
  · refine List.forall₂_iff_get.mpr ⟨by simp [h.length], fun k hk hk' => ?_⟩
    have inside : k < es.length := by rwa [h.length] at hk'
    have low : from? k < es.length := back.mapsTo inside
    refine ⟨swap (from? k), h.tree (from? k) _ _ ?_ ?_⟩
    · simp [low]
    · have same : place (from? k) = k := inv.2 inside
      rw [same]
      simp

/-- What is found in corresponding trees in some order, is found in the batches in some order. -/
theorem flatMap_perm (h : Rearranges place swap es es') {α : Type} {f : Expr → List α}
    (each : ∀ (x y : Expr) swap, y.tree = (x.commute swap).tree → (f y).Perm (f x)) :
    (es'.flatMap f).Perm (es.flatMap f) := by
  obtain ⟨xs, perm, trees⟩ := h.exists_perm
  refine List.Perm.trans ?_ (perm.flatMap_right f)
  clear perm h
  induction trees with
  | nil => exact List.Perm.refl _
  | cons hxy _ ih =>
    obtain ⟨swap, hxy⟩ := hxy
    rw [List.flatMap_cons, List.flatMap_cons]
    exact (each _ _ swap hxy).append ih

theorem forall_iff (h : Rearranges place swap es es') {p : Expr → Prop}
    (each : ∀ (x y : Expr) swap, y.tree = (x.commute swap).tree → (p y ↔ p x)) :
    (∀ y ∈ es', p y) ↔ ∀ x ∈ es, p x := by
  obtain ⟨xs, perm, trees⟩ := h.exists_perm
  refine (forall_mem_congr trees.flip ?_).trans (forall_congr' fun x => by rw [perm.mem_iff])
  rintro y x ⟨swap, hxy⟩
  exact each x y swap hxy

end Rearranges

/-! ## Ways -/

section

variable {κ : Type} (word : Expr → UInt64) (key : Expr → Option κ) (es : List Expr)

/-- The ways from the roots to all nodes, with a word and perhaps a key for each node. -/
def ways : List (List (UInt64 × Option κ)) :=
  es.flatMap fun e => e.positions.map fun p => p.path.map fun x => (word x, key x)

/-- The words on the way to a spot and its key. -/
def wayEnd (way : List (UInt64 × Option κ)) : Option (List UInt64 × κ) :=
  (way.getLast?.bind Prod.snd).map fun k => (way.map Prod.fst, k)

variable {word key es}

theorem marks_eq : marks word key es = (ways word key es).filterMap wayEnd := by
  unfold marks ways spots
  rw [List.map_filterMap, List.filterMap_flatMap, List.filterMap_flatMap]
  refine List.flatMap_congr fun e _ => ?_
  rw [List.filterMap_map]
  refine List.filterMap_congr fun p _ => ?_
  have last : (p.path.map fun x => (word x, key x)).getLast? = some (word p.node, key p.node) := by
    unfold Position.path
    rw [List.map_reverse, List.getLast?_reverse, List.map_cons, List.head?_cons]
  rw [Function.comp, wayEnd, last, Option.bind_some, List.map_map, Option.map_map]
  rfl

/-- What an exchange of operands and the choice of nodes with one content leave as it is. -/
structure Unmoved {α : Type} (f : Expr → α) : Prop where
  congr : ∀ x y : Expr, x.tree = y.tree → f x = f y
  commute : ∀ swap x, f (Expr.commute swap x) = f x

theorem marks_perm {place : Nat → Nat} {swap : Nat → List Nat → Bool} {es' : List Expr}
    (h : Rearranges place swap es es') (words : Unmoved word) (keys : Unmoved key) :
    (marks word key es').Perm (marks word key es) := by
  rw [marks_eq, marks_eq]
  refine List.Perm.filterMap _ (h.flatMap_perm fun x y swap hxy => ?_)
  rw [Expr.positions, Expr.paths_congr (fun x y same => ?_) hxy rfl]
  · refine Expr.paths_commute (fun swap x => ?_) swap x rfl
    rw [words.commute, keys.commute]
  · rw [words.congr x y same, keys.congr x y same]

/-- Without ties the words tell the key. -/
theorem marks_inj [DecidableEq κ] (free : crowding word key es = 0) :
    ∀ m ∈ marks word key es, ∀ m' ∈ marks word key es, m.1 = m'.1 → m = m' := by
  have image : ((marks word key es).map Prod.fst).toFinset =
      (marks word key es).toFinset.image Prod.fst := by
    ext x
    simp
  rw [crowding_eq_marks, image, Nat.sub_eq_zero_iff_le] at free
  have inj := Finset.card_image_iff.mp (Nat.le_antisymm Finset.card_image_le free)
  exact fun m hm m' hm' same => inj (by simpa using hm) (by simpa using hm') same

theorem crowding_eq [DecidableEq κ] {es' : List Expr}
    (perm : (marks word key es').Perm (marks word key es)) :
    crowding word key es' = crowding word key es := by
  rw [crowding_eq_marks, crowding_eq_marks, List.toFinset_eq_of_perm _ _ perm,
    List.toFinset_eq_of_perm _ _ (perm.map Prod.fst)]

/-- Without ties the order of the keys is that of their words. -/
theorem keysBy_eq [DecidableEq κ] {es' : List Expr}
    (perm : (marks word key es').Perm (marks word key es)) (free : crowding word key es = 0) :
    keysBy word key es' = keysBy word key es := by
  let ranked (es : List Expr) : List (List UInt64 × κ) :=
    ((spots key es).mergeSort (spotLe (fun q => q.path.map word) (Expr.nodesOf es))).map
      fun a => (a.1.path.map word, a.2)
  have sorted : ∀ es, (ranked es).Pairwise fun m m' => ¬m'.1 < m.1 := by
    intro es
    exact List.pairwise_map.mpr sorted_spots
  have all : ∀ es, (ranked es).Perm (marks word key es) := by
    intro es
    exact (List.mergeSort_perm _ _).map _
  have inj := marks_inj free
  -- Both lists are in the order of their words, and no two of their marks have the same words.
  have same : ranked es' = ranked es := by
    refine List.Perm.eq_of_pairwise (fun m m' hm hm' h h' => ?_) (sorted es') (sorted es)
      (((all es').trans perm).trans (all es).symm)
    exact inj m (perm.mem_iff.mp ((all es').mem_iff.mp hm)) m' ((all es).mem_iff.mp hm')
      (List.le_antisymm h h')
  have keys : ∀ es, keysBy word key es = (ranked es).map Prod.snd := by
    intro es
    rw [List.map_map]
    rfl
  rw [keys, keys, same]

end

/-! ## What is unmoved -/

section

variable {S : Semantics} {R : Registers} {I : ImageQueries} {o : Options} {b : Bindings}

theorem unmoved_keyOf : Unmoved R.keyOf where
  congr x y same := by rw [Registers.keyOf, Registers.keyOf, Expr.name?_congr same]
  commute swap x := by rw [Registers.keyOf, Registers.keyOf, Expr.name?_commute]

theorem unmoved_addressOf : Unmoved (addressOf I o) where
  congr x y same := by rw [addressOf, addressOf, Expr.constant?_congr same]
  commute swap x := by rw [addressOf, addressOf, Expr.constant?_commute]

theorem tree_mask_congr {x y : Expr} (same : x.tree = y.tree) :
    (mask R I o x).tree = (mask R I o y).tree := by
  unfold mask
  rw [roleBy_congr same]
  cases (roleBy R I o y).placeholder? I o with
  | none => exact same
  | some v => rfl

theorem masked_congr {x y : Expr} (same : x.tree = y.tree) :
    S.masked R I o b x = S.masked R I o b y := by
  have masked := Expr.tree_mapLeaves_of_tree_eq (fun _ _ => tree_mask_congr (R := R) (I := I)
    (o := o)) same
  exact S.value_congr masked rfl fun _ _ => rfl

/-- Whether there is a masked value, and which, an exchange does not change. -/
theorem unmoved_masked : Unmoved fun x => (S.masked R I o b x).toOption where
  congr x y same := congrArg Except.toOption (masked_congr same)
  commute swap x := by
    show S.value? b ((x.commute swap).mapLeaves (mask R I o)) = _
    rw [Expr.commute_mapLeaves fun _ => isLeaf_mask]
    exact S.value?_commute b swap (x.mapLeaves (mask R I o))

theorem unmoved_word : Unmoved (S.word R I o b) where
  congr x y same := congrArg (Option.getD · 0) (unmoved_masked.congr x y same)
  commute swap x := congrArg (Option.getD · 0) (unmoved_masked.commute swap x)

theorem exists_masked_iff {x y : Expr} {swap : List Nat → Bool}
    (h : y.tree = (x.commute swap).tree) :
    (∃ v, S.masked R I o b y = .ok v) ↔ ∃ v, S.masked R I o b x = .ok v := by
  have some : ∀ z, (∃ v, S.masked R I o b z = .ok v) ↔
      ((S.masked R I o b z).toOption).isSome = true := by
    intro z
    cases S.masked R I o b z <;> simp [Except.toOption]
  have same : (S.masked R I o b y).toOption = (S.masked R I o b x).toOption :=
    (unmoved_masked.congr y _ h).trans (unmoved_masked.commute swap x)
  rw [some, some, same]

theorem wellFormed_iff_of_commute {x y : Expr} {swap : List Nat → Bool}
    (h : y.tree = (x.commute swap).tree) : y.WellFormed ↔ x.WellFormed := by
  rw [Expr.wellFormed_congr h, Expr.wellFormed_commute]

theorem tree_leafOfRole_congr (report : Report) {x y : Expr} (same : x.tree = y.tree) :
    (leafOfRole I o report x (roleBy R I o x)).tree =
      (leafOfRole I o report y (roleBy R I o y)).tree := by
  rw [roleBy_congr same]
  cases roleBy R I o y with
  | register | address | thunk => rfl
  | kept => rw [leafOfRole, leafOfRole, Expr.tree_mapIds, Expr.tree_mapIds, same]

end

/-! ## The two runs -/

section

variable {S : Semantics} {R : Registers} {I : ImageQueries} {o : Options} {b : Bindings}
  {s s' : Supply} {place : Nat → Nat} {swap : Nat → List Nat → Bool} {es es' : List Expr}
  {out out' : Canonical}

/-- What stands for a leaf is a matter of the names. -/
theorem leafOfRole_congr {report report' : Report}
    (registers : report'.registerNames = report.registerNames)
    (addresses : report'.addressNames = report.addressNames) (x : Expr) (role : Role) :
    leafOfRole I o report' x role = leafOfRole I o report x role := by
  cases role with
  | register name =>
    unfold leafOfRole Report.registerName
    rw [registers]
  | address a =>
    unfold leafOfRole Report.addressName
    rw [addresses]
  | thunk | kept => rfl

/-- With the same names the outputs are in the other order as well. -/
theorem Rearranges.output (h : Rearranges place swap es es') (T : Substituted R I o es out)
    (T' : Substituted R I o es' out')
    (registers : out'.report.registerNames = out.report.registerNames)
    (addresses : out'.report.addressNames = out.report.addressNames) :
    Rearranges place swap out.trees out'.trees := by
  have length : out.trees.length = es.length := by
    simpa using congrArg List.length T.content
  have length' : out'.trees.length = es'.length := by
    simpa using congrArg List.length T'.content
  refine ⟨by rw [length', length, h.length], by rw [length]; exact h.bijective, ?_⟩
  intro i x y hx hy
  have tx := congrArg (·[i]?) T.content
  have ty := congrArg (·[place i]?) T'.content
  simp only [List.getElem?_map, hx, hy, Option.map_some] at tx ty
  obtain ⟨e, he, tx⟩ := Option.map_eq_some_iff.mp tx.symm
  obtain ⟨e', he', ty⟩ := Option.map_eq_some_iff.mp ty.symm
  have hee := h.tree i e e' he he'
  calc y.tree
      = (e'.mapLeaves fun x => leafOfRole I o out.report x (roleBy R I o x)).tree := by
        rw [← ty, funext fun x => leafOfRole_congr registers addresses x _]
    _ = ((e.commute (swap i)).mapLeaves fun x =>
          leafOfRole I o out.report x (roleBy R I o x)).tree :=
        Expr.tree_mapLeaves_of_tree_eq (fun _ _ => tree_leafOfRole_congr _) hee
    _ = ((e.mapLeaves fun x => leafOfRole I o out.report x (roleBy R I o x)).commute
          (swap i)).tree := by
        rw [Expr.commute_mapLeaves fun _ leaf => isLeaf_leafOfRole leaf _]
    _ = (x.commute (swap i)).tree := Expr.tree_commute_congr tx (swap i)

/-- Order, commutation and sharing independence: the runs on a batch and on the batch in another
order both fail or both succeed, and count the same collisions. Without collisions they give the
same names, the outputs are in the other order too, and corresponding outputs have the same value,
if they have one, under every meaning and all bindings. -/
theorem canonicalize_rearrange (hR : R.Answers) (hI : I.Answers)
    (h : Rearranges place swap es es') (serves : s.Serves es) (serves' : s'.Serves es') :
    ((∃ out, (canonicalize ⟨S.evaluator, R, I⟩ b o es).outcome s = .ok out) ↔
      ∃ out', (canonicalize ⟨S.evaluator, R, I⟩ b o es').outcome s' = .ok out') ∧
    ∀ out out', (canonicalize ⟨S.evaluator, R, I⟩ b o es).outcome s = .ok out →
      (canonicalize ⟨S.evaluator, R, I⟩ b o es').outcome s' = .ok out' →
      out'.report.collisions = out.report.collisions ∧
        (out.report.collisions = 0 →
          out'.report.registerNames = out.report.registerNames ∧
          out'.report.addressNames = out.report.addressNames ∧
          Rearranges place swap out.trees out'.trees ∧
          ∀ i x y, out.trees[i]? = some x → out'.trees[place i]? = some y →
            ∀ (S' : Semantics) (b' : Bindings),
              (S'.solve b' y).toOption = (S'.solve b' x).toOption) := by
  constructor
  · rw [exists_canonical_iff hR hI serves, exists_canonical_iff hR hI serves',
      h.forall_iff fun _ _ _ => wellFormed_iff_of_commute,
      h.forall_iff fun _ _ _ => exists_masked_iff]
  · intro out out' done done'
    have T := substituted_of_ok serves done
    have T' := substituted_of_ok serves' done'
    have registers := marks_perm h (unmoved_word (S := S) (R := R) (I := I) (o := o) (b := b))
      (unmoved_keyOf (R := R))
    have addresses := marks_perm h (unmoved_word (S := S) (R := R) (I := I) (o := o) (b := b))
      (unmoved_addressOf (I := I) (o := o))
    have report := report_eq serves done
    have report' := report_eq serves' done'
    refine ⟨?_, fun free => ?_⟩
    · rw [report, report', reportBy, reportBy, crowding_eq registers, crowding_eq addresses]
    · rw [report] at free
      obtain ⟨freeR, freeA⟩ := Nat.add_eq_zero_iff.mp free
      have names : out'.report.registerNames = out.report.registerNames := by
        rw [report, report', reportBy, reportBy, keysBy_eq registers freeR]
      have names' : out'.report.addressNames = out.report.addressNames := by
        rw [report, report', reportBy, reportBy, keysBy_eq addresses freeA]
      have output := h.output T T' names names'
      refine ⟨names, names', output, fun i x y hx hy S' b' => ?_⟩
      have heldX := Heap.holds_of T.coherent (List.mem_of_getElem? hx)
      have heldY := Heap.holds_of T'.coherent (List.mem_of_getElem? hy)
      rw [S'.solve_eq_value b' heldX, S'.solve_eq_value b' heldY,
        S'.value_congr (output.tree i x y hx hy) rfl fun _ _ => rfl]
      exact S'.value?_commute b' (swap i) x

end

/-! ## The small batch in another order -/

namespace Sample

/-- The trees of the batch the other way round, the operands of the sum exchanged, and nothing
shared. -/
def rearranged : List Expr :=
  [.op 2 .shl [.var 0 "eax" 4 none, .const 1 0x1010 4],
    .op 5 .add [.const 3 0x1000 4, .var 4 "eax" 4 none]]

theorem rearranges_batch : Rearranges (1 - ·) (fun _ _ => true) batch rearranged where
  length := rfl
  bijective := by
    have two : batch.length = 2 := rfl
    rw [two]
    refine ⟨fun i hi => ?_, fun i hi k hk same => ?_, fun i hi => ⟨1 - i, ?_, ?_⟩⟩ <;>
      simp only [Set.mem_ofPred_eq] at * <;> omega
  tree i x y hx hy := by
    match i with
    | 0 =>
      cases hx
      cases hy
      rfl
    | 1 =>
      cases hx
      cases hy
      rfl
    | i + 2 => cases hx

theorem nodesOf_rearranged : Expr.nodesOf rearranged =
    [.op 2 .shl [.var 0 "eax" 4 none, .const 1 0x1010 4], .var 0 "eax" 4 none, .const 1 0x1010 4,
      .op 5 .add [.const 3 0x1000 4, .var 4 "eax" 4 none], .const 3 0x1000 4,
      .var 4 "eax" 4 none] := by
  simp [rearranged, Expr.nodesOf_cons, Expr.nodes_eq, Expr.children]

theorem serves_rearranged : (Supply.startingAt 6).Serves rearranged where
  coherent := by simp [Expr.Coherent, nodesOf_rearranged, Expr.id]
  below := by simp [Expr.Below, nodesOf_rearranged, Expr.id, Supply.next, Supply.startingAt]

end Sample

theorem canonicalize_rearrange_sample : ∃ out out',
    (canonicalize Sample.collaborators Sample.bindings Sample.options Sample.batch).outcome
      (Supply.startingAt 5) = .ok out ∧
    (canonicalize Sample.collaborators Sample.bindings Sample.options Sample.rearranged).outcome
      (Supply.startingAt 6) = .ok out' ∧
    out.report.collisions = 0 ∧ out'.report.collisions = 0 ∧
    out'.report.registerNames = out.report.registerNames ∧
    out'.report.addressNames = out.report.addressNames ∧
    Rearranges (1 - ·) (fun _ _ => true) out.trees out'.trees := by
  have runs : ((canonicalize Sample.collaborators Sample.bindings Sample.options
      Sample.batch).outcome (Supply.startingAt 5)).toOption.map
        (fun out => out.report.collisions) = some 0 := by cbv
  obtain ⟨out, done, free⟩ := exists_ok_of_map_eq runs
  obtain ⟨both, same⟩ := canonicalize_rearrange (RegisterList.answers _) (Image.answers _)
    Sample.rearranges_batch Sample.serves_batch Sample.serves_rearranged
  obtain ⟨out', done'⟩ := both.mp ⟨out, done⟩
  obtain ⟨collisions, names⟩ := same out out' done done'
  obtain ⟨registers, addresses, output, -⟩ := names free
  exact ⟨out, out', done, done', free, collisions.trans free, registers, addresses, output⟩

end Lifted
