import Mathlib.Data.Finset.Card
import Mathlib.Data.List.SplitBy
import Mathlib.Data.Set.Card

/-!
# Distinct members and groups

* `filter_induction`: the induction of what erases members of the tail.
* `nodup_eraseDups`, `eraseDups_map`, `map_eraseDupsBy`, `length_eraseDups`: the distinct members of
  a list, in order of first appearance.
* `ncard_of_nodup`, `ncard_mem`: how many members there are.
* `lookup_eq_some_iff_mem`: looking up in a list of pairs whose keys are distinct.
* `pairwise_eraseDups_map`, `length_filter_lt`: in a list in order, keys first appear in the order
  of their least values, and the place of a key is the number of keys before it in that order.
* `apart_splitBy`: a list in order, split where the value changes, has no value in two groups.
* `excess_eq`: how many keys share their value with one that was counted before: the number of
  distinct pairs less the number of distinct values.
-/

namespace Lifted

variable {α β γ : Type}

/-! ## Distinct members -/

/-- Induction for functions that go on with what a filter leaves of the tail. -/
theorem filter_induction {motive : List α → Prop} (nil : motive [])
    (cons : ∀ x xs, (∀ p : α → Bool, motive (xs.filter p)) → motive (x :: xs)) (xs : List α) :
    motive xs := by
  induction hn : xs.length using Nat.strong_induction_on generalizing xs with
  | _ n ih =>
  cases xs with
  | nil => exact nil
  | cons x xs =>
    refine cons x xs fun p => ih _ ?_ _ rfl
    have shorter := List.length_filter_le p xs
    rw [← hn, List.length_cons]
    omega

section

variable [BEq β] [LawfulBEq β]

theorem nodup_eraseDups (xs : List β) : xs.eraseDups.Nodup := by
  induction xs using filter_induction with
  | nil => exact List.nodup_nil
  | cons x xs ih =>
    rw [List.eraseDups_cons, List.nodup_cons]
    exact ⟨by simp, ih _⟩

omit [LawfulBEq β] in
/-- The distinct keys are the keys of the members that are distinct by key. -/
theorem map_eraseDupsBy (f : α → β) (xs : List α) :
    (xs.eraseDupsBy fun a b => f a == f b).map f = (xs.map f).eraseDups := by
  induction xs using filter_induction with
  | nil => rfl
  | cons x xs ih =>
    rw [List.eraseDupsBy_cons, List.map_cons, List.map_cons, List.eraseDups_cons, ih,
      List.filter_map]
    congr 3
    refine List.filter_congr fun y _ => ?_
    cases h : f y == f x <;> simp [h]

/-- A renaming that keeps members apart goes before or after. -/
theorem eraseDups_map [BEq α] [LawfulBEq α] {f : α → β} {xs : List α}
    (inj : ∀ x ∈ xs, ∀ y ∈ xs, f x = f y → x = y) : (xs.map f).eraseDups = xs.eraseDups.map f := by
  induction xs using filter_induction with
  | nil => rfl
  | cons x xs ih =>
    have inj' : ∀ y ∈ xs.filter (fun y => !y == x), ∀ z ∈ xs.filter (fun y => !y == x),
        f y = f z → y = z := by
      intro y hy z hz
      exact inj y (List.mem_cons_of_mem _ (List.mem_of_mem_filter hy)) z
        (List.mem_cons_of_mem _ (List.mem_of_mem_filter hz))
    rw [List.map_cons, List.eraseDups_cons, List.eraseDups_cons, List.map_cons, ← ih _ inj',
      List.filter_map]
    congr 3
    refine List.filter_congr fun y hy => ?_
    have same : f y = f x ↔ y = x :=
      ⟨inj y (List.mem_cons_of_mem _ hy) x List.mem_cons_self, congrArg f⟩
    simp [Function.comp, same]

end

theorem length_eraseDups [DecidableEq β] (xs : List β) :
    xs.eraseDups.length = xs.toFinset.card := by
  rw [← List.toFinset_card_of_nodup (nodup_eraseDups xs)]
  congr 1
  ext x
  simp

theorem ncard_of_nodup {xs : List β} (distinct : xs.Nodup) : {x | x ∈ xs}.ncard = xs.length := by
  classical
  have same : {x | x ∈ xs} = ↑xs.toFinset := by
    ext x
    simp
  rw [same, Set.ncard_coe_finset, List.toFinset_card_of_nodup distinct]

theorem ncard_mem [BEq β] [LawfulBEq β] (xs : List β) :
    {x | x ∈ xs}.ncard = xs.eraseDups.length := by
  rw [← ncard_of_nodup (nodup_eraseDups xs)]
  simp only [List.mem_eraseDups]

theorem card_toFinset_map [DecidableEq α] [DecidableEq β] {f : α → β} {xs : List α}
    (inj : ∀ x ∈ xs, ∀ y ∈ xs, f x = f y → x = y) :
    (xs.map f).toFinset.card = xs.toFinset.card := by
  have image : (xs.map f).toFinset = xs.toFinset.image f := by
    ext x
    simp
  rw [image, Finset.card_image_of_injOn]
  intro x hx y hy same
  exact inj x (by simpa using hx) y (by simpa using hy) same

/-- Where keys are distinct, what is looked up is what is there. -/
theorem lookup_eq_some_iff_mem [BEq α] [LawfulBEq α] {xs : List (α × β)}
    (distinct : (xs.map Prod.fst).Nodup) {k : α} {v : β} :
    xs.lookup k = some v ↔ (k, v) ∈ xs := by
  induction xs with
  | nil => simp
  | cons x xs ih =>
    obtain ⟨k', v'⟩ := x
    rw [List.map_cons, List.nodup_cons] at distinct
    rw [List.lookup_cons, List.mem_cons]
    by_cases same : k = k'
    · subst same
      have absent : (k, v) ∉ xs := fun h => distinct.1 (List.mem_map.mpr ⟨(k, v), h, rfl⟩)
      simp [absent, eq_comm]
    · rw [beq_false_of_ne same]
      simp [same, ih distinct.2]

/-! ## Order of first appearance -/

section

variable [LinearOrder γ]

/-- In a list in order, keys first appear in the order of the least values that they have. By
induction on the list: its first member has the least value of its key, and every other key has its
least value among the members of other keys. -/
theorem pairwise_eraseDups_map [BEq β] [LawfulBEq β] {f : α → β} {v : α → γ} {least : β → γ}
    {xs : List α} (sorted : xs.Pairwise fun a b => v a ≤ v b)
    (inj : ∀ a ∈ xs, ∀ b ∈ xs, v a = v b → f a = f b) (lower : ∀ a ∈ xs, least (f a) ≤ v a)
    (attained : ∀ a ∈ xs, ∃ b ∈ xs, f b = f a ∧ v b = least (f a)) :
    (xs.map f).eraseDups.Pairwise fun k k' => least k < least k' := by
  induction xs using filter_induction with
  | nil => exact List.Pairwise.nil
  | cons x xs ih =>
    obtain ⟨first, rest⟩ := List.pairwise_cons.mp sorted
    -- The member where a key other than the first one has its least value comes later.
    have later : ∀ a ∈ xs, f a ≠ f x → ∃ b ∈ xs, f b = f a ∧ v b = least (f a) := by
      intro a ha other
      obtain ⟨b, hb, same, value⟩ := attained a (List.mem_cons_of_mem _ ha)
      rcases List.mem_cons.mp hb with rfl | hb
      · exact absurd same.symm other
      · exact ⟨b, hb, same, value⟩
    have filtered : ((xs.map f).filter fun k => !k == f x) =
        (xs.filter fun a => !f a == f x).map f := by
      rw [List.filter_map]
      rfl
    have mem : ∀ a, a ∈ xs.filter (fun a => !f a == f x) ↔ a ∈ xs ∧ f a ≠ f x := by simp
    rw [List.map_cons, List.eraseDups_cons, filtered, List.pairwise_cons]
    refine ⟨fun k hk => ?_, ih _ (rest.filter _) ?_ ?_ ?_⟩
    · obtain ⟨a, ha, rfl⟩ := List.mem_map.mp (List.mem_eraseDups.mp hk)
      obtain ⟨ha, other⟩ := (mem a).mp ha
      obtain ⟨b, hb, same, value⟩ := later a ha other
      have le : least (f x) ≤ v x := lower x List.mem_cons_self
      refine lt_of_le_of_ne ((le.trans (first b hb)).trans_eq value) fun eq => ?_
      have tie : v x = v b := le_antisymm (first b hb) (value.trans_le (eq.symm.trans_le le))
      exact other (same.symm.trans
        (inj x List.mem_cons_self b (List.mem_cons_of_mem _ hb) tie).symm)
    · intro a ha b hb
      exact inj a (List.mem_cons_of_mem _ ((mem a).mp ha).1) b
        (List.mem_cons_of_mem _ ((mem b).mp hb).1)
    · intro a ha
      exact lower a (List.mem_cons_of_mem _ ((mem a).mp ha).1)
    · intro a ha
      obtain ⟨ha, other⟩ := (mem a).mp ha
      obtain ⟨b, hb, same, value⟩ := later a ha other
      exact ⟨b, (mem b).mpr ⟨hb, same ▸ other⟩, same, value⟩

/-- In a list that ascends, the members before a place are those of smaller values. -/
theorem length_filter_lt {v : β → γ} {xs : List β} (sorted : xs.Pairwise fun a b => v a < v b)
    {i : Nat} {x : β} (hx : xs[i]? = some x) :
    (xs.filter fun a => decide (v a < v x)).length = i := by
  induction xs generalizing i with
  | nil => cases hx
  | cons a as ih =>
    obtain ⟨first, rest⟩ := List.pairwise_cons.mp sorted
    cases i with
    | zero =>
      obtain rfl : a = x := by simpa using hx
      rw [List.filter_cons_of_neg (by simp), List.length_eq_zero_iff, List.filter_eq_nil_iff]
      intro b hb
      simpa using (first b hb).le
    | succ i =>
      have hx : as[i]? = some x := by simpa using hx
      rw [List.filter_cons_of_pos (by simpa using first x (List.mem_of_getElem? hx)),
        List.length_cons, ih rest hx]

end

/-! ## Groups -/

section

variable {v : α → List UInt64} {xs : List α}

/-- All members of a group have one value. -/
theorem const_splitBy {g : List α} (hg : g ∈ xs.splitBy fun a b => v a == v b) :
    ∀ a ∈ g, ∀ b ∈ g, v a = v b := by
  let same (a b : α) : Prop := v a = v b
  have : Trans same same same := ⟨fun h h' => Eq.trans h h'⟩
  have : Std.Symm same := ⟨fun _ _ h => Eq.symm h⟩
  have chain : g.IsChain same := (List.isChain_of_mem_splitBy hg).imp fun _ _ h => eq_of_beq h
  exact (List.isChain_iff_pairwise.mp chain).forall_of_forall fun _ _ => rfl

/-- If the list is in order, no value is in two groups. -/
theorem apart_splitBy (sorted : xs.Pairwise fun a b => ¬v b < v a) :
    (xs.splitBy fun a b => v a == v b).Pairwise fun g g' => ∀ a ∈ g, ∀ b ∈ g', v a ≠ v b := by
  let before (g g' : List α) : Prop := g ≠ [] ∧ g' ≠ [] ∧ ∀ a ∈ g, ∀ b ∈ g', v a < v b
  have trans : ∀ {g g' g'' : List α}, before g g' → before g' g'' → before g g'' := by
    rintro g g' g'' ⟨hg, hg', lt⟩ ⟨-, hg'', lt'⟩
    obtain ⟨b, hb⟩ := List.exists_mem_of_ne_nil g' hg'
    exact ⟨hg, hg'', fun a ha c hc => List.lt_trans (lt a ha b hb) (lt' b hb c hc)⟩
  have : Trans before before before := ⟨trans⟩
  have chain : (xs.splitBy fun a b => v a == v b).IsChain before := by
    have const : ∀ g ∈ xs.splitBy (fun a b => v a == v b), ∀ a ∈ g, ∀ b ∈ g, v a = v b :=
      fun g hg => const_splitBy hg
    have ends := List.isChain_getLast_head_splitBy (fun a b => v a == v b) xs
    rw [← List.flatten_splitBy (fun a b => v a == v b) xs, List.pairwise_flatten] at sorted
    rw [List.isChain_iff_getElem] at ends ⊢
    intro i hi
    obtain ⟨hg, hg', differ⟩ := ends i hi
    refine ⟨hg, hg', fun a ha b hb => ?_⟩
    -- The groups have one value each, and these differ where one group ends and the other begins.
    have differ : v a ≠ v b := by
      rw [const _ (List.getElem_mem _) a ha _ (List.getLast_mem hg),
        const _ (List.getElem_mem _) b hb _ (List.head_mem hg')]
      exact ne_of_beq_false differ
    have notAfter := List.pairwise_iff_getElem.mp sorted.2 i (i + 1) (by omega) hi (by omega) a ha
      b hb
    by_contra notBefore
    exact differ (List.le_antisymm notAfter notBefore)
  refine (List.isChain_iff_pairwise.mp chain).imp fun {g g'} h a ha b hb same => ?_
  have lt := h.2.2 a ha b hb
  rw [same] at lt
  exact List.lt_irrefl (v b) lt

end

section

variable [DecidableEq β] [DecidableEq γ]

theorem foldr_add_append (f : α → Nat) (xs ys : List α) :
    (xs ++ ys).foldr (fun x count => f x + count) 0 =
      xs.foldr (fun x count => f x + count) 0 + ys.foldr (fun x count => f x + count) 0 := by
  induction xs with
  | nil => simp
  | cons x xs ih =>
    simp only [List.cons_append, List.foldr_cons, ih]
    omega

theorem disjoint_toFinset_map {f : α → β} {xs ys : List α}
    (apart : ∀ x ∈ xs, ∀ y ∈ ys, f x ≠ f y) :
    Disjoint (xs.map f).toFinset (ys.map f).toFinset := by
  rw [Finset.disjoint_left]
  intro b left right
  obtain ⟨x, hx, rfl⟩ := List.mem_map.mp (List.mem_toFinset.mp left)
  obtain ⟨y, hy, same⟩ := List.mem_map.mp (List.mem_toFinset.mp right)
  exact apart x hx y hy same.symm

/-- A group with one value has one value and as many pairs as keys. -/
theorem card_toFinset_of_const {v : α → β} {k : α → γ} {g : List α} {a : α} (ha : a ∈ g)
    (const : ∀ b ∈ g, v b = v a) :
    (g.map v).toFinset.card = 1 ∧
      (g.map fun b => (v b, k b)).toFinset.card = (g.map k).toFinset.card := by
  constructor
  · rw [Finset.card_eq_one]
    refine ⟨v a, ?_⟩
    ext b
    simp only [List.mem_toFinset, List.mem_map, Finset.mem_singleton]
    constructor
    · rintro ⟨x, hx, rfl⟩
      exact const x hx
    · rintro rfl
      exact ⟨a, ha, rfl⟩
  · have pairs : (g.map fun b => (v b, k b)) = (g.map k).map (v a, ·) := by
      rw [List.map_map]
      exact List.map_congr_left fun b hb => by simp [const b hb]
    rw [pairs]
    exact card_toFinset_map fun _ _ _ _ same => (Prod.mk.inj same).2

/-- Of the keys that share a value all but one are in excess. In groups by value these add up to
the number of distinct pairs less the number of distinct values. -/
theorem excess_eq {groups : List (List α)} (v : α → β) (k : α → γ) (ne : ∀ g ∈ groups, g ≠ [])
    (const : ∀ g ∈ groups, ∀ a ∈ g, ∀ b ∈ g, v a = v b)
    (apart : groups.Pairwise fun g g' => ∀ a ∈ g, ∀ b ∈ g', v a ≠ v b) :
    groups.foldr (fun g count => (g.map k).toFinset.card - 1 + count) 0 +
        (groups.flatten.map v).toFinset.card =
      (groups.flatten.map fun a => (v a, k a)).toFinset.card := by
  induction groups with
  | nil => rfl
  | cons g gs ih =>
    obtain ⟨first, rest⟩ := List.pairwise_cons.mp apart
    have ih := ih (fun x hx => ne x (List.mem_cons_of_mem _ hx))
      (fun x hx => const x (List.mem_cons_of_mem _ hx)) rest
    obtain ⟨a, ha⟩ := List.exists_mem_of_ne_nil g (ne g List.mem_cons_self)
    obtain ⟨one, pairs⟩ := card_toFinset_of_const (k := k) ha fun b hb =>
      const g List.mem_cons_self b hb a ha
    have keys : 0 < (g.map k).toFinset.card :=
      Finset.card_pos.mpr ⟨k a, by simpa using ⟨a, ha, rfl⟩⟩
    have other : ∀ b ∈ g, ∀ c ∈ gs.flatten, v b ≠ v c := by
      intro b hb c hc
      obtain ⟨g', hg', hc⟩ := List.mem_flatten.mp hc
      exact first g' hg' b hb c hc
    have apartPairs : Disjoint (g.map fun b => (v b, k b)).toFinset
        (gs.flatten.map fun b => (v b, k b)).toFinset :=
      disjoint_toFinset_map fun b hb c hc same => other b hb c hc (Prod.mk.inj same).1
    rw [List.foldr_cons, List.flatten_cons, List.map_append, List.map_append,
      List.toFinset_append, List.toFinset_append,
      Finset.card_union_of_disjoint (disjoint_toFinset_map other),
      Finset.card_union_of_disjoint apartPairs, one, pairs, ← ih]
    omega

end

end Lifted
