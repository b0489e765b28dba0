import Lifted.Error
import Mathlib.Data.List.Forall2

/-!
# Lists of results

* `map_eq_of_map_eq`: what follows from `f` has the same values on lists that `f` does not tell
  apart; `mapM_eq_of_map_eq` is the same for computations that may fail.
* `map_eq_map_iff`: two maps have one list of values if they have the same value at each place.
* `find?_of_distinct`: members are found by keys that are distinct.
* `idxOf_map`, `idxOf_congr`: a map that keeps a member apart keeps its place, and members that
  stand at the same places have the same first place.
* `mapM_ok_iff`: a list of results is a result for each member; `exists_mapM_ok_iff`: there is one
  if each member has one.
* `forall₂_filterMap`, `forall₂_mergeSort`: related lists stay related when they are filtered or
  sorted alike; `exists_of_rel_some`, `eq_none_of_rel`: what is related to a result that may be
  missing.
* `forM_error_iff`: a traversal fails at the first member that fails.
* `ok_of_bind`, `ok_of_map`, `error_of_bind`: what a result says of the steps that led to it.
-/

namespace Lifted

variable {α β γ : Type}

theorem map_eq_of_map_eq {f : α → β} {g g' : α → γ} {xs ys : List α} (same : xs.map f = ys.map f)
    (h : ∀ x ∈ xs, ∀ y, f x = f y → g x = g' y) : xs.map g = ys.map g' := by
  induction xs generalizing ys with
  | nil =>
    cases ys with
    | nil => rfl
    | cons y ys => cases same
  | cons x xs ih =>
    cases ys with
    | nil => cases same
    | cons y ys =>
      obtain ⟨hxy, same⟩ := List.cons.inj same
      rw [List.map_cons, List.map_cons, h x List.mem_cons_self y hxy,
        ih same fun z hz => h z (List.mem_cons_of_mem _ hz)]

theorem map_eq_map_iff {f : α → γ} {g : β → γ} {xs : List α} {ys : List β} :
    xs.map f = ys.map g ↔ List.Forall₂ (fun x y => f x = g y) xs ys := by
  rw [← List.forall₂_eq_eq_eq, List.forall₂_map_left_iff, List.forall₂_map_right_iff]

theorem idxOf_map [BEq α] [LawfulBEq α] [BEq β] [LawfulBEq β] {f : α → β} {xs : List α} {a : α}
    (inj : ∀ x ∈ xs, f x = f a → x = a) : (xs.map f).idxOf (f a) = xs.idxOf a := by
  induction xs with
  | nil => rfl
  | cons x xs ih =>
    have ih := ih fun y hy => inj y (List.mem_cons_of_mem _ hy)
    by_cases h : x = a
    · subst h
      rw [List.map_cons, List.idxOf_cons_self, List.idxOf_cons_self]
    · have h' : f x ≠ f a := fun same => h (inj x List.mem_cons_self same)
      rw [List.map_cons, List.idxOf_cons_ne _ h', List.idxOf_cons_ne _ h, ih]

/-- Members that are found in the same places of two lists. -/
theorem idxOf_congr [BEq α] [LawfulBEq α] [BEq β] [LawfulBEq β] {xs : List α} {ys : List β} {a : α}
    {b : β} (h : List.Forall₂ (fun x y => x = a ↔ y = b) xs ys) : xs.idxOf a = ys.idxOf b := by
  induction h with
  | nil => rfl
  | @cons x y _ _ here _ ih =>
    by_cases same : x = a
    · rw [same, here.mp same, List.idxOf_cons_self, List.idxOf_cons_self]
    · rw [List.idxOf_cons_ne _ same, List.idxOf_cons_ne _ fun h => same (here.mpr h), ih]

section

variable {κ : Type} [BEq κ] [LawfulBEq κ] {f : α → κ} {xs : List α} {k : κ}

/-- What is found by its key is there and has the key. -/
theorem of_find?_eq_some {a : α} (h : xs.find? (fun x => f x == k) = some a) :
    a ∈ xs ∧ f a = k :=
  ⟨List.mem_of_find?_eq_some h, by simpa using List.find?_some h⟩

theorem find?_of_absent (absent : ∀ x ∈ xs, f x ≠ k) : xs.find? (fun x => f x == k) = none := by
  rw [List.find?_eq_none]
  intro x hx
  simpa using absent x hx

/-- Where keys are distinct every member is found by its key. -/
theorem find?_of_distinct (distinct : xs.Pairwise fun x y => f x ≠ f y) {a : α} (ha : a ∈ xs) :
    xs.find? (fun x => f x == f a) = some a := by
  induction xs with
  | nil => cases ha
  | cons x xs ih =>
    obtain ⟨first, rest⟩ := List.pairwise_cons.mp distinct
    rcases List.mem_cons.mp ha with rfl | ha
    · simp
    · rw [List.find?_cons_of_neg (by simpa using first a ha), ih rest ha]

end

/-- A sequence succeeds with its first part and with what follows. -/
theorem ok_of_bind {x : Except Error α} {f : α → Except Error β} {b : β}
    (h : (x >>= f) = .ok b) : ∃ a, x = .ok a ∧ f a = .ok b := by
  cases x with
  | error e => cases h
  | ok a => exact ⟨a, rfl, h⟩

theorem ok_of_map {f : α → β} {x : Except Error α} {b : β} (h : x.map f = .ok b) :
    ∃ a, x = .ok a ∧ f a = b := by
  cases x with
  | error e => cases h
  | ok a => exact ⟨a, rfl, Except.ok.inj h⟩

/-- A sequence fails with its first part, or with what follows. -/
theorem error_of_bind {x : Except Error α} {f : α → Except Error β} {err : Error}
    (h : (x >>= f) = .error err) : x = .error err ∨ ∃ a, x = .ok a ∧ f a = .error err := by
  cases x with
  | error e => exact .inl (congrArg Except.error (Except.error.inj h))
  | ok a => exact .inr ⟨a, rfl, h⟩

theorem mapM_eq_of_map_eq {f : α → β} {g g' : α → Except Error γ} {xs ys : List α}
    (same : xs.map f = ys.map f) (h : ∀ x ∈ xs, ∀ y, f x = f y → g x = g' y) :
    xs.mapM g = ys.mapM g' := by
  have := congrArg (List.mapM fun r : Except Error γ => r) (map_eq_of_map_eq same h)
  rwa [List.mapM_map, List.mapM_map] at this

theorem mapM_ok_iff {f : α → Except Error β} {xs : List α} {ys : List β} :
    xs.mapM f = .ok ys ↔ List.Forall₂ (fun x y => f x = .ok y) xs ys := by
  induction xs generalizing ys with
  | nil =>
    constructor
    · rintro ⟨⟩
      exact .nil
    · rintro ⟨⟩
      rfl
  | cons x xs ih =>
    rw [List.mapM_cons]
    constructor
    · intro h
      obtain ⟨y, hx, h⟩ := ok_of_bind h
      obtain ⟨ys', hxs, h⟩ := ok_of_bind h
      cases h
      exact .cons hx (ih.mp hxs)
    · rintro (_ | ⟨hx, rest⟩)
      simp only [hx, ih.mpr rest]
      rfl

/-- Related lists have a partner for each member. -/
theorem exists_mem_of_forall₂ {R : α → β → Prop} {xs : List α} {ys : List β}
    (h : List.Forall₂ R xs ys) {x : α} (hx : x ∈ xs) : ∃ y ∈ ys, R x y := by
  induction h with
  | nil => cases hx
  | cons r _ ih =>
    rcases List.mem_cons.mp hx with rfl | hx
    · exact ⟨_, List.mem_cons_self, r⟩
    · obtain ⟨y, hy, r⟩ := ih hx
      exact ⟨y, List.mem_cons_of_mem _ hy, r⟩

/-- What holds of all members of a list holds of all members of a related list. -/
theorem forall_mem_congr {R : α → β → Prop} {p : α → Prop} {q : β → Prop} {xs : List α}
    {ys : List β} (h : List.Forall₂ R xs ys) (each : ∀ x y, R x y → (p x ↔ q y)) :
    (∀ x ∈ xs, p x) ↔ ∀ y ∈ ys, q y := by
  induction h with
  | nil => simp
  | cons r _ ih => rw [List.forall_mem_cons, List.forall_mem_cons, each _ _ r, ih]

theorem forall₂_mem {R : α → β → Prop} {xs : List α} {ys : List β} (h : List.Forall₂ R xs ys) :
    List.Forall₂ (fun x y => x ∈ xs ∧ y ∈ ys ∧ R x y) xs ys := by
  induction h with
  | nil => exact .nil
  | cons r _ ih =>
    refine .cons ⟨List.mem_cons_self, List.mem_cons_self, r⟩ (ih.imp fun x y h => ?_)
    exact ⟨List.mem_cons_of_mem _ h.1, List.mem_cons_of_mem _ h.2.1, h.2.2⟩

theorem forall₂_comp {R : α → β → Prop} {S : β → γ → Prop} {xs : List α} {ys : List β}
    {zs : List γ} (h : List.Forall₂ R xs ys) (h' : List.Forall₂ S ys zs) :
    List.Forall₂ (fun x z => ∃ y, R x y ∧ S y z) xs zs := by
  induction h generalizing zs with
  | nil =>
    cases h'
    exact .nil
  | cons r _ ih =>
    obtain _ | ⟨s, rest⟩ := h'
    exact .cons ⟨_, r, s⟩ (ih rest)

theorem exists_of_rel_some {R : α → β → Prop} {a : α} {b? : Option β}
    (h : Option.Rel R (some a) b?) : ∃ b, b? = some b ∧ R a b := by
  cases h with
  | some h => exact ⟨_, rfl, h⟩

theorem eq_none_of_rel {R : α → β → Prop} {b? : Option β} (h : Option.Rel R none b?) :
    b? = none := by
  cases h
  rfl

/-- Related lists stay related where members are left out, if partners are left out together. -/
theorem forall₂_filterMap {δ : Type} {R : α → β → Prop} {S : γ → δ → Prop} {f : α → Option γ}
    {g : β → Option δ} {xs : List α} {ys : List β} (h : List.Forall₂ R xs ys)
    (each : ∀ x y, R x y → Option.Rel S (f x) (g y)) :
    List.Forall₂ S (xs.filterMap f) (ys.filterMap g) := by
  induction h with
  | nil => exact .nil
  | @cons x y _ _ r _ ih =>
    have rel := each x y r
    rw [List.filterMap_cons, List.filterMap_cons]
    generalize f x = a at rel
    generalize g y = b at rel
    cases rel with
    | none => exact ih
    | some s => exact .cons s ih

/-- Related lists stay related when they are sorted, if the orders agree on partners. -/
theorem forall₂_mergeSort {R : α → β → Prop} {le : α → α → Bool} {le' : β → β → Bool} {xs : List α}
    {ys : List β} (h : List.Forall₂ R xs ys)
    (each : ∀ x y x' y', R x y → R x' y' → le x x' = le' y y') :
    List.Forall₂ R (xs.mergeSort le) (ys.mergeSort le') := by
  obtain ⟨len, partners⟩ := List.forall₂_iff_zip.mp h
  -- Partners go together while they are sorted.
  let pairs := (xs.zip ys).mergeSort fun z z' => le z.1 z'.1
  have mem : ∀ {z}, z ∈ pairs → z ∈ xs.zip ys := (List.mergeSort_perm _ _).mem_iff.mp
  have left : pairs.map Prod.fst = xs.mergeSort le := by
    rw [List.map_mergeSort (s := le) fun _ _ _ _ => rfl, List.map_fst_zip (Nat.le_of_eq len)]
  have right : pairs.map Prod.snd = ys.mergeSort le' := by
    rw [List.map_mergeSort (s := le') fun z hz z' hz' => each _ _ _ _ (partners hz) (partners hz'),
      List.map_snd_zip (Nat.le_of_eq len.symm)]
  rw [← left, ← right, List.forall₂_map_left_iff, List.forall₂_map_right_iff, List.forall₂_same]
  exact fun z hz => partners (mem hz)

theorem length_of_mapM_ok {f : α → Except Error β} {xs : List α} {ys : List β}
    (h : xs.mapM f = .ok ys) : ys.length = xs.length :=
  (mapM_ok_iff.mp h).length_eq.symm

theorem exists_mapM_ok_iff {f : α → Except Error β} {xs : List α} :
    (∃ ys, xs.mapM f = .ok ys) ↔ ∀ x ∈ xs, ∃ y, f x = .ok y := by
  constructor
  · rintro ⟨ys, h⟩ x hx
    obtain ⟨y, -, hy⟩ := exists_mem_of_forall₂ (mapM_ok_iff.mp h) hx
    exact ⟨y, hy⟩
  · intro each
    induction xs with
    | nil => exact ⟨[], rfl⟩
    | cons x xs ih =>
      obtain ⟨y, hy⟩ := each x List.mem_cons_self
      obtain ⟨ys, hys⟩ := ih fun z hz => each z (List.mem_cons_of_mem _ hz)
      exact ⟨y :: ys, mapM_ok_iff.mpr (.cons hy (mapM_ok_iff.mp hys))⟩

theorem forM_ok_iff {f : α → Except Error PUnit} {xs : List α} :
    xs.forM f = .ok () ↔ ∀ x ∈ xs, f x = .ok () := by
  induction xs with
  | nil => simp [List.forM, pure, Except.pure]
  | cons x xs ih =>
    rw [List.forM, List.forall_mem_cons, ← ih]
    cases hx : f x with
    | error e =>
      constructor
      · rintro ⟨⟩
      · rintro ⟨⟨⟩, -⟩
    | ok u => exact ⟨fun h => ⟨rfl, h⟩, fun h => h.2⟩

theorem forM_congr {f g : α → Except Error PUnit} {xs : List α} (h : ∀ x ∈ xs, f x = g x) :
    xs.forM f = xs.forM g := by
  induction xs with
  | nil => rfl
  | cons x xs ih =>
    obtain ⟨first, rest⟩ := List.forall_mem_cons.mp h
    rw [List.forM, List.forM, first, ih rest]

theorem forM_append {f : α → Except Error PUnit} {xs ys : List α} :
    (xs ++ ys).forM f = xs.forM f >>= fun _ => ys.forM f := List.forM_append

/-- A traversal fails with the failure of a member if all members before it succeed. -/
theorem forM_error_iff {f : α → Except Error PUnit} {xs : List α} {err : Error} :
    xs.forM f = .error err ↔ ∃ before x after, xs = before ++ x :: after ∧
      (∀ y ∈ before, f y = .ok ()) ∧ f x = .error err := by
  induction xs with
  | nil =>
    constructor
    · rintro ⟨⟩
    · rintro ⟨before, x, after, h, -⟩
      simp at h
  | cons a xs ih =>
    rw [List.forM]
    constructor
    · intro h
      rcases error_of_bind h with ha | ⟨⟨⟩, ha, h⟩
      · exact ⟨[], a, xs, rfl, by simp, ha⟩
      · obtain ⟨before, x, after, rfl, earlier, hx⟩ := ih.mp h
        exact ⟨a :: before, x, after, rfl, List.forall_mem_cons.mpr ⟨ha, earlier⟩, hx⟩
    · rintro ⟨before, x, after, split, earlier, hx⟩
      cases before with
      | nil =>
        obtain ⟨rfl, -⟩ := List.cons.inj split
        rw [hx]
        rfl
      | cons y before =>
        obtain ⟨rfl, rfl⟩ := List.cons.inj split
        obtain ⟨here, earlier⟩ := List.forall_mem_cons.mp earlier
        rw [here]
        exact ih.mpr ⟨before, x, after, rfl, earlier, hx⟩

/-- What is left of a list of results without them. -/
theorem discard_mapM {f : α → Except Error β} {xs : List α} :
    discard (xs.mapM f) = xs.forM fun x => discard (f x) := by
  induction xs with
  | nil => rfl
  | cons x xs ih =>
    rw [List.mapM_cons, List.forM, ← ih]
    cases f x with
    | error e => rfl
    | ok y => cases xs.mapM f <;> rfl

/-- Two traversals that do the same at each place, where the second may leave places out. -/
theorem forM_filterMap_eq {R : α → β → Prop} {f : α → Except Error PUnit} {key : β → Option γ}
    {g : γ → Except Error PUnit} {xs : List α} {ys : List β} (h : List.Forall₂ R xs ys)
    (each : ∀ x y, R x y → f x = (key y).elim (.ok ()) g) :
    xs.forM f = (ys.filterMap key).forM g := by
  induction h with
  | nil => rfl
  | @cons x y _ _ r _ ih =>
    rw [List.forM, each x y r, List.filterMap_cons, ih]
    cases key y <;> rfl

theorem exists_ok_of_map_eq {f : α → β} {x : Except Error α} {b : β}
    (h : x.toOption.map f = some b) : ∃ a, x = .ok a ∧ f a = b := by
  cases x with
  | error e => cases h
  | ok a => exact ⟨a, rfl, Option.some.inj h⟩

theorem discard_ok_iff {x : Except Error α} : discard x = .ok () ↔ ∃ a, x = .ok a := by
  cases x with
  | error e =>
    constructor
    · rintro ⟨⟩
    · rintro ⟨a, ⟨⟩⟩
  | ok a => exact ⟨fun _ => ⟨a, rfl⟩, fun _ => rfl⟩

theorem discard_error_iff {x : Except Error α} {err : Error} :
    discard x = .error err ↔ x = .error err := by
  cases x with
  | error e =>
    constructor <;>
      · rintro ⟨⟩
        rfl
  | ok a => constructor <;> rintro ⟨⟩

end Lifted
