import Lifted.Image
import Mathlib.Data.List.Basic
import Mathlib.Data.List.Induction

/-!
# Looking up a location

An image keeps one location for each start, the one that was recorded last. A look-up asks one of
them alone, the one that starts last at or before the address. So what it finds holds the address,
but it misses a location that another one has overtaken: one that starts later and ends before the
address.

* `Location.Holds`: the addresses of a location, as numbers.
* `Image.Edit`, `Image.ofEdits`: an image that is written down step by step.
* `Image.Recorded`: the locations that are recorded and not replaced; by
  `Image.mem_locations_ofEdits` these are the ones that the image has, by `Image.distinct_ofEdits`
  each with a start of its own.
* `Image.StartsLast`: the one location that a look-up asks.
* `Image.Apart`: no location starts within another one; `Image.apart_iff` makes it decidable.
* `Image.location?_ofEdits`: what a look-up finds, and when it finds nothing.
* `Image.location?_overtaken`: a location that holds the address and is not found.
-/

namespace Lifted

/-- The address is one of the bytes of the location. One of no size has one byte. -/
def Location.Holds (l : Location) (address : UInt64) : Prop :=
  l.start.toNat ≤ address.toNat ∧ address.toNat - l.start.toNat < max l.size.toNat 1

instance (l : Location) : DecidablePred l.Holds := fun _ => inferInstanceAs (Decidable (_ ∧ _))

theorem Location.contains_iff {l : Location} {address : UInt64} :
    l.contains address = true ↔ l.Holds address := by
  unfold Location.contains Location.Holds
  rw [Bool.and_eq_true, decide_eq_true_iff, decide_eq_true_iff, UInt64.le_iff_toNat_le]
  refine and_congr_right fun le => ?_
  rw [UInt64.lt_iff_toNat_lt, UInt64.toNat_sub_of_le _ _ (UInt64.le_iff_toNat_le.mpr le),
    UInt64.toNat_max]
  rfl

/-- A location that holds an address holds all between its start and the address. -/
theorem Location.Holds.of_le {l : Location} {a b : UInt64} (h : l.Holds b) (start : l.start ≤ a)
    (le : a ≤ b) : l.Holds a := by
  rw [UInt64.le_iff_toNat_le] at start le
  unfold Location.Holds at h ⊢
  omega

namespace Image

variable {i : Image} {l m : Location} {address : UInt64}

/-! ## The last start -/

/-- No two locations of the image have one start. -/
def Distinct (i : Image) : Prop :=
  ∀ l ∈ i.locations, ∀ m ∈ i.locations, l.start = m.start → l = m

theorem foldr_later_eq_none_iff {ls : List Location} : ls.foldr later none = none ↔ ls = [] := by
  cases ls with
  | nil => simp
  | cons l ls =>
    rw [List.foldr_cons]
    unfold later
    split
    · split <;> simp
    · simp

/-- The fold ends with a location whose start none exceeds. -/
theorem greatest_of_foldr_later {ls : List Location} (h : ls.foldr later none = some l) :
    l ∈ ls ∧ ∀ m ∈ ls, m.start ≤ l.start := by
  induction ls generalizing l with
  | nil => cases h
  | cons a ls ih =>
    rw [List.foldr_cons] at h
    cases best : ls.foldr later none with
    | none =>
      obtain rfl := foldr_later_eq_none_iff.mp best
      obtain rfl : a = l := by simpa [later] using h
      simp
    | some b =>
      obtain ⟨mem, greatest⟩ := ih best
      rw [best] at h
      simp only [later] at h
      split at h
      case isTrue less =>
        obtain rfl := Option.some.inj h
        exact ⟨List.mem_cons_of_mem _ mem,
          List.forall_mem_cons.mpr ⟨UInt64.le_of_lt less, greatest⟩⟩
      case isFalse notLess =>
        obtain rfl := Option.some.inj h
        have above : b.start ≤ a.start := UInt64.not_lt.mp notLess
        exact ⟨List.mem_cons_self, List.forall_mem_cons.mpr ⟨UInt64.le_refl _, fun m hm =>
          UInt64.le_trans (greatest m hm) above⟩⟩

/-- Where starts are distinct one location starts last, and it is found. -/
theorem lastStart?_eq_some_iff (distinct : i.Distinct) :
    i.lastStart? address = some l ↔ l ∈ i.locations ∧ l.start ≤ address ∧
      ∀ m ∈ i.locations, m.start ≤ address → m.start ≤ l.start := by
  have among : ∀ m, m ∈ i.locations.filter (·.start ≤ address) ↔
      m ∈ i.locations ∧ m.start ≤ address := fun m => by
    rw [List.mem_filter, decide_eq_true_iff]
  unfold lastStart?
  constructor
  · intro h
    obtain ⟨mem, greatest⟩ := greatest_of_foldr_later h
    obtain ⟨mem, before⟩ := (among l).mp mem
    exact ⟨mem, before, fun m hm le => greatest m ((among m).mpr ⟨hm, le⟩)⟩
  · rintro ⟨mem, before, greatest⟩
    cases found : (i.locations.filter (·.start ≤ address)).foldr later none with
    | none =>
      rw [foldr_later_eq_none_iff] at found
      have := (among l).mpr ⟨mem, before⟩
      rw [found] at this
      cases this
    | some k =>
      obtain ⟨hk, above⟩ := greatest_of_foldr_later found
      obtain ⟨hk, le⟩ := (among k).mp hk
      have same := UInt64.le_antisymm (greatest k hk le) (above l ((among l).mpr ⟨mem, before⟩))
      rw [distinct k hk l mem same]

/-! ## Images that are written down -/

/-- One step by which an image is written down. -/
inductive Edit where
  | pointers (bytes : UInt8)
  | mapped (s : Section)
  | function (address : UInt64) (thunk : Option String)
  | string (start : UInt64) (text : String)
  | unicode (start : UInt64) (text : String)
  | location (l : Location)

namespace Edit

/-- The location that an edit records. -/
def location? : Edit → Option Location
  | string start text => some (.ofString start text)
  | unicode start text => some (.ofUnicode start text)
  | location l => some l
  | pointers _ | mapped _ | function .. => none

/-- The image with one edit more. -/
def apply (edit : Edit) (i : Image) : Image :=
  match edit with
  | pointers bytes => { i with pointerWidth := bytes }
  | mapped s => i.addSection s
  | function address thunk => i.addFunction address thunk
  | string start text => i.addLocation (.ofString start text)
  | unicode start text => i.addLocation (.ofUnicode start text)
  | location l => i.addLocation l

end Edit

/-- The image after these edits, the first one made first. -/
def ofEdits (edits : List Edit) : Image := edits.foldl (fun i edit => edit.apply i) empty

/-- The edits record the location, and none of those after it records one with the same start. -/
def Recorded (edits : List Edit) (l : Location) : Prop :=
  ∃ before edit after, edits = before ++ edit :: after ∧ edit.location? = some l ∧
    ∀ later ∈ after, ∀ m, later.location? = some m → m.start ≠ l.start

variable {edits : List Edit} {edit : Edit}

theorem ofEdits_concat (edits : List Edit) (edit : Edit) :
    ofEdits (edits ++ [edit]) = edit.apply (ofEdits edits) := by
  simp [ofEdits]

theorem mem_addLocation :
    l ∈ (i.addLocation m).locations ↔ l = m ∨ l ∈ i.locations ∧ m.start ≠ l.start := by
  simp [addLocation, eq_comm (a := l.start)]

theorem locations_apply_of_none (none : edit.location? = none) (i : Image) :
    (edit.apply i).locations = i.locations := by
  cases edit with
  | pointers | mapped | function => rfl
  | string | unicode | location => cases none

theorem apply_of_some (recorded : edit.location? = some m) (i : Image) :
    edit.apply i = i.addLocation m := by
  cases edit with
  | pointers | mapped | function => cases recorded
  | string | unicode | location => cases recorded; rfl

/-- What an edit does to the locations: it puts in what it records in place of what had its
start. -/
theorem mem_locations_apply : l ∈ (edit.apply i).locations ↔
    edit.location? = some l ∨
      l ∈ i.locations ∧ ∀ m, edit.location? = some m → m.start ≠ l.start := by
  cases recorded : edit.location? with
  | none => simp [locations_apply_of_none recorded]
  | some m => simp [apply_of_some recorded, mem_addLocation, eq_comm (a := l)]

theorem recorded_concat : Recorded (edits ++ [edit]) l ↔
    edit.location? = some l ∨
      Recorded edits l ∧ ∀ m, edit.location? = some m → m.start ≠ l.start := by
  constructor
  · rintro ⟨before, made, after, split, recorded, kept⟩
    rcases List.eq_nil_or_concat' after with rfl | ⟨after, last, rfl⟩
    · obtain ⟨rfl, rfl⟩ : edits = before ∧ edit = made := by simpa using split
      exact .inl recorded
    · have same := split.trans (List.append_assoc before (made :: after) [last]).symm
      obtain ⟨rfl, rfl⟩ : edits = before ++ made :: after ∧ edit = last := by
        simpa using List.append_inj' same rfl
      exact .inr ⟨⟨before, made, after, rfl, recorded, fun later h => kept later (by simp [h])⟩,
        kept edit (by simp)⟩
  · rintro (recorded | ⟨⟨before, made, after, rfl, recorded, kept⟩, free⟩)
    · exact ⟨edits, edit, [], rfl, recorded, by simp⟩
    · refine ⟨before, made, after ++ [edit], by simp, recorded, fun later h => ?_⟩
      rcases List.mem_append.mp h with h | h
      · exact kept later h
      · obtain rfl := List.mem_singleton.mp h
        exact free

/-- By induction on the edits, the last one first. -/
theorem mem_locations_ofEdits : l ∈ (ofEdits edits).locations ↔ Recorded edits l := by
  induction edits using List.reverseRecOn with
  | nil => simp [ofEdits, empty, Recorded]
  | append_singleton edits edit ih =>
    rw [ofEdits_concat, mem_locations_apply, recorded_concat, ih]

theorem Distinct.apply (distinct : i.Distinct) : (edit.apply i).Distinct := by
  intro l hl m hm same
  rcases mem_locations_apply.mp hl with recorded | ⟨hl, free⟩
  · rcases mem_locations_apply.mp hm with recorded' | ⟨-, free'⟩
    · exact Option.some.inj (recorded.symm.trans recorded')
    · exact absurd same (free' l recorded)
  · rcases mem_locations_apply.mp hm with recorded' | ⟨hm, -⟩
    · exact absurd same.symm (free m recorded')
    · exact distinct l hl m hm same

theorem distinct_ofEdits (edits : List Edit) : (ofEdits edits).Distinct := by
  induction edits using List.reverseRecOn with
  | nil => exact fun l hl => by cases hl
  | append_singleton edits edit ih =>
    rw [ofEdits_concat]
    exact ih.apply

/-! ## The look-up -/

/-- Of the locations that start at or before the address, `l` starts last. -/
def StartsLast (edits : List Edit) (address : UInt64) (l : Location) : Prop :=
  Recorded edits l ∧ l.start ≤ address ∧
    ∀ m, Recorded edits m → m.start ≤ address → m.start ≤ l.start

theorem Recorded.eq (hl : Recorded edits l) (hm : Recorded edits m) (same : l.start = m.start) :
    l = m :=
  distinct_ofEdits edits l (mem_locations_ofEdits.mpr hl) m (mem_locations_ofEdits.mpr hm) same

instance (edits : List Edit) : DecidablePred (Recorded edits) :=
  fun _ => decidable_of_iff _ mem_locations_ofEdits

theorem lastStart?_ofEdits :
    (ofEdits edits).lastStart? address = some l ↔ StartsLast edits address l := by
  simp only [lastStart?_eq_some_iff (distinct_ofEdits edits), mem_locations_ofEdits, StartsLast]

/-- Where some location starts at or before the address, one of them starts last. -/
theorem exists_startsLast (recorded : Recorded edits l) (before : l.start ≤ address) :
    ∃ m, StartsLast edits address m := by
  cases last : (ofEdits edits).lastStart? address with
  | some m => exact ⟨m, lastStart?_ofEdits.mp last⟩
  | none =>
    have mem : l ∈ (ofEdits edits).locations.filter (·.start ≤ address) :=
      List.mem_filter.mpr ⟨mem_locations_ofEdits.mpr recorded, decide_eq_true before⟩
    rw [foldr_later_eq_none_iff.mp last] at mem
    cases mem

theorem StartsLast.eq (hl : StartsLast edits address l) (hm : StartsLast edits address m) :
    l = m :=
  Option.some.inj ((lastStart?_ofEdits.mpr hl).symm.trans (lastStart?_ofEdits.mpr hm))

theorem location?_eq_some_iff : (ofEdits edits).location? address = some l ↔
    StartsLast edits address l ∧ l.Holds address := by
  rw [location?, Option.filter_eq_some_iff, lastStart?_ofEdits, Location.contains_iff]

/-- The location that starts last at or before the address ends before it. -/
def Overtaken (edits : List Edit) (address : UInt64) : Prop :=
  ∃ m, StartsLast edits address m ∧ ¬m.Holds address

/-- No location starts within another one. -/
def Apart (edits : List Edit) : Prop :=
  ∀ l m, Recorded edits l → Recorded edits m → l.start < m.start → ¬l.Holds m.start

theorem isSome_location?_iff : ((ofEdits edits).location? address).isSome = true ↔
    (∃ l, Recorded edits l ∧ l.Holds address) ∧ ¬Overtaken edits address := by
  rw [Option.isSome_iff_exists]
  simp only [location?_eq_some_iff]
  constructor
  · rintro ⟨l, last, holds⟩
    exact ⟨⟨l, last.1, holds⟩, fun ⟨m, last', ends⟩ => ends (last.eq last' ▸ holds)⟩
  · rintro ⟨⟨l, recorded, holds⟩, reached⟩
    obtain ⟨m, last⟩ := exists_startsLast recorded (UInt64.le_iff_toNat_le.mpr holds.1)
    exact ⟨m, last, not_not.mp fun ends => reached ⟨m, last, ends⟩⟩

theorem apart_iff : Apart edits ↔ ∀ l ∈ (ofEdits edits).locations,
    ∀ m ∈ (ofEdits edits).locations, l.start < m.start → ¬l.Holds m.start := by
  simp only [mem_locations_ofEdits]
  exact ⟨fun apart l hl m hm => apart l m hl hm, fun apart l m hl hm => apart l hl m hm⟩

instance : DecidablePred Apart := fun _ => decidable_of_iff _ apart_iff.symm

/-- A location that holds an address is overtaken only by one that starts within it. -/
theorem Apart.not_overtaken (apart : Apart edits) (recorded : Recorded edits l)
    (holds : l.Holds address) : ¬Overtaken edits address := by
  rintro ⟨m, last, ends⟩
  have le : l.start ≤ m.start := last.2.2 l recorded (UInt64.le_iff_toNat_le.mpr holds.1)
  rcases UInt64.lt_or_eq_of_le le with less | same
  · exact apart l m recorded last.1 less (holds.of_le le last.2.1)
  · exact ends (recorded.eq last.1 same ▸ holds)

/-- A look-up finds nothing but a recorded location that holds the address, the one of them that
starts last. It finds one if some recorded location holds the address, unless that one is overtaken
by another one, as none is where no location starts within another. -/
theorem location?_ofEdits (edits : List Edit) (address : UInt64) :
    (∀ l, (ofEdits edits).location? address = some l ↔
      StartsLast edits address l ∧ l.Holds address) ∧
    (((ofEdits edits).location? address).isSome = true ↔
      (∃ l, Recorded edits l ∧ l.Holds address) ∧ ¬Overtaken edits address) ∧
    (Apart edits → (((ofEdits edits).location? address).isSome = true ↔
      ∃ l, Recorded edits l ∧ l.Holds address)) := by
  refine ⟨fun l => location?_eq_some_iff, isSome_location?_iff, fun apart => ?_⟩
  rw [isSome_location?_iff, and_iff_left_iff_imp]
  rintro ⟨l, recorded, holds⟩
  exact apart.not_overtaken recorded holds

/-- Four bytes right behind sixteen. -/
def adjacent : List Edit :=
  [.location ⟨0x1000, 16, .number, none⟩, .location ⟨0x1010, 4, .pointer, none⟩]

/-- The sixteen bytes are found at each of theirs, here at the eleventh. -/
theorem location?_adjacent :
    Apart adjacent ∧ ((ofEdits adjacent).location? 0x100a).isSome = true := by
  have apart : Apart adjacent := by decide
  have holding : ∃ l, Recorded adjacent l ∧ l.Holds 0x100a :=
    ⟨⟨0x1000, 16, .number, none⟩, by decide, by decide⟩
  exact ⟨apart, ((location?_ofEdits adjacent 0x100a).2.2 apart).mpr holding⟩

/-- Four bytes within sixteen, recorded after them. -/
def nested : List Edit :=
  [.location ⟨0x1000, 16, .number, none⟩, .location ⟨0x1004, 4, .pointer, none⟩]

/-- Behind the four bytes the sixteen are not found. -/
theorem location?_overtaken :
    (∃ l, Recorded nested l ∧ l.Holds 0x100a) ∧ (ofEdits nested).location? 0x100a = none := by
  refine ⟨⟨⟨0x1000, 16, .number, none⟩, ?_, by decide⟩, by decide⟩
  refine ⟨[], _, [_], rfl, rfl, fun later h m recorded => ?_⟩
  obtain rfl := List.mem_singleton.mp h
  obtain rfl := Option.some.inj recorded
  decide

end Image
end Lifted
