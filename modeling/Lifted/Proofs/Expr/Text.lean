import Lifted.Expr.Text
import Lifted.Proofs.Expr.Alike
import Lifted.Proofs.Expr.Validation
import Lifted.Proofs.Text.Hex

/-!
# The text of an expression is unambiguous

What an expression begins with says what it is: a sign, a parenthesis, or a word, and of a word what
stands behind it and whether it is marked as hexadecimal. The end of an expression can be told
likewise, so a text is the text of one tree only, apart from the widths of its leaves.

* `append_stop_inj`: a word ends where the characters of words do.
* `Operator.symbol_injective`: the symbols between two operands are told apart.
* `Expr.Plain`, `Expr.Legible`: trees without labels whose names are words that are not marked as
  hexadecimal, and those of them that are well-formed.
* `Expr.Shape`, `Expr.Shape.read`, `Expr.shape_read`: what the front of a text shows of the root.
* `Expr.Readable`: a text ends where only one tree ends; by `Expr.readable` all legible ones do.
* `Expr.text_congr`: widths and identities do not show.
* `Expr.text_unambiguous`: trees of one text are alike up to the widths of constants and variables.
-/

namespace Lifted

/-! ## Cutting words off -/

theorem takeWhile_append_stop {p : Char → Bool} {xs rest : List Char} (all : ∀ c ∈ xs, p c = true)
    (stop : ∀ c, rest.head? = some c → p c = false) :
    (xs ++ rest).takeWhile p = xs ∧ (xs ++ rest).dropWhile p = rest := by
  rw [List.takeWhile_append_of_pos all, List.dropWhile_append_of_pos all]
  cases rest with
  | nil => simp
  | cons c rest => simp [stop c rfl]

/-- Where words end is decided, so words can be cut off. -/
theorem append_stop_inj {p : Char → Bool} {xs ys r r' : List Char} (hx : ∀ c ∈ xs, p c = true)
    (hy : ∀ c ∈ ys, p c = true) (hr : ∀ c, r.head? = some c → p c = false)
    (hr' : ∀ c, r'.head? = some c → p c = false) (same : xs ++ r = ys ++ r') :
    xs = ys ∧ r = r' := by
  obtain ⟨taken, dropped⟩ := takeWhile_append_stop hx hr
  obtain ⟨taken', dropped'⟩ := takeWhile_append_stop hy hr'
  exact ⟨by rw [← taken, same, taken'], by rw [← dropped, same, dropped']⟩

/-! ## Operators -/

namespace Operator

theorem arity_eq (kind : Operator) : kind.arity = if kind.isUnary then 1 else 2 := by
  cases kind <;> rfl

/-- A sign is read as the operator of one operand or of two by its place, so only the symbols
between operands have to differ. -/
theorem symbol_injective {kind kind' : Operator} (binary : kind.isUnary = false)
    (binary' : kind'.isUnary = false) (same : kind.symbol = kind'.symbol) : kind = kind' := by
  cases kind <;> cases kind' <;> first | rfl | contradiction

theorem symbol_append_inj {kind kind' : Operator} {rest rest' : List Char}
    (same : kind.symbol.toList ++ ' ' :: rest = kind'.symbol.toList ++ ' ' :: rest') :
    kind.symbol = kind'.symbol ∧ rest = rest' := by
  have visible : ∀ (k : Operator), ∀ c ∈ k.symbol.toList, (c != ' ') = true := by
    intro k
    cases k <;> simp [symbol]
  obtain ⟨symbols, rest⟩ := append_stop_inj (visible kind) (visible kind') (by simp) (by simp) same
  exact ⟨String.toList_inj.mp symbols, (List.cons.inj rest).2⟩

end Operator

namespace Expr

/-! ## Words -/

/-- A character that names and numbers are made of. -/
def isWord (c : Char) : Bool := c.isAlphanum || c == '_' || c == '.'

/-- The characters go on neither with a word nor with the bracket of a memory read. -/
def Stops (rest : List Char) : Prop := ∀ c, rest.head? = some c → isWord c = false ∧ c ≠ '['

theorem Stops.word {rest : List Char} (stop : Stops rest) (c : Char) (hc : rest.head? = some c) :
    isWord c = false :=
  (stop c hc).1

theorem stops_cons {c : Char} (hc : isWord c = false ∧ c ≠ '[') (rest : List Char) :
    Stops (c :: rest) := by
  intro d hd
  rw [List.head?_cons, Option.some.injEq] at hd
  rwa [← hd]

/-- What marks a word as hexadecimal. -/
def mark : List Char := ['0', 'x']

/-- A name that cannot be taken for anything else. -/
structure PlainName (name : String) : Prop where
  nonempty : name ≠ ""
  word : ∀ c ∈ name.toList, isWord c = true
  unmarked : ¬mark <+: name.toList

/-- No variable of the tree has a label. -/
def Unlabelled (e : Expr) : Prop := ∀ x ∈ e.nodes, x.label? = none

theorem Unlabelled.child {e c : Expr} (h : e.Unlabelled) (hc : c ∈ e.children) : c.Unlabelled :=
  fun x hx => h x (mem_nodes_of_child hc hx)

/-- A tree without labels that has plain names. -/
structure Plain (e : Expr) : Prop where
  unlabelled : e.Unlabelled
  named : ∀ name, e.Names name → PlainName name

/-- A well-formed tree that is plain. -/
structure Legible (e : Expr) : Prop extends Plain e where
  wellFormed : e.WellFormed

theorem Legible.child {e c : Expr} (h : e.Legible) (hc : c ∈ e.children) : c.Legible where
  unlabelled := h.unlabelled.child hc
  named name hn := h.named name (hn.child hc)
  wellFormed := (wellFormed_iff.mp h.wellFormed).2 c hc

theorem legible_of_validate {e : Expr} (sound : Coherent [e]) (valid : e.validate = .ok ())
    (plain : e.Plain) : e.Legible where
  toPlain := plain
  wellFormed := (validate_ok_iff (Heap.holds_of sound List.mem_cons_self)).mp valid

/-! ## Texts of nodes -/

theorem text_const (id : NodeId) (value : UInt64) (bytes : UInt8) :
    (const id value bytes).text = Hex.literal value := by rw [text]

theorem text_var (id : NodeId) (name : String) (bytes : UInt8) :
    (var id name bytes none).text = name := by rw [text, Option.getD_none]

theorem toList_text_mem (id : NodeId) (address size : Expr) (rest : List Char) :
    (mem id address size).text.toList ++ rest =
      "mem".toList ++ '[' :: (address.text.toList ++ ':' :: (size.text.toList ++ ']' :: rest)) := by
  simp [text]

theorem toList_text_unary (id : NodeId) (kind : Operator) (x : Expr) (rest : List Char) :
    (op id kind [x]).text.toList ++ rest = kind.symbol.toList ++ (x.text.toList ++ rest) := by
  simp [text, texts]

theorem toList_text_binary (id : NodeId) (kind : Operator) (x y : Expr) (rest : List Char) :
    (op id kind [x, y]).text.toList ++ rest = '(' :: (x.text.toList ++ ' ' ::
      (kind.symbol.toList ++ ' ' :: (y.text.toList ++ ')' :: rest))) := by
  simp [text, texts]

/-! ## What the front of a text shows -/

/-- What a tree is at its root. An operation shows its operator in front, or else is enclosed. -/
inductive Shape where
  | constant | variable | cell
  | operation (sign : Option Operator)

/-- The shape of a tree. -/
def shape : Expr → Shape
  | .const .. => .constant
  | .var .. => .variable
  | .mem .. => .cell
  | .op _ kind _ => .operation (if kind.isUnary then some kind else none)

/-- The shape that the front of a text shows: a sign and a parenthesis by themselves, and a word by
what stands behind it and by its mark. -/
def Shape.read (cs : List Char) : Shape :=
  if cs.head? = some '-' then .operation (some .neg)
  else if cs.head? = some '~' then .operation (some .not)
  else if cs.head? = some '(' then .operation none
  else if (cs.dropWhile isWord).head? = some '[' then .cell
  else if mark <+: cs.takeWhile isWord then .constant
  else .variable

theorem Shape.read_word {word rest : List Char} (nonempty : word ≠ [])
    (all : ∀ c ∈ word, isWord c = true) (stop : ∀ c, rest.head? = some c → isWord c = false) :
    Shape.read (word ++ rest) =
      if rest.head? = some '[' then .cell else if mark <+: word then .constant else .variable := by
  obtain ⟨taken, dropped⟩ := takeWhile_append_stop all stop
  obtain ⟨c, cs, rfl⟩ := List.exists_cons_of_ne_nil nonempty
  have first : isWord c = true := all c List.mem_cons_self
  have other : ∀ d, isWord d = false → (c :: cs ++ rest).head? ≠ some d := by
    rintro d hd same
    rw [List.cons_append, List.head?_cons, Option.some.injEq] at same
    rw [same, hd] at first
    cases first
  rw [Shape.read, if_neg (other '-' (by decide)), if_neg (other '~' (by decide)),
    if_neg (other '(' (by decide)), dropped, taken]

theorem Legible.operands {id : NodeId} {kind : Operator} {operands : List Expr}
    (legible : (op id kind operands).Legible) : (kind.isUnary = true ∧ ∃ x, operands = [x]) ∨
      (kind.isUnary = false ∧ ∃ x y, operands = [x, y]) := by
  have count : operands.length = kind.arity := by
    simpa [fault] using (wellFormed_iff.mp legible.wellFormed).1
  rw [Operator.arity_eq] at count
  cases unary : kind.isUnary with
  | true => exact .inl ⟨rfl, List.length_eq_one_iff.mp (by simpa [unary] using count)⟩
  | false => exact .inr ⟨rfl, List.length_eq_two.mp (by simpa [unary] using count)⟩

theorem isWord_of_mem_literal (value : UInt64) :
    ∀ c ∈ (Hex.literal value).toList, isWord c = true := by
  intro c hc
  rw [Hex.toList_literal, List.mem_cons, List.mem_cons] at hc
  rcases hc with rfl | rfl | hc
  · decide
  · decide
  · simp [isWord, Hex.isAlphanum_of_mem_digits hc]

/-- What a legible text begins with shows the shape of its tree. -/
theorem shape_read {e : Expr} {rest : List Char} (legible : e.Legible) (stop : Stops rest) :
    Shape.read (e.text.toList ++ rest) = e.shape := by
  have behind : rest.head? ≠ some '[' := fun h => (stop _ h).2 rfl
  cases e with
  | const id value bytes =>
    have marked : mark <+: (Hex.literal value).toList :=
      ⟨Hex.digits value.toNat, (Hex.toList_literal value).symm⟩
    have nonempty : (Hex.literal value).toList ≠ [] := by simp [Hex.toList_literal]
    rw [text_const, Shape.read_word nonempty (isWord_of_mem_literal value) stop.word,
      if_neg behind, if_pos marked]
    rfl
  | var id name bytes label =>
    obtain rfl : label = none := legible.unlabelled _ (self_mem_nodes _)
    have plain := legible.named name ⟨_, self_mem_nodes _, rfl⟩
    rw [text_var, Shape.read_word (by simpa using plain.nonempty) plain.word stop.word,
      if_neg behind, if_neg plain.unmarked]
    rfl
  | mem id address size =>
    -- The word could be the name of a variable; the bracket behind it tells.
    rw [toList_text_mem, Shape.read_word (by simp) (by simp [isWord]) (by simp [isWord]),
      List.head?_cons, if_pos rfl]
    rfl
  | op id kind operands =>
    rcases legible.operands with ⟨unary, x, rfl⟩ | ⟨binary, x, y, rfl⟩
    · -- A sign in front is that of a negation, since a difference is enclosed.
      rw [toList_text_unary, shape, if_pos unary]
      cases kind <;> first | rfl | cases unary
    · rw [toList_text_binary, shape, if_neg (by simp [binary])]
      rfl

theorem shape_congr {a b : Expr} {rest rest' : List Char} (ha : a.Legible) (hb : b.Legible)
    (stop : Stops rest) (stop' : Stops rest')
    (same : a.text.toList ++ rest = b.text.toList ++ rest') : a.shape = b.shape := by
  rw [← shape_read ha stop, same, shape_read hb stop']

/-! ## Reading a text back -/

/-- The leaves show the same: two constants of one value, or two variables of one name. Widths do
not show. -/
def SameLeaf (x y : Expr) : Prop := x.constant? = y.constant? ∧ x.name? = y.name?

/-- Where the text of `a` stands in front of other characters it is seen to end, and it shows no
other tree than `a`. -/
def Readable (a : Expr) : Prop :=
  ∀ ⦃b : Expr⦄ ⦃rest rest' : List Char⦄, a.Legible → b.Legible → Stops rest → Stops rest' →
    a.text.toList ++ rest = b.text.toList ++ rest' → Alike SameLeaf a b ∧ rest = rest'

theorem readable_const (id : NodeId) (value : UInt64) (bytes : UInt8) :
    (const id value bytes).Readable := by
  intro b rest rest' ha hb stop stop' same
  have shapes := shape_congr ha hb stop stop' same
  cases b with
  | var | mem | op => cases shapes
  | const id' value' bytes' =>
    rw [text_const, text_const] at same
    obtain ⟨literals, behind⟩ := append_stop_inj (isWord_of_mem_literal value)
      (isWord_of_mem_literal value') stop.word stop'.word same
    obtain rfl := Hex.literal_injective (String.toList_inj.mp literals)
    exact ⟨.leaf rfl rfl ⟨rfl, rfl⟩, behind⟩

theorem readable_var (id : NodeId) (name : String) (bytes : UInt8) (label : Option String) :
    (var id name bytes label).Readable := by
  intro b rest rest' ha hb stop stop' same
  have shapes := shape_congr ha hb stop stop' same
  cases b with
  | const | mem | op => cases shapes
  | var id' name' bytes' label' =>
    obtain rfl : label = none := ha.unlabelled _ (self_mem_nodes _)
    obtain rfl : label' = none := hb.unlabelled _ (self_mem_nodes _)
    have plain := ha.named name ⟨_, self_mem_nodes _, rfl⟩
    have plain' := hb.named name' ⟨_, self_mem_nodes _, rfl⟩
    rw [text_var, text_var] at same
    obtain ⟨names, behind⟩ := append_stop_inj plain.word plain'.word stop.word stop'.word same
    obtain rfl := String.toList_inj.mp names
    exact ⟨.leaf rfl rfl ⟨rfl, rfl⟩, behind⟩

theorem Readable.mem (id : NodeId) {address size : Expr} (readAddress : address.Readable)
    (readSize : size.Readable) : (mem id address size).Readable := by
  intro b rest rest' ha hb stop stop' same
  have shapes := shape_congr ha hb stop stop' same
  cases b with
  | const | var | op => cases shapes
  | mem id' address' size' =>
    rw [toList_text_mem, toList_text_mem, List.append_cancel_left_eq, List.cons.injEq] at same
    obtain ⟨alike, between⟩ := readAddress (ha.child (by simp [children]))
      (hb.child (by simp [children])) (stops_cons (by decide) _) (stops_cons (by decide) _) same.2
    obtain ⟨alike', behind⟩ := readSize (ha.child (by simp [children]))
      (hb.child (by simp [children])) (stops_cons (by decide) _) (stops_cons (by decide) _)
      (List.cons.inj between).2
    exact ⟨.mem id id' alike alike', (List.cons.inj behind).2⟩

theorem Readable.unary (id : NodeId) {kind : Operator} {x : Expr} (unary : kind.isUnary = true)
    (read : x.Readable) : (op id kind [x]).Readable := by
  intro b rest rest' ha hb stop stop' same
  have shapes := shape_congr ha hb stop stop' same
  cases b with
  | const | var | mem => cases shapes
  | op id' kind' operands' =>
    injection shapes with signs
    rcases hb.operands with ⟨unary', x', rfl⟩ | ⟨binary', x', y', rfl⟩
    · obtain rfl : kind = kind' := by simpa [unary, unary'] using signs
      rw [toList_text_unary, toList_text_unary] at same
      obtain ⟨alike, behind⟩ := read (ha.child List.mem_cons_self) (hb.child List.mem_cons_self)
        stop stop' (List.append_cancel_left same)
      exact ⟨.op id id' kind (.cons alike .nil), behind⟩
    · simp [unary, binary'] at signs

theorem Readable.binary (id : NodeId) {kind : Operator} {x y : Expr} (binary : kind.isUnary = false)
    (readLeft : x.Readable) (readRight : y.Readable) : (op id kind [x, y]).Readable := by
  intro b rest rest' ha hb stop stop' same
  have shapes := shape_congr ha hb stop stop' same
  cases b with
  | const | var | mem => cases shapes
  | op id' kind' operands' =>
    injection shapes with signs
    rcases hb.operands with ⟨unary', x', rfl⟩ | ⟨binary', x', y', rfl⟩
    · simp [binary, unary'] at signs
    · rw [toList_text_binary, toList_text_binary] at same
      obtain ⟨left, between⟩ := readLeft (ha.child (by simp [children]))
        (hb.child (by simp [children])) (stops_cons (by decide) _) (stops_cons (by decide) _)
        (List.cons.inj same).2
      -- Symbols are cut off at the blank, so none is taken for the end of another one.
      obtain ⟨symbols, after⟩ := Operator.symbol_append_inj (List.cons.inj between).2
      obtain rfl := Operator.symbol_injective binary binary' symbols
      obtain ⟨right, behind⟩ := readRight (ha.child (by simp [children]))
        (hb.child (by simp [children])) (stops_cons (by decide) _) (stops_cons (by decide) _) after
      exact ⟨.op id id' kind (.cons left (.cons right .nil)), (List.cons.inj behind).2⟩

/-- By induction on the tree. That an operator has the number of operands it needs is what makes its
text one of the two forms. -/
theorem readable {a : Expr} (ha : a.Legible) : a.Readable := by
  induction a with
  | const id value bytes => exact readable_const id value bytes
  | var id name bytes label => exact readable_var id name bytes label
  | mem id address size ihAddress ihSize =>
    exact Readable.mem id (ihAddress (ha.child (by simp [children])))
      (ihSize (ha.child (by simp [children])))
  | op id kind operands ih =>
    rcases ha.operands with ⟨unary, x, rfl⟩ | ⟨binary, x, y, rfl⟩
    · exact Readable.unary id unary (ih x (by simp) (ha.child (by simp [children])))
    · exact Readable.binary id binary (ih x (by simp) (ha.child (by simp [children])))
        (ih y (by simp) (ha.child (by simp [children])))

/-- Trees that are alike up to widths have one text, unless labels show. -/
theorem text_congr {a b : Expr} (ha : a.Unlabelled) (hb : b.Unlabelled)
    (alike : Alike SameLeaf a b) : a.text = b.text := by
  induction a generalizing b with
  | const | var =>
    cases alike with
    | leaf _ leaf h =>
      have label := ha _ (self_mem_nodes _)
      have label' := hb _ (self_mem_nodes _)
      cases b <;> simp_all [SameLeaf, constant?, name?, label?, text, isLeaf]
  | mem id address size ihAddress ihSize =>
    cases alike with
    | leaf leaf => cases leaf
    | @mem _ id' _ address' _ size' alike alike' =>
      have sameAddress : address.text = address'.text :=
        ihAddress (ha.child (by simp [children])) (hb.child (by simp [children])) alike
      have sameSize : size.text = size'.text :=
        ihSize (ha.child (by simp [children])) (hb.child (by simp [children])) alike'
      rw [text, text, sameAddress, sameSize]
  | op id kind operands ih =>
    cases alike with
    | leaf leaf => cases leaf
    | @op _ id' _ _ operands' alike =>
      have each : List.Forall₂ (fun x y => x.text = y.text) operands operands' := by
        refine (forall₂_mem alike).imp fun x y hxy => ?_
        obtain ⟨hx, hy, h⟩ := hxy
        exact ih x hx (ha.child hx) (hb.child hy) h
      have shown : operands.map text = operands'.map text := map_eq_map_iff.mpr each
      rw [text, text, texts_eq_map, texts_eq_map, shown]

/-- Among trees that validation accepts, without labels and with names that are plain words, a text
is the text of one tree up to the widths of constants and variables. -/
theorem text_unambiguous {a b : Expr} (sound : Coherent [a]) (sound' : Coherent [b])
    (valid : a.validate = .ok ()) (valid' : b.validate = .ok ()) (plain : a.Plain)
    (plain' : b.Plain) : a.text = b.text ↔ Alike SameLeaf a b := by
  constructor
  · intro same
    have stop : Stops [] := fun _ h => by cases h
    have legible := legible_of_validate sound valid plain
    exact (readable legible legible (legible_of_validate sound' valid' plain') stop stop
      (by rw [same])).1
  · exact text_congr plain.unlabelled plain'.unlabelled

end Expr

namespace Sample

/-- A negation below a difference, a variable called like a memory read, and a name that begins with
a digit. -/
def signs (word : UInt8) (first : NodeId) : Expr :=
  .op first .sub
    [.op (first + 1) .neg
      [.mem (first + 2) (.var (first + 3) "mem" word none) (.const (first + 4) 4 1)],
      .op (first + 5) .sar [.var (first + 6) "0indreg" word none, .const (first + 7) 10 word]]

theorem coherent_signs (word : UInt8) (first : NodeId) : Expr.Coherent [signs word first] := by
  simp [Expr.Coherent, signs, Expr.nodesOf_cons, Expr.nodes_eq, Expr.children, Expr.id]

theorem plain_signs (word : UInt8) (first : NodeId) : (signs word first).Plain where
  unlabelled := by
    simp [Expr.Unlabelled, signs, Expr.nodes_eq, Expr.children, Expr.label?]
  named := by
    rintro name ⟨x, hx, hn⟩
    have named : name = "mem" ∨ name = "0indreg" := by
      simp only [signs, Expr.nodes_eq, Expr.children, List.flatMap_cons, List.flatMap_nil,
        List.cons_append, List.nil_append, List.append_nil, List.mem_cons, List.not_mem_nil,
        or_false] at hx
      rcases hx with rfl | rfl | rfl | rfl | rfl | rfl | rfl | rfl <;> simp_all [Expr.name?]
    rcases named with rfl | rfl <;> constructor <;> simp [Expr.isWord, Expr.mark]

theorem validate_signs {word : UInt8} (legal : ¬(word = 0 ∨ 8 < word)) (first : NodeId) :
    (signs word first).validate = .ok () := by
  have held := Heap.holds_of (coherent_signs word first) List.mem_cons_self
  refine (Expr.validate_ok_iff held).mpr ?_
  simp [Expr.WellFormed, signs, Expr.nodes_eq, Expr.children, Expr.fault, Operator.arity, legal]

end Sample

theorem Expr.text_unambiguous_sample :
    (Sample.signs 4 0).text = "(-mem[mem:0x4] - (0indreg s>> 0xa))" ∧
      Expr.Alike Expr.SameLeaf (Sample.signs 4 0) (Sample.signs 8 10) := by
  refine ⟨by decide +kernel, ?_⟩
  exact (Expr.text_unambiguous (Sample.coherent_signs 4 0) (Sample.coherent_signs 8 10)
    (Sample.validate_signs (by decide) 0) (Sample.validate_signs (by decide) 10)
    (Sample.plain_signs 4 0) (Sample.plain_signs 8 10)).mp rfl

end Lifted
