/-!
# Node identities

Every node of an expression carries an identity, by which a node that stands below several
parents is one node. New nodes take theirs from a supply.

* `Supply`: a strictly increasing sequence of identities and how many of it are used up. Gaps are
  allowed, so several computations can draw from one counter in turns.
* `fresh`: the next identity, in any monad that holds a supply.
-/

namespace Lifted

/-- The identity of a node. -/
abbrev NodeId := Nat

/-- The identities that nodes still to be made will get. -/
structure Supply where
  /-- The identity issued at each turn. -/
  issue : Nat → NodeId
  /-- The number of turns taken. -/
  issued : Nat
  increasing : ∀ i j, i < j → issue i < issue j

namespace Supply

/-- The identities from `start` upward without a gap. -/
def startingAt (start : NodeId) : Supply := ⟨(start + ·), 0, fun _ _ h => Nat.add_lt_add_left h _⟩

instance : Inhabited Supply := ⟨startingAt 0⟩

/-- The identity that is issued next. -/
def next (s : Supply) : NodeId := s.issue s.issued

/-- The supply after one more turn. -/
def advance (s : Supply) : Supply := { s with issued := s.issued + 1 }

theorem next_lt_next_advance (s : Supply) : s.next < s.advance.next :=
  s.increasing _ _ (Nat.lt_succ_self _)

end Supply

/-- Takes the next identity of the supply. -/
def fresh {m : Type → Type} [Monad m] [MonadStateOf Supply m] : m NodeId :=
  modifyGet fun s => (s.next, s.advance)

end Lifted
