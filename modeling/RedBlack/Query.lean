import RedBlack.Fault

namespace RedBlack

/-- A computation that compares keys `κ`: its answer and the comparisons made,
    or the fault that stopped it. A comparison is the pair `(a, b)` for which
    "is `a` less than `b`" was asked. -/
def Query (κ ρ : Type) : Type :=
  Except Fault (ρ × List (κ × κ))

namespace Query

variable {κ ρ υ : Type}

/-- The answer without its comparisons. -/
def answer (q : Query κ ρ) : Except Fault ρ :=
  match q with
  | .ok (value, _) => .ok value
  | .error fault => .error fault

/-- The comparisons made by a question that is answered, in the order they were
    made. They show how much work a search does, and for a comparator that is no
    order, which way it goes. -/
def asked (q : Query κ ρ) : List (κ × κ) :=
  match q with
  | .ok (_, asked) => asked
  | .error _ => []

/-- Asks the comparator one question. -/
def compare (less : κ → κ → Bool) (a b : κ) : Query κ Bool :=
  .ok (less a b, [(a, b)])

/-- Whether neither key is less than the other; the second comparison is made
    only if needed. -/
def equivalent (less : κ → κ → Bool) (a b : κ) : Query κ Bool :=
  if less a b then .ok (false, [(a, b)])
  else .ok (!less b a, [(a, b), (b, a)])

/-- Something known without comparing. -/
def known (x : Except Fault ρ) : Query κ ρ :=
  match x with
  | .ok value => .ok (value, [])
  | .error fault => .error fault

protected def pure (value : ρ) : Query κ ρ :=
  .ok (value, [])

/-- Asks one question after the other. -/
protected def bind (q : Query κ ρ) (next : ρ → Query κ υ) : Query κ υ :=
  match q with
  | .error fault => .error fault
  | .ok (value, asked) =>
    match next value with
    | .error fault => .error fault
    | .ok (result, more) => .ok (result, asked ++ more)

instance : Monad (Query κ) where
  pure := Query.pure
  bind := Query.bind

instance : MonadLift (Except Fault) (Query κ) where
  monadLift := known

theorem bind_eq (q : Query κ ρ) (next : ρ → Query κ υ) : q >>= next = q.bind next :=
  rfl

end Query

end RedBlack
