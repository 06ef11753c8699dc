import RedBlack.Query

namespace RedBlack

inductive Note where
  /-- A tree with items was torn down as a whole. -/
  | tearingDown (nodes : Nat)
  /-- A copy of a tree failed, and what was copied has been released. -/
  | copyReleased (nodes : Nat)
  deriving DecidableEq, Repr

namespace Note

def level : Note → String
  | tearingDown _ => "TRACE"
  | copyReleased _ => "DEBUG"

def text : Note → String
  | tearingDown nodes => s!"tearing down red-black tree of {nodes} nodes"
  | copyReleased nodes => s!"clone of {nodes} nodes failed; partial copy released"

end Note

/-- What an operation came to. It leaves a state behind whether it ends in an
    answer or in a fault, so that what a fault leaves of a tree can be told;
    beside it stand the comparisons made and the notes written to the log. -/
structure Outcome (σ κ ρ : Type) where
  /-- The state afterwards. -/
  state : σ
  answer : Except Fault ρ
  /-- The comparisons made, the first one first. -/
  asked : List (κ × κ) := []
  /-- The notes written, the first one first. -/
  notes : List Note := []

/-- An operation on a state `σ` that compares keys `κ`. -/
def Action (σ κ ρ : Type) : Type :=
  σ → Outcome σ κ ρ

namespace Action

variable {σ τ κ ρ υ : Type}

def run (a : Action σ κ ρ) (s : σ) : Outcome σ κ ρ :=
  a s

protected def pure (value : ρ) : Action σ κ ρ :=
  fun s => { state := s, answer := .ok value }

/-- Runs one operation after the other; a fault in the first one ends both. -/
protected def bind (a : Action σ κ ρ) (next : ρ → Action σ κ υ) : Action σ κ υ := fun s =>
  let first := a s
  match first.answer with
  | .error fault => { state := first.state, answer := .error fault, asked := first.asked, notes := first.notes }
  | .ok value =>
    let second := next value first.state
    { state := second.state
      answer := second.answer
      asked := first.asked ++ second.asked
      notes := first.notes ++ second.notes }

instance : Monad (Action σ κ) where
  pure := Action.pure
  bind := Action.bind

/-- Asks the present state a question. -/
def ask (question : σ → Query κ ρ) : Action σ κ ρ := fun s =>
  match question s with
  | .ok (value, asked) => { state := s, answer := .ok value, asked }
  | .error fault => { state := s, answer := .error fault }

/-- Looks at the present state without comparing. -/
def look (view : σ → Except Fault ρ) : Action σ κ ρ := fun s =>
  { state := s, answer := view s }

/-- Changes the state as a whole. A change that stops with a fault leaves the
    state as it was before. -/
def step (change : σ → Except Fault (ρ × σ)) : Action σ κ ρ := fun s =>
  match change s with
  | .ok (value, after) => { state := after, answer := .ok value }
  | .error fault => { state := s, answer := .error fault }

def fail (fault : Fault) : Action σ κ ρ := fun s =>
  { state := s, answer := .error fault }

/-- Writes a note to the log. -/
def note (note : Note) : Action σ κ Unit := fun s =>
  { state := s, answer := .ok (), notes := [note] }

/-- Runs an operation on the part of the state that `part` shows and `put`
    replaces, so that an operation on a tree is one on whatever holds the
    tree. -/
def within (part : σ → τ) (put : τ → σ → σ) (a : Action τ κ ρ) : Action σ κ ρ := fun s =>
  let inner := a (part s)
  { state := put inner.state s, answer := inner.answer, asked := inner.asked, notes := inner.notes }

end Action

end RedBlack
