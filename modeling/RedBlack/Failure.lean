namespace RedBlack

/-- No slot could be had for a node. Like all errors that are reported to a
    caller it leaves the tree as it was. -/
inductive AllocError where
  | noSlot
  deriving DecidableEq, Repr

namespace AllocError

def message : AllocError → String
  | noSlot => "node allocation failed"

def form : AllocError → String
  | noSlot => "AllocError"

end AllocError

/-- Why an operation that both takes a slot and builds a value failed; `ε` is
    the error of building. -/
inductive Failure (ε : Type) where
  /-- There was no slot, and nothing was built. -/
  | alloc (error : AllocError)
  /-- Building the value failed, and its slot was given back. -/
  | construct (error : ε)
  deriving DecidableEq, Repr

namespace Failure

variable {ε : Type}

def message (wording : ε → String) : Failure ε → String
  | alloc error => error.message
  | construct error => s!"value construction failed: {wording error}"

def form (written : ε → String) : Failure ε → String
  | alloc error => s!"Alloc({error.form})"
  | construct error => s!"Construct({written error})"

def isAlloc : Failure ε → Bool
  | alloc _ => true
  | construct _ => false

end Failure

end RedBlack
