import RedBlack.Tree.Removal

namespace RedBlack

/-- What a copy has used so far. -/
structure Copying (α : Type) where
  store : Store α
  /-- The items given to the copying function, the last one first. -/
  given : List α

/-- The part of a copy that was made, what stopped it if it is not whole, and
    what it used. -/
structure Partial (ε α : Type) where
  shape : Shape
  failure : Option (Failure ε) := none
  state : Copying α

namespace Shape

variable {α ε : Type}

/-- Copies the item in a slot into a new slot; where building fails the new slot
    is given back. The copying function is told how often it was called
    before. -/
def copyItem (source : Store α) (copy : Nat → α → Except ε α) (slot : Slot) (s : Copying α) :
    Except Fault (Except (Failure ε) Slot × Copying α) := do
  match ← s.store.allocate with
  | (.error error, store) => return (.error (.alloc error), { s with store })
  | (.ok fresh, store) =>
    let item ← source.read slot
    let given := item :: s.given
    match copy s.given.length item with
    | .ok item =>
      return (.ok fresh, { store := ← store.construct fresh item, given })
    | .error error =>
      let (_, store) ← store.deallocate fresh
      return (.error (.construct error), { store, given })

/-- Copies a subtree, in the order node, right subtree, left subtree. A right
    subtree that fails is released at once; what was copied of a node and its
    left subtree stays in the partial copy, for the caller to release. -/
def copy (source : Store α) (make : Nat → α → Except ε α) :
    Shape → Copying α → Except Fault (Partial ε α)
  | nil, s => return { shape := nil, state := s }
  | node color left slot right, s => do
    match ← copyItem source make slot s with
    | (.error failure, s) => return { shape := nil, failure := some failure, state := s }
    | (.ok fresh, s) =>
      let r ← right.copy source make s
      match r.failure with
      | some failure =>
        let store ← r.shape.releaseAll r.state.store
        return {
          shape := node color nil fresh nil
          failure := some failure
          state := { r.state with store } }
      | none =>
        let l ← left.copy source make r.state
        return { shape := node color l.shape fresh r.shape, failure := l.failure, state := l.state }

end Shape

/-- What copying a tree came to. -/
structure Replica {α κ : Type} (key : α → κ) (ε : Type) where
  /-- The copy, or why there is none together with the store it was to use. -/
  result : Except (Failure ε × Store α) (Tree key)
  /-- The items given to the copying function, the first one first. -/
  given : List α
  notes : List Note := []

namespace Tree

variable {α κ ε : Type} {key : α → κ}

/-- Copies a tree into a store; `make` builds each item from the one it is to
    equal, and is told how often it was called before. The copy has the shape
    and the colours of its source. Where a slot or an item cannot be had,
    everything copied so far is released and the copy fails. -/
def copyWith (make : Nat → α → Except ε α) (store : Store α) (tag : UInt64) (t : Tree key) :
    Except Fault (Replica key ε) := do
  let copied ← t.shape.copy t.store make { store, given := [] }
  let given := copied.state.given.reverse
  match copied.failure with
  | some failure =>
    let store ← copied.shape.releaseAll copied.state.store
    return { result := .error (failure, store), given, notes := [.copyReleased t.size] }
  | none =>
    let tree : Tree key :=
      { shape := copied.shape
        leftmost := copied.shape.extreme .left
        rightmost := copied.shape.extreme .right
        size := t.size
        less := t.less
        store := copied.state.store
        tag }
    return { result := .ok tree, given }

/-- Copies a tree into a store, each item as it is. -/
def copyInto (store : Store α) (tag : UInt64) (t : Tree key) : Except Fault (Replica key Empty) :=
  t.copyWith (fun _ item => .ok item) store tag

/-- Copies a tree where running out of slots cannot be reported. -/
def clone (store : Store α) (tag : UInt64) (t : Tree key) : Except Fault (Tree key) := do
  match (← t.copyInto store tag).result with
  | .ok copy => return copy
  | .error _ => .error .allocationFailed

end Tree

end RedBlack
