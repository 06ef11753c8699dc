import RedBlack.Tree.Replica

namespace RedBlack

structure Forest {α κ : Type} (key : α → κ) where
  trees : Array (Tree key)
  /-- The identity of the next tree. -/
  nextTag : UInt64

namespace Forest

variable {α κ ε ρ : Type} {key : α → κ}

def empty (key : α → κ) : Forest key where
  trees := #[]
  nextTag := 1

def tree (i : Nat) : Action (Forest key) κ (Tree key) :=
  .look fun f =>
    match f.trees[i]? with
    | some t => .ok t
    | none => .error (.outOfBounds f.trees.size i)

def put (i : Nat) (t : Tree key) : Action (Forest key) κ Unit :=
  .step fun f => .ok ((), { f with trees := f.trees.setIfInBounds i t })

/-- Runs an operation on the tree at a place. -/
def onTree (i : Nat) (op : Tree.Op key ρ) : Action (Forest key) κ ρ := do
  let t ← tree i
  op.within (fun _ => t) fun t f => { f with trees := f.trees.setIfInBounds i t }

/-- An identity that no tree has had. It goes with the content of its tree when
    trees are exchanged, and every position belongs to one identity. -/
def freshTag : Action (Forest key) κ UInt64 :=
  .step fun f => .ok (f.nextTag, { f with nextTag := f.nextTag + 1 })

/-- A new tree without items. -/
def sprout (less : κ → κ → Bool) (store : Store α) : Action (Forest key) κ (Tree key) := do
  return .empty key less store (← freshTag)

/-- Adds a new tree behind the others. -/
def plant (less : κ → κ → Bool) (store : Store α) : Action (Forest key) κ Unit := do
  let t ← sprout less store
  .step fun f => .ok ((), { f with trees := f.trees.push t })

/-- Puts a tree in the place of another one, whose slots are then released;
    gives the store of that. -/
def replace (i : Nat) (t : Tree key) : Action (Forest key) κ (Store α) := do
  let old ← tree i
  put i t
  .look fun _ => old.dispose

/-- Puts a new tree in the place of another one and gives that one. -/
def uproot (i : Nat) (less : κ → κ → Bool) (store : Store α) : Action (Forest key) κ (Tree key) := do
  let t ← sprout less store
  let old ← tree i
  put i t
  return old

/-- Puts a new tree in the place of another one and gives the store of that. -/
def renew (i : Nat) (less : κ → κ → Bool) (store : Store α) : Action (Forest key) κ (Store α) := do
  replace i (← sprout less store)

/-- Exchanges two trees, with their content and their identities. -/
def swap (i j : Nat) : Action (Forest key) κ Unit := do
  let t ← tree i
  let u ← tree j
  put i u
  put j t

/-- Copies the tree at a place into a store. -/
def copyWith (make : Nat → α → Except ε α) (i : Nat) (store : Store α) :
    Action (Forest key) κ (Replica key ε) := do
  let t ← tree i
  let tag ← freshTag
  let replica ← .look fun _ => t.copyWith make store tag
  replica.notes.forM .note
  return replica

/-- Puts a copy of one tree in the place of another one, and gives the store of
    that. -/
def clone (i j : Nat) (store : Store α) : Action (Forest key) κ (Store α) := do
  let t ← tree i
  let tag ← freshTag
  let copy ← .look fun _ => t.clone store tag
  replace j copy

end Forest

end RedBlack
