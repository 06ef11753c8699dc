import RedBlack.Tree.Replica
import RedBlack.Tree.View

namespace RedBlack

structure SortedSet (κ : Type) where
  tree : Tree (id : κ → κ)

namespace SortedSet

variable {κ ρ : Type}

/-- A set without items. Its positions never leave it, so its tree needs no
    identity of its own. -/
def empty (less : κ → κ → Bool) : SortedSet κ where
  tree := .empty id less (.arena .empty) 0

abbrev Op (κ ρ : Type) := Action (SortedSet κ) κ ρ

def onTree (op : Tree.Op (id : κ → κ) ρ) : Op κ ρ :=
  op.within SortedSet.tree fun tree _ => { tree }

def size (s : SortedSet κ) : Nat :=
  s.tree.size

def isEmpty (s : SortedSet κ) : Bool :=
  s.tree.isEmpty

/-- Adds an item unless an equivalent one is there; says whether it did. An item
    is its own key, and each class of equivalent items has one at most. -/
def insert (x : κ) : Op κ Bool :=
  onTree do
    return (← Tree.demand (← Tree.insertUnique x)).2

def contains (x : κ) (s : SortedSet κ) : Query κ Bool :=
  s.tree.contains x

def get (x : κ) (s : SortedSet κ) : Query κ (Option κ) := do
  s.tree.get (← s.tree.find x)

/-- Takes the item that is equivalent to `x` out, and gives it. -/
def take (x : κ) : Op κ (Option κ) :=
  onTree do
    let p ← .ask fun t => t.find x
    if p.isEnd then return none
    else return some (← Tree.remove p)

/-- Takes the item that is equivalent to `x` out; says whether there was one. -/
def remove (x : κ) : Op κ Bool := do
  return (← take x).isSome

/-- The first item not less than `x`. -/
def lowerBound (x : κ) (s : SortedSet κ) : Query κ (Option κ) := do
  s.tree.get (← s.tree.lowerBound x)

/-- The first item greater than `x`. -/
def upperBound (x : κ) (s : SortedSet κ) : Query κ (Option κ) := do
  s.tree.get (← s.tree.upperBound x)

def first? (s : SortedSet κ) : Except Fault (Option κ) :=
  s.tree.first?

def last? (s : SortedSet κ) : Except Fault (Option κ) :=
  s.tree.last?

def popFirst : Op κ (Option κ) :=
  onTree Tree.popFirst

def popLast : Op κ (Option κ) :=
  onTree Tree.popLast

def clear : Op κ Unit :=
  onTree Tree.clear

/-- Adds items one after the other. -/
def extend (items : List κ) : Op κ Unit :=
  items.forM fun x => do
    let _ ← insert x

def compareKeys (a b : κ) (s : SortedSet κ) : Query κ Bool :=
  Query.compare s.tree.less a b

def walk (s : SortedSet κ) : Walk (id : κ → κ) κ :=
  s.tree.walk

def items (s : SortedSet κ) : Except Fault (List κ) :=
  s.tree.items

/-- Hands the items over to be taken apart. -/
def drain (s : SortedSet κ) : Drain (id : κ → κ) :=
  s.tree.drain

/-- A copy of the set in an arena of its own. -/
def clone (s : SortedSet κ) : Except Fault (SortedSet κ) := do
  return { tree := ← s.tree.clone (.arena .empty) 0 }

/-- Whether two sets have equal items. -/
def sameItems [DecidableEq κ] (s t : SortedSet κ) : Except Fault Bool :=
  s.tree.sameItems t.tree

def form (item : κ → String) (tall : Bool) (s : SortedSet κ) : Except Fault String :=
  s.tree.form Text.curly (fun x => .single (item x)) tall

end SortedSet

end RedBlack
