import RedBlack.Tree.Replica
import RedBlack.Tree.View

namespace RedBlack

structure SortedBag (κ : Type) where
  tree : Tree (id : κ → κ)

namespace SortedBag

variable {κ ρ : Type}

/-- A bag without items. Its positions never leave it, so its tree needs no
    identity of its own. -/
def empty (less : κ → κ → Bool) : SortedBag κ where
  tree := .empty id less (.arena .empty) 0

abbrev Op (κ ρ : Type) := Action (SortedBag κ) κ ρ

def onTree (op : Tree.Op (id : κ → κ) ρ) : Op κ ρ :=
  op.within SortedBag.tree fun tree _ => { tree }

def size (b : SortedBag κ) : Nat :=
  b.tree.size

def isEmpty (b : SortedBag κ) : Bool :=
  b.tree.isEmpty

/-- Adds an item behind those equivalent to it. An item is its own key, and
    every item is kept, so that equivalent ones stand in the order in which they
    came. -/
def insert (x : κ) : Op κ Unit :=
  onTree do
    let _ ← Tree.demand (← Tree.insertEqual x)

/-- How many items are equivalent to `x`. -/
def count (x : κ) (b : SortedBag κ) : Query κ Nat :=
  b.tree.count x

def contains (x : κ) (b : SortedBag κ) : Query κ Bool :=
  b.tree.contains x

/-- Takes all items equivalent to `x` out; says how many there were. -/
def removeAll (x : κ) : Op κ Nat :=
  onTree (Tree.eraseKey x)

/-- Takes the oldest item equivalent to `x` out, and gives it. -/
def removeOne (x : κ) : Op κ (Option κ) :=
  onTree do
    let p ← .ask fun t => t.find x
    if p.isEnd then return none
    else return some (← Tree.remove p)

/-- The items equivalent to `x`, the oldest one first. -/
def equalRange (x : κ) (b : SortedBag κ) : Query κ (Walk (id : κ → κ) κ) :=
  b.tree.walkEqual x

def first? (b : SortedBag κ) : Except Fault (Option κ) :=
  b.tree.first?

def last? (b : SortedBag κ) : Except Fault (Option κ) :=
  b.tree.last?

def clear : Op κ Unit :=
  onTree Tree.clear

/-- Adds items one after the other. -/
def extend (items : List κ) : Op κ Unit :=
  items.forM insert

def walk (b : SortedBag κ) : Walk (id : κ → κ) κ :=
  b.tree.walk

def items (b : SortedBag κ) : Except Fault (List κ) :=
  b.tree.items

/-- Hands the items over to be taken apart. -/
def drain (b : SortedBag κ) : Drain (id : κ → κ) :=
  b.tree.drain

/-- A copy of the bag in an arena of its own. -/
def clone (b : SortedBag κ) : Except Fault (SortedBag κ) := do
  return { tree := ← b.tree.clone (.arena .empty) 0 }

/-- Whether two bags have equal items in the same order. -/
def sameItems [DecidableEq κ] (b c : SortedBag κ) : Except Fault Bool :=
  b.tree.sameItems c.tree

def form (item : κ → String) (tall : Bool) (b : SortedBag κ) : Except Fault String :=
  b.tree.form Text.square (fun x => .single (item x)) tall

end SortedBag

end RedBlack
