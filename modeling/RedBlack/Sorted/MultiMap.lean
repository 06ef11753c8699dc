import RedBlack.Tree.Replica
import RedBlack.Tree.View

namespace RedBlack

structure SortedMultiMap (κ ν : Type) where
  tree : Tree (Prod.fst : κ × ν → κ)

namespace SortedMultiMap

variable {κ ν ρ : Type}

/-- A multimap without entries. Its positions never leave it, so its tree needs
    no identity of its own. -/
def empty (less : κ → κ → Bool) : SortedMultiMap κ ν where
  tree := .empty Prod.fst less (.arena .empty) 0

abbrev Op (κ ν ρ : Type) := Action (SortedMultiMap κ ν) κ ρ

def onTree (op : Tree.Op (Prod.fst : κ × ν → κ) ρ) : Op κ ν ρ :=
  op.within SortedMultiMap.tree fun tree _ => { tree }

def size (m : SortedMultiMap κ ν) : Nat :=
  m.tree.size

def isEmpty (m : SortedMultiMap κ ν) : Bool :=
  m.tree.isEmpty

/-- Adds an entry behind those with an equivalent key. Every entry is kept, so
    that entries with equivalent keys stand in the order in which they came. -/
def insert (k : κ) (v : ν) : Op κ ν Unit :=
  onTree do
    let _ ← Tree.demand (← Tree.insertEqual (k, v))

/-- The values under a key, the oldest one first. -/
def getAll (k : κ) (m : SortedMultiMap κ ν) : Query κ (Walk (Prod.fst : κ × ν → κ) ν) := do
  return (← m.tree.walkEqual k).map Prod.snd

/-- How many entries a key has. -/
def count (k : κ) (m : SortedMultiMap κ ν) : Query κ Nat :=
  m.tree.count k

def contains (k : κ) (m : SortedMultiMap κ ν) : Query κ Bool :=
  m.tree.contains k

/-- Takes all entries of a key out; says how many there were. -/
def removeAll (k : κ) : Op κ ν Nat :=
  onTree (Tree.eraseKey k)

/-- Takes the oldest entry of a key out; gives its value. -/
def removeOne (k : κ) : Op κ ν (Option ν) :=
  onTree do
    let p ← .ask fun t => t.find k
    if p.isEnd then return none
    else return some (← Tree.remove p).2

/-- The first entry whose key is not less than `k`. -/
def lowerBound (k : κ) (m : SortedMultiMap κ ν) : Query κ (Option (κ × ν)) := do
  m.tree.get (← m.tree.lowerBound k)

/-- The first entry whose key is greater than `k`. -/
def upperBound (k : κ) (m : SortedMultiMap κ ν) : Query κ (Option (κ × ν)) := do
  m.tree.get (← m.tree.upperBound k)

def clear : Op κ ν Unit :=
  onTree Tree.clear

/-- Adds entries one after the other. -/
def extend (entries : List (κ × ν)) : Op κ ν Unit :=
  entries.forM fun (k, v) => insert k v

def walk (m : SortedMultiMap κ ν) : Walk (Prod.fst : κ × ν → κ) (κ × ν) :=
  m.tree.walk

def entries (m : SortedMultiMap κ ν) : Except Fault (List (κ × ν)) :=
  m.tree.items

/-- A copy of the multimap in an arena of its own. -/
def clone (m : SortedMultiMap κ ν) : Except Fault (SortedMultiMap κ ν) := do
  return { tree := ← m.tree.clone (.arena .empty) 0 }

/-- Whether two multimaps have equal entries in the same order. -/
def sameItems [DecidableEq κ] [DecidableEq ν] (m n : SortedMultiMap κ ν) : Except Fault Bool :=
  m.tree.sameItems n.tree

def form (key : κ → String) (value : ν → String) (tall : Bool) (m : SortedMultiMap κ ν) :
    Except Fault String :=
  m.tree.form Text.curly (fun entry => .binding (key entry.1) (value entry.2)) tall

end SortedMultiMap

end RedBlack
