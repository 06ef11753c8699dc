import RedBlack.Tree.Replica
import RedBlack.Tree.View

namespace RedBlack

structure SortedMap (κ ν : Type) where
  tree : Tree (Prod.fst : κ × ν → κ)

namespace SortedMap

variable {κ ν ρ : Type}

/-- A map without entries. Its positions never leave it, so its tree needs no
    identity of its own. -/
def empty (less : κ → κ → Bool) : SortedMap κ ν where
  tree := .empty Prod.fst less (.arena .empty) 0

abbrev Op (κ ν ρ : Type) := Action (SortedMap κ ν) κ ρ

def onTree (op : Tree.Op (Prod.fst : κ × ν → κ) ρ) : Op κ ν ρ :=
  op.within SortedMap.tree fun tree _ => { tree }

def size (m : SortedMap κ ν) : Nat :=
  m.tree.size

def isEmpty (m : SortedMap κ ν) : Bool :=
  m.tree.isEmpty

/-- Binds a key. Where an equivalent key is bound, that key stays and only its
    value is replaced; gives the value replaced. -/
def insert (k : κ) (v : ν) : Op κ ν (Option ν) :=
  onTree do
    let hint ← .ask fun t => t.lowerBound k
    let entry ← .look fun t => t.get hint
    match ← .ask fun t => bound t entry with
    | some (_, old) =>
      Tree.modify hint fun entry => (entry.1, v)
      return some old
    | none =>
      let _ ← Tree.demand (← Tree.insertUniqueHint hint (k, v))
      return none
where
  /-- The first entry not before the key, if it is equivalent. -/
  bound (t : Tree (Prod.fst : κ × ν → κ)) : Option (κ × ν) → Query κ (Option (κ × ν))
    | none => return none
    | some entry => do
      if ← Query.compare t.less k entry.1 then return none
      else return some entry

/-- Binds a key unless an equivalent one is bound; says whether it did. -/
def tryInsert (k : κ) (v : ν) : Op κ ν Bool :=
  onTree do
    return (← Tree.demand (← Tree.insertUnique (k, v))).2

def get (k : κ) (m : SortedMap κ ν) : Query κ (Option ν) := do
  return (← m.tree.get (← m.tree.find k)).map Prod.snd

/-- Changes the value bound to a key; gives the value it had. -/
def modify (k : κ) (change : ν → ν) : Op κ ν (Option ν) :=
  onTree do
    let p ← .ask fun t => t.find k
    let entry ← .look fun t => t.get p
    Tree.modify p fun entry => (entry.1, change entry.2)
    return entry.map Prod.snd

def contains (k : κ) (m : SortedMap κ ν) : Query κ Bool :=
  m.tree.contains k

/-- Takes the entry of a key out; gives its value. -/
def remove (k : κ) : Op κ ν (Option ν) :=
  onTree do
    let p ← .ask fun t => t.find k
    if p.isEnd then return none
    else return some (← Tree.remove p).2

/-- The first entry whose key is not less than `k`. -/
def lowerBound (k : κ) (m : SortedMap κ ν) : Query κ (Option (κ × ν)) := do
  m.tree.get (← m.tree.lowerBound k)

/-- The first entry whose key is greater than `k`. -/
def upperBound (k : κ) (m : SortedMap κ ν) : Query κ (Option (κ × ν)) := do
  m.tree.get (← m.tree.upperBound k)

def first? (m : SortedMap κ ν) : Except Fault (Option (κ × ν)) :=
  m.tree.first?

def last? (m : SortedMap κ ν) : Except Fault (Option (κ × ν)) :=
  m.tree.last?

def popFirst : Op κ ν (Option (κ × ν)) :=
  onTree Tree.popFirst

def popLast : Op κ ν (Option (κ × ν)) :=
  onTree Tree.popLast

def clear : Op κ ν Unit :=
  onTree Tree.clear

/-- Binds keys one after the other. -/
def extend (entries : List (κ × ν)) : Op κ ν Unit :=
  entries.forM fun (k, v) => do
    let _ ← insert k v

def compareKeys (a b : κ) (m : SortedMap κ ν) : Query κ Bool :=
  Query.compare m.tree.less a b

def compareEntries (a b : κ × ν) (m : SortedMap κ ν) : Query κ Bool :=
  Query.compare m.tree.less a.1 b.1

def walk (m : SortedMap κ ν) : Walk (Prod.fst : κ × ν → κ) (κ × ν) :=
  m.tree.walk

def keys (m : SortedMap κ ν) : Walk (Prod.fst : κ × ν → κ) κ :=
  m.walk.map Prod.fst

def values (m : SortedMap κ ν) : Walk (Prod.fst : κ × ν → κ) ν :=
  m.walk.map Prod.snd

def entries (m : SortedMap κ ν) : Except Fault (List (κ × ν)) :=
  m.tree.items

/-- Hands the entries over to be taken apart. -/
def drain (m : SortedMap κ ν) : Drain (Prod.fst : κ × ν → κ) :=
  m.tree.drain

/-- A copy of the map in an arena of its own. -/
def clone (m : SortedMap κ ν) : Except Fault (SortedMap κ ν) := do
  return { tree := ← m.tree.clone (.arena .empty) 0 }

/-- Whether two maps have equal entries. -/
def sameItems [DecidableEq κ] [DecidableEq ν] (m n : SortedMap κ ν) : Except Fault Bool :=
  m.tree.sameItems n.tree

def form (key : κ → String) (value : ν → String) (tall : Bool) (m : SortedMap κ ν) :
    Except Fault String :=
  m.tree.form Text.curly (fun entry => .binding (key entry.1) (value entry.2)) tall

end SortedMap

end RedBlack
