import RedBlack.Proofs.Tree.Commands
import RedBlack.Proofs.Tree.Walk
import RedBlack.Tree.Replica

namespace RedBlack

/-- The same outcome with another result. -/
def Built.map {ε ρ υ : Type} (f : ρ → υ) (b : Built ε ρ) : Built ε υ where
  calls := b.calls
  result := b.result.map f

namespace Tree

/-- A request that only looks at a tree; `ε` is the error of copying
    functions. -/
inductive Inquiry (α κ ε : Type) where
  | start
  | finish
  | size
  | first
  | last
  | get (p : Position)
  | next (p : Position)
  | prev (p : Position)
  | equalRange (k : κ)
  | count (k : κ)
  | items
  /-- What a walk over all items gives, asked for one after the other, each on
      the side named. -/
  | walk (script : List Side)
  | walkRange (first last : Position) (script : List Side)
  | copy (make : Nat → α → Except ε α) (store : Store α) (tag : UInt64)

/-- The answer to an inquiry. -/
inductive Finding {α κ : Type} (key : α → κ) (ε : Type) where
  | position (p : Position)
  | range (first last : Position)
  | number (n : Nat)
  | item (item : Option α)
  | items (items : List α)
  | given (items : List (Option α))
  | replica (replica : Replica key ε)

/-- Whatever a tree may be asked for: the requests that change it, and the
    inquiries that only look at it. What a request says of a tree depends on
    positions; the same request to another tree has them moved there. -/
inductive Request (α κ ε : Type) where
  | command (c : Command α κ ε)
  | inquiry (q : Inquiry α κ ε)

/-- The answer to a request. -/
inductive Response {α κ : Type} (key : α → κ) (ε : Type) where
  | reply (r : Reply α ε)
  | finding (found : Finding key ε)

variable {α κ ε : Type} {key : α → κ}

namespace Command

/-- The positions that a request names. -/
def positions : Command α κ ε → List Position
  | insertUniqueHint hint _ | insertEqualHint hint _ => [hint]
  | insertUniqueHintWith hint _ | insertEqualHintWith hint _ => [hint]
  | erase p | remove p => [p]
  | eraseRange first last => [first, last]
  | _ => []

/-- The same request at other positions. -/
def move (place : Position → Position) : Command α κ ε → Command α κ ε
  | insertUniqueHint hint item => insertUniqueHint (place hint) item
  | insertEqualHint hint item => insertEqualHint (place hint) item
  | insertUniqueHintWith hint build => insertUniqueHintWith (place hint) build
  | insertEqualHintWith hint build => insertEqualHintWith (place hint) build
  | erase p => erase (place p)
  | remove p => remove (place p)
  | eraseRange first last => eraseRange (place first) (place last)
  | c => c

end Command

namespace Reply

/-- The positions that a reply names. -/
def positions : Reply α ε → List Position
  | unique (.ok (p, _)) | equal (.ok p) => [p]
  | uniqueWith { result := .ok (p, _), .. } | equalWith { result := .ok p, .. } => [p]
  | position p | erased _ p => [p]
  | _ => []

/-- The same reply with its positions moved to another tree. -/
def move (place : Position → Position) : Reply α ε → Reply α ε
  | unique answer => unique (answer.map (Prod.map place id))
  | equal answer => equal (answer.map place)
  | uniqueWith answer => uniqueWith (answer.map (Prod.map place id))
  | equalWith answer => equalWith (answer.map place)
  | position p => position (place p)
  | erased item next => erased item (place next)
  | r => r

end Reply

namespace Inquiry

/-- What a tree says to an inquiry. -/
def answer : Inquiry α κ ε → Tree key → Query κ (Finding key ε)
  | start, t => return .position t.start
  | finish, t => return .position t.finish
  | size, t => return .number t.size
  | first, t => return .item (← t.first?)
  | last, t => return .item (← t.last?)
  | get p, t => return .item (← t.get p)
  | next p, t => return .position (← t.next p)
  | prev p, t => return .position (← t.prev p)
  | equalRange k, t => do
    let (lower, upper) ← t.equalRange k
    return .range lower upper
  | count k, t => return .number (← t.count k)
  | items, t => return .items (← t.items)
  | walk script, t => return .given (← t.walk.follow script).1
  | walkRange lower upper script, t => do
    let w ← t.walkRange lower upper
    return .given (← w.follow script).1
  | copy make store tag, t => return .replica (← t.copyWith make store tag)

/-- The positions that an inquiry names. -/
def positions : Inquiry α κ ε → List Position
  | get p | next p | prev p => [p]
  | walkRange lower upper _ => [lower, upper]
  | _ => []

/-- The same inquiry at other positions. -/
def move (place : Position → Position) : Inquiry α κ ε → Inquiry α κ ε
  | get p => get (place p)
  | next p => next (place p)
  | prev p => prev (place p)
  | walkRange lower upper script => walkRange (place lower) (place upper) script
  | q => q

end Inquiry

namespace Finding

/-- The positions that a finding names. -/
def positions : Finding key ε → List Position
  | position p => [p]
  | range first last => [first, last]
  | _ => []

/-- The same finding with its positions moved to another tree. -/
def move (place : Position → Position) : Finding key ε → Finding key ε
  | position p => position (place p)
  | range first last => range (place first) (place last)
  | found => found

end Finding

namespace Request

def run : Request α κ ε → Op key (Response key ε)
  | command c => .reply <$> c.run
  | inquiry q => .finding <$> .ask q.answer

def positions : Request α κ ε → List Position
  | command c => c.positions
  | inquiry q => q.positions

def move (place : Position → Position) : Request α κ ε → Request α κ ε
  | command c => command (c.move place)
  | inquiry q => inquiry (q.move place)

def Inserts : Request α κ ε → Prop
  | command c => c.Inserts
  | inquiry _ => False

/-- Every position that the request names is one of the tree. It may be the end
    also where an item is to be erased, and a range may run backwards; such a
    request stops. -/
def OnLive (t : Tree key) (r : Request α κ ε) : Prop :=
  ∀ p ∈ r.positions, t.LiveOrEnd p

end Request

namespace Response

def positions : Response key ε → List Position
  | reply r => r.positions
  | finding found => found.positions

def move (place : Position → Position) : Response key ε → Response key ε
  | reply r => reply (r.move place)
  | finding found => finding (found.move place)

end Response

/-- The answers to requests, one after the other. What stops also leaves a tree
    for the next one. -/
def replies : List (Request α κ ε) → Tree key → List (Except Fault (Response key ε))
  | [], _ => []
  | r :: rest, t => (r.run.run t).answer :: replies rest (r.run.run t).state

/-- The tree that requests leave, one after the other. -/
def after : List (Request α κ ε) → Tree key → Tree key
  | [], t => t
  | r :: rest, t => after rest (r.run.run t).state

/-- Every request names positions of the tree as it is when its turn comes. -/
def StaysOnLive : List (Request α κ ε) → Tree key → Prop
  | [], _ => True
  | r :: rest, t => r.OnLive t ∧ StaysOnLive rest (r.run.run t).state

end Tree

end RedBlack
