import RedBlack.Proofs.Shape.Linkage
import RedBlack.Proofs.Store.Relinking

namespace RedBlack

/-- A tree as its links make it up: the links of the header, the number of
    nodes, and the nodes in the slots of a store, each with links of its own.
    Nothing ensures that the links agree. -/
structure Wired (α : Type) where
  root : Handle
  leftmost : Handle
  rightmost : Handle
  size : Nat
  store : Store (Shape.Links × α)

/-- A program that follows and writes links. It stops with a fault where
    something that it asserts does not hold, and it is cut off where one of its
    loops would take more rounds than it may. -/
abbrev Rewiring (α : Type) :=
  StateT (Wired α) (OptionT (Except Fault))

namespace Rewiring

open Shape (Links)

variable {α ρ υ : Type}

def fault (f : Fault) : Rewiring α ρ :=
  liftM (Except.error f : Except Fault ρ)

/-- The node that a link leads to. -/
def read : Handle → Rewiring α Links
  | .node slot => do return (← (← get).store.read slot).1
  | link => fault (.dereference link)

/-- Writes to the node that a link leads to. -/
def rewrite (change : Links → Links) : Handle → Rewiring α Unit
  | .node slot => do
    let g ← get
    let node ← g.store.read slot
    set { g with store := ← g.store.write slot (change node.1, node.2) }
  | link => fault (.dereference link)

def child (side : Side) (x : Handle) : Rewiring α Handle :=
  Links.child side <$> read x

def parent (x : Handle) : Rewiring α Handle :=
  Links.parent <$> read x

/-- The colour of a node; a missing node and the header count as black. -/
def color (x : Handle) : Rewiring α Color :=
  if x.isNode then Links.color <$> read x else pure .black

def isRed (x : Handle) : Rewiring α Bool := do
  return (← color x) = .red

def setColor (color : Color) (x : Handle) : Rewiring α Unit :=
  rewrite (fun l => { l with color }) x

def setChild (side : Side) (x child : Handle) : Rewiring α Unit :=
  rewrite (Links.withChild side child) x

def setParent (x parent : Handle) : Rewiring α Unit :=
  rewrite (Links.withParent parent) x

/-- Writes the parent of a node if there is one. -/
def setParent? (x parent : Handle) : Rewiring α Unit :=
  if x = .nil then pure () else setParent x parent

def root : Rewiring α Handle :=
  Wired.root <$> get

def setRoot (root : Handle) : Rewiring α Unit :=
  modify fun g => { g with root }

/-- Writes a new child into the link of a parent that leads to an old one. The
    link of the header leads to the root. On the right it is asserted that the
    old child was there. -/
def replaceChild (parent old new : Handle) : Rewiring α Unit := do
  if parent = .header then setRoot new
  else if (← child .left parent) = old then setChild .left parent new
  else if (← child .right parent) = old then setChild .right parent new
  else fault .strangeChild

/-- Raises the right child of a node into its place: the node takes over the
    inner child of the raised one, which takes over the place below the parent,
    and at last the node hangs under the raised one. -/
def rotateLeft (x : Handle) : Rewiring α Unit := do
  let y ← child .right x
  if y = .nil then fault (.noChildToRaise .left)
  else
    let inner ← child .left y
    setChild .right x inner
    setParent? inner x
    let p ← parent x
    setParent y p
    replaceChild p x y
    setChild .left y x
    setParent x y

/-- Raises the left child of a node into its place, with the sides exchanged. -/
def rotateRight (x : Handle) : Rewiring α Unit := do
  let y ← child .left x
  if y = .nil then fault (.noChildToRaise .right)
  else
    let inner ← child .right y
    setChild .left x inner
    setParent? inner x
    let p ← parent x
    setParent y p
    replaceChild p x y
    setChild .right y x
    setParent x y

/-- Turns a node down to a side. -/
def rotate : Side → Handle → Rewiring α Unit
  | .left => rotateLeft
  | .right => rotateRight

/-- The two rotations are written alike, with the sides exchanged. -/
theorem rotate_eq (side : Side) (x : Handle) : (rotate side x : Rewiring α Unit) = (do
    let y ← child side.opposite x
    if y = .nil then fault (.noChildToRaise side)
    else
      let inner ← child side y
      setChild side.opposite x inner
      setParent? inner x
      let p ← parent x
      setParent y p
      replaceChild p x y
      setChild side y x
      setParent x y) := by
  cases side <;> rfl

/-- Does one thing below a left child and another one below a right child. The
    left link of the parent decides. -/
def bySide (x parent : Handle) (left right : Rewiring α ρ) : Rewiring α ρ := do
  if x = (← child .left parent) then left else right

/-- The outermost node on a side of the subtree under a node, by as many steps
    as the limit allows. -/
def outermost (side : Side) : Nat → Handle → Rewiring α Handle
  | 0, _ => failure
  | limit + 1, x => do
    let below ← child side x
    if below = .nil then return x else outermost side limit below

end Rewiring

end RedBlack
