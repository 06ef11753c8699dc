import RedBlack.Text.Listing
import RedBlack.Tree.Walk

namespace RedBlack.Tree

variable {α κ : Type} {key : α → κ}

/-- The nodes in order, each with its links and its item. As in all views of a
    tree, the comparator is asked nothing. -/
def nodes (t : Tree key) : Except Fault (List (Shape.Links × α)) :=
  (t.shape.links .header).mapM fun links => do
    return (links, ← t.itemAt links.slot)

/-- Whether two trees have items in the same order that are the same one by one.
    Shapes, colours and slots do not matter. -/
def sameItemsBy (same : α → α → Bool) (t u : Tree key) : Except Fault Bool :=
  if t.size = u.size then do
    return (← t.items).isEqv (← u.items) same
  else return false

/-- Whether two trees have equal items in the same order. -/
def sameItems [DecidableEq α] (t u : Tree key) : Except Fault Bool :=
  t.sameItemsBy (fun a b => decide (a = b)) u

def form (brackets : Text.Brackets) (entry : α → Text.Entry) (tall : Bool) (t : Tree key) :
    Except Fault String := do
  let entries := (← t.items).map entry
  return if tall then Text.tallListing brackets entries else Text.listing brackets entries

end RedBlack.Tree
