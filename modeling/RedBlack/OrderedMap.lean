import RedBlack.Sorted.Map

namespace RedBlack

/-- The natural order of keys: whether one is less than another. -/
def natural {κ : Type} [Ord κ] (a b : κ) : Bool :=
  (compare a b).isLT

/-- An ordered map `m` from keys `κ` to values `ν`. Keys are unique, and binding
    a key again replaces its value. What an operation asks of a comparator shows
    beside its answer; a map that has no comparator shows nothing there. -/
class OrderedMap (m : Type) (κ ν : outParam Type) where
  empty : m
  size : m → Nat
  isEmpty : m → Bool := fun s => size s = 0
  /-- The value bound to a key. -/
  get : κ → m → Query κ (Option ν)
  /-- Binds a key; gives the value it had. -/
  insert : κ → ν → Action m κ (Option ν)
  /-- Takes the entry of a key out; gives its value. -/
  remove : κ → Action m κ (Option ν)
  /-- The first entry whose key is not less than the one given. -/
  lowerBound : κ → m → Query κ (Option (κ × ν))

instance {κ ν : Type} [Ord κ] : OrderedMap (SortedMap κ ν) κ ν where
  empty := .empty natural
  size := SortedMap.size
  get := SortedMap.get
  insert := SortedMap.insert
  remove := SortedMap.remove
  lowerBound := SortedMap.lowerBound

/-- A finite map written down as the list of its entries in the order of the
    keys. It is what the sorted map on a red-black tree is compared with. -/
structure AssocMap (κ ν : Type) where
  entries : List (κ × ν)
  deriving Repr

namespace AssocMap

variable {κ ν : Type} [Ord κ]

/-- Puts an entry in its place among entries in order, where it replaces one
    with an equal key. -/
def insertEntry (k : κ) (v : ν) : List (κ × ν) → List (κ × ν)
  | [] => [(k, v)]
  | (k', v') :: rest =>
    match compare k k' with
    | .lt => (k, v) :: (k', v') :: rest
    | .eq => (k', v) :: rest
    | .gt => (k', v') :: insertEntry k v rest

/-- The value bound to a key. -/
def get? (k : κ) (m : AssocMap κ ν) : Option ν :=
  (m.entries.find? fun entry => compare k entry.1 = .eq).map Prod.snd

def insert (k : κ) (v : ν) (m : AssocMap κ ν) : AssocMap κ ν where
  entries := insertEntry k v m.entries

def erase (k : κ) (m : AssocMap κ ν) : AssocMap κ ν where
  entries := m.entries.filter fun entry => compare k entry.1 ≠ .eq

/-- The first entry whose key is not less than `k`. -/
def lowerBound? (k : κ) (m : AssocMap κ ν) : Option (κ × ν) :=
  m.entries.find? fun entry => compare k entry.1 ≠ .gt

instance : OrderedMap (AssocMap κ ν) κ ν where
  empty := ⟨[]⟩
  size m := m.entries.length
  get k m := pure (m.get? k)
  insert k v := .step fun m => .ok (m.get? k, m.insert k v)
  remove k := .step fun m => .ok (m.get? k, m.erase k)
  lowerBound k m := pure (m.lowerBound? k)

end AssocMap

end RedBlack
