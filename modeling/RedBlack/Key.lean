import RedBlack.OrderedMap
import RedBlack.Text.Quoted

namespace RedBlack

/-- A key that is a number or a text. All numbers come before all texts; numbers
    are in their usual order, texts in the order of their characters' code
    points. -/
inductive Key where
  | number (value : Int)
  | text (value : String)
  deriving DecidableEq, Repr, Inhabited

namespace Key

instance : Ord Key where
  compare
    | number a, number b => compare a b
    | number _, text _ => .lt
    | text _, number _ => .gt
    | text a, text b => compare a b

/-- The written form of a key: the digits of a number, a text in quotes. -/
def form : Key → String
  | number value => toString value
  | text value => Text.quote value

/-- The size of a key: the absolute value of a number, the length of a text in
    bytes. -/
def magnitude : Key → Nat
  | number value => value.natAbs
  | text value => value.utf8ByteSize

/-- The key with the capital letters `A` to `Z` of a text made small. -/
def lowercase : Key → Key
  | number value => number value
  | text value => text (value.map Char.toLower)

end Key

/-- Comparators of keys by name. The last three order nothing: they show the way
    a search goes. -/
inductive KeyComparator where
  /-- The natural order. -/
  | natural
  /-- The natural order from the greatest key to the least. -/
  | reverse
  /-- By magnitude. -/
  | magnitude
  /-- By the last decimal digit of the magnitude. -/
  | lastDigit
  /-- The natural order of the keys in small letters. -/
  | lowercase
  /-- All keys are equivalent. -/
  | never
  | always
  | atMost
  /-- Whether the second magnitude is one ahead of the first one on a circle of
      three. -/
  | cyclic
  deriving DecidableEq, Repr

namespace KeyComparator

/-- Whether one key is less than another. -/
def less : KeyComparator → Key → Key → Bool
  | natural, a, b => RedBlack.natural a b
  | reverse, a, b => RedBlack.natural b a
  | magnitude, a, b => a.magnitude < b.magnitude
  | lastDigit, a, b => a.magnitude % 10 < b.magnitude % 10
  | lowercase, a, b => RedBlack.natural a.lowercase b.lowercase
  | never, _, _ => false
  | always, _, _ => true
  | atMost, a, b => !RedBlack.natural b a
  | cyclic, a, b => ((b.magnitude : Int) - a.magnitude) % 3 = 1

end KeyComparator

end RedBlack
