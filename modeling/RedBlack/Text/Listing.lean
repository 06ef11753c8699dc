namespace RedBlack.Text

inductive Entry where
  | single (text : String)
  /-- Two values side by side, written as a tuple. -/
  | tuple (first second : String)
  /-- A key and what it stands for. -/
  | binding (key value : String)
  deriving DecidableEq, Repr

namespace Entry

def inline : Entry → String
  | single text => text
  | tuple first second => s!"({first}, {second})"
  | binding key value => s!"{key}: {value}"

/-- The lines of the entry where every part has a line of its own. -/
def lines : Entry → List String
  | single text => [text]
  | tuple first second => ["(", s!"    {first},", s!"    {second},", ")"]
  | binding key value => [s!"{key}: {value}"]

end Entry

structure Brackets where
  opening : String
  closing : String
  deriving DecidableEq, Repr

/-- Brackets around items in a row. -/
def square : Brackets := ⟨"[", "]"⟩

/-- Brackets around items that are found by key. -/
def curly : Brackets := ⟨"\x7b", "\x7d"⟩

/-- All entries on one line, between brackets and with commas between them. -/
def listing (b : Brackets) (entries : List Entry) : String :=
  b.opening ++ ", ".intercalate (entries.map Entry.inline) ++ b.closing

/-- Every entry on lines of its own, indented and followed by a comma; without
    entries the brackets stay on one line. -/
def tallListing (b : Brackets) (entries : List Entry) : String :=
  if entries.isEmpty then b.opening ++ b.closing
  else
    "\n".intercalate (b.opening :: entries.flatMap (fun entry => indented entry.lines) ++ [b.closing])
where
  /-- Indents the lines of an entry and puts a comma after the last one. -/
  indented : List String → List String
    | [] => []
    | [line] => [s!"    {line},"]
    | line :: more => s!"    {line}" :: indented more

end RedBlack.Text
