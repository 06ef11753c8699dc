import RedBlack.Text.Printable

namespace RedBlack.Text

/-- The hexadecimal digits of a number, without leading zeros. -/
def hexDigits (n : Nat) : String :=
  .ofList (Nat.toDigits 16 n)

/-- A character as it stands in a quoted text. -/
def escape (c : Char) : String :=
  match c with
  | '\x00' => "\\0"
  | '\t' => "\\t"
  | '\n' => "\\n"
  | '\r' => "\\r"
  | '"' => "\\\""
  | '\\' => "\\\\"
  | c => if isPrintable c then c.toString else "\\u\x7b" ++ hexDigits c.toNat ++ "\x7d"

/-- A text between double quotes, in which every character that would not show
    as itself is written as an escape. -/
def quote (text : String) : String :=
  "\"" ++ String.join (text.toList.map escape) ++ "\""

end RedBlack.Text
