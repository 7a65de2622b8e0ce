import BayesDiagram.Text.Visible

/-! Texts of names, lists, sets and maps as they stand in messages. -/
namespace BayesDiagram.Listing

def hexDigits (c : Char) : String :=
  String.ofList (Nat.toDigits 16 c.toNat)

/-- A character inside quotes. Quotes, backslashes, line ends, tabs and the zero character have a
letter of their own behind a backslash; any other character that would not show as itself is
written by its code point in hexadecimal. -/
def escape (c : Char) : String :=
  match c with
  | '"' => "\\\""
  | '\\' => "\\\\"
  | '\n' => "\\n"
  | '\r' => "\\r"
  | '\t' => "\\t"
  | '\x00' => "\\0"
  | c => if visible c then c.toString else "\\u\x7b" ++ hexDigits c ++ "\x7d"

def quoted (text : String) : String :=
  "\"" ++ String.join (text.toList.map escape) ++ "\""

def commas (items : List String) : String :=
  ", ".intercalate items

def brackets (items : List String) : String :=
  "[" ++ commas items ++ "]"

def braces (items : List String) : String :=
  "\x7b" ++ commas items ++ "\x7d"

def names (items : List String) : String :=
  brackets (items.map quoted)

def numbers (items : List Nat) : String :=
  brackets (items.map toString)

end BayesDiagram.Listing
