import ExplicitModules.Text.Hidden

/-!
# Quoted text in messages

A text between double quotes in which quotes, backslashes and everything that would not be seen are
escaped.
-/
namespace ExplicitModules.Text
set_option autoImplicit false

def hexText (c : Char) : String :=
  String.ofList (Nat.toDigits 16 c.toNat)

def quotedChar (c : Char) : String :=
  match c with
  | '\x00' => "\\0"
  | '\t' => "\\t"
  | '\n' => "\\n"
  | '\r' => "\\r"
  | '"' => "\\\""
  | '\\' => "\\\\"
  | c => if isHidden c then "\\u\x7b" ++ hexText c ++ "\x7d" else String.singleton c

def quoted (text : String) : String :=
  "\"" ++ String.join (text.toList.map quotedChar) ++ "\""

/-- In the text of a path single quotes are escaped too. -/
def quotedPath (text : String) : String :=
  let escaped := text.toList.map fun c => if c = '\x27' then "\\'" else quotedChar c
  "\"" ++ String.join escaped ++ "\""

end ExplicitModules.Text
