import ExplicitModules.Conversion

/-!
# Log lines

What a conversion tells while it runs and when it has finished, as lines with a level. How many are
shown depends on the verbosity.
-/
namespace ExplicitModules.CommandLine
set_option autoImplicit false

inductive Level
  | info
  | debug
  | trace
deriving DecidableEq, Repr

/-- The name of a level, five characters wide. -/
def Level.label : Level → String
  | .info => " INFO"
  | .debug => "DEBUG"
  | .trace => "TRACE"

def Level.threshold : Level → Nat
  | .info => 0
  | .debug => 1
  | .trace => 2

structure LogEntry where
  level : Level
  message : String
  fields : List (String × String) := []
deriving DecidableEq, Repr

/-- Controls that could steer a terminal are written as escapes. -/
def safeChar (c : Char) : String :=
  match c with
  | '\x1b' => "\\x1b"
  | '\x07' => "\\x07"
  | '\x08' => "\\x08"
  | '\x0c' => "\\x0c"
  | '\x7f' => "\\x7f"
  | c =>
    if 0x80 ≤ c.toNat ∧ c.toNat ≤ 0x9f then
      "\\u\x7b" ++ String.ofList (Nat.toDigits 16 c.toNat) ++ "\x7d"
    else String.singleton c

def safeText (text : String) : String :=
  String.join (text.toList.map safeChar)

def LogEntry.line (directory : String) (e : LogEntry) : String :=
  e.level.label ++ " convert\x7bcmd=\"convert\" cwd=" ++ directory ++ "\x7d: " ++
    safeText e.message ++ String.join (e.fields.map fun field => " " ++ field.1 ++ "=" ++ field.2)

def LogEntry.ofEvent? : Event → Option LogEntry
  | .fileChecked path => some { level := .debug, message := "Checking: " ++ path.text }
  | .probeMissed path => some { level := .debug, message := "  not found: " ++ path.text }
  | .noReplacement _ specifier =>
    some { level := .debug, message := "  no replacement: " ++ specifier }
  | .specifierReplaced path declaration written =>
    some {
      level := .trace
      message := "  " ++ declaration.specifier.value ++ " -> " ++ written
      fields := [("file", path.text), ("line", toString declaration.line),
        ("kind", "\"" ++ declaration.kind.keyword ++ "\"")] }
  | .fileModified _ => none

def LogEntry.ofReport (report : Report) : LogEntry where
  level := .info
  message := "conversion finished"
  fields := [("files_checked", toString report.filesChecked),
    ("files_modified", toString report.filesModified.length),
    ("specifiers_rewritten", toString report.specifiersReplaced)]

end ExplicitModules.CommandLine
