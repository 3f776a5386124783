import ExplicitModules.Json5.Value
import ExplicitModules.Text.Quoted

/-!
# Settings in a `tsconfig.json`

The settings that decide which files belong to a project, read from a JSON5 document. An object
gives them by name, an array by position. Settings of other names are passed over, but what they
hold has to have a meaning too; the first fault in the order of the text is the one reported.
-/
namespace ExplicitModules
set_option autoImplicit false
open Json5 (Value Piece DataFault)

inductive ConfigFault
  /-- The text is no JSON5 document; the place is not told. -/
  | grammar
  | data (fault : DataFault)
  | wrongType (found expected : String)
  | tooShort (length : Nat) (expected : String)
  | repeatedField (name : String)
  | noExtends
deriving DecidableEq, Repr

def ConfigFault.message : ConfigFault → String
  | .grammar => "<syntax>"
  | .data fault => fault.message
  | .wrongType found expected => "invalid type: " ++ found ++ ", expected " ++ expected
  | .tooShort length expected =>
    "invalid length " ++ toString length ++ ", expected " ++ expected
  | .repeatedField name => "duplicate field `" ++ name ++ "`"
  | .noExtends => "data did not match any variant of untagged enum Extends"

inductive Extends
  | one (spec : String)
  | many (specs : List String)
deriving DecidableEq, Repr

def Extends.specs : Extends → List String
  | .one spec => [spec]
  | .many specs => specs

structure CompilerOptions where
  allowJs : Option Bool := none
  outDir : Option String := none
deriving DecidableEq, Repr

structure TsConfig where
  bases : Option Extends := none
  files : Option (List String) := none
  includes : Option (List String) := none
  excludes : Option (List String) := none
  compilerOptions : CompilerOptions := {}
deriving DecidableEq, Repr

namespace TsConfig

abbrev Reading := Except ConfigFault

def decodeText (pieces : List Piece) : Reading String :=
  (Piece.decodeText pieces).mapError .data

def checkValue (v : Value) : Reading Unit :=
  v.check.mapError .data

/-- What a value is called where another type was expected. -/
def describe : Value → Reading String
  | .null => .ok "unit value"
  | .boolean b => .ok (if b then "boolean `true`" else "boolean `false`")
  | .number n => (n.value.map Json5.Number.describe).mapError .data
  | .string pieces => (decodeText pieces).map fun text => "string " ++ Text.quoted text
  | .array _ => .ok "sequence"
  | .object _ => .ok "map"

def wrongType {α : Type} (v : Value) (expected : String) : Reading α := do
  let found ← describe v
  .error (.wrongType found expected)

def readString : Value → Reading String
  | .string pieces => decodeText pieces
  | v => wrongType v "a string"

def readBoolean : Value → Reading Bool
  | .boolean b => .ok b
  | v => wrongType v "a boolean"

def readStrings : Value → Reading (List String)
  | .array items => items.mapM readString
  | v => wrongType v "a sequence"

/-- A null stands for a setting that is not there. -/
def readOptional {α : Type} (read : Value → Reading α) : Value → Reading (Option α)
  | .null => .ok none
  | v => (read v).map some

/-- One config or a list of them; the whole value is checked before its type is looked at. -/
def readExtends (v : Value) : Reading Extends := do
  checkValue v
  match v with
  | .string pieces => (decodeText pieces).map .one
  | .array items =>
    match items.mapM readString with
    | .ok specs => .ok (.many specs)
    | .error _ => .error .noExtends
  | _ => .error .noExtends

/-- Reads the members of an object into a record. `field` gives, for the name of a setting, how its
value changes the record; a name it knows may come once. -/
def readMembers {σ : Type} (field : String → Option (Value → σ → Reading σ)) (seen : List String)
    (s : σ) : List (List Piece × Value) → Reading σ
  | [] => .ok s
  | (key, v) :: rest => do
    let name ← decodeText key
    match field name with
    | none =>
      checkValue v
      readMembers field seen s rest
    | some set =>
      if name ∈ seen then .error (.repeatedField name)
      else
        let s ← set v s
        readMembers field (name :: seen) s rest

def readItem {α : Type} (items : List Value) (i : Nat) (expected : String)
    (read : Value → Reading α) : Reading α :=
  match items[i]? with
  | some v => read v
  | none => .error (.tooShort i expected)

def optionField (name : String) :
    Option (Value → CompilerOptions → Reading CompilerOptions) :=
  if name = "allowJs" then some fun v s => do
    let allowJs ← readOptional readBoolean v
    return { s with allowJs }
  else if name = "outDir" then some fun v s => do
    let outDir ← readOptional readString v
    return { s with outDir }
  else none

def readCompilerOptions : Value → Reading CompilerOptions
  | .object members => readMembers optionField [] {} members
  | .array items => do
    let expected := "struct CompilerOptions with 2 elements"
    let allowJs ← readItem items 0 expected (readOptional readBoolean)
    let outDir ← readItem items 1 expected (readOptional readString)
    return { allowJs, outDir }
  | v => wrongType v "struct CompilerOptions"

def configField (name : String) : Option (Value → TsConfig → Reading TsConfig) :=
  if name = "extends" then some fun v s => do
    let bases ← readOptional readExtends v
    return { s with bases }
  else if name = "files" then some fun v s => do
    let files ← readOptional readStrings v
    return { s with files }
  else if name = "include" then some fun v s => do
    let includes ← readOptional readStrings v
    return { s with includes }
  else if name = "exclude" then some fun v s => do
    let excludes ← readOptional readStrings v
    return { s with excludes }
  else if name = "compilerOptions" then some fun v s => do
    let compilerOptions ← readCompilerOptions v
    return { s with compilerOptions }
  else none

def ofValue : Value → Reading TsConfig
  | .object members => readMembers configField [] {} members
  | .array items => do
    let expected := "struct TsConfig with 5 elements"
    let bases ← readItem items 0 expected (readOptional readExtends)
    let files ← readItem items 1 expected (readOptional readStrings)
    let includes ← readItem items 2 expected (readOptional readStrings)
    let excludes ← readItem items 3 expected (readOptional readStrings)
    let compilerOptions ←
      match items[4]? with
      | some v => readCompilerOptions v
      | none => .ok {}
    return { bases, files, includes, excludes, compilerOptions }
  | v => wrongType v "struct TsConfig"

def ofText (text : String) : Reading TsConfig :=
  match Value.ofText? text with
  | some v => ofValue v
  | none => .error .grammar

end TsConfig
end ExplicitModules
