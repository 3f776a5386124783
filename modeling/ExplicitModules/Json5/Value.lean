import ExplicitModules.Json5.Number

/-!
# Documents of JSON5

A document is one value. It is built from its tokens in a single pass, with the arrays and objects
that are still open kept innermost first. Numbers and escapes stay as written: whether they have a
value is asked when somebody needs it.
-/
namespace ExplicitModules.Json5
set_option autoImplicit false

inductive Value
  | null
  | boolean (b : Bool)
  | number (n : Numeral)
  | string (pieces : List Piece)
  | array (items : List Value)
  | object (members : List (List Piece × Value))

/-- An open array or object with what it holds so far, the last item first. -/
inductive Frame
  | array (items : List Value)
  | object (members : List (List Piece × Value))
  | member (members : List (List Piece × Value)) (key : List Piece)

inductive Expected
  | value
  | itemOrEnd
  | keyOrEnd
  | colon
  | afterValue (v : Value)

def wordValue? (pieces : List Piece) : Option Value :=
  if Piece.spells pieces "null" then some .null
  else if Piece.spells pieces "true" then some (.boolean true)
  else if Piece.spells pieces "false" then some (.boolean false)
  else if Piece.spells pieces "Infinity" then some (.number ⟨.none, .infinity⟩)
  else if Piece.spells pieces "NaN" then some (.number ⟨.none, .notANumber⟩)
  else none

/-- The frames and the expectation behind the first token of a value. -/
def startValue? (frames : List Frame) (token : Token) : Option (List Frame × Expected) :=
  match token with
  | .openBracket => some (.array [] :: frames, .itemOrEnd)
  | .openBrace => some (.object [] :: frames, .keyOrEnd)
  | .string pieces => some (frames, .afterValue (.string pieces))
  | .number n => some (frames, .afterValue (.number n))
  | .name pieces => (wordValue? pieces).map fun v => (frames, .afterValue v)
  | _ => none

def accept? (frames : List Frame) (expected : Expected) (token : Token) :
    Option (List Frame × Expected) :=
  match expected, frames, token with
  | .value, _, _ => startValue? frames token
  | .itemOrEnd, .array items :: outer, .closeBracket =>
    some (outer, .afterValue (.array items.reverse))
  | .itemOrEnd, _, _ => startValue? frames token
  | .keyOrEnd, .object members :: outer, .closeBrace =>
    some (outer, .afterValue (.object members.reverse))
  | .keyOrEnd, .object members :: outer, .string key => some (.member members key :: outer, .colon)
  | .keyOrEnd, .object members :: outer, .name key => some (.member members key :: outer, .colon)
  | .colon, _, .colon => some (frames, .value)
  | .afterValue v, .array items :: outer, .comma => some (.array (v :: items) :: outer, .itemOrEnd)
  | .afterValue v, .array items :: outer, .closeBracket =>
    some (outer, .afterValue (.array (v :: items).reverse))
  | .afterValue v, .member members key :: outer, .comma =>
    some (.object ((key, v) :: members) :: outer, .keyOrEnd)
  | .afterValue v, .member members key :: outer, .closeBrace =>
    some (outer, .afterValue (.object ((key, v) :: members).reverse))
  | _, _, _ => none

def build? (frames : List Frame) (expected : Expected) : List Token → Option Value
  | [] =>
    match frames, expected with
    | [], .afterValue v => some v
    | _, _ => none
  | token :: rest => (accept? frames expected token).bind fun next => build? next.1 next.2 rest

def Value.ofTokens? (tokens : List Token) : Option Value :=
  build? [] .value tokens

def Value.ofText? (text : String) : Option Value :=
  (tokens? text.toList).bind Value.ofTokens?

mutual

/-- Whether everything in a value has a meaning; the first fault in the order of the text. -/
def Value.check : Value → Except DataFault Unit
  | .null => .ok ()
  | .boolean _ => .ok ()
  | .number n => n.value.map fun _ => ()
  | .string pieces => (Piece.decode pieces).map fun _ => ()
  | .array items => checkItems items
  | .object members => checkMembers members

def checkItems : List Value → Except DataFault Unit
  | [] => .ok ()
  | v :: rest =>
    match v.check with
    | .ok () => checkItems rest
    | .error e => .error e

def checkMembers : List (List Piece × Value) → Except DataFault Unit
  | [] => .ok ()
  | (key, v) :: rest =>
    match Piece.decode key with
    | .error e => .error e
    | .ok _ =>
      match v.check with
      | .ok () => checkMembers rest
      | .error e => .error e

end

end ExplicitModules.Json5
