/-
JSON values.

A document is read from its tokens by a pushdown automaton: a stack holds the
arrays and objects that are still open, innermost first.

* `Value.ofString?` — the value of a text that is a JSON document;
* `Value.fields?` — the members of an object or array under given names;
* `Value.natural?` — a number that is spelled as a plain natural number.

Design notes: objects keep their members in order and with repetitions; whether
a repetition matters depends on the name.  The stack is data, so nesting is
limited by nothing.
-/
import Hart.Json.Token
import Hart.Xlen

namespace Hart.Json

inductive Value where
  | null
  | bool (b : Bool)
  /-- A number as it is spelled. -/
  | number (spelling : String)
  /-- A string, or nothing if it is not text. -/
  | text (s : Option String)
  | array (items : List Value)
  | object (members : List (Option String × Value))
  deriving Inhabited

/-- An array or object that is still open.  What it holds is in reverse. -/
inductive Frame where
  | array (items : List Value)
  | object (members : List (Option String × Value))
  /-- An object after the name of a member. -/
  | member (members : List (Option String × Value)) (name : Option String)

/-- What may come next. -/
inductive Expectation where
  /-- A value; or the end of the array when it was just opened. -/
  | value (first : Bool)
  /-- A name; or the end of the object when it was just opened. -/
  | name (first : Bool)
  | colon
  /-- A comma or the end of what is open. -/
  | separator
  /-- Nothing: the document is complete. -/
  | nothing (v : Value)

def complete (stack : List Frame) (v : Value) : Option (List Frame × Expectation) :=
  match stack with
  | [] => some ([], .nothing v)
  | .array items :: rest => some (.array (v :: items) :: rest, .separator)
  | .member members name :: rest => some (.object ((name, v) :: members) :: rest, .separator)
  | .object _ :: _ => none

def advance? (stack : List Frame) (expectation : Expectation) (t : Token) :
    Option (List Frame × Expectation) :=
  match expectation, t, stack with
  | .value _, .null, _ => complete stack .null
  | .value _, .bool b, _ => complete stack (.bool b)
  | .value _, .number spelling, _ => complete stack (.number spelling)
  | .value _, .text s, _ => complete stack (.text s)
  | .value _, .openBracket, _ => some (.array [] :: stack, .value true)
  | .value _, .openBrace, _ => some (.object [] :: stack, .name true)
  | .value true, .closeBracket, .array [] :: rest => complete rest (.array [])
  | .name _, .text s, .object members :: rest => some (.member members s :: rest, .colon)
  | .name true, .closeBrace, .object [] :: rest => complete rest (.object [])
  | .colon, .colon, _ => some (stack, .value false)
  | .separator, .comma, .array _ :: _ => some (stack, .value false)
  | .separator, .comma, .object _ :: _ => some (stack, .name false)
  | .separator, .closeBracket, .array items :: rest => complete rest (.array items.reverse)
  | .separator, .closeBrace, .object members :: rest => complete rest (.object members.reverse)
  | _, _, _ => none

/-- The value of the tokens that follow. -/
def build? : List Frame → Expectation → List Token → Option Value
  | _, .nothing v, [] => some v
  | _, _, [] => none
  | stack, expectation, t :: rest =>
    match advance? stack expectation t with
    | some (stack, expectation) => build? stack expectation rest
    | none => none

namespace Value

def ofString? (s : String) : Option Value :=
  (Token.ofChars? s.toList).bind (build? [] (.value false))

/-- The member with a name: none at all, or the only one. -/
def member? (members : List (Option String × Value)) (name : String) : Option (Option Value) :=
  match members.filter fun m => m.1 = some name with
  | [] => some none
  | [m] => some (some m.2)
  | _ => none

/-- The values of named fields.  An object gives them by name, each at most once,
and its other members count for nothing but must have text for names; an array
gives the first ones in order. -/
def fields? (names : List String) : Value → Option (List (Option Value))
  | object members =>
    if members.all fun m => m.1.isSome then names.mapM (member? members) else none
  | array items =>
    if items.length ≤ names.length then
      some (items.map some ++ List.replicate (names.length - items.length) none)
    else none
  | _ => none

/-- A number of 64 bits, spelled with digits only. -/
def natural? : Value → Option Nat
  | number spelling =>
    if spelling.toList.all Char.isDigit then
      let n := Nat.ofDigitChars 10 spelling.toList 0
      if n < wordLimit then some n else none
    else none
  | _ => none

def bool? : Value → Option Bool
  | bool b => some b
  | _ => none

end Value

end Hart.Json
