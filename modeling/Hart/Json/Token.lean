/-
Tokens of JSON text.

A text is cut into tokens by an automaton that reads one character at a time, so
that neither long nor deeply nested texts cost anything but time:

* `Token.ofChars?` — the tokens of a text, if it consists of tokens;
* `decodeUnits?` — the characters of a string with its escapes resolved.

Design notes: a number keeps its spelling, since what it may be is decided by
whoever reads it.  An escape may stand for half of a surrogate pair; a string
with a half that has no partner is a token, but has no characters.
-/

namespace Hart.Json

inductive Token where
  | openBrace | closeBrace | openBracket | closeBracket | colon | comma
  | null
  | bool (b : Bool)
  /-- A number as it is spelled. -/
  | number (spelling : String)
  /-- A string, or nothing if it is not text. -/
  | text (s : Option String)
  deriving DecidableEq, Repr

/-- What stands for a character, or half of one, in a string. -/
inductive Unit16 where
  /-- A character that stands for itself or follows a backslash. -/
  | char (c : Char)
  | escaped (n : Nat)
  deriving DecidableEq, Repr

/-- The characters that the pieces of a string stand for.  An escape in the first
surrogate range needs one in the second range right after it. -/
def decodeUnits? : List Unit16 → Option (List Char)
  | [] => some []
  | .char c :: rest => (decodeUnits? rest).map (c :: ·)
  | .escaped high :: .escaped low :: rest =>
    if 0xD800 ≤ high ∧ high < 0xDC00 then
      if 0xDC00 ≤ low ∧ low < 0xE000 then
        let code := 0x10000 + (high - 0xD800) * 0x400 + (low - 0xDC00)
        (decodeUnits? rest).map (Char.ofNat code :: ·)
      else none
    else if 0xDC00 ≤ high ∧ high < 0xE000 then none
    else (decodeUnits? (.escaped low :: rest)).map (Char.ofNat high :: ·)
  | .escaped n :: rest =>
    if 0xD800 ≤ n ∧ n < 0xE000 then none else (decodeUnits? rest).map (Char.ofNat n :: ·)

/-- Where the automaton stands.  Pieces and characters are kept in reverse. -/
inductive LexState where
  | between
  | inString (units : List Unit16)
  | inEscape (units : List Unit16)
  /-- Inside a four-digit escape with `count` digits read. -/
  | inHex (units : List Unit16) (count value : Nat)
  | inBare (chars : List Char)

def isBlank (c : Char) : Bool :=
  c = ' ' || c = '\n' || c = '\t' || c = '\r'

def isBare (c : Char) : Bool :=
  c.isAlphanum || c = '-' || c = '+' || c = '.'

/-- An exponent, or nothing. -/
def isExponent : List Char → Bool
  | [] => true
  | e :: rest =>
    let digits := match rest with
      | '+' :: ds => ds
      | '-' :: ds => ds
      | ds => ds
    (e = 'e' || e = 'E') && !digits.isEmpty && digits.all Char.isDigit

/-- A fraction and an exponent, either of which may be missing. -/
def isFraction : List Char → Bool
  | '.' :: rest =>
    !(rest.takeWhile Char.isDigit).isEmpty && isExponent (rest.dropWhile Char.isDigit)
  | rest => isExponent rest

/-- A number: a sign, digits without leading zeros, a fraction and an exponent,
all but the digits optional. -/
def isNumber (chars : List Char) : Bool :=
  let unsigned := match chars with
    | '-' :: rest => rest
    | rest => rest
  let whole := unsigned.takeWhile Char.isDigit
  !whole.isEmpty && (whole = ['0'] || whole.head? != some '0')
    && isFraction (unsigned.dropWhile Char.isDigit)

/-- The token of a number or a word. -/
def bareToken? (chars : List Char) : Option Token :=
  if chars = "true".toList then some (.bool true)
  else if chars = "false".toList then some (.bool false)
  else if chars = "null".toList then some .null
  else if isNumber chars then some (.number (String.ofList chars))
  else none

/-- The character that a one-letter escape stands for. -/
def simpleEscape? (c : Char) : Option Char :=
  match c with
  | '"' => some '"'
  | '\\' => some '\\'
  | '/' => some '/'
  | 'b' => some '\x08'
  | 'f' => some '\x0c'
  | 'n' => some '\n'
  | 'r' => some '\r'
  | 't' => some '\t'
  | _ => none

def hexDigit? (c : Char) : Option Nat :=
  if c.isDigit then some (c.toNat - '0'.toNat)
  else if 'a' ≤ c ∧ c ≤ 'f' then some (c.toNat - 'a'.toNat + 10)
  else if 'A' ≤ c ∧ c ≤ 'F' then some (c.toNat - 'A'.toNat + 10)
  else none

/-- One character between tokens: the token that it makes and the next state. -/
def LexState.start? (c : Char) : Option (List Token × LexState) :=
  match c with
  | '\x7b' => some ([.openBrace], .between)
  | '\x7d' => some ([.closeBrace], .between)
  | '[' => some ([.openBracket], .between)
  | ']' => some ([.closeBracket], .between)
  | ':' => some ([.colon], .between)
  | ',' => some ([.comma], .between)
  | '"' => some ([], .inString [])
  | _ =>
    if isBlank c then some ([], .between)
    else if isBare c then some ([], .inBare [c])
    else none

/-- One character: the tokens that it completes and the next state. -/
def LexState.next? (state : LexState) (c : Char) : Option (List Token × LexState) :=
  match state with
  | between => start? c
  | inString units =>
    if c = '"' then
      some ([.text ((decodeUnits? units.reverse).map String.ofList)], .between)
    else if c = '\\' then some ([], .inEscape units)
    else if c.toNat < 0x20 then none
    else some ([], .inString (.char c :: units))
  | inEscape units =>
    if c = 'u' then some ([], .inHex units 0 0)
    else (simpleEscape? c).map fun e => ([], .inString (.char e :: units))
  | inHex units count value =>
    (hexDigit? c).map fun d =>
      let value := 16 * value + d
      if count = 3 then ([], .inString (.escaped value :: units))
      else ([], .inHex units (count + 1) value)
  | inBare chars =>
    if isBare c then some ([], .inBare (c :: chars))
    else do
      let token ← bareToken? chars.reverse
      let (tokens, state) ← start? c
      return (token :: tokens, state)

/-- The tokens after those in `seen`, which are in reverse. -/
def lex? (seen : List Token) : LexState → List Char → Option (List Token)
  | .between, [] => some seen.reverse
  | .inBare chars, [] => (bareToken? chars.reverse).map fun t => (t :: seen).reverse
  | _, [] => none
  | state, c :: rest =>
    match state.next? c with
    | some (tokens, state) => lex? (tokens.reverse ++ seen) state rest
    | none => none

def Token.ofChars? (chars : List Char) : Option (List Token) :=
  lex? [] .between chars

end Hart.Json
