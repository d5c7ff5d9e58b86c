/-
GraphQL.Document.Token — the tokens of a document and where they stand.

`tokenize` reads a whole text into a list of tokens with the position of their
first characters. The list always ends in `endOfText` or, where no token can be
read, in `malformed`; strings and numbers are converted here, so a bad escape
and an integer beyond 64 bits are malformed tokens too.

Positions count lines and columns from 1. A tab is eight columns wide, a
carriage return and a byte order mark have no width; the line feed or carriage
return that ends a comment starts a new line.

At most `maxDepth` brackets may be open at once; the bracket that would open one
more is malformed.
-/
import GraphQL.Document.Basic
import GraphQL.Document.Quoted
import GraphQL.Number.Numeral

namespace GraphQL

/-- A token of a document. -/
inductive Token where
  | punctuator (c : Char)
  | ellipsis
  | name (text : String)
  | int (value : Int)
  | float (value : FloatValue)
  | string (value : String)
  | malformed
  | endOfText
deriving DecidableEq, Inhabited

/-- A token with the position of its first character. -/
structure Lexeme where
  position : Position
  token : Token
deriving DecidableEq, Inhabited

namespace Position

/-- The first position of a text. -/
def start : Position := ⟨1, 1⟩

/-- The first position of the next line. -/
def nextLine (p : Position) : Position := ⟨p.line + 1, 1⟩

/-- The position some columns to the right. -/
def right (p : Position) (n : Nat) : Position := ⟨p.line, p.column + n⟩

/-- The position after a token of these characters: only line feeds start a line. -/
def past (p : Position) (cs : List Char) : Position :=
  cs.foldl (fun q c => if c = '\n' then q.nextLine else q.right 1) p

end Position

namespace Token

/-- How many brackets may be open at once. -/
def maxDepth : Nat := 50

/-! ## Character classes -/

/-- The characters a name starts with. -/
def isNameStart (c : Char) : Bool := c == '_' || c.isAlpha

/-- The characters a name goes on with. -/
def isNameRest (c : Char) : Bool := c == '_' || c.isAlphanum

/-- The characters that end a number. -/
def endsNumber (c : Char) : Bool :=
  [' ', '\n', '\r', '\t', ',', '#', '!', '$', ':', '=', '@', '|', '&',
    '(', ')', '[', ']', '{', '}'].contains c

/-- The brackets that open. -/
def opens (c : Char) : Bool := c == '(' || c == '[' || c == '{'

/-- The brackets that close. -/
def closes (c : Char) : Bool := c == ')' || c == ']' || c == '}'

/-- The punctuators of one character, brackets apart. -/
def isMark (c : Char) : Bool := ['!', '$', ':', '=', '@', '|', '&'].contains c

/-! ## Numbers -/

/-- `0`, or digits without a leading zero, a minus sign before them allowed. -/
def isWhole (cs : List Char) : Bool :=
  let ds := match cs with
    | '-' :: r => r
    | r => r
  match ds with
  | [] => false
  | ['0'] => true
  | '0' :: _ => false
  | ds => ds.all Char.isDigit

/-- The digits of a fraction: at least one. -/
def isFraction (cs : List Char) : Bool := !cs.isEmpty && cs.all Char.isDigit

/-- An exponent starts with a sign or a digit from 1 to 8; digits follow. -/
def isExponent : List Char → Bool
  | [] => false
  | c :: r => (c == '-' || c == '+' || ('0' < c && c < '9')) && r.all Char.isDigit

/-- The text before and after the last character of a class, that character left out. -/
def splitLast? (p : Char → Bool) : List Char → Option (List Char × List Char)
  | [] => none
  | c :: r =>
    match splitLast? p r with
    | some (before, after) => some (c :: before, after)
    | none => if p c then some ([], r) else none

/-- Whether the text of a float is well formed: a whole part, and a fraction, an
exponent or both after it. The last point and the last `e` count. -/
def isFloat (whole : Char) (rest : List Char) : Bool :=
  match splitLast? (fun c => c == 'e' || c == 'E') rest with
  | some (mantissa, exponent) =>
    isExponent exponent &&
      match splitLast? (· == '.') mantissa with
      | some (before, fraction) =>
        isWhole (whole :: before) && isFraction fraction
      | none => isWhole (whole :: mantissa)
  | none =>
    match splitLast? (· == '.') rest with
    | some (before, fraction) => isWhole (whole :: before) && isFraction fraction
    | none => false

/-- The token of a number's text: an int if it has neither point nor `e` after
its first character, else a float. -/
def ofNumeral (first : Char) (rest : List Char) : Token :=
  if rest.any fun c => c == '.' || c == 'e' || c == 'E' then
    if isFloat first rest then
      match Decimal.ofText? (first :: rest) with
      | some d => .float d.round
      | none => .malformed
    else .malformed
  else if isWhole (first :: rest) then
    match readInt64? (first :: rest) with
    | some i => .int i
    | none => .malformed
  else .malformed

/-! ## One token -/

/-- The token that starts with a quotation mark, from what follows the mark; also
the number of characters after the mark. -/
def ofQuote (cs : List Char) : Token × Nat :=
  match cs with
  | '"' :: '"' :: r =>
    match Quoted.splitBlock? false r with
    | some (body, _) => (.string (String.ofList (Quoted.unblock body)), body.length + 5)
    | none => (.malformed, 0)
  | cs =>
    match Quoted.splitQuoted? cs with
    | some (body, _) =>
      match Quoted.unquote? body with
      | some text => (.string (String.ofList text), body.length + 1)
      | none => (.malformed, 0)
    | none => (.malformed, 0)

/-- The token that starts with a character, from what follows it; also the number
of its further characters. -/
def lex (c : Char) (rest : List Char) : Token × Nat :=
  if opens c || closes c || isMark c then (.punctuator c, 0)
  else if c == '.' then
    match rest with
    | '.' :: '.' :: _ => (.ellipsis, 2)
    | _ => (.malformed, 0)
  else if isNameStart c then
    let more := rest.takeWhile isNameRest
    (.name (String.ofList (c :: more)), more.length)
  else if c == '-' || c.isDigit then
    let more := rest.takeWhile fun d => !endsNumber d
    (ofNumeral c more, more.length)
  else if c == '"' then ofQuote rest
  else (.malformed, 0)

/-! ## The whole text -/

/-- The columns of an ignored character that does not end a line; none if the
character is not ignored. -/
def ignoredWidth? (c : Char) : Option Nat :=
  if c = ' ' ∨ c = ',' then some 1
  else if c = '\t' then some 8
  else if c = '\r' ∨ c.toNat = 0xFEFF then some 0
  else none

/-- Whether a character ends a comment. -/
def endsComment (c : Char) : Bool := c == '\n' || c == '\r'

/-- The lexemes of a text: `skip` characters belong to what has been read, `depth`
brackets are open, and `p` is the position after what has been read. -/
def scan (skip depth : Nat) (p : Position) : List Char → List Lexeme
  | [] => [⟨p, .endOfText⟩]
  | c :: rest =>
    match skip with
    | n + 1 => scan n depth p rest
    | 0 =>
      if c = '\n' then scan 0 depth p.nextLine rest
      else if c = '#' then
        let comment := (rest.takeWhile fun d => !endsComment d).length
        if comment = rest.length then [⟨p, .endOfText⟩]
        else scan (comment + 1) depth p.nextLine rest
      else
        match ignoredWidth? c with
        | some w => scan 0 depth (p.right w) rest
        | none =>
          match lex c rest with
          | (.malformed, _) => [⟨p, .malformed⟩]
          | (token, n) =>
            if opens c && maxDepth ≤ depth then [⟨p, .malformed⟩]
            else
              let depth' := if opens c then depth + 1 else if closes c then depth - 1 else depth
              ⟨p, token⟩ :: scan n depth' (p.past (c :: rest.take n)) rest

/-- The lexemes of a text. -/
def tokenize (text : String) : List Lexeme := scan 0 0 .start text.toList

end Token

end GraphQL
