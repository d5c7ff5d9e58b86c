/-
GraphQL.Document.Quoted — the text that a quoted string or a block string stands for.

Both functions take the characters between the quotation marks. A quoted string
knows the escapes `\" \\ \/ \b \f \n \r \t` and `\u` with four characters that
are a hexadecimal number, a plus sign before it allowed; `\b` is U+0010. Any
other escape makes the string malformed.

A block string has no escape but `\"""`. Its lines lose their common
indentation, which the first line and blank lines do not take part in, and the
blank lines before and after the text are dropped.
-/
import GraphQL.Text

namespace GraphQL.Quoted

open GraphQL.Text

/-! ## Quoted strings -/

/-- The value of a text of hexadecimal digits. -/
def hexValue? (cs : List Char) : Option Nat :=
  if cs.isEmpty then none
  else cs.foldlM (fun n c => (hexDigit? c).map (n * 16 + ·)) 0

/-- The character with the code point written in hexadecimal, surrogates excluded. -/
def codePoint? (cs : List Char) : Option Char := do
  let n ← hexValue? (match cs with
    | '+' :: r => r
    | r => r)
  if n.isValidChar then some (Char.ofNat n) else none

/-- The character that a backslash and this one stand for. -/
def shortEscape? (c : Char) : Option Char :=
  match c with
  | '"' => some '"'
  | '\\' => some '\\'
  | '/' => some '/'
  | 'b' => some (Char.ofNat 0x10)
  | 'f' => some (Char.ofNat 0x0C)
  | 'n' => some '\n'
  | 'r' => some '\r'
  | 't' => some '\t'
  | _ => none

/-- The text of a quoted string; none for a malformed escape. -/
def unquote? : List Char → Option (List Char)
  | [] => some []
  | '\\' :: 'u' :: a :: b :: c :: d :: rest => do
    let ch ← codePoint? [a, b, c, d]
    let text ← unquote? rest
    some (ch :: text)
  | '\\' :: e :: rest => do
    let ch ← shortEscape? e
    let text ← unquote? rest
    some (ch :: text)
  | c :: rest => (unquote? rest).map (c :: ·)

/-! ## Block strings -/

/-- Whether a line holds only white space. -/
def isBlankLine (line : List Char) : Bool := line.all isBlank

/-- The size of a text in UTF-8. -/
def byteCount (cs : List Char) : Nat := cs.foldr (fun c n => c.utf8Size + n) 0

/-- The bytes of white space a line starts with. -/
def indentation (line : List Char) : Nat := byteCount (line.takeWhile isBlank)

/-- The least indentation of the lines that are not blank. -/
def commonIndentation (lines : List (List Char)) : Nat :=
  (((lines.filter fun l => !isBlankLine l).map indentation).min?).getD 0

/-- Drop leading characters of a total size in UTF-8. -/
def dropBytes : Nat → List Char → List Char
  | _, [] => []
  | n, c :: r => if n < c.utf8Size then c :: r else dropBytes (n - c.utf8Size) r

/-- A line without the common indentation, if it is that long. -/
def unindent (indent : Nat) (line : List Char) : List Char :=
  if byteCount line < indent then line else dropBytes indent line

/-- Lines without the blank ones at both ends. -/
def trimBlankLines (lines : List (List Char)) : List (List Char) :=
  ((lines.dropWhile isBlankLine).reverse.dropWhile isBlankLine).reverse

/-- Replace the escaped triple quotation mark. -/
def unescapeTriple : List Char → List Char
  | '\\' :: '"' :: '"' :: '"' :: r => '"' :: '"' :: '"' :: unescapeTriple r
  | c :: r => c :: unescapeTriple r
  | [] => []

/-- The text of a block string. -/
def unblock (body : List Char) : List Char :=
  match lines body with
  | [] => []
  | first :: rest =>
    let kept := trimBlankLines (first :: rest.map (unindent (commonIndentation rest)))
    unescapeTriple (List.intercalate ['\n'] kept)

/-! ## Where a string ends -/

/-- The characters before the closing quotation mark and those after it; a line
feed ends the search without success, escaped or not. -/
def splitQuoted? : List Char → Option (List Char × List Char)
  | [] => none
  | '"' :: rest => some ([], rest)
  | '\n' :: _ => none
  | '\\' :: '\n' :: _ => none
  | '\\' :: c :: rest => (splitQuoted? rest).map fun (body, r) => ('\\' :: c :: body, r)
  | c :: rest => (splitQuoted? rest).map fun (body, r) => (c :: body, r)

/-- The characters before the closing triple quotation mark and those after it.
Triples are taken from the left and do not overlap; one right after a backslash
does not close the string. -/
def splitBlock? (escaped : Bool) : List Char → Option (List Char × List Char)
  | [] => none
  | '"' :: '"' :: '"' :: rest =>
    if escaped then
      (splitBlock? false rest).map fun (body, r) => ('"' :: '"' :: '"' :: body, r)
    else some ([], rest)
  | c :: rest => (splitBlock? (c == '\\') rest).map fun (body, r) => (c :: body, r)

end GraphQL.Quoted
