/-
GraphQL.Document.Parser — documents from their tokens.

A recursive-descent parser with one token of look-ahead. It either gives the
document or the position of the first token that cannot continue one; a
malformed token continues nothing, so it fails where it stands.

The token list is the state. Every loop spends fuel, two units for each token at
most, so `fuelFor` is never used up: running out fails at the current token like
any other error.
-/
import GraphQL.Document.Token

namespace GraphQL

/-- A parser over lexemes that fails at a position. -/
abbrev Parser (α : Type) := StateT (List Lexeme) (Except Position) α

namespace Parser

variable {α : Type}

/-! ## Tokens -/

/-- The current token. -/
def peek : Parser Token := do
  match ← get with
  | [] => return .endOfText
  | l :: _ => return l.token

/-- The position of the current token. -/
def position : Parser Position := do
  match ← get with
  | [] => return .start
  | l :: _ => return l.position

/-- Fail at the current token. -/
def fail : Parser α := do
  throw (← position)

/-- Move to the next token. -/
def advance : Parser Unit := modify List.tail

/-- Take a punctuator. -/
def mark (c : Char) : Parser Unit := do
  if (← peek) = .punctuator c then advance else fail

/-- Whether the current token is a punctuator. -/
def atMark (c : Char) : Parser Bool := return (← peek) = .punctuator c

/-- Whether the current token is a certain name. -/
def atName (s : String) : Parser Bool := return (← peek) = .name s

/-- Take a name. -/
def name : Parser String := do
  match ← peek with
  | .name s => advance; return s
  | _ => fail

/-- Take a certain name. -/
def keyword (s : String) : Parser Unit := do
  if ← atName s then advance else fail

/-! ## Types and values -/

/-- Take the exclamation mark that may follow a type. -/
def bang (t : TypeExpr) : Parser TypeExpr := do
  if ← atMark '!' then
    advance
    return .nonNull t
  else return t

/-- A type. -/
def typeExpr : Nat → Parser TypeExpr
  | 0 => fail
  | n + 1 => do
    match ← peek with
    | .name s => advance; bang (.named s)
    | .punctuator '[' =>
      advance
      let item ← typeExpr n
      mark ']'
      bang (.list item)
    | _ => fail

/-- The literal that a name alone stands for. -/
def namedLiteral (s : String) : Literal :=
  if s = "true" then .boolean true
  else if s = "false" then .boolean false
  else if s = "null" then .null
  else .enum s

mutual

/-- A value; `allowVars` says whether it may mention variables. -/
def value (allowVars : Bool) : Nat → Parser Literal
  | 0 => fail
  | n + 1 => do
    match ← peek with
    | .name s => advance; return namedLiteral s
    | .int i => advance; return .int i
    | .float x => advance; return .float x
    | .string s => advance; return .string s
    | .punctuator '$' =>
      if allowVars then
        advance
        return .var (← name)
      else fail
    | .punctuator '[' =>
      advance
      return .list (← items allowVars n)
    | .punctuator '{' =>
      advance
      return .ofFields (← fields allowVars n)
    | _ => fail

/-- The items of a list and the closing bracket. -/
def items (allowVars : Bool) : Nat → Parser (List Literal)
  | 0 => fail
  | n + 1 => do
    if ← atMark ']' then
      advance
      return []
    else
      let v ← value allowVars n
      return v :: (← items allowVars n)

/-- The fields of an object and the closing brace. -/
def fields (allowVars : Bool) : Nat → Parser (List (String × Literal))
  | 0 => fail
  | n + 1 => do
    if ← atMark '}' then
      advance
      return []
    else
      let k ← name
      mark ':'
      let v ← value allowVars n
      return (k, v) :: (← fields allowVars n)

end

/-! ## Arguments and directives -/

/-- Arguments, at least one, and the closing parenthesis. -/
def argumentList : Nat → Parser (List (String × Literal))
  | 0 => fail
  | n + 1 => do
    let k ← name
    mark ':'
    let v ← value true n
    if ← atMark ')' then
      advance
      return [(k, v)]
    else return (k, v) :: (← argumentList n)

/-- Arguments in parentheses, or none. -/
def arguments (n : Nat) : Parser (List (String × Literal)) := do
  if ← atMark '(' then
    advance
    argumentList n
  else return []

/-- Directives, as many as there are. -/
def directives : Nat → Parser (List Directive)
  | 0 => fail
  | n + 1 => do
    if ← atMark '@' then
      advance
      let d ← name
      let args ← arguments n
      return ⟨d, args⟩ :: (← directives n)
    else return []

/-! ## Selections -/

/-- A field without its sub-selection. The number is assigned later. -/
def fieldNode (n : Nat) : Parser FieldNode := do
  let position ← position
  let first ← name
  let (alias?, name) ← if ← atMark ':' then
      advance
      pure (some first, ← name)
    else pure (none, first)
  let arguments ← arguments n
  let directives ← directives n
  return { number := 0, position, alias?, name, arguments, directives }

/-- The selections up to the closing brace, at least one if `first`. -/
def selections (first : Bool) : Nat → Parser SelectionSet
  | 0 => fail
  | n + 1 => do
    match ← peek with
    | .punctuator '}' =>
      if first then fail
      else
        advance
        return .nil
    | .name _ =>
      let node ← fieldNode n
      let sub ← if ← atMark '{' then
          advance
          selections true n
        else pure .nil
      return .field node sub (← selections false n)
    | .ellipsis =>
      advance
      let position ← position
      match ← peek with
      | .name "on" =>
        advance
        let condition ← name
        let directives ← directives n
        mark '{'
        let sub ← selections true n
        return .inline { condition? := some condition, position, directives } sub
          (← selections false n)
      | .name s =>
        advance
        let directives ← directives n
        return .spread { name := s, position, directives } (← selections false n)
      | _ =>
        let directives ← directives n
        mark '{'
        let sub ← selections true n
        return .inline { condition? := none, position, directives } sub (← selections false n)
    | _ => fail

/-- A selection set in braces. -/
def selectionSet (n : Nat) : Parser SelectionSet := do
  mark '{'
  selections true n

/-! ## Definitions -/

/-- Variable definitions, at least one, and the closing parenthesis. -/
def variableList : Nat → Parser (List VariableDefinition)
  | 0 => fail
  | n + 1 => do
    mark '$'
    let name ← name
    mark ':'
    let type ← typeExpr n
    let default? ← if ← atMark '=' then
        advance
        pure (some (← value false n))
      else pure none
    let v : VariableDefinition := { name, type, default? }
    if ← atMark ')' then
      advance
      return [v]
    else return v :: (← variableList n)

/-- An operation after its keyword. Directives on the operation itself mean nothing. -/
def operation (kind : OperationKind) (n : Nat) : Parser Operation := do
  let name? ← match ← peek with
    | .name s => advance; pure (some s)
    | _ => pure none
  let variableDefinitions ← if ← atMark '(' then
      advance
      variableList n
    else pure []
  let _ ← directives n
  return { kind, name?, variableDefinitions, selections := ← selectionSet n }

/-- A fragment from its keyword on. -/
def fragment (n : Nat) : Parser Fragment := do
  let position ← position
  keyword "fragment"
  let name' ← name
  keyword "on"
  let condition ← name
  let directives ← directives n
  return { name := name', position, condition, directives, selections := ← selectionSet n }

/-- An operation or a fragment. -/
def definition (n : Nat) : Parser Definition := do
  match ← peek with
  | .punctuator '{' =>
    return .operation
      { kind := .query, name? := none, variableDefinitions := [], selections := ← selectionSet n }
  | .name "query" => advance; return .operation (← operation .query n)
  | .name "mutation" => advance; return .operation (← operation .mutation n)
  | .name "subscription" => advance; return .operation (← operation .subscription n)
  | .name "fragment" => return .fragment (← fragment n)
  | _ => fail

/-- Definitions up to the end of the text, at least one if `first`. -/
def definitions (first : Bool) : Nat → Parser (List Definition)
  | 0 => fail
  | n + 1 => do
    if !first && (← peek) = .endOfText then return []
    else
      let d ← definition n
      return d :: (← definitions false n)

/-- More than any loop over these lexemes spends. -/
def fuelFor (ls : List Lexeme) : Nat := 2 * ls.length + 2

end Parser

/-- The document a text writes, its fields numbered, or the position of the first
token that cannot continue it. -/
def Document.parse (text : String) : Except Position Document :=
  let ls := Token.tokenize text
  match (Parser.definitions true (Parser.fuelFor ls)).run ls with
  | .ok (ds, _) => .ok (Document.numbered ⟨ds⟩)
  | .error p => .error p

end GraphQL
