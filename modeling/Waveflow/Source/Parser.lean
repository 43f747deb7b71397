import Waveflow.Source.Token
import Waveflow.Source.Error
import Waveflow.Source.Program

/-!
# From tokens to programs

A program is a list of declarations and then a list of statements.  Every function takes the tokens
that are left and gives back those it leaves.  After a malformed statement the tokens up to the next
semicolon are skipped, so that each malformed statement is reported once; inside a block the skipping
ends at the closing brace.
-/

namespace Waveflow.Parser

/-- The name that opens a block. -/
def blockLabel : String := "maintain_coherence"

/-- The deepest nesting of blocks. -/
def maxBlockDepth : Nat := 64

/-- An error and the tokens at which to go on.  Where there is no error, a phrase comes with the tokens
after it. -/
abbrev Halt := SourceError × List Token

/-! ### Single tokens -/

/-- What stands at the start of the tokens, in words. -/
def describeNext : List Token → String
  | t :: _ => t.kind.describe
  | [] => endDescription

/-- The place of the next token; `ending` is the end of the text. -/
def nextSpan (ending : Span) : List Token → Span
  | t :: _ => t.span
  | [] => ending

/-- The error that something else was expected here. -/
def expected (ending : Span) (what : String) (ts : List Token) : SourceError :=
  .unexpectedToken what (describeNext ts) (nextSpan ending ts)

/-- The next token is of that kind. -/
def nextIs (kind : TokenKind) : List Token → Bool
  | t :: _ => t.kind == kind
  | [] => false

/-- Take a token of that kind, or nothing. -/
def expect (ending : Span) (kind : TokenKind) (ts : List Token) : Except Halt (Span × List Token) :=
  match ts with
  | t :: rest =>
    if t.kind == kind then .ok (t.span, rest) else .error (expected ending ("'" ++ kind.text ++ "'") ts, ts)
  | [] => .error (expected ending ("'" ++ kind.text ++ "'") ts, ts)

/-- Take a name, or nothing. -/
def expectIdent (ending : Span) (what : String) (ts : List Token) : Except Halt ((String × Span) × List Token) :=
  match ts with
  | ⟨.ident name, span⟩ :: rest => .ok ((name, span), rest)
  | _ => .error (expected ending what ts, ts)

/-! ### Declarations -/

/-- A declaration starts here: `input` or `output` before another name. -/
def atDeclaration : List Token → Bool
  | ⟨.ident word, _⟩ :: ⟨.ident _, _⟩ :: _ => word == "input" || word == "output"
  | _ => false

/-- The size of a dimension. -/
def dimension (t : Token) : Except SourceError Nat :=
  match t.kind with
  | .number x =>
    if 0.0 ≤ x && Decimal.isWhole x && x ≤ Literal.wordMax then .ok x.toUInt64.toNat
    else .error (.invalidType ("dimension " ++ numberText x ++ " is not a whole number") t.span)
  | kind => .error (.unexpectedToken "dimension" kind.describe t.span)

/-- Dimensions with commas between them. -/
def dimensions (ending : Span) : List Token → Except Halt (List Nat × List Token)
  | [] => .error (expected ending "dimension" [], [])
  | t :: rest =>
    match dimension t with
    | .error e => .error (e, rest)
    | .ok n =>
      match rest with
      | c :: more =>
        if c.kind == .comma then
          match dimensions ending more with
          | .ok (ns, left) => .ok (n :: ns, left)
          | .error e => .error e
        else .ok ([n], c :: more)
      | [] => .ok ([n], [])

/-- The dimensions in brackets after an element kind, with the place where the type ends. -/
def shape (ending start : Span) (ts : List Token) : Except Halt ((List Nat × Span) × List Token) :=
  if nextIs .lbracket ts then do
    let (ns, ts) ← dimensions ending ts.tail
    let (stop, ts) ← expect ending .rbracket ts
    return ((ns, stop), ts)
  else .ok (([], start), ts)

/-- A type. -/
def valueType (ending : Span) (ts : List Token) : Except Halt (ValueType × List Token) := do
  let ((word, start), ts) ← expectIdent ending "type" ts
  match ElementKind.ofName? word with
  | none => .error (.invalidType ("unknown element kind '" ++ word ++ "'") start, ts)
  | some element =>
    let ((ns, stop), ts) ← shape ending start ts
    match ValueType.make element ns with
    | .ok ty => return (ty, ts)
    | .error e => .error (.invalidType e.message (start.join stop), ts)

/-- A declaration with its semicolon. -/
def declaration (ending : Span) (ts : List Token) : Except Halt (Declaration × List Token) := do
  let ((word, start), ts) ← expectIdent ending "'input' or 'output'" ts
  let ((name, _), ts) ← expectIdent ending "declaration name" ts
  let (_, ts) ← expect ending .colon ts
  let (ty, ts) ← valueType ending ts
  let (stop, ts) ← expect ending .semi ts
  return (⟨if word = "input" then .input else .output, name, ty, start.join stop⟩, ts)

/-! ### Calls -/

/-- The value of an argument; the token that stands where a value should is taken in any case. -/
def argumentValue (ending : Span) (ts : List Token) : Except Halt ((ArgumentValue × Span) × List Token) :=
  match ts with
  | ⟨.number x, span⟩ :: rest => .ok ((.literal (.number (.ofFloat x)), span), rest)
  | ⟨.str s, span⟩ :: rest => .ok ((.literal (.text s), span), rest)
  | ⟨.ident name, span⟩ :: rest => .ok ((.identifier name, span), rest)
  | ⟨.minus, start⟩ :: rest =>
    match rest with
    | ⟨.number x, span⟩ :: rest => .ok ((.literal (.number (.ofFloat (-x))), start.join span), rest)
    | rest => .error (expected ending "number after '-'" rest, rest.tail)
  | ts => .error (expected ending "argument value" ts, ts.tail)

/-- An argument, with its name if it has one. -/
def argument (ending : Span) (ts : List Token) : Except Halt (Argument × List Token) :=
  match ts with
  | ⟨.ident name, start⟩ :: ⟨.colon, _⟩ :: rest => do
    let ((value, stop), ts) ← argumentValue ending rest
    return (⟨some name, value, start.join stop⟩, ts)
  | ts => do
    let ((value, span), ts) ← argumentValue ending ts
    return (⟨none, value, span⟩, ts)

/-- Arguments up to the closing parenthesis, with its place.  A comma may follow the last one. -/
def argumentsWithin (ending : Span) : Nat → List Token → Except Halt ((List Argument × Span) × List Token)
  | 0, ts => .error (expected ending "')'" ts, ts)
  | fuel + 1, ts =>
    if nextIs .rparen ts then .ok (([], nextSpan ending ts), ts.tail)
    else do
      let (a, ts) ← argument ending ts
      if nextIs .comma ts then
        let ((as, stop), ts) ← argumentsWithin ending fuel ts.tail
        return ((a :: as, stop), ts)
      else
        let (stop, ts) ← expect ending .rparen ts
        return (([a], stop), ts)

/-- Arguments up to the closing parenthesis, with its place. -/
def arguments (ending : Span) (ts : List Token) : Except Halt ((List Argument × Span) × List Token) :=
  argumentsWithin ending (ts.length + 1) ts

/-- A call. -/
def call (ending : Span) (ts : List Token) : Except Halt (Call × List Token) := do
  let ((operation, start), ts) ← expectIdent ending "operation name" ts
  let (_, ts) ← expect ending .lparen ts
  let ((as, stop), ts) ← arguments ending ts
  return (⟨operation, as, start.join stop⟩, ts)

/-! ### Skipping -/

/-- The tokens after the next semicolon, or from the next closing brace on. -/
def recover : List Token → List Token
  | [] => []
  | t :: rest =>
    match t.kind with
    | .rbrace => t :: rest
    | .semi => rest
    | _ => recover rest

/-- The tokens after the brace that closes a block, with `depth` braces open. -/
def skipBlock (depth : Nat) : List Token → List Token
  | [] => []
  | t :: rest =>
    match t.kind with
    | .lbrace => skipBlock (depth + 1) rest
    | .rbrace => if depth - 1 = 0 then rest else skipBlock (depth - 1) rest
    | _ => skipBlock depth rest

/-! ### Statements -/

/-- A statement or why there is none, with the errors inside its blocks and the tokens left. -/
structure Outcome where
  inner : List SourceError
  result : Except SourceError Statement
  rest : List Token

/-- A phrase without blocks as an outcome. -/
def Outcome.ofParsed : Except Halt (Statement × List Token) → Outcome
  | .ok (s, ts) => ⟨[], .ok s, ts⟩
  | .error (e, ts) => ⟨[], .error e, ts⟩

/-- The inside of a block: errors, statements, and the tokens from the closing brace on. -/
structure Body where
  errors : List SourceError
  statements : List Statement
  rest : List Token

/-- The parameters of a block, if it has any. -/
def blockParameters (ending : Span) (ts : List Token) : Except Halt (List Argument × List Token) :=
  if nextIs .lparen ts then do
    let ((as, _), ts) ← arguments ending ts.tail
    return (as, ts)
  else .ok ([], ts)

/-- A block up to its opening brace. -/
def blockHead (ending : Span) (ts : List Token) : Except Halt ((String × Span × List Argument) × List Token) := do
  let ((label, start), ts) ← expectIdent ending blockLabel ts
  let (parameters, ts) ← blockParameters ending ts
  let (_, ts) ← expect ending .lbrace ts
  return ((label, start, parameters), ts)

/-- A block whose inside is read by `body`. -/
def block (ending : Span) (body : List Token → Body) (ts : List Token) : Outcome :=
  match blockHead ending ts with
  | .error (e, ts) => ⟨[], .error e, ts⟩
  | .ok ((label, start, parameters), ts) =>
    let inside := body ts
    match expect ending .rbrace inside.rest with
    | .error (e, ts) => ⟨inside.errors, .error e, ts⟩
    | .ok (stop, ts) =>
      ⟨inside.errors, .ok (.block label parameters inside.statements (start.join stop)), ts⟩

/-- An assignment. -/
def assignment (ending : Span) (ts : List Token) : Except Halt (Statement × List Token) := do
  let ((target, start), ts) ← expectIdent ending "assignment target" ts
  let (_, ts) ← expect ending .eq ts
  let (c, ts) ← call ending ts
  let (stop, ts) ← expect ending .semi ts
  return (.assignment target c (start.join stop), ts)

/-- A bare call. -/
def bareCall (ending : Span) (ts : List Token) : Except Halt (Statement × List Token) := do
  let (c, ts) ← call ending ts
  let (_, ts) ← expect ending .semi ts
  return (.call c, ts)

/-- A block starts here. -/
def atBlock : List Token → Bool
  | ⟨.ident word, _⟩ :: _ => word == blockLabel
  | _ => false

/-- A statement; the inside of a block is read by `body`. -/
def statement (ending : Span) (body : List Token → Body) (ts : List Token) : Outcome :=
  if atBlock ts then block ending body ts
  else
    match ts with
    | ⟨.ident _, _⟩ :: ⟨.eq, _⟩ :: _ => .ofParsed (assignment ending ts)
    | ⟨.ident _, _⟩ :: ⟨.lparen, _⟩ :: _ => .ofParsed (bareCall ending ts)
    | ts => ⟨[], .error (expected ending "declaration or statement" ts), ts⟩

/-- The name that a declaration declares. -/
def declaredName : List Token → String
  | _ :: ⟨.ident name, _⟩ :: _ => name
  | _ => ""

/-- Statements up to a closing brace or the end; `deepest` tells that no block may be opened. -/
def bodyWithin (ending : Span) (deepest : Bool) (one : List Token → Outcome) : Nat → List Token → Body
  | 0, ts => ⟨[], [], ts⟩
  | fuel + 1, ts =>
    if ts.isEmpty || nextIs .rbrace ts then ⟨[], [], ts⟩
    else if atDeclaration ts then
      let more := bodyWithin ending deepest one fuel (recover ts)
      { more with errors := .lateDeclaration (declaredName ts) (nextSpan ending ts) :: more.errors }
    else if deepest && atBlock ts then
      let more := bodyWithin ending deepest one fuel (skipBlock 0 ts)
      { more with errors := .nestingTooDeep maxBlockDepth (nextSpan ending ts) :: more.errors }
    else
      let first := one ts
      match first.result with
      | .ok s =>
        let more := bodyWithin ending deepest one fuel first.rest
        ⟨first.inner ++ more.errors, s :: more.statements, more.rest⟩
      | .error e =>
        let more := bodyWithin ending deepest one fuel (recover first.rest)
        ⟨first.inner ++ e :: more.errors, more.statements, more.rest⟩

/-- The inside of a block in which blocks can be nested `room` deep. -/
def body (ending : Span) : Nat → List Token → Body
  | 0, ts => bodyWithin ending true (statement ending (fun ts => ⟨[], [], ts⟩)) (ts.length + 1) ts
  | room + 1, ts => bodyWithin ending false (statement ending (body ending room)) (ts.length + 1) ts

/-- A statement that stands outside all blocks. -/
def topStatement (ending : Span) : List Token → Outcome :=
  statement ending (body ending (maxBlockDepth - 1))

/-! ### Programs -/

/-- What has been read of a program: its errors, declarations and statements. -/
structure Reading where
  errors : List SourceError
  declarations : List Declaration
  statements : List Statement

/-- Go on after an error outside all blocks: a closing brace is skipped too. -/
def resume (ts : List Token) : List Token :=
  let ts := recover ts
  if nextIs .rbrace ts then ts.tail else ts

/-- Declarations and statements up to the end; after the first statement (`late`) a declaration is an
error. -/
def readWithin (ending : Span) : Nat → Bool → List Token → Reading
  | 0, _, _ => ⟨[], [], []⟩
  | fuel + 1, late, ts =>
    if ts.isEmpty then ⟨[], [], []⟩
    else if atDeclaration ts then
      match declaration ending ts with
      | .ok (d, ts) =>
        let more := readWithin ending fuel late ts
        if late then { more with errors := .lateDeclaration d.name d.span :: more.errors }
        else { more with declarations := d :: more.declarations }
      | .error (e, ts) =>
        let more := readWithin ending fuel late (resume ts)
        { more with errors := e :: more.errors }
    else
      let first := topStatement ending ts
      match first.result with
      | .ok s =>
        let more := readWithin ending fuel true first.rest
        { more with errors := first.inner ++ more.errors, statements := s :: more.statements }
      | .error e =>
        let more := readWithin ending fuel late (resume first.rest)
        { more with errors := first.inner ++ e :: more.errors }

/-- The program of the tokens, or every error in them. -/
def program (ts : Tokens) : Except (List SourceError) Program :=
  let reading := readWithin ts.ending (ts.tokens.length + 1) false ts.tokens
  if reading.errors.isEmpty then .ok ⟨reading.declarations, reading.statements⟩ else .error reading.errors

end Waveflow.Parser
