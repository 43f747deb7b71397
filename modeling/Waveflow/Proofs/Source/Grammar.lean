import Waveflow.Source.Parser
import Waveflow.Proofs.Decimal.Whole

/-!
# The grammar

    program     := declaration* statement*
    declaration := ("input" | "output") IDENT ":" type ";"
    type        := IDENT ( "[" INTEGER ("," INTEGER)* "]" )?
    statement   := IDENT "=" call ";"
                 | call ";"
                 | "maintain_coherence" ( "(" arguments? ")" )? "{" statement* "}"
    call        := IDENT "(" arguments? ")"
    arguments   := argument ("," argument)* ","?
    argument    := IDENT ":" value | value
    value       := NUMBER | "-" NUMBER | STRING | IDENT

Each phrase is a relation between the kinds of its tokens and its tree.  Trees have no places: `unplaced` forgets
those of a program.
-/

namespace Waveflow

/-! ### Trees -/

def Argument.unplaced (a : Argument) : Argument := ⟨a.name, a.value, .nowhere⟩

def Call.unplaced (c : Call) : Call := ⟨c.operation, c.arguments.map Argument.unplaced, .nowhere⟩

def Declaration.unplaced (d : Declaration) : Declaration := ⟨d.direction, d.name, d.ty, .nowhere⟩

namespace Statement

mutual

def unplaced : Statement → Statement
  | assignment target c _ => .assignment target c.unplaced .nowhere
  | call c => .call c.unplaced
  | block label parameters body _ => .block label (parameters.map Argument.unplaced) (unplacedAll body) .nowhere

def unplacedAll : List Statement → List Statement
  | [] => []
  | s :: rest => s.unplaced :: unplacedAll rest

end

mutual

/-- How deep blocks are nested in a statement. -/
def nesting : Statement → Nat
  | assignment _ _ _ => 0
  | call _ => 0
  | block _ _ body _ => nestingAll body + 1

/-- How deep blocks are nested in some statements. -/
def nestingAll : List Statement → Nat
  | [] => 0
  | s :: rest => max s.nesting (nestingAll rest)

end

mutual

@[simp] lemma nesting_unplaced (s : Statement) : s.unplaced.nesting = s.nesting := by
  cases s with
  | assignment target c span => rfl
  | call c => rfl
  | block label parameters body span =>
    rw [unplaced, nesting, nesting, nestingAll_unplacedAll body]

@[simp] lemma nestingAll_unplacedAll (ss : List Statement) : nestingAll (unplacedAll ss) = nestingAll ss := by
  cases ss with
  | nil => rfl
  | cons s rest => rw [unplacedAll, nestingAll, nestingAll, nesting_unplaced s, nestingAll_unplacedAll rest]

end

end Statement

/-- The program without its places in the text. -/
def Program.unplaced (p : Program) : Program :=
  ⟨p.declarations.map Declaration.unplaced, Statement.unplacedAll p.statements⟩

/-- The word that opens a declaration. -/
def Direction.word : Direction → String
  | input => "input"
  | output => "output"

/-! ### Phrases -/

namespace Grammar

open Waveflow.Parser (blockLabel maxBlockDepth)

variable {α : Type}

/-- A phrase any number of times. -/
inductive Star (D : List TokenKind → α → Prop) : List TokenKind → List α → Prop
  | nil : Star D [] []
  | cons {ks ls a as} : D ks a → Star D ls as → Star D (ks ++ ls) (a :: as)

/-- A list or nothing. -/
inductive Opt (D : List TokenKind → List α → Prop) : List TokenKind → List α → Prop
  | none : Opt D [] []
  | some {ks as} : D ks as → Opt D ks as

inductive IsValue : List TokenKind → ArgumentValue → Prop
  | number (x : Float) : IsValue [.number x] (.literal (.number (.ofFloat x)))
  | negative (x : Float) : IsValue [.minus, .number x] (.literal (.number (.ofFloat (-x))))
  | text (s : String) : IsValue [.str s] (.literal (.text s))
  | name (s : String) : IsValue [.ident s] (.identifier s)

inductive IsArgument : List TokenKind → Argument → Prop
  | named {ks v} (name : String) : IsValue ks v → IsArgument (.ident name :: .colon :: ks)
      ⟨some name, v, .nowhere⟩
  | positional {ks v} : IsValue ks v → IsArgument ks ⟨none, v, .nowhere⟩

/-- One or more arguments; a comma may follow the last. -/
inductive IsArguments : List TokenKind → List Argument → Prop
  | last {ks a} : IsArgument ks a → IsArguments ks [a]
  | trailing {ks a} : IsArgument ks a → IsArguments (ks ++ [.comma]) [a]
  | more {ks a ls as} : IsArgument ks a → IsArguments ls as → IsArguments (ks ++ .comma :: ls) (a :: as)

inductive IsCall : List TokenKind → Call → Prop
  | mk {ks as} (operation : String) : Opt IsArguments ks as →
      IsCall (.ident operation :: .lparen :: (ks ++ [.rparen])) ⟨operation, as, .nowhere⟩

/-- One or more sizes: whole numbers below the limit. -/
inductive IsDimensions : List TokenKind → List Nat → Prop
  | last {x n} : Decimal.Exactly x n → n < wordLimit → IsDimensions [.number x] [n]
  | more {x n ks ns} : Decimal.Exactly x n → n < wordLimit → IsDimensions ks ns →
      IsDimensions (.number x :: .comma :: ks) (n :: ns)

inductive IsShape : List TokenKind → List Nat → Prop
  | none : IsShape [] []
  | some {ks ns} : IsDimensions ks ns → IsShape (.lbracket :: (ks ++ [.rbracket])) ns

/-- An element kind with a shape that fits it. -/
inductive IsType : List TokenKind → ValueType → Prop
  | mk {ks ns word element ty} : ElementKind.ofName? word = some element → IsShape ks ns →
      ValueType.make element ns = .ok ty → IsType (.ident word :: ks) ty

inductive IsDeclaration : List TokenKind → Declaration → Prop
  | mk {ks ty} (direction : Direction) (name : String) : IsType ks ty →
      IsDeclaration (.ident direction.word :: .ident name :: .colon :: (ks ++ [.semi]))
        ⟨direction, name, ty, .nowhere⟩

inductive IsParameters : List TokenKind → List Argument → Prop
  | none : IsParameters [] []
  | some {ks as} : Opt IsArguments ks as → IsParameters (.lparen :: (ks ++ [.rparen])) as

/-- A statement.  The name that opens a block opens nothing else. -/
inductive IsStatement : List TokenKind → Statement → Prop
  | assignment {ks c target} : target ≠ blockLabel → IsCall ks c →
      IsStatement (.ident target :: .eq :: (ks ++ [.semi])) (.assignment target c .nowhere)
  | call {ks c} : c.operation ≠ blockLabel → IsCall ks c → IsStatement (ks ++ [.semi]) (.call c)
  | block {ks ls as ss} : IsParameters ks as → Star IsStatement ls ss →
      IsStatement (.ident blockLabel :: (ks ++ .lbrace :: (ls ++ [.rbrace]))) (.block blockLabel as ss .nowhere)

/-- A program, with blocks nested only so deep. -/
inductive IsProgram : List TokenKind → Program → Prop
  | mk {ks ls ds ss} : Star IsDeclaration ks ds → Star IsStatement ls ss →
      Statement.nestingAll ss ≤ maxBlockDepth → IsProgram (ks ++ ls) ⟨ds, ss⟩

end Grammar

end Waveflow
