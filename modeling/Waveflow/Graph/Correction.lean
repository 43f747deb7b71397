import Waveflow.Refusal
import Waveflow.Json.Basic

/-!
# Protection requirements

A node may ask for error correction: none, basic, or fault-tolerant at a level.  `strength` orders
the requirements and `distance` gives the distance of the code that meets one.
-/

namespace Waveflow

/-- The error correction that a node asks for. -/
inductive Correction where
  | none
  | basic (code : String)
  | faultTolerant (level : Nat) (code : String)
deriving Repr, DecidableEq

namespace Correction

instance : Inhabited Correction := ⟨none⟩

/-- The code of basic protection where none is named. -/
def basicCode : String := "repetition"

/-- The code of fault-tolerant protection where none is named. -/
def faultTolerantCode : String := "surface"

/-- Fault-tolerant protection of at least level one, in the usual code. -/
def atLevel (level : Nat) : Correction := faultTolerant (max level 1) faultTolerantCode

/-- The same protection in another code. -/
def withCode (c : Correction) (code : String) : Correction :=
  match c with
  | none => none
  | basic _ => basic code
  | faultTolerant level _ => faultTolerant level code

/-- The requirement that a word stands for, refined by a level and a code. -/
def ofParts (name : String) (level : Option Nat) (code : Option String) : Except Refusal Correction :=
  let named (c : Correction) : Correction :=
    match code with
    | some code => c.withCode code
    | Option.none => c
  if name = "none" then
    if code.isSome || level.isSome then .error .unprotectedDetail else .ok none
  else if name = "basic" then
    if level.isSome then .error .basicLevel else .ok (named (basic basicCode))
  else if name = "fault_tolerant" then .ok (named (atLevel (level.getD 1)))
  else .error (.unknownCorrection name)

/-- The strength of a requirement: none 0, basic 1, fault-tolerant one more than its level. -/
def strength : Correction → Checked Nat
  | none => .ok 0
  | basic _ => .ok 1
  | faultTolerant level _ => addWord 1 level

/-- The code of a requirement. -/
def code? : Correction → Option String
  | none => Option.none
  | basic code => some code
  | faultTolerant _ code => some code

/-- The distance of the code: 3 for basic protection, `2 * level + 1` for fault-tolerant. -/
def distance : Correction → Checked (Option Nat)
  | none => .ok Option.none
  | basic _ => .ok (some 3)
  | faultTolerant level _ => do
    let twice ← mulWord 2 level
    some <$> addWord twice 1

def isNone : Correction → Bool
  | none => true
  | _ => false

def isFaultTolerant : Correction → Bool
  | faultTolerant _ _ => true
  | _ => false

/-- How a requirement is written. -/
def text : Correction → String
  | none => "none"
  | basic code => "basic(" ++ code ++ ")"
  | faultTolerant level code => "fault_tolerant-" ++ toString level ++ "(" ++ code ++ ")"

def toJson : Correction → Json
  | none => .str "none"
  | basic code => .obj [("basic", .obj [("code", .str code)])]
  | faultTolerant level code =>
    .obj [("fault_tolerant", .obj [("level", .nat level), ("code", .str code)])]

/-- A requirement, whose fields may be given by position or not. -/
def read? (positional : Bool) (j : Json) : Option Correction := do
  match ← j.variant? with
  | ("none", content) => if Json.isBare content then some none else Option.none
  | ("basic", content) =>
    match ← Json.content? positional ["code"] content with
    | [code] => some (basic (← Json.need Json.str? code))
    | _ => Option.none
  | ("fault_tolerant", content) =>
    match ← Json.content? positional ["level", "code"] content with
    | [level, code] =>
      some (faultTolerant (← Json.need Json.word? level) (← Json.need Json.str? code))
    | _ => Option.none
  | _ => Option.none

def ofJson? : Json → Option Correction := read? false

end Correction

end Waveflow
