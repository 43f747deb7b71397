import Waveflow.Json.Basic
import Waveflow.Graph.Correction

/-!
# Operation kinds

The operations that the compiler knows by itself, and the ones that a registry adds by name.
-/

namespace Waveflow

/-- The kind of an operation. -/
inductive OpKind where
  /-- Superposes two or more values. -/
  | interfere
  /-- Merges several values into one. -/
  | merge
  /-- Derives a value from one. -/
  | split
  /-- Shifts the phase of a value. -/
  | phaseShift
  /-- Transforms a value into its spectrum. -/
  | fourier
  /-- Measures a value. -/
  | measure
  /-- Applies error correction on request. -/
  | correct
  /-- Puts values into a protected block. -/
  | encode (code : String) (distance : Nat)
  /-- Takes a value out of a protected block. -/
  | decode (code : String) (distance : Nat)
  /-- Gathers the parts of a divided operation. -/
  | join
  /-- An operation that is known by name only. -/
  | custom (name : String)
deriving Repr, DecidableEq

namespace OpKind

/-- The name under which a kind is registered. -/
def name : OpKind → String
  | interfere => "interfere"
  | merge => "merge"
  | split => "split"
  | phaseShift => "phase_shift"
  | fourier => "fourier"
  | measure => "measure"
  | correct => "correct"
  | encode _ _ => "encode"
  | decode _ _ => "decode"
  | join => "join"
  | custom name => name

/-- The kind without parameters that a name stands for. -/
def builtin? : String → Option OpKind
  | "interfere" => some interfere
  | "merge" => some merge
  | "split" => some split
  | "phase_shift" => some phaseShift
  | "fourier" => some fourier
  | "measure" => some measure
  | "correct" => some correct
  | "join" => some join
  | _ => none

/-- The kind serves error correction. -/
def isProtection : OpKind → Bool
  | correct | encode _ _ | decode _ _ => true
  | _ => false

/-- How a kind is written. -/
def text : OpKind → String
  | encode code distance => "encode(" ++ code ++ ", d=" ++ toString distance ++ ")"
  | decode code distance => "decode(" ++ code ++ ", d=" ++ toString distance ++ ")"
  | kind => kind.name

def toJson : OpKind → Json
  | encode code distance => .obj [("encode", .obj [("code", .str code), ("distance", .nat distance)])]
  | decode code distance => .obj [("decode", .obj [("code", .str code), ("distance", .nat distance)])]
  | custom name => .obj [("custom", .str name)]
  | kind => .str kind.name

def codeOfJson? (content : Option Json) : Option (String × Nat) := do
  match ← Json.content? false ["code", "distance"] content with
  | [code, distance] => some (← Json.need Json.str? code, ← Json.need Json.word? distance)
  | _ => none

def ofJson? (j : Json) : Option OpKind := do
  match ← j.variant? with
  | ("encode", content) => (codeOfJson? content).map (fun (c, d) => encode c d)
  | ("decode", content) => (codeOfJson? content).map (fun (c, d) => decode c d)
  | ("custom", some name) => name.str?.map custom
  | (word, content) => if Json.isBare content then builtin? word else none

end OpKind

end Waveflow
