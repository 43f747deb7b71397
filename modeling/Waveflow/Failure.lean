import Waveflow.Compile.Compiler

/-!
# Failures around a compilation

What can keep a source text from becoming an artifact at its backend, from the configuration to the
hand-over.  Errors in the source itself are diagnostics of a compilation that came to its end.
-/

namespace Waveflow

/-- What keeps a program from reaching its backend. -/
inductive Failure where
  /-- The configuration asks for something impossible. -/
  | config (message : String)
  /-- The compiler cannot be set up. -/
  | compiler (cause : CompileError)
  /-- The compilation ended with errors. -/
  | compilation (stage : Stage) (errors : Nat) (first : String)
  /-- The compilation took longer than its time limit. -/
  | timeout (ms : Nat)
  /-- The compilation did not come to an end. -/
  | task (cause : Fault)
  /-- The compilation never gave an answer. -/
  | unfinished
  /-- The backend refused the artifact. -/
  | emit (message : String)
  /-- A file cannot be read. -/
  | file
  /-- A text is not the expected YAML. -/
  | yaml
  /-- A text is not the expected JSON. -/
  | json
deriving Repr, BEq

/-- A time in milliseconds: from one second on in seconds, with as many decimals as it takes. -/
def durationText (ms : Nat) : String :=
  if ms = 0 then "0ns"
  else if ms < 1000 then toString ms ++ "ms"
  else if ms % 1000 = 0 then toString (ms / 1000) ++ "s"
  else
    let decimals := (toString (1000 + ms % 1000)).toList.drop 1
    toString (ms / 1000) ++ "." ++ String.ofList (decimals.reverse.dropWhile (· == '0')).reverse ++ "s"

/-- The wording of a failure; a failure outside the compiler has none here. -/
def Failure.message? : Failure → Option String
  | config message => some ("Configuration error: " ++ message)
  | compiler cause => some ("Compiler error: " ++ cause.message)
  | compilation stage errors first =>
    some ("Compilation failed in " ++ stage.name ++ " stage with " ++ toString errors ++ " error(s): " ++ first)
  | timeout ms => some ("Compilation timed out after " ++ durationText ms)
  | emit message => some ("Emit error: " ++ message)
  | task _ | unfinished | file | yaml | json => none

/-- The failure of a compilation without a schedule. -/
def CompileResult.failure (r : CompileResult) : Failure :=
  match r.diagnostics.find? Diagnostic.isError with
  | some first => .compilation first.stage r.diagnostics.errorCount first.text
  | none => .compilation .emit 0 "compilation produced no schedule"

/-- The result of a compilation that succeeded, or its failure. -/
def CompileResult.checked (r : CompileResult) : Except Failure CompileResult :=
  if r.success then .ok r else .error r.failure

end Waveflow
