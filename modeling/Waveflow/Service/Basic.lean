import Waveflow.Artifact
import Waveflow.Setup

/-!
# The compile service

A service compiles named source texts with one compiler and hands artifacts to a backend.  A
compilation that does not come to an end is the failure of its own request only.
-/

namespace Waveflow

/-- A named source text. -/
structure Request where
  name : String
  source : String
deriving Repr, DecidableEq

/-- A compiler with the settings of a service. -/
structure Service where
  compiler : Compiler
  settings : ServiceSettings

/-- What a request comes to: the result of its compilation, with errors or not, or a failure. -/
abbrev Answer := Except Failure CompileResult

/-- A backend that keeps the artifacts it accepts. -/
structure Backend where
  /-- Why a program is refused. -/
  refuses : String → Option String
  /-- The accepted artifacts, in order. -/
  stored : List Artifact

/-- Hand an artifact to a backend. -/
def Backend.submit (b : Backend) (a : Artifact) : Except Failure Backend :=
  match b.refuses a.program with
  | some reason => .error (.emit reason)
  | none => .ok { b with stored := b.stored ++ [a] }

namespace Service

/-- The service of a configuration, with the usual operations. -/
def ofConfig (config : Config) : Except Failure Service := do
  config.validate
  return ⟨Compiler.withOptions config.compiler, config.service⟩

/-- The service of a setup. -/
def ofSetup (s : Setup) : Except Failure Service := do
  let compiler ← s.build
  return ⟨compiler, s.config.service⟩

/-- Compile one request. -/
def compile (s : Service) (r : Request) : Answer :=
  match s.compiler.compile r.source with
  | .ok result => .ok result
  | .error overflow => .error (.task overflow)

/-- Compile a request and hand its artifact to a backend; gives the artifact and what the backend has
then. -/
def submit (s : Service) (b : Backend) (r : Request) : Except Failure (Artifact × Backend) := do
  let result ← s.compile r
  let artifact ← Artifact.ofResult r.name result
  let b ← b.submit artifact
  return (artifact, b)

end Service

end Waveflow
