import Waveflow.Config.Basic

/-!
# Setting up a compiler

A setup collects a configuration and the operations to be known beside the usual ones.  Nothing is
checked before `Setup.build` makes a compiler of it.
-/

namespace Waveflow

/-- What a compiler is made from. -/
structure Setup where
  config : Config
  /-- Operations to be registered, in order. -/
  operations : List OpSpec

namespace Setup

/-- The setup of a configuration, without further operations. -/
def ofConfig (config : Config) : Setup := ⟨config, []⟩

/-- One thing to be set. -/
inductive Setting where
  | options (value : Options)
  | passes (names : List String)
  | thermalCeiling (value : Float)
  | correction (value : Correction)
  | fixedPoint (value : Bool)
  | operation (spec : OpSpec)
  | service (value : ServiceSettings)
  | timeoutUs (us : Nat)
  | maxConcurrency (value : Nat)

/-- The options with one of them set. -/
def Setting.onOptions (o : Options) : Setting → Options
  | .options value => value
  | .passes names => { o with passList := names }
  | .thermalCeiling value => { o with thermalCeiling := some value }
  | .correction value => { o with defaultCorrection := value }
  | .fixedPoint value => { o with fixedPoint := value }
  | _ => o

/-- The service settings with one of them set. -/
def Setting.onService (s : ServiceSettings) : Setting → ServiceSettings
  | .service value => value
  | .timeoutUs us => s.withTimeoutUs us
  | .maxConcurrency value => { s with maxConcurrency := value }
  | _ => s

/-- The operations with one more, if the setting is one. -/
def Setting.onOperations (specs : List OpSpec) : Setting → List OpSpec
  | .operation spec => specs ++ [spec]
  | _ => specs

/-- Set one thing; the other ones stay. -/
def set (s : Setup) (setting : Setting) : Setup :=
  { config :=
      { s.config with
        compiler := setting.onOptions s.config.compiler
        service := setting.onService s.config.service }
    operations := setting.onOperations s.operations }

/-- The compiler of a setup, if its configuration is in range and no operation has a known name. -/
def build (s : Setup) : Except Failure Compiler := do
  s.config.validate
  match Registry.builtin.registerAll s.operations with
  | .ok registry => .ok ⟨registry, s.config.compiler⟩
  | .error e => .error (.compiler (.graph e))

end Setup

end Waveflow
