import Waveflow.Failure

/-!
# Configurations

A configuration holds the options of every compilation, the settings of the compile service and those
of the emitted artifacts.  Everything in it may be left out.
-/

namespace Waveflow

/-- The settings of the compile service. -/
structure ServiceSettings where
  /-- The time after which a compilation is given up, in milliseconds. -/
  timeoutMs : Option Nat
  /-- How many compilations of a batch may run at the same time. -/
  maxConcurrency : Nat
deriving Repr, DecidableEq

namespace ServiceSettings

/-- No time limit, four compilations at a time. -/
def standard : ServiceSettings := ⟨none, 4⟩

instance : Inhabited ServiceSettings := ⟨standard⟩

def fieldNames : List String := ["timeout_ms", "max_concurrency"]

/-- A time limit in microseconds, kept in whole milliseconds and never as zero. -/
def withTimeoutUs (s : ServiceSettings) (us : Nat) : ServiceSettings :=
  { s with timeoutMs := some (max (us / 1000) 1) }

/-- A time limit and a number of compilations, each at least one. -/
def validate (s : ServiceSettings) : Except Failure Unit :=
  if s.timeoutMs = some 0 then .error (.config "service.timeout_ms must be positive")
  else if s.maxConcurrency = 0 then .error (.config "service.max_concurrency must be at least 1")
  else .ok ()

def toJson (s : ServiceSettings) : Json :=
  .obj [("timeout_ms", .opt .nat s.timeoutMs), ("max_concurrency", .nat s.maxConcurrency)]

def ofJson? (j : Json) : Option ServiceSettings := do
  match ← j.record? fieldNames with
  | [timeout, concurrency] =>
    some ⟨← Json.orElse none (Json.opt? Json.long?) timeout, ← Json.orElse 4 Json.long? concurrency⟩
  | _ => none

end ServiceSettings

/-- The settings of emitted artifacts. -/
structure EmitSettings where
  /-- Write with indentation. -/
  pretty : Bool
deriving Repr, DecidableEq

namespace EmitSettings

/-- Write without blanks. -/
def standard : EmitSettings := ⟨false⟩

instance : Inhabited EmitSettings := ⟨standard⟩

def fieldNames : List String := ["pretty"]

def toJson (e : EmitSettings) : Json := .obj [("pretty", .bool e.pretty)]

def ofJson? (j : Json) : Option EmitSettings := do
  match ← j.record? fieldNames with
  | [pretty] => some ⟨← Json.orElse false Json.bool? pretty⟩
  | _ => none

end EmitSettings

/-- A whole configuration. -/
structure Config where
  compiler : Options
  service : ServiceSettings
  emit : EmitSettings

namespace Config

/-- The configuration in which nothing is said. -/
def standard : Config := ⟨Options.standard, ServiceSettings.standard, EmitSettings.standard⟩

instance : Inhabited Config := ⟨standard⟩

def fieldNames : List String := ["compiler", "service", "emit"]

/-- The first setting out of its range, the options first. -/
def validate (c : Config) : Except Failure Unit :=
  match c.compiler.validate with
  | .error e => .error (.compiler e)
  | .ok _ => c.service.validate

/-- The configuration, if all its settings are in range. -/
def validated (c : Config) : Except Failure Config := do
  c.validate
  return c

def toJson (c : Config) : Json :=
  .obj [("compiler", c.compiler.toJson), ("service", c.service.toJson), ("emit", c.emit.toJson)]

/-- A configuration, in which the fields of tagged records may be given by position or not. -/
def read? (positional : Bool) (j : Json) : Option Config := do
  match ← j.record? fieldNames with
  | [compiler, service, emit] =>
    some ⟨← Json.orElse Options.standard (Options.read? positional) compiler,
      ← Json.orElse ServiceSettings.standard ServiceSettings.ofJson? service,
      ← Json.orElse EmitSettings.standard EmitSettings.ofJson? emit⟩
  | _ => none

def ofJson? : Json → Option Config := read? false

end Config

end Waveflow
