import Waveflow.Config.Basic
import Waveflow.Yaml.Decode
import Waveflow.Yaml.Reader

/-!
# Configuration texts

Configurations are read from YAML or JSON text, or from a file whose extension names the format.  A
value with a tag, such as a budget, is tagged in YAML too: `!bounded 3`.
-/

namespace Waveflow

/-! ### Values of a configuration in YAML -/

open Yaml (Document)

def Budget.ofYaml? (d : Document) (y : Yaml) : Option Budget := do
  match ← d.variant? y with
  | ("bounded", some x) => (d.float? x).map (fun x => bounded (.ofFloat x))
  | ("unbounded", content) => if Document.isBare content then some unbounded else none
  | _ => none

def Correction.ofYaml? (d : Document) (y : Yaml) : Option Correction := do
  match ← d.variant? y with
  | ("none", content) => if Document.isBare content then some none else Option.none
  | ("basic", some content) =>
    match ← d.record? ["code"] content with
    | [code] => some (basic (← d.need Document.str? code))
    | _ => Option.none
  | ("fault_tolerant", some content) =>
    match ← d.record? ["level", "code"] content with
    | [level, code] => some (faultTolerant (← d.need Document.word? level) (← d.need Document.str? code))
    | _ => Option.none
  | _ => Option.none

def Options.ofYaml? (d : Document) (y : Yaml) : Option Options := do
  match ← d.record? fieldNames y with
  | [passList, ceiling, correction, coherence, fixedPoint, maxIterations] =>
    some ⟨← d.orElse standard.passList (Document.list? Document.str?) passList,
      ← d.orElse none (Document.opt? Document.float?) ceiling, ← d.orElse .none Correction.ofYaml? correction,
      ← d.orElse .unbounded Budget.ofYaml? coherence, ← d.orElse false Document.bool? fixedPoint,
      ← d.orElse 16 Document.long? maxIterations⟩
  | _ => none

def ServiceSettings.ofYaml? (d : Document) (y : Yaml) : Option ServiceSettings := do
  match ← d.record? fieldNames y with
  | [timeout, concurrency] =>
    some ⟨← d.orElse none (Document.opt? Document.long?) timeout, ← d.orElse 4 Document.long? concurrency⟩
  | _ => none

def EmitSettings.ofYaml? (d : Document) (y : Yaml) : Option EmitSettings := do
  match ← d.record? fieldNames y with
  | [pretty] => some ⟨← d.orElse false Document.bool? pretty⟩
  | _ => none

namespace Config

/-- The configuration that fills a document. -/
def ofYaml? (d : Document) : Option Config := do
  match ← d.record? fieldNames d.root with
  | [compiler, service, emit] =>
    some ⟨← d.orElse Options.standard Options.ofYaml? compiler,
      ← d.orElse ServiceSettings.standard ServiceSettings.ofYaml? service,
      ← d.orElse EmitSettings.standard EmitSettings.ofYaml? emit⟩
  | _ => none

/-! ### Texts and files -/

/-- The formats in which configurations are written. -/
inductive Format where
  | yaml
  | json
deriving Repr, DecidableEq

/-- The format of a file extension. -/
def Format.ofExtension? : String → Option Format
  | "yaml" | "yml" => some yaml
  | "json" => some json
  | _ => none

/-- Read a configuration and check its settings. -/
def ofText (format : Format) (text : String) : Except Failure Config :=
  match format with
  | .yaml => match (Yaml.parse? text).bind ofYaml? with
    | some c => c.validated
    | none => .error .yaml
  | .json => match (Json.parse? text).bind (read? true) with
    | some c => c.validated
    | none => .error .json

/-- What follows the last dot of a name, unless that dot comes first. -/
def extension? (name : String) : Option String :=
  let reversed := name.toList.reverse
  match reversed.dropWhile (· != '.') with
  | _ :: _ :: _ => some (String.ofList (reversed.takeWhile (· != '.')).reverse)
  | _ => none

/-- The configuration in a file, of which the content is given if it can be read. -/
def ofFile (name : String) (content : Option String) : Except Failure Config :=
  match content with
  | none => .error .file
  | some text =>
    match (extension? name).bind Format.ofExtension? with
    | some format => ofText format text
    | none => .error (.config ("unsupported configuration file: " ++ name))

end Config

end Waveflow
