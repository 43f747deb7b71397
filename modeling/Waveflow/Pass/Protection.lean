import Waveflow.Pass.Basic

/-!
# The error-correction pass

An operation that asks for protection is put between an encoding of its inputs and a decoding of its
result.  The decoding takes over the number of the operation, so nothing that uses it changes.
-/

namespace Waveflow

/-- The mark of a protected operation and of what protects it. -/
def protectedMark : String := "ec.wrapped"

namespace ProtectionPass

/-- The codes that can be encoded. -/
def supportedCodes : List String := ["repetition", "surface", "steane", "shor", "color"]

/-- The node is a known operation of a program that asks for protection and has none. -/
def isTarget (r : Registry) (n : Node) : Bool :=
  !n.attrs.correction.isNone && !n.attrs.hasFlag protectedMark &&
    (match n.op?.bind r.specOf? with
      | some spec => !spec.internal
      | none => false)

/-- The thermal budget of a kind of operation. -/
def thermalOf (r : Registry) (kind : OpKind) : Budget :=
  match r.specOf? kind with
  | some spec => .bounded (.ofFloat spec.thermalLoad)
  | none => .unbounded

/-- The type of the encoded inputs of a node, or its own where they have none. -/
def encodedType (r : Registry) (g : Graph) (n : Node) (encode : OpKind) : ValueType :=
  match r.specOf? encode with
  | none => n.ty
  | some spec =>
    match spec.resultType ((n.inputs.filterMap g.node?).map (·.ty)) with
    | .ok ty => ty
    | .error _ => n.ty

/-- Marked as protected. -/
def sealed (a : Attributes) : Attributes := a.mark protectedMark (.flag true)

/-- Put a node between an encoding and a decoding. -/
def wrapIn (r : Registry) (g : Graph) (n : Node) (code : String) (distance : Nat) : Checked (Attempt Unit) := do
  let encode := OpKind.encode code distance
  let decode := OpKind.decode code distance
  let encoding := Attempt.ofEdit g (← g.addOperation encode n.inputs (encodedType r g n encode))
  encoding.andThen fun e g => do
    let g := g.modify e (fun m => { m with attrs := sealed { n.attrs with thermal := thermalOf r encode } })
    let core := { n with name := none, attrs := sealed n.attrs }
    let inner := Attempt.ofEdit g (← g.insertLike core [e])
    inner.andThen fun c g =>
      match g.setInputs n.id [c] with
      | .error e => .ok ⟨g, .error (.graph e)⟩
      | .ok g =>
        let decoding (m : Node) : Node :=
          { m with
            kind := .operation decode
            params := Dict.empty
            attrs := sealed { m.attrs with thermal := thermalOf r decode } }
        .ok ⟨g.modify n.id decoding, .ok ()⟩

/-- Protect a node as it asks. -/
def wrap (r : Registry) (g : Graph) (id : NodeId) : Checked (Attempt Unit) :=
  match g.node? id with
  | none => .ok ⟨g, .ok ()⟩
  | some n => do
    let distance ← n.attrs.correction.distance
    match n.attrs.correction.code?, distance with
    | some code, some distance =>
      if supportedCodes.contains code then wrapIn r g n code distance
      else return ⟨g, .error (.unsupportedCode id code)⟩
    | _, _ => return ⟨g, .ok ()⟩

/-- Protect nodes in order, up to the first failure. -/
def wrapAll (r : Registry) : List NodeId → Graph → Checked (Attempt Unit)
  | [], g => .ok ⟨g, .ok ()⟩
  | id :: rest, g => do
    let first ← wrap r g id
    first.andThen fun _ g => wrapAll r rest g

/-- Protect every node that asks for it. -/
def run (ctx : PassContext) (g : Graph) : Checked Outcome := do
  let targets := (g.nodes.filter (isTarget ctx.registry)).map (·.id)
  let wrapped ← wrapAll ctx.registry targets g
  return ⟨wrapped.graph, wrapped.result.map (fun _ => !targets.isEmpty), []⟩

end ProtectionPass

/-- The error-correction pass. -/
def protectionPass : Pass where
  name := "error_correction"
  capabilities := ⟨true, false, true, true⟩
  run := ProtectionPass.run

end Waveflow
