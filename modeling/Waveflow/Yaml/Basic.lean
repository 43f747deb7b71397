/-!
# YAML values

A YAML document is a tree of scalars, sequences and mappings, in which a node may refer to another one.
Nodes that can be referred to carry a number, and a reference stands for the last node with its number,
which may well be a node around the reference itself.  What a scalar means is decided by who reads it.
-/

namespace Waveflow

namespace Yaml

/-- How a scalar is written. -/
inductive Style where
  | plain
  | single
  | double
  | literal
  | folded
deriving Repr, DecidableEq

/-- A tag: its full text, unless its escapes stand for no text. -/
inductive Tag where
  | named (text : String)
  | unreadable
deriving Repr, DecidableEq

/-- The tag of a type that YAML itself knows. -/
def Tag.core (type : String) : Tag := .named ("tag:yaml.org,2002:" ++ type)

/-- The word of a tag that starts with an exclamation mark; the mark alone is a word itself. -/
def Tag.word? : Tag → Option String
  | .named text =>
    match text.toList with
    | ['!'] => some "!"
    | '!' :: word => some (String.ofList word)
    | _ => none
  | .unreadable => none

end Yaml

/-- A node of a YAML document. -/
inductive Yaml where
  | scalar (mark : Option Nat) (tag : Option Yaml.Tag) (style : Yaml.Style) (text : String)
  | seq (mark : Option Nat) (tag : Option Yaml.Tag) (items : List Yaml)
  | map (mark : Option Nat) (tag : Option Yaml.Tag) (entries : List (Yaml × Yaml))
  | reference (mark : Nat)

namespace Yaml

/-- The node where nothing is written. -/
def empty : Yaml := scalar none none .plain ""

instance : Inhabited Yaml := ⟨empty⟩

/-- A node under its number, if it has one. -/
def under (mark : Option Nat) (y : Yaml) : List (Nat × Yaml) :=
  match mark with
  | some n => [(n, y)]
  | none => []

mutual

/-- The numbered nodes of a tree in the order in which they start. -/
def marked : Yaml → List (Nat × Yaml)
  | scalar mark tag style text => under mark (scalar mark tag style text)
  | seq mark tag items => under mark (seq mark tag items) ++ markedItems items
  | map mark tag entries => under mark (map mark tag entries) ++ markedEntries entries
  | reference _ => []

def markedItems : List Yaml → List (Nat × Yaml)
  | [] => []
  | y :: rest => y.marked ++ markedItems rest

def markedEntries : List (Yaml × Yaml) → List (Nat × Yaml)
  | [] => []
  | (key, value) :: rest => key.marked ++ value.marked ++ markedEntries rest

end

/-- A document: its tree, and the nodes to which references lead, the last first. -/
structure Document where
  root : Yaml
  anchored : List (Nat × Yaml)

namespace Document

/-- The document of a tree. -/
def ofRoot (root : Yaml) : Document := ⟨root, root.marked.reverse⟩

/-- The node itself, or the one for which it stands. -/
def follow (d : Document) : Yaml → Yaml
  | reference mark => (List.lookup mark d.anchored).getD empty
  | y => y

end Document

end Yaml

end Waveflow
