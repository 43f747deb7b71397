import Waveflow.Yaml.Scan

/-!
# From tokens to YAML documents

The grammar of tokens, read from left to right.  A text holds at most one document.  In front of it
there may be directives, which say what the handles of tags stand for.
-/

namespace Waveflow.Yaml

/-! ### Handles -/

/-- What handles stand for; a text that cannot be read is none. -/
abbrev Handles := List (String × Option String)

/-- The handles that need no directive. -/
def standardHandles : Handles := [("!", some "!"), ("!!", some "tag:yaml.org,2002:")]

/-- The tag of a handle and an ending.  Without a handle the ending is all of it. -/
def tagOf? (handles : Handles) (handle : String) (ending : Option String) : Option Tag := do
  let stem ← if handle = "" then some (some "") else List.lookup handle handles
  match stem, ending with
  | some stem, some ending => some (.named (stem ++ ending))
  | _, _ => some .unreadable

/-- The directives of a document.  Each handle is given once and the version is given at most once: it is
1.1 or 1.2. -/
def directives? : Bool → Handles → List Token → Option (Handles × List Token)
  | versioned, handles, .version major minor :: rest =>
    if versioned || major != 1 || (minor != 1 && minor != 2) then none else directives? true handles rest
  | versioned, handles, .handle name stem :: rest =>
    if (handles.lookup name).isSome then none else directives? versioned ((name, stem) :: handles) rest
  | _, handles, rest => some (handles ++ standardHandles, rest)

/-! ### Nodes -/

/-- Where a node stands: as the whole of a document or in a block sequence, in a block mapping, or in a
flow collection. -/
inductive Place where
  | item
  | entry
  | flow
deriving Repr, DecidableEq

/-- A reader in progress: the tokens still to be read, and the numbers of the anchors. -/
structure Reading where
  tokens : List Token
  anchors : List (String × Nat)

namespace Reading

/-- The next token. -/
def next? (r : Reading) : Option Token := r.tokens.head?

/-- The next token is one of some. -/
def isAt (ts : List Token) (r : Reading) : Bool := r.next?.any ts.contains

/-- The reader after the next token. -/
def skip (r : Reading) : Reading := { r with tokens := r.tokens.tail }

/-- The number of a new anchor: how many names there are without it. -/
def anchored (anchor : Option String) (r : Reading) : Option Nat × Reading :=
  match anchor with
  | some name =>
    let others := r.anchors.filter (fun a => a.1 != name)
    (some r.anchors.length, { r with anchors := (name, r.anchors.length) :: others })
  | none => (none, r)

/-- The name of an anchor that comes next. -/
def anchor (r : Reading) : Option String × Reading :=
  match r.next? with
  | some (.anchor name) => (some name, r.skip)
  | _ => (none, r)

/-- The tag that comes next. -/
def tag? (handles : Handles) (r : Reading) : Option (Option Tag × Reading) :=
  match r.next? with
  | some (.tag handle ending) => (tagOf? handles handle ending).map (fun t => (some t, r.skip))
  | _ => some (none, r)

/-- The anchor and the tag of a node, in either order. -/
def properties? (handles : Handles) (r : Reading) : Option (Option String × Option Tag × Reading) := do
  let (early, r) := r.anchor
  let (tag, r) ← r.tag? handles
  let (late, r) := if early.isNone && tag.isSome then r.anchor else (none, r)
  some (early <|> late, tag, r)

/-- The node with some properties where nothing is written, which has to have one of them. -/
def bare? (mark : Option Nat) (tag : Option Tag) (r : Reading) : Option (Yaml × Reading) :=
  if mark.isSome || tag.isSome then some (scalar mark tag .plain "", r) else none

mutual

/-- A node.  Block collections stand in no flow collection; a sequence in a block mapping needs no start
and no end of its own. -/
def node? (handles : Handles) (place : Place) : Nat → Reading → Option (Yaml × Reading)
  | 0, _ => none
  | fuel + 1, r =>
    match r.next? with
    | some (.reference name) => (List.lookup name r.anchors).map (fun mark => (reference mark, r.skip))
    | _ => do
      let (name, tag, r) ← r.properties? handles
      let (mark, r) := r.anchored name
      match r.next? with
      | some (.scalar style text) => some (scalar mark (tag.filter (· ≠ .named "!")) style text, r.skip)
      | some .flowSequence =>
        (flowItems? handles true fuel r.skip).map (fun (items, r) => (seq mark tag items, r))
      | some .flowMapping =>
        (flowEntries? handles true fuel r.skip).map (fun (entries, r) => (map mark tag entries, r))
      | some .blockSequence =>
        if place = .flow then r.bare? mark tag
        else (blockItems? handles fuel r.skip).map (fun (items, r) => (seq mark tag items, r))
      | some .blockMapping =>
        if place = .flow then r.bare? mark tag
        else (blockEntries? handles fuel r.skip).map (fun (entries, r) => (map mark tag entries, r))
      | some .entry =>
        if place = .entry then (looseItems? handles fuel r).map (fun (items, r) => (seq mark tag items, r))
        else r.bare? mark tag
      | _ => r.bare? mark tag

/-- A node, or nothing in front of certain tokens. -/
def nodeBefore? (handles : Handles) (place : Place) (stops : List Token) :
    Nat → Reading → Option (Yaml × Reading)
  | 0, _ => none
  | fuel + 1, r => if r.isAt stops then some (empty, r) else node? handles place fuel r

/-- The value of an entry, which may be missing. -/
def entryValue? (handles : Handles) (place : Place) (stops : List Token) :
    Nat → Reading → Option (Yaml × Reading)
  | 0, _ => none
  | fuel + 1, r => if r.isAt [.value] then nodeBefore? handles place stops fuel r.skip else some (empty, r)

/-- The rest of a block sequence. -/
def blockItems? (handles : Handles) : Nat → Reading → Option (List Yaml × Reading)
  | 0, _ => none
  | fuel + 1, r =>
    match r.next? with
    | some .entry => do
      let (item, r) ← nodeBefore? handles .item [.entry, .blockEnd] fuel r.skip
      let (items, r) ← blockItems? handles fuel r
      some (item :: items, r)
    | some .blockEnd => some ([], r.skip)
    | _ => none

/-- The rest of a sequence without an end. -/
def looseItems? (handles : Handles) : Nat → Reading → Option (List Yaml × Reading)
  | 0, _ => none
  | fuel + 1, r =>
    match r.next? with
    | some .entry => do
      let (item, r) ← nodeBefore? handles .item [.entry, .key, .value, .blockEnd] fuel r.skip
      let (items, r) ← looseItems? handles fuel r
      some (item :: items, r)
    | _ => some ([], r)

/-- The rest of a block mapping. -/
def blockEntries? (handles : Handles) : Nat → Reading → Option (List (Yaml × Yaml) × Reading)
  | 0, _ => none
  | fuel + 1, r =>
    match r.next? with
    | some .key => do
      let (key, r) ← nodeBefore? handles .entry [.key, .value, .blockEnd] fuel r.skip
      let (value, r) ← entryValue? handles .entry [.key, .value, .blockEnd] fuel r
      let (entries, r) ← blockEntries? handles fuel r
      some ((key, value) :: entries, r)
    | some .blockEnd => some ([], r.skip)
    | _ => none

/-- An item of a flow sequence.  A key makes it a mapping of one entry; where that key is missing, the
token after its mark is passed over. -/
def flowItem? (handles : Handles) : Nat → Reading → Option (Yaml × Reading)
  | 0, _ => none
  | fuel + 1, r =>
    if r.isAt [.key] then do
      let r := r.skip
      let (key, r) ← if r.isAt [.value, .comma, .flowSequenceEnd] then some (empty, r.skip)
        else node? handles .flow fuel r
      let (value, r) ← entryValue? handles .flow [.comma, .flowSequenceEnd] fuel r
      some (map none none [(key, value)], r)
    else node? handles .flow fuel r

/-- The rest of a flow sequence.  The items after the first follow a comma, and so may the end. -/
def flowItems? (handles : Handles) (first : Bool) : Nat → Reading → Option (List Yaml × Reading)
  | 0, _ => none
  | fuel + 1, r =>
    if r.isAt [.flowSequenceEnd] then some ([], r.skip)
    else if !first && !r.isAt [.comma] then none
    else
      let r := if first then r else r.skip
      if r.isAt [.flowSequenceEnd] then some ([], r.skip)
      else do
        let (item, r) ← flowItem? handles fuel r
        let (items, r) ← flowItems? handles false fuel r
        some (item :: items, r)

/-- An entry of a flow mapping.  Without a key it is a key itself. -/
def flowEntry? (handles : Handles) : Nat → Reading → Option ((Yaml × Yaml) × Reading)
  | 0, _ => none
  | fuel + 1, r =>
    if r.isAt [.key] then do
      let (key, r) ← nodeBefore? handles .flow [.value, .comma, .flowMappingEnd] fuel r.skip
      let (value, r) ← entryValue? handles .flow [.comma, .flowMappingEnd] fuel r
      some ((key, value), r)
    else (node? handles .flow fuel r).map (fun (key, r) => ((key, empty), r))

/-- The rest of a flow mapping.  The entries after the first follow a comma, and so may the end. -/
def flowEntries? (handles : Handles) (first : Bool) : Nat → Reading → Option (List (Yaml × Yaml) × Reading)
  | 0, _ => none
  | fuel + 1, r =>
    if r.isAt [.flowMappingEnd] then some ([], r.skip)
    else if !first && !r.isAt [.comma] then none
    else
      let r := if first then r else r.skip
      if r.isAt [.flowMappingEnd] then some ([], r.skip)
      else do
        let (entry, r) ← flowEntry? handles fuel r
        let (entries, r) ← flowEntries? handles false fuel r
        some (entry :: entries, r)

end

end Reading

/-! ### Documents -/

/-- The tokens with which no node starts, but which may come after a document without one. -/
def Token.isOutside : Token → Bool
  | .version _ _ | .handle _ _ | .documentStart | .documentEnd => true
  | _ => false

/-- The node that fills a document. -/
def root? (handles : Handles) (tokens : List Token) : Option (Yaml × List Token) :=
  (Reading.node? handles .item (4 * tokens.length + 4) ⟨tokens, []⟩).map (fun (y, r) => (y, r.tokens))

/-- The document of tokens and the tokens after it.  It may do without directives and the mark of its
start; with them it may be empty. -/
def document? (tokens : List Token) : Option (Yaml × List Token) := do
  let (handles, rest) ← directives? false [] tokens
  match rest with
  | .documentStart :: rest =>
    if rest.head?.all Token.isOutside then some (empty, rest) else root? handles rest
  | _ => if rest.length = tokens.length then root? handles tokens else none

/-- The document of a text.  Marks of its end may follow, but no other document. -/
def parse? (text : String) : Option Document := do
  let tokens ← tokens? text
  if tokens.isEmpty then some (.ofRoot empty)
  else
    let (root, rest) ← document? tokens
    if rest.all (· = .documentEnd) then some (.ofRoot root) else none

end Waveflow.Yaml
