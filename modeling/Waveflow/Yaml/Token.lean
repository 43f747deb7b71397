import Waveflow.Yaml.Basic

/-!
# YAML tokens

A YAML text is a list of tokens.  Block collections have no brackets in the text: their starts and ends
follow from the indentation, and so does the token in front of a key.
-/

namespace Waveflow.Yaml

/-- A token.  The stem of a handle and the end of a tag are `none` where their escapes stand for no
text. -/
inductive Token where
  | version (major minor : Nat)
  | handle (name : String) (stem : Option String)
  | documentStart
  | documentEnd
  | blockSequence
  | blockMapping
  | blockEnd
  | flowSequence
  | flowSequenceEnd
  | flowMapping
  | flowMappingEnd
  | entry
  | comma
  | key
  | value
  | reference (name : String)
  | anchor (name : String)
  | tag (handle : String) (ending : Option String)
  | scalar (style : Style) (text : String)
deriving Repr, DecidableEq

end Waveflow.Yaml
