/-!
# Tokens of YAML

The indicators of a YAML text, the starts and ends of block collections that its indentation
implies, and its scalars with their texts unfolded. Anchors and aliases carry labels, which are
names at first and numbers once the aliases have been matched with their anchors.
-/

namespace Interpolation.Yaml

/-- The text of a tag, as bytes, which need not make up characters. -/
abbrev TagText := List UInt8

/-- The text of a tag that is written in ASCII. -/
def TagText.ofWord (cs : List Char) : TagText := cs.map (·.toNat.toUInt8)

/-- A token whose labels are of type `Label`. -/
inductive Token (Label : Type) where
  | version (major minor : Nat)
  | tagHandle (handle : String) (expansion : TagText)
  | documentStart
  | documentEnd
  | streamEnd
  | blockSequenceStart
  | blockMappingStart
  | blockEnd
  | flowSequenceStart
  | flowSequenceEnd
  | flowMappingStart
  | flowMappingEnd
  | blockEntry
  | flowEntry
  | key
  | value
  | aliasOf (label : Label)
  | anchor (label : Label)
  | tag (handle : String) (suffix : TagText)
  /-- The text of a scalar; `plain` if it stands without quotes and without a block indicator. -/
  | scalar (plain : Bool) (text : String)
  deriving DecidableEq, Repr

/-- Anchors by name, with the number of each. -/
abbrev Anchors := List (String × Nat)

namespace Token

/-- A token with its label numbered, given the anchors before it. An anchor gets as its number how
many different names came before, so a name that is used again shares its number with the next new
name. An alias needs an anchor before it. -/
def number (anchors : Anchors) : Token String → Option (Anchors × Token Nat)
  | anchor name =>
    let n := anchors.length
    some ((name, n) :: anchors.filter (·.1 ≠ name), anchor n)
  | aliasOf name => (anchors.lookup name).map fun n ↦ (anchors, aliasOf n)
  | version a b => some (anchors, version a b)
  | tagHandle h e => some (anchors, tagHandle h e)
  | documentStart => some (anchors, documentStart)
  | documentEnd => some (anchors, documentEnd)
  | streamEnd => some (anchors, streamEnd)
  | blockSequenceStart => some (anchors, blockSequenceStart)
  | blockMappingStart => some (anchors, blockMappingStart)
  | blockEnd => some (anchors, blockEnd)
  | flowSequenceStart => some (anchors, flowSequenceStart)
  | flowSequenceEnd => some (anchors, flowSequenceEnd)
  | flowMappingStart => some (anchors, flowMappingStart)
  | flowMappingEnd => some (anchors, flowMappingEnd)
  | blockEntry => some (anchors, blockEntry)
  | flowEntry => some (anchors, flowEntry)
  | key => some (anchors, key)
  | value => some (anchors, value)
  | tag h s => some (anchors, tag h s)
  | scalar p t => some (anchors, scalar p t)

/-- All tokens of a document with their labels numbered. -/
def numberAll : Anchors → List (Token String) → Option (List (Token Nat))
  | _, [] => some []
  | anchors, t :: ts => do
    let (anchors, t) ← t.number anchors
    let ts ← numberAll anchors ts
    some (t :: ts)

end Token

end Interpolation.Yaml
