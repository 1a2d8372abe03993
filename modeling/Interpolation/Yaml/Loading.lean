import Interpolation.Text.Basic
import Interpolation.Yaml.Lexing
import Interpolation.Yaml.Node
import Interpolation.Yaml.Scalar

/-!
# Documents from YAML text

A node becomes a document by the meaning of its scalars; keys are taken as they are spelled. An
alias stands for the node at its anchor, which may even contain the alias: two limits keep this
finite, one on the nesting of collections and one on the number of aliases that are followed.
-/

namespace Interpolation.Yaml

namespace Node

/-- How many collections may be nested. -/
def maxNesting : Nat := 128

/-- How many aliases may be followed for every scalar, alias and end of a collection. -/
def aliasesPerEvent : Nat := 100

mutual

/-- The number of scalars, aliases and ends of collections in a node. -/
def events : Node → Nat
  | aliasOf _ => 1
  | scalar _ _ _ => 1
  | sequence _ items => 2 + eventsOfItems items
  | mapping _ entries => 2 + eventsOfEntries entries

def eventsOfItems : List Node → Nat
  | [] => 0
  | n :: ns => events n + eventsOfItems ns

def eventsOfEntries : List (Node × Node) → Nat
  | [] => 0
  | (k, v) :: es => events k + events v + eventsOfEntries es

end

/-- Nodes by the numbers of their anchors. -/
abbrev Anchored := List (Nat × Node)

/-- The properties of a node. -/
def properties : Node → Properties
  | aliasOf _ => ⟨none, none⟩
  | scalar p _ _ => p
  | sequence p _ => p
  | mapping p _ => p

/-- A node under the number of its anchor, if it has one. -/
def ownAnchor (n : Node) : Anchored :=
  match n.properties.anchor with
  | some a => [(a, n)]
  | none => []

mutual

/-- The nodes with anchors within a node, the last first. -/
def anchored (n : Node) : Anchored :=
  match n with
  | aliasOf _ => []
  | scalar p b s => ownAnchor (scalar p b s)
  | sequence p items => anchoredItems items ++ ownAnchor (sequence p items)
  | mapping p entries => anchoredEntries entries ++ ownAnchor (mapping p entries)

def anchoredItems : List Node → Anchored
  | [] => []
  | n :: ns => anchoredItems ns ++ anchored n

def anchoredEntries : List (Node × Node) → Anchored
  | [] => []
  | (k, v) :: es => anchoredEntries es ++ anchored v ++ anchored k

end

/-- Follows an alias, of which at most `budget` more may be followed. -/
def target? (anchors : Anchored) (n : Node) (budget : Nat) : Option (Node × Nat) :=
  match n with
  | aliasOf a =>
    match budget with
    | 0 => none
    | b + 1 => (anchors.lookup a).map fun n ↦ (n, b)
  | n => some (n, budget)

/-- Whether a tag turns its node into something no document can hold, as local tags do if their
bytes make up characters. -/
def isForeign (tag : TagText) : Bool :=
  Scalar.isLocalTag tag && (String.fromUTF8? ⟨tag.toArray⟩).isSome

/-- The meaning of a scalar by its tag, or by its spelling if it is plain. -/
def scalarMeaning? (p : Properties) (plain : Bool) (s : String) : Option Meaning :=
  match p.tag with
  | some tag => Scalar.taggedMeaning? tag plain s
  | none => some (if plain then Scalar.meaning s else .text)

/-- Makes a document of a node, given how many aliases may be followed; what is left of this budget
comes with it. -/
abbrev Loader := Node → Nat → Option (Document × Nat)

section Level

variable (anchors : Anchored)

/-- Adds an item to the items before it, the last of which comes first. -/
def addItem (inner : Loader) (before : List Document × Nat) (item : Node) :
    Option (List Document × Nat) := do
  let (d, budget) ← inner item before.2
  some (d :: before.1, budget)

/-- Adds a field to the fields before it, the last of which comes first. A key is a scalar. -/
def addField (inner : Loader) (before : List (String × Document) × Nat) (entry : Node × Node) :
    Option (List (String × Document) × Nat) := do
  let (k, budget) ← target? anchors entry.1 before.2
  match k with
  | scalar _ _ name => do
    let (d, budget) ← inner entry.2 budget
    some ((name, d) :: before.1, budget)
  | _ => none

/-- One level, given the next deeper one if there is one. Of equal keys the last one counts. -/
def loadLevel (deeper : Option Loader) : Loader := fun n budget ↦ do
  let (n, budget) ← target? anchors n budget
  if n.properties.tag.any isForeign then none
  else match n with
    | aliasOf _ => none
    | scalar p plain s => do
      let m ← scalarMeaning? p plain s
      let d ← m.toDocument? s
      some (d, budget)
    | sequence _ items => do
      let inner ← deeper
      let (ds, budget) ← items.foldlM (addItem inner) ([], budget)
      some (.array ds.reverse, budget)
    | mapping _ entries => do
      let inner ← deeper
      let (fs, budget) ← entries.foldlM (addField anchors inner) ([], budget)
      some (Document.ofFields fs.reverse, budget)

/-- The loader of nodes in which collections are nested up to a number of levels. -/
def load : Nat → Loader
  | 0 => loadLevel anchors none
  | levels + 1 => loadLevel anchors (some (load levels))

end Level

end Node

end Yaml

namespace Document

/-- The document of a YAML text, which JSON is part of. A text of blanks is the empty object, a
text without any node is null. -/
def ofYaml? (text : String) : Option Document :=
  if text.toList.all Text.isSpace then some empty
  else do
    let tokens ← Yaml.Token.ofText? text.toList
    let tokens ← Yaml.Token.numberAll [] tokens
    match ← Yaml.Node.ofTokens? tokens with
    | none => some null
    | some n => do
      let (d, _) ← Yaml.Node.load n.anchored Yaml.Node.maxNesting n
        (n.events * Yaml.Node.aliasesPerEvent)
      some d

end Document

end Interpolation
