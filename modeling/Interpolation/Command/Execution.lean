import Interpolation.Command.Basic
import Interpolation.Command.Session
import Interpolation.Manifest.Resolver
import Interpolation.Settings.Reading
import Interpolation.Yaml.Loading
import Interpolation.Yaml.Writing

/-!
# Carrying out commands

Inputs are read in a fixed order, the manifest first, then the context, then the settings; the first
that cannot be read is the trouble that is told. Printing is the last thing that a command does, so
a command in trouble has printed nothing.

How a text is read as a document or as settings, and how a document is written, makes no difference
to any of this, and commands are given it as `Formats`.
-/

namespace Interpolation

/-- How documents are read from YAML and written to it, and how settings are read from TOML. -/
structure Formats where
  document? : String → Option Document
  settings : String → Except SettingsError Settings
  text : Document → String

/-- The readers and the writer of this library. -/
def Formats.default : Formats where
  document? := Document.ofYaml?
  settings := Settings.ofToml
  text := Document.toYaml

namespace Session

variable (formats : Formats) (files : Files)

/-- The document in a file. -/
def document (name : String) : Session Document := do
  let text ← expect (fun e ↦ .within ("Failed to read " ++ name) (.plain e.message)) (files name)
  match formats.document? text with
  | none => throw (.within ("Failed to parse " ++ name) (.plain "YAML error"))
  | some d =>
    log .debug ["Loaded document " ++ name]
    pure d

/-- The context in a file; it is empty without one. -/
def context : Option String → Session Document
  | none => pure .empty
  | some name => document formats files name

/-- The settings in a file, or the usual ones. -/
def settings : Option String → Session Settings
  | none => pure .default
  | some name => do
    let failed := Trouble.within ("Failed to load config " ++ name)
    let text ← expect
      (fun e ↦ failed (.within ("IO error: " ++ e.message) (.plain e.message))) (files name)
    let s ← expect (fun e ↦ failed (.plain e.message)) (formats.settings text)
    log .debug ["Loaded settings " ++ name]
    pure s

end Session

namespace Command

open Session

/-- The message for a span that is left as it is. -/
def keptMessage (e : SpanError) : String :=
  "Kept '" ++ e.raw ++ "' at " ++ e.offset.repr ++ ": " ++ e.message

/-- Does what a command asks for. -/
def perform (formats : Formats) (files : Files) : Command → Session Unit
  | render template source lossy => do
    let c ← context formats files source
    let t := Template.ofString template
    if lossy then
      let r := t.renderLossy c
      log .warn (r.errors.map keptMessage)
      printLines [r.text]
    else
      let text ← expect (.plain ∘ SpanError.joined) (t.render c)
      printLines [text]
  | vars template scope => do
    let segments := (scope.map Text.segments).getD []
    let names ← expect (.plain ∘ SpanError.joined) ((Template.ofString template).names segments)
    printLines names
  | resolve manifest source config preserve => do
    let d ← document formats files manifest
    let c ← context formats files source
    let s ← settings formats files config
    let s := if preserve then s.withPolicy .preserve else s
    let r ← expect (.plain ∘ ManifestError.message) (s.resolve d c)
    log .warn (r.warnings.map Failure.message)
    log .info ["Resolved " ++ (s.entries d).length.repr ++ " entries of " ++ manifest]
    print (formats.text r.document)
  | secrets manifest scope config => do
    let d ← document formats files manifest
    let s ← settings formats files config
    let names ← expect (.plain ∘ ManifestError.message) (s.names d (Text.segments scope))
    printLines names

end Command

/-- What has come of a command. -/
structure Execution where
  output : Output
  trouble : Option Trouble
  deriving DecidableEq, Repr

namespace Command

/-- Carries out a command with given formats. -/
def executeWith (formats : Formats) (files : Files) (c : Command) : Execution :=
  match (c.perform formats files).run .empty with
  | (.ok (), o) => ⟨o, none⟩
  | (.error t, o) => ⟨o, some t⟩

/-- Carries out a command. -/
def execute (files : Files) (c : Command) : Execution := c.executeWith .default files

end Command

end Interpolation
