/-!
# Commands

What can be asked of the program: the rendering of a template, the names it reads, the resolution
of a manifest, and the secrets that it reads.
-/

namespace Interpolation

/-- A command with what it is about. Manifests, contexts and settings are given by file names. -/
inductive Command where
  /-- Renders a template; if it is lossy, spans that fail stay as they are. -/
  | render (template : String) (context : Option String) (lossy : Bool)
  /-- Lists the names that a template reads, below a dotted prefix if there is one. -/
  | vars (template : String) (scope : Option String)
  /-- Resolves a manifest; it may ask for entries that fail to stay as they are. -/
  | resolve (manifest : String) (context settings : Option String) (preserve : Bool)
  /-- Lists the names that the entries of a manifest read right below a dotted prefix. -/
  | secrets (manifest : String) (scope : String) (settings : Option String)
  deriving DecidableEq, Repr

namespace Command

/-- The names of the files that a command reads. -/
def files : Command → List String
  | render _ context _ => context.toList
  | vars _ _ => []
  | resolve manifest context settings _ => manifest :: (context.toList ++ settings.toList)
  | secrets manifest _ settings => manifest :: settings.toList

end Command

/-- A command and how often it is asked to tell more than usual. -/
structure Invocation where
  command : Command
  verbosity : Nat
  deriving DecidableEq, Repr

end Interpolation
