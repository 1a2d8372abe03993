import Interpolation.Text.Basic

/-!
# Settings

What the resolution of manifests depends on besides its inputs.
-/

namespace Interpolation

/-- What becomes of a manifest with values that cannot be resolved. -/
inductive Policy where
  /-- It is refused as a whole, with every failure listed. -/
  | fail
  /-- Those values stay as they are, and each failure is a warning. -/
  | preserve
  deriving DecidableEq, Repr

/-- The settings of a resolver. -/
structure Settings where
  /-- The dotted paths of the env maps. -/
  envPaths : List String
  policy : Policy
  deriving DecidableEq, Repr

namespace Settings

/-- The env maps of a deployment manifest. -/
def defaultEnvPaths : List String :=
  ["deploy.env", "deploy.init.env", "deploy.api.env", "deploy.addons.hasura.env",
    "deploy.processor.env"]

/-- The settings where nothing else is said. -/
def default : Settings := ⟨defaultEnvPaths, .fail⟩

/-- The settings with another policy. -/
def withPolicy (s : Settings) (p : Policy) : Settings := { s with policy := p }

/-- The first env path that has an empty segment. -/
def badPath? (s : Settings) : Option String := s.envPaths.find? fun p ↦ "" ∈ Text.dotted p

end Settings

end Interpolation
