import FeatureAssembly.Coordinate.Basic
import FeatureAssembly.Descriptor
import FeatureAssembly.Text.Split

/-! A prototype names the feature that another one builds on, and what to leave out of it. -/

namespace FeatureAssembly

structure Prototype where
  id : Coordinate
  bundles : List Coordinate
  configurations : List String
  frameworkProperties : List String
  extensions : List String
  artifactExtensions : Table (List Coordinate)
  requirements : List Descriptor
  capabilities : List Descriptor

namespace Prototype

def ofId (id : Coordinate) : Prototype := ⟨id, [], [], [], [], [], [], []⟩

def removeArtifact (p : Prototype) (extension : String) (id : Coordinate) : Prototype :=
  { p with
    artifactExtensions := Table.set p.artifactExtensions extension
      ((Table.get? p.artifactExtensions extension).getD [] ++ [id]) }

/-- What an entry of the configurations to leave out names: one property (`pid@key`) or all. -/
def splitRemoval (entry : String) : String × Option String :=
  match Text.cut? '@' entry with
  | some (pid, key) => (pid, if key = "" then none else some key)
  | none => (entry, none)

end Prototype
end FeatureAssembly
