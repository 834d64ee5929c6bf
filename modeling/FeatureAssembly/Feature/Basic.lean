import FeatureAssembly.Configuration.Basic
import FeatureAssembly.Extension.Basic
import FeatureAssembly.Property.Basic
import FeatureAssembly.Prototype.Basic

/-! Features: the parts that an application is assembled from. -/

namespace FeatureAssembly

structure Description where
  title : Option String
  description : Option String
  vendor : Option String
  license : Option String
  docUrl : Option String
  scmInfo : Option String
  categories : List String
deriving DecidableEq

/-- A final feature is no prototype of others; a complete one needs no further feature; an assembled
one is built upon its prototype already. -/
structure Feature where
  id : Coordinate
  about : Description
  bundles : List Artifact
  configurations : List Configuration
  frameworkProperties : Table Property
  vars : Table Property
  requirements : List Descriptor
  capabilities : List Descriptor
  extensions : List Extension
  prototype : Option Prototype
  isFinal : Bool
  isComplete : Bool
  isAssembled : Bool

def Description.blank : Description := ⟨none, none, none, none, none, none, []⟩

namespace Feature

def ofId (id : Coordinate) : Feature :=
  { id, about := .blank, bundles := [], configurations := [], frameworkProperties := [],
    vars := [], requirements := [], capabilities := [], extensions := [], prototype := none,
    isFinal := false, isComplete := false, isAssembled := false }

end Feature
end FeatureAssembly
