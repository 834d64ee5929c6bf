import FeatureAssembly.Configuration.Merge
import FeatureAssembly.Extension.Merge
import FeatureAssembly.Property.Merge

/-! Merging features. Independent features are merged as an aggregate, where conflicts need rules; a
feature is layered over its prototype, where its own content wins. -/

namespace FeatureAssembly

inductive MergeMode where
  | aggregate | layer
deriving DecidableEq

namespace MergeMode

/-- The rules for artifacts: a layered feature keeps its versions beside those of the prototype. -/
def rules (mode : MergeMode) (ctx : MergeContext) : List OverrideRule :=
  match mode with
  | .aggregate => ctx.rules
  | .layer => [OverrideRule.catchAll .all]

def policies (mode : MergeMode) (ctx : MergeContext) : ConfigurationPolicies :=
  match mode with
  | .aggregate => ctx.policies
  | .layer => .uniform .useLatest

def mergeProperties (mode : MergeMode) (kind : PropertyKind) (overrides : Table String)
    (origin : Coordinate) (target source : Table Property) : Outcome MergeError (Table Property) :=
  match mode with
  | .aggregate => Properties.merge kind overrides origin target source
  | .layer => .done (Properties.overlay origin target source)

end MergeMode

namespace Feature

def mergeBundles (ctx : MergeContext) (mode : MergeMode) (source target : Feature) :
    Outcome MergeError Feature :=
  (Artifacts.merge (mode.rules ctx) source.id target.bundles source.bundles).map fun bundles =>
    { target with bundles }

def mergeConfigurations (ctx : MergeContext) (mode : MergeMode) (source target : Feature) :
    Outcome MergeError Feature :=
  (Configurations.merge (mode.policies ctx) source.id target.configurations
    source.configurations).map fun configurations => { target with configurations }

def mergeFrameworkProperties (ctx : MergeContext) (mode : MergeMode) (source target : Feature) :
    Outcome MergeError Feature :=
  (mode.mergeProperties .framework ctx.frameworkOverrides source.id target.frameworkProperties
    source.frameworkProperties).map fun frameworkProperties => { target with frameworkProperties }

def mergeVariables (ctx : MergeContext) (mode : MergeMode) (source target : Feature) :
    Outcome MergeError Feature :=
  (mode.mergeProperties .variable ctx.variableOverrides source.id target.vars
    source.vars).map fun vars => { target with vars }

def mergeDescriptors (source target : Feature) : Feature :=
  { target with
    requirements := Descriptors.addAll target.requirements source.requirements
    capabilities := Descriptors.addAll target.capabilities source.capabilities }

def mergeContent (ctx : MergeContext) (mode : MergeMode) (source target : Feature) :
    Outcome MergeError Feature :=
  (mergeBundles ctx mode source target).andThen fun t =>
    (mergeConfigurations ctx mode source t).andThen fun t =>
      (mergeFrameworkProperties ctx mode source t).andThen fun t =>
        (mergeVariables ctx mode source t).andThen fun t => .done (mergeDescriptors source t)

end Feature

def Draft.merge (ctx : MergeContext) (mode : MergeMode) (source : Feature) (d : Draft) :
    Outcome MergeError Draft :=
  ((Feature.mergeContent ctx mode source d.feature).map fun feature => { d with feature }).andThen
    (Draft.mergeExtensions ctx (mode.rules ctx) source)

end FeatureAssembly
