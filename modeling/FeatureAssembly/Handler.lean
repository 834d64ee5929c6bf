import FeatureAssembly.Feature.Basic
import FeatureAssembly.MergeError
import FeatureAssembly.Outcome

/-! What a merge goes by besides the two features: rules, policies, overrides and handlers. A merge
handler takes over the merge of the extensions it accepts; a post-processing handler sees every
extension of a merged feature. Handlers may leave notes. -/

namespace FeatureAssembly

structure Draft where
  feature : Feature
  notes : List String

structure HandlerView where
  configuration : Table String
  locate : Option (Coordinate → Option String)

/-- What a merge handler works on: the target without the extension in question, and that extension
in a slot of its own. What is in the slot afterwards becomes the extension of the target. -/
structure Bench where
  draft : Draft
  slot : Option Extension

structure MergeHandler where
  id : String
  accepts : Extension → Bool
  run : HandlerView → Feature → Extension → Bench → Outcome MergeError Bench

structure PostHandler where
  id : String
  run : HandlerView → Extension → Draft → Outcome MergeError Draft

structure MergeContext where
  rules : List OverrideRule
  policies : ConfigurationPolicies
  variableOverrides : Table String
  frameworkOverrides : Table String
  mergeHandlers : List MergeHandler
  postHandlers : List PostHandler
  handlerConfiguration : Table (Table String)
  locate : Option (Coordinate → Option String)

namespace MergeContext

def empty : MergeContext := ⟨[], [], [], [], [], [], [], none⟩

def allHandlers : String := "all"

def configurationOf (ctx : MergeContext) (id : String) : Table String :=
  Table.overlay ((Table.get? ctx.handlerConfiguration allHandlers).getD [])
    ((Table.get? ctx.handlerConfiguration id).getD [])

def view (ctx : MergeContext) (id : String) : HandlerView := ⟨ctx.configurationOf id, ctx.locate⟩

end MergeContext
end FeatureAssembly
