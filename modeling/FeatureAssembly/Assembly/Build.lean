import FeatureAssembly.Feature.Merge
import FeatureAssembly.Prototype.Lineage
import FeatureAssembly.Prototype.Removal

/-! Building a feature from its lineage: the assembled prototype, without what the feature leaves
out of it, and the feature's own content layered over it. `Trail.build` does so while it follows the
prototypes. -/

namespace FeatureAssembly

def Description.orElse (a b : Description) : Description where
  title := a.title <|> b.title
  description := a.description <|> b.description
  vendor := a.vendor <|> b.vendor
  license := a.license <|> b.license
  docUrl := a.docUrl <|> b.docUrl
  scmInfo := a.scmInfo <|> b.scmInfo
  categories := if a.categories = [] then b.categories else a.categories

def Extension.stamped (e : Extension) (origin : Coordinate) : Extension :=
  match e.content with
  | .artifacts l => { e with content := .artifacts (l.map fun a => a.stamped origin) }
  | _ => e

namespace Feature

def inheritAbout (f g : Feature) : Feature := { f with about := g.about.orElse f.about }

def stamped (f : Feature) (origin : Coordinate) : Feature :=
  { f with
    bundles := f.bundles.map fun a => a.stamped origin
    extensions := f.extensions.map fun e => e.stamped origin
    configurations := f.configurations.map fun c => c.stamped origin }

end Feature

namespace Draft

def mergeOrFail (ctx : MergeContext) (mode : MergeMode) (source : Feature) (d : Draft) :
    Outcome BuildError Draft :=
  (d.merge ctx mode source).mapFault .merge

def mapFeature (d : Draft) (change : Feature → Feature) : Draft :=
  { d with feature := change d.feature }

def layer (ctx : MergeContext) (f : Feature) (d : Draft) : Outcome BuildError Draft :=
  (d.mergeOrFail ctx .layer { f with prototype := none }).andThen fun d =>
    .done <| d.mapFeature fun r =>
      { (r.inheritAbout f).stamped f.id with
        isFinal := f.isFinal, isComplete := f.isComplete, isAssembled := true }

/-- Leaves out what an heir does not want, and goes on with an empty feature for the heir that takes
over the rest. -/
def inherit (ctx : MergeContext) (heir : Feature) (p : Prototype) (base : Draft) :
    Outcome BuildError Draft :=
  ((base.feature.withoutRemovals heir.id p).map fun f => base.mapFeature fun _ => f).andThen
    fun base =>
      (Draft.mergeOrFail ctx .aggregate base.feature ⟨Feature.ofId heir.id, base.notes⟩).andThen
        fun d => .done (d.mapFeature fun r => r.inheritAbout base.feature)

end Draft

def Lineage.build (ctx : MergeContext) (notes : List String) : Lineage → Outcome BuildError Draft
  | .assembled f => .done ⟨f, notes⟩
  | .root f => Draft.layer ctx f ⟨Feature.ofId f.id, notes⟩
  | .heir f p base =>
    ((base.build ctx notes).andThen (Draft.inherit ctx f p)).andThen (Draft.layer ctx f)

end FeatureAssembly
