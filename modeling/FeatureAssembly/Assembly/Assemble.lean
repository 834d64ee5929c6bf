import FeatureAssembly.Assembly.Build
import FeatureAssembly.Assembly.Deduplicate
import FeatureAssembly.Feature.Substitution

/-! Assembling one feature with its prototypes, and aggregates of several features. -/

namespace FeatureAssembly

structure AssemblyContext where
  catalogue : Catalogue
  merge : MergeContext
  substitutes : Bool

structure Report where
  result : Except BuildError Feature
  notes : List String

def Report.ofOutcome (o : Outcome BuildError Draft) : Report :=
  ⟨(o.map Draft.feature).toExcept, o.value.notes⟩

namespace Draft

def substitute (ctx : AssemblyContext) (d : Draft) : Outcome BuildError Draft :=
  if ctx.substitutes then
    ((d.feature.substitute ctx.merge.variableOverrides).map fun f =>
      d.mapFeature fun _ => f).mapFault .merge
  else .done d

def finish (ctx : AssemblyContext) (d : Draft) : Outcome BuildError Draft :=
  ((d.postProcess ctx.merge).mapFault .merge).andThen (substitute ctx)

end Draft

def assemble (ctx : AssemblyContext) (f : Feature) : Report :=
  if f.isAssembled then ⟨.ok f, []⟩
  else match Lineage.ofFeature ctx.catalogue f with
    | .error e => ⟨.error e, []⟩
    | .ok l => .ofOutcome ((l.build ctx.merge []).andThen (Draft.finish ctx))

namespace Aggregate

def recordName : String := "assembled-features"

structure Batch where
  assembled : List Feature
  references : List Coordinate
  notes : List String

def Batch.empty : Batch := ⟨[], [], []⟩

def Batch.build (ctx : MergeContext) (c : Catalogue) (b : Batch) (f : Feature) :
    Outcome BuildError Batch :=
  match Lineage.ofFeature c f with
  | .error e => .failed b e
  | .ok l =>
    (l.build ctx b.notes).map fun d =>
      ⟨b.assembled ++ [d.feature], b.references ++ l.references, d.notes⟩

def Batch.contributors (b : Batch) : List Feature :=
  b.assembled.filter fun f => f.id ∉ b.references

def localFirst (participants : List Feature) (c : Catalogue) : Catalogue :=
  participants.map Catalogue.entry ++ c

def record (contributors : List Feature) : Extension :=
  ⟨recordName, .transient,
    .artifacts (Roster.ofList (contributors.map fun f => Artifact.ofId f.id))⟩

def sealWith (contributors : List Feature) (f : Feature) : Feature :=
  { f with
    extensions := Roster.put f.extensions (record contributors)
    isComplete := contributors.all Feature.isComplete
    isFinal := false
    isAssembled := true }

def mergeContributors (ctx : MergeContext) (contributors : List Feature) (d : Draft) :
    Outcome BuildError Draft :=
  Outcome.each (fun d f => d.mergeOrFail ctx .aggregate f) d contributors

def outcome (ctx : AssemblyContext) (id : Coordinate) (features : List Feature) :
    Outcome BuildError Draft :=
  let participants := Features.deduplicate features
  let batch := Outcome.each (Batch.build ctx.merge (localFirst participants ctx.catalogue))
    .empty participants
  let start (b : Batch) : Draft := ⟨Feature.ofId id, b.notes⟩
  (batch.chain start fun b =>
    (mergeContributors ctx.merge b.contributors (start b)).andThen fun d =>
      (d.mapFeature (sealWith b.contributors)).finish ctx)

end Aggregate

/-- Assembles the highest versions of some features and merges them into a new one. A participant
that is a prototype of another one is not merged by itself. -/
def assembleMany (ctx : AssemblyContext) (id : Coordinate) (features : List Feature) : Report :=
  .ofOutcome (Aggregate.outcome ctx id features)

end FeatureAssembly
