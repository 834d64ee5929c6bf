import FeatureAssembly.Feature.Basic

/-! Equality of features: artifacts count by their coordinates, configurations by their pids, tables
without regard to order, and all else in full. -/

namespace FeatureAssembly

namespace Artifacts

def same (l k : List Artifact) : Bool := l.map Artifact.id == k.map Artifact.id

end Artifacts

def sameItems {α : Type} (eq : α → α → Bool) : List α → List α → Bool
  | [], [] => true
  | x :: xs, y :: ys => eq x y && sameItems eq xs ys
  | _, _ => false

def ExtensionContent.same : ExtensionContent → ExtensionContent → Bool
  | .artifacts l, .artifacts k => Artifacts.same l k
  | .text s, .text t => s == t
  | .json c, .json d => c.same d
  | _, _ => false

def Extension.same (e f : Extension) : Bool :=
  e.name == f.name && e.state == f.state && e.content.same f.content

def Prototype.same (p q : Prototype) : Bool :=
  p.id == q.id && p.bundles == q.bundles && p.configurations == q.configurations &&
    p.frameworkProperties == q.frameworkProperties && p.extensions == q.extensions &&
    Table.same (· == ·) p.artifactExtensions q.artifactExtensions &&
    sameItems Descriptor.same p.requirements q.requirements &&
    sameItems Descriptor.same p.capabilities q.capabilities

def sameOption {α : Type} (eq : α → α → Bool) : Option α → Option α → Bool
  | none, none => true
  | some x, some y => eq x y
  | _, _ => false

def Feature.same (f g : Feature) : Bool :=
  f.id == g.id && f.about == g.about && Artifacts.same f.bundles g.bundles &&
    f.configurations.map Configuration.pid == g.configurations.map Configuration.pid &&
    Properties.same f.frameworkProperties g.frameworkProperties &&
    Properties.same f.vars g.vars &&
    sameItems Descriptor.same f.requirements g.requirements &&
    sameItems Descriptor.same f.capabilities g.capabilities &&
    sameItems Extension.same f.extensions g.extensions &&
    sameOption Prototype.same f.prototype g.prototype &&
    f.isFinal == g.isFinal && f.isComplete == g.isComplete && f.isAssembled == g.isAssembled

end FeatureAssembly
