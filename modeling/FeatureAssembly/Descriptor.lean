import FeatureAssembly.Json.Basic

/-! Descriptors: what a feature requires or provides in a namespace. -/

namespace FeatureAssembly

structure Descriptor where
  namespaceName : String
  attributes : Table Json
  directives : Table String

namespace Descriptor

def same (d e : Descriptor) : Bool :=
  d.namespaceName == e.namespaceName && Table.same Json.same d.attributes e.attributes &&
    Table.same (· == ·) d.directives e.directives

end Descriptor

namespace Descriptors

def contains (l : List Descriptor) (d : Descriptor) : Bool := l.any (·.same d)

def add (l : List Descriptor) (d : Descriptor) : List Descriptor :=
  if contains l d then l else l ++ [d]

def addAll (l ds : List Descriptor) : List Descriptor := ds.foldl add l

def remove (l : List Descriptor) (d : Descriptor) : List Descriptor := l.filter fun e => !e.same d

end Descriptors
end FeatureAssembly
