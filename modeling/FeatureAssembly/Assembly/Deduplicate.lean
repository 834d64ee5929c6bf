import FeatureAssembly.Feature.Basic

/-! Of features that differ in their versions only, the highest one takes part in an aggregate. -/

namespace FeatureAssembly.Features

/-- Lets a feature take the place of a kept one of its identity if its version is higher; a feature
of a new identity comes last. -/
def keepHighest : List Feature → Feature → List Feature
  | [], f => [f]
  | k :: kept, f =>
    if k.id.isSame f.id then
      (if Version.compareTexts f.id.version k.id.version = .gt then f else k) :: kept
    else k :: keepHighest kept f

def deduplicate (fs : List Feature) : List Feature := fs.foldl keepHighest []

end FeatureAssembly.Features
