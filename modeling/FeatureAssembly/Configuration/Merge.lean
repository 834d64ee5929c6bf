import FeatureAssembly.Configuration.Basic
import FeatureAssembly.MergeError
import FeatureAssembly.Outcome

/-! Merging lists of configurations. Configurations that share a pid are merged by the policy of the
first pattern that matches it. -/

namespace FeatureAssembly

namespace Configuration

def agree (origin : Coordinate) (c : Configuration) (entry : String × ConfigValue) :
    Outcome MergeError Configuration :=
  match Table.get? c.properties entry.1 with
  | none => .done { c with properties := Table.set c.properties entry.1 entry.2 }
  | some v =>
    if v.same entry.2 then .done c
    else .failed c (.configurationPropertyClash c.pid entry.1 v.text entry.2.text origin)

def addMissing (t : Table ConfigValue) (entry : String × ConfigValue) : Table ConfigValue :=
  match Table.get? t entry.1 with
  | none => Table.set t entry.1 entry.2
  | some _ => t

def grown (c : Configuration) (properties : Table ConfigValue) (origins : List Coordinate) :
    Configuration :=
  { c with properties, origins := addAllNew c.origins origins }

def mergeBy (policy : ConfigurationPolicy) (origin : Coordinate)
    (existing incoming : Configuration) : Outcome MergeError Configuration :=
  match policy with
  | .failOnClash => .failed existing (.configurationClash incoming.pid existing.origins origin)
  | .failOnPropertyClash =>
    (Outcome.each (agree origin) existing incoming.properties).andThen fun c =>
      .done (c.addOrigins incoming.origins)
  | .useLatest => .done incoming
  | .useFirst => .done existing
  | .mergeLatest =>
    .done (existing.grown (Table.overlay existing.properties incoming.properties) incoming.origins)
  | .mergeFirst =>
    .done <| existing.grown (incoming.properties.foldl addMissing existing.properties)
      incoming.origins

end Configuration

namespace Configurations

def mergeIncoming (policies : ConfigurationPolicies) (origin : Coordinate)
    (target : List Configuration) (incoming : Configuration) :
    Outcome MergeError (List Configuration) :=
  match Roster.find? target incoming.pid with
  | none => .done (Roster.add target incoming)
  | some existing =>
    let policy := (policies.policyFor? incoming.pid).getD .failOnClash
    (existing.mergeBy policy origin incoming).map (Roster.put target)

def merge (policies : ConfigurationPolicies) (origin : Coordinate)
    (target source : List Configuration) : Outcome MergeError (List Configuration) :=
  Outcome.each (fun t c => mergeIncoming policies origin t (c.stamped origin)) target source

end Configurations
end FeatureAssembly
