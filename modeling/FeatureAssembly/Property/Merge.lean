import FeatureAssembly.MergeError
import FeatureAssembly.Outcome
import FeatureAssembly.Property.Basic

/-! Merging tables of properties: of independent features, where values must agree unless an
override fixes them, and of a feature over its prototype, where the values of the feature stay. -/

namespace FeatureAssembly.Properties

def mergeIncoming (kind : PropertyKind) (overrides : Table String) (origin : Coordinate)
    (target : Table Property) (key : String) (incoming : Property) :
    Outcome MergeError (Table Property) :=
  match Table.get? target key, Table.get? overrides key with
  | none, none => .done (Table.set target key incoming)
  | none, some v => .done (Table.set target key { incoming with value := v })
  | some p, some v => .done (Table.set target key ({ p with value := v }.absorb incoming))
  | some p, none =>
    if p.value = incoming.value then .done (Table.set target key (p.absorb incoming))
    else .failed target (.propertyClash kind key p.value incoming.value origin)

def merge (kind : PropertyKind) (overrides : Table String) (origin : Coordinate)
    (target source : Table Property) : Outcome MergeError (Table Property) :=
  Outcome.each (fun t e => mergeIncoming kind overrides origin t e.1 (e.2.stamped origin))
    target source

def overlayIncoming (target : Table Property) (key : String) (incoming : Property) :
    Table Property :=
  match Table.get? target key with
  | none => Table.set target key incoming
  | some p => Table.set target key ({ p with value := incoming.value }.absorb incoming)

def overlay (origin : Coordinate) (target source : Table Property) : Table Property :=
  source.foldl (fun t e => overlayIncoming t e.1 (e.2.stamped origin)) target

end FeatureAssembly.Properties
