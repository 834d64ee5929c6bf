import FeatureAssembly.BuildError
import FeatureAssembly.Feature.Basic
import FeatureAssembly.Outcome

/-! Leaving out what a prototype reference names. All that is named must be there, except framework
properties and whole extensions. -/

namespace FeatureAssembly

/-- The artifacts that a coordinate names: the one with exactly it, or else all that differ from it
only in the version. -/
def Artifacts.named (l : List Artifact) (id : Coordinate) : List Artifact :=
  match Roster.find? l id with
  | some a => [a]
  | none => Artifacts.allSame l id

def Artifacts.removeNamed (l : List Artifact) (id : Coordinate) : List Artifact :=
  match Roster.find? l id with
  | some _ => Roster.remove l id
  | none => Artifacts.removeSame l id

namespace Feature

def orMissing (heir : Coordinate) (f : Feature) (missing : Missing) : Outcome BuildError Feature :=
  .failed f (.missingRemoval missing heir)

def removeBundle (heir : Coordinate) (f : Feature) (id : Coordinate) : Outcome BuildError Feature :=
  match Artifacts.named f.bundles id with
  | [] => orMissing heir f (.bundle id)
  | removed =>
    .done { f with
      bundles := Artifacts.removeNamed f.bundles id
      configurations := f.configurations.filter fun c =>
        c.artifactOrigin.all fun origin => origin ∉ removed.map Artifact.id }

def removeConfiguration (heir : Coordinate) (f : Feature) (entry : String) :
    Outcome BuildError Feature :=
  match Prototype.splitRemoval entry with
  | (pid, none) =>
    if Roster.contains f.configurations pid then
      .done { f with configurations := Roster.remove f.configurations pid }
    else orMissing heir f (.configuration pid)
  | (pid, some key) =>
    match Roster.find? f.configurations pid with
    | none => orMissing heir f (.configurationProperty entry)
    | some c =>
      if Roster.contains c.properties key then
        .done { f with
          configurations :=
            Roster.put f.configurations { c with properties := Roster.remove c.properties key } }
      else orMissing heir f (.configurationProperty entry)

def removeFrameworkProperty (f : Feature) (key : String) : Feature :=
  { f with frameworkProperties := Roster.remove f.frameworkProperties key }

def removeExtension (f : Feature) (name : String) : Feature :=
  { f with extensions := Roster.remove f.extensions name }

def setArtifacts (f : Feature) (name : String) (l : List Artifact) : Feature :=
  { f with
    extensions := Roster.adjust f.extensions name fun e => { e with content := .artifacts l } }

def removeArtifacts (heir : Coordinate) (name : String) (l : List Artifact)
    (ids : List Coordinate) : Outcome BuildError (List Artifact) :=
  Outcome.each
    (fun l id =>
      match Artifacts.named l id with
      | [] => .failed l (.missingRemoval (.extensionArtifact id name) heir)
      | _ => .done (Artifacts.removeNamed l id))
    l ids

def removeExtensionArtifacts (heir : Coordinate) (f : Feature) (entry : String × List Coordinate) :
    Outcome BuildError Feature :=
  match Extensions.artifacts? f.extensions entry.1 with
  | none => orMissing heir f (.artifactsExtension entry.1)
  | some l => (removeArtifacts heir entry.1 l entry.2).map (f.setArtifacts entry.1)

def removeRequirement (heir : Coordinate) (f : Feature) (d : Descriptor) :
    Outcome BuildError Feature :=
  if Descriptors.contains f.requirements d then
    .done { f with requirements := Descriptors.remove f.requirements d }
  else orMissing heir f (.requirement d.namespaceName)

def removeCapability (heir : Coordinate) (f : Feature) (d : Descriptor) :
    Outcome BuildError Feature :=
  if Descriptors.contains f.capabilities d then
    .done { f with capabilities := Descriptors.remove f.capabilities d }
  else orMissing heir f (.capability d.namespaceName)

def withoutRemovals (heir : Coordinate) (p : Prototype) (f : Feature) :
    Outcome BuildError Feature :=
  (Outcome.each (removeBundle heir) f p.bundles).andThen fun f =>
    (Outcome.each (removeConfiguration heir) f p.configurations).andThen fun f =>
      let f := p.frameworkProperties.foldl removeFrameworkProperty f
      let f := p.extensions.foldl removeExtension f
      (Outcome.each (removeExtensionArtifacts heir) f p.artifactExtensions).andThen fun f =>
        (Outcome.each (removeRequirement heir) f p.requirements).andThen fun f =>
          Outcome.each (removeCapability heir) f p.capabilities

end Feature
end FeatureAssembly
