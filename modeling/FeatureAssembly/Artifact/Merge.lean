import FeatureAssembly.MergeError
import FeatureAssembly.Outcome

/-! Merging lists of artifacts. An incoming artifact meets the present ones that are the same apart
from versions; each meeting leaves survivors, which take the place of the first present one. A
meeting of two versions from different features is a clash, which needs a rule. -/

namespace FeatureAssembly

def minStartOrder (m n : Nat) : Nat := if m = 0 then n else if n = 0 then m else min m n

namespace Artifact

def combine (chosen existing incoming : Artifact) : Artifact :=
  { chosen with
    startOrder := minStartOrder existing.startOrder incoming.startOrder
    origins := addAllNew [] (existing.origins ++ incoming.origins) }

def absorb (a b : Artifact) : Artifact :=
  { a with
    startOrder := minStartOrder a.startOrder b.startOrder
    origins := addAllNew a.origins b.origins }

end Artifact

structure Survivors where
  present : List Artifact
  incoming : List Artifact

namespace Artifacts

def gather (l : List Artifact) (a : Artifact) : List Artifact :=
  match Roster.find? l a.id with
  | some _ => Roster.adjust l a.id fun b => b.absorb a
  | none => l ++ [a]

def gatherAll (l : List Artifact) : List Artifact := l.foldl gather []

def settle (rules : List OverrideRule) (existing incoming : Artifact) :
    Except MergeError Survivors :=
  match OverrideRule.find? rules existing.id incoming.id with
  | none => .error (.artifactClash existing.id incoming.id)
  | some rule =>
    match rule.policy.select existing.id incoming.id with
    | .both => .ok ⟨[existing], [incoming]⟩
    | .existing => .ok ⟨[existing.combine existing incoming], []⟩
    | .incoming => .ok ⟨[], [incoming.combine existing incoming]⟩
    | .synthesized v =>
      match incoming.id.changeVersion v with
      | .ok id => .ok ⟨[], [(incoming.copy id).combine existing incoming]⟩
      | .error e => .error (.coordinate e)

/-- The survivors of one meeting; versions from the same feature stay side by side. -/
def meet (rules : List OverrideRule) (sameSource : Bool) (existing incoming : Artifact) :
    Except MergeError Survivors :=
  if existing.id = incoming.id then .ok ⟨[existing.combine existing incoming], []⟩
  else if sameSource then .ok ⟨[existing], [incoming]⟩
  else settle rules existing incoming

def meetAll (rules : List OverrideRule) (sameSource : Artifact → Bool) (incoming : Artifact) :
    List Artifact → Except MergeError Survivors
  | [] => .ok ⟨[], []⟩
  | existing :: rest =>
    match meet rules (sameSource existing) existing incoming with
    | .error e => .error e
    | .ok s =>
      match meetAll rules sameSource incoming rest with
      | .error e => .error e
      | .ok t => .ok ⟨s.present ++ t.present, s.incoming ++ t.incoming⟩

/-- Places artifacts one after another from position `i` on; one whose coordinate is taken is left
out. -/
def placeAt (l : List Artifact) (i : Nat) : List Artifact → List Artifact
  | [] => l
  | a :: rest =>
    match Roster.insertAt? l i a with
    | some l => placeAt l (i + 1) rest
    | none => placeAt l i rest

/-- A merge under way: the artifacts, and the coordinates that this source has contributed. -/
structure Progress where
  artifacts : List Artifact
  contributed : List Coordinate

def mergeIncoming (rules : List OverrideRule) (origin : Coordinate) (p : Progress)
    (incoming : Artifact) : Except MergeError Progress :=
  match p.artifacts.filter fun a => a.isSame incoming with
  | [] => .ok ⟨Roster.add p.artifacts incoming, incoming.id :: p.contributed⟩
  | matched =>
    let sameSource (a : Artifact) : Bool := a.id ∈ p.contributed || origin ∈ a.origins
    match meetAll rules sameSource incoming matched with
    | .error e => .error e
    | .ok s =>
      let survivors := gatherAll (s.present ++ s.incoming)
      let kept := p.artifacts.filter fun a => !a.isSame incoming
      let position := p.artifacts.findIdx fun a => a.isSame incoming
      .ok ⟨placeAt kept position survivors,
        if survivors.any (fun a => a.id = incoming.id) then incoming.id :: p.contributed
        else p.contributed⟩

def mergeOne (rules : List OverrideRule) (origin : Coordinate) (p : Progress) (a : Artifact) :
    Outcome MergeError Progress :=
  .ofExcept p (mergeIncoming rules origin p (a.stamped origin))

def merge (rules : List OverrideRule) (origin : Coordinate) (target source : List Artifact) :
    Outcome MergeError (List Artifact) :=
  (Outcome.each (mergeOne rules origin) ⟨target, []⟩ source).map Progress.artifacts

end Artifacts
end FeatureAssembly
