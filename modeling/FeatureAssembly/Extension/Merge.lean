import FeatureAssembly.Artifact.Merge
import FeatureAssembly.Handler

/-! Merging extensions by their kinds or by handlers, and the handlers that run afterwards. -/

namespace FeatureAssembly

namespace Extension

def merge (rules : List OverrideRule) (origin : Coordinate) (existing incoming : Extension) :
    Outcome MergeError Extension :=
  let state := existing.state.stronger incoming.state
  match existing.content, incoming.content with
  | .text s, .text t => .done { existing with state, content := .text (s ++ "\n" ++ t) }
  | .json c, .json d =>
    match Json.merge c.value d.value with
    | .error m => .failed existing (.jsonMismatch incoming.name m)
    | .ok v =>
      match JsonContent.ofValue v with
      | .error e => .failed existing (.content e)
      | .ok c => .done { existing with state, content := .json c }
  | .artifacts l, .artifacts k =>
    ((Artifacts.merge rules origin l k).map fun m =>
      { existing with content := .artifacts m }).andThen fun e => .done { e with state }
  | _, _ => .failed existing (.extensionKindMismatch incoming.name existing.kind incoming.kind)

def copied (rules : List OverrideRule) (origin : Coordinate) (e : Extension) :
    Except MergeError Extension :=
  match e.content with
  | .artifacts l =>
    (Artifacts.merge rules origin [] l).toExcept.map fun m => { e with content := .artifacts m }
  | _ => .ok e

end Extension

namespace Extensions

def mergeOne (rules : List OverrideRule) (origin : Coordinate) (target : List Extension)
    (e : Extension) : Outcome MergeError (List Extension) :=
  match Roster.find? target e.name with
  | some existing => (existing.merge rules origin e).map (Roster.put target)
  | none => .ofExcept target ((e.copied rules origin).map (Roster.put target))

/-- Puts an extension back to its position, unless a handler has put another one of its name. -/
def putBack (l : List Extension) (position : Option Nat) (e : Extension) : List Extension :=
  match position with
  | some i => (Roster.insertAt? l i e).getD (Roster.put l e)
  | none => Roster.put l e

end Extensions

namespace Draft

def mapExtensions (d : Draft) (f : List Extension → List Extension) : Draft :=
  { d with feature := { d.feature with extensions := f d.feature.extensions } }

/-- Leaves the merge of an extension to a handler; if it fails, the target keeps its own. -/
def delegate (ctx : MergeContext) (h : MergeHandler) (source : Feature) (d : Draft)
    (e : Extension) : Outcome MergeError Draft :=
  let present := d.feature.extensions
  let previous := Roster.find? present e.name
  let o := h.run (ctx.view h.id) source e
    ⟨d.mapExtensions fun l => Roster.remove l e.name, previous⟩
  let kept := match o.fault with
    | none => o.value.slot
    | some _ => previous
  match kept with
  | none => ⟨o.value.draft, o.fault⟩
  | some x =>
    ⟨o.value.draft.mapExtensions fun l => Extensions.putBack l (Roster.position? present e.name) x,
      o.fault⟩

def mergeExtension (ctx : MergeContext) (rules : List OverrideRule) (source : Feature) (d : Draft)
    (e : Extension) : Outcome MergeError Draft :=
  match ctx.mergeHandlers.find? fun h => h.accepts e with
  | some h => delegate ctx h source d e
  | none =>
    (Extensions.mergeOne rules source.id d.feature.extensions e).map fun l =>
      d.mapExtensions fun _ => l

def mergeExtensions (ctx : MergeContext) (rules : List OverrideRule) (source : Feature)
    (d : Draft) : Outcome MergeError Draft :=
  Outcome.each (mergeExtension ctx rules source) d source.extensions

/-- Lets every handler see every extension that the feature has at the start. -/
def postProcess (ctx : MergeContext) (d : Draft) : Outcome MergeError Draft :=
  Outcome.each (fun d e => Outcome.each (fun d h => h.run (ctx.view h.id) e d) d ctx.postHandlers)
    d d.feature.extensions

end Draft
end FeatureAssembly
