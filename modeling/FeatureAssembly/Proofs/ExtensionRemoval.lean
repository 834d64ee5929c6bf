import FeatureAssembly.Proofs.BundleRemoval

/-! Leaving out artifacts of extensions, requirements and capabilities: when one of them can be left out,
and what several leave of the content before the first. -/

namespace FeatureAssembly
open Outcome

/-! Artifacts of extensions. -/

namespace Artifacts
variable {l r : List Artifact} {ids : List Coordinate}

/-- Whether every coordinate has an artifact of its identity in what its predecessors leave. -/
def CanLeave (l : List Artifact) (ids : List Coordinate) : Prop :=
  ∀ before i after, ids = before ++ i :: after → ∃ a ∈ without l before, a.id.identity = i.identity

theorem without_append (l : List Artifact) (ids more : List Coordinate) :
    without l (ids ++ more) = without (without l ids) more := List.foldl_append

def leaveOne (heir : Coordinate) (name : String) (l : List Artifact) (id : Coordinate) :
    Outcome BuildError (List Artifact) :=
  match named l id with
  | [] => .failed l (.missingRemoval (.extensionArtifact id name) heir)
  | _ => .done (removeNamed l id)

theorem leaveOne_eq_done_iff (hl : Roster.Distinct l) {heir id : Coordinate} {name : String} :
    leaveOne heir name l id = done r ↔
      (∃ a ∈ l, a.id.identity = id.identity) ∧ r = removeNamed l id := by
  rw [← named_ne_nil_iff hl]
  unfold leaveOne
  split
  · next hnil => exact iff_of_false failed_ne_done fun h => h.1 hnil
  · next hthere => rw [and_iff_right hthere, done_eq_done_iff]

theorem amountsTo_leaveOne (heir : Coordinate) (name : String) :
    AmountsTo Roster.Distinct (fun l i => ∃ a ∈ l, a.id.identity = i.identity)
      (leaveOne heir name) without where
  nil _ := rfl
  cons _ _ _ _ := rfl
  keeps _ i hl := distinct_removeNamed hl i
  step_iff _ _ _ hl := leaveOne_eq_done_iff hl

theorem removeArtifacts_eq_done_iff (hl : Roster.Distinct l) {heir : Coordinate} {name : String} :
    Feature.removeArtifacts heir name l ids = done r ↔ CanLeave l ids ∧ r = without l ids :=
  (amountsTo_leaveOne heir name).each_eq_done_iff hl

def listedFor (entries : List (String × List Coordinate)) (name : String) : List Coordinate :=
  (entries.filter fun e => e.1 = name).flatMap Prod.snd

end Artifacts

def Extension.without (entries : List (String × List Coordinate)) (e : Extension) : Extension :=
  match e.content with
  | .artifacts l =>
    { e with content := .artifacts (Artifacts.without l (Artifacts.listedFor entries e.name)) }
  | _ => e

namespace Extension
variable {entries : List (String × List Coordinate)} {e : Extension}

@[simp] theorem name_without : (e.without entries).name = e.name := by
  unfold without
  split <;> rfl

theorem without_of_artifacts {l : List Artifact} (h : e.content = .artifacts l) :
    e.without entries =
      { e with content := .artifacts (Artifacts.without l (Artifacts.listedFor entries e.name)) } := by
  rw [without, h]

theorem without_of_unlisted (h : Artifacts.listedFor entries e.name = []) : e.without entries = e := by
  obtain ⟨name, state, l | s | c⟩ := e
  · rw [without_of_artifacts rfl, h]
    rfl
  · rfl
  · rfl

theorem without_append (entries more : List (String × List Coordinate)) (e : Extension) :
    e.without (entries ++ more) = (e.without entries).without more := by
  obtain ⟨name, state, l | s | c⟩ := e
  · rw [without_of_artifacts rfl, without_of_artifacts rfl, without_of_artifacts rfl]
    simp only [Artifacts.listedFor, List.filter_append, List.flatMap_append,
      Artifacts.without_append]
  · rfl
  · rfl

theorem content_without_eq_iff {k : List Artifact} :
    (e.without entries).content = .artifacts k ↔ ∃ l, e.content = .artifacts l ∧
      k = Artifacts.without l (Artifacts.listedFor entries e.name) := by
  obtain ⟨name, state, l | s | c⟩ := e
  · rw [without_of_artifacts rfl]
    simp [eq_comm]
  · simp [without]
  · simp [without]

theorem distinct_without (h : ∀ l, e.content = .artifacts l → Roster.Distinct l) :
    ∀ k, (e.without entries).content = .artifacts k → Roster.Distinct k := by
  intro k hk
  obtain ⟨l, hl, rfl⟩ := content_without_eq_iff.mp hk
  exact Artifacts.distinct_without (h l hl) _

end Extension

theorem Extensions.artifacts?_eq_some_iff {es : List Extension} (hes : Roster.Distinct es)
    {name : String} {l : List Artifact} :
    artifacts? es name = some l ↔ ∃ e ∈ es, e.name = name ∧ e.content = .artifacts l := by
  have hcontent : ∀ e : Extension, e.artifacts? = some l ↔ e.content = .artifacts l := by
    intro e
    obtain ⟨n, state, k | s | c⟩ := e <;> simp [Extension.artifacts?]
  simp only [artifacts?, Option.bind_eq_some_iff, Roster.find?_eq_some_iff hes, Extension.key_eq,
    hcontent, and_assoc]

def Descriptors.without (l ds : List Descriptor) : List Descriptor := ds.foldl remove l

theorem Descriptors.without_eq_filter (l ds : List Descriptor) :
    without l ds = l.filter fun e => ∀ d ∈ ds, e.same d = false := by
  induction ds generalizing l with
  | nil => exact (List.filter_eq_self.mpr fun e _ => by simp).symm
  | cons d ds ih =>
    rw [without, List.foldl_cons]
    refine (ih (remove l d)).trans ?_
    rw [remove, List.filter_filter]
    refine List.filter_congr fun e _ => ?_
    rw [Bool.eq_iff_iff]
    simp [and_comm]

namespace Feature
variable {heir : Coordinate} {f b : Feature}

def leaveArtifacts (f : Feature) (entries : List (String × List Coordinate)) : Feature :=
  { f with extensions := f.extensions.map (Extension.without entries) }

theorem setArtifacts_eq_leaveArtifacts (hf : Roster.Distinct f.extensions)
    {entry : String × List Coordinate} {l : List Artifact}
    (hl : Extensions.artifacts? f.extensions entry.1 = some l) :
    f.setArtifacts entry.1 (Artifacts.without l entry.2) = f.leaveArtifacts [entry] := by
  obtain ⟨x, hx, hname, hcontent⟩ := (Extensions.artifacts?_eq_some_iff hf).mp hl
  have hadjusted : Roster.adjust f.extensions entry.1
      (fun e => { e with content := .artifacts (Artifacts.without l entry.2) }) =
        f.extensions.map (Extension.without [entry]) := by
    rw [Roster.adjust_eq_map hf]
    refine List.map_congr_left fun e he => ?_
    rw [Extension.key_eq]
    split
    · next hthis =>
      have hlisted : Artifacts.listedFor [entry] x.name = entry.2 := by
        simp [Artifacts.listedFor, hname]
      rw [hf.eq_of_key he hx (hthis.trans hname.symm), Extension.without_of_artifacts hcontent,
        hlisted]
    · next hother =>
      refine (Extension.without_of_unlisted ?_).symm
      simp [Artifacts.listedFor, Ne.symm hother]
  exact congrArg (fun l => { f with extensions := l }) hadjusted

theorem removeExtensionArtifacts_eq_done_iff (hf : Roster.Distinct f.extensions)
    (hartifacts : ∀ e ∈ f.extensions, ∀ l, e.content = .artifacts l → Roster.Distinct l)
    {entry : String × List Coordinate} :
    removeExtensionArtifacts heir f entry = done b ↔
      (∃ l, Extensions.artifacts? f.extensions entry.1 = some l ∧ Artifacts.CanLeave l entry.2) ∧
        b = f.leaveArtifacts [entry] := by
  unfold removeExtensionArtifacts
  split
  · next hnone =>
    refine iff_of_false failed_ne_done ?_
    rintro ⟨⟨l, hl, -⟩, -⟩
    exact nomatch hnone.symm.trans hl
  · next l hl =>
    obtain ⟨e, he, -, hcontent⟩ := (Extensions.artifacts?_eq_some_iff hf).mp hl
    have hcan : (∃ k, Extensions.artifacts? f.extensions entry.1 = some k ∧
        Artifacts.CanLeave k entry.2) ↔ Artifacts.CanLeave l entry.2 := by simp [hl]
    rw [hcan, map_eq_done_iff, ← setArtifacts_eq_leaveArtifacts hf hl]
    simp only [Artifacts.removeArtifacts_eq_done_iff (hartifacts e he l hcontent)]
    constructor
    · rintro ⟨k, ⟨hleave, rfl⟩, rfl⟩
      exact ⟨hleave, rfl⟩
    · rintro ⟨hleave, rfl⟩
      exact ⟨_, ⟨hleave, rfl⟩, rfl⟩

theorem amountsTo_removeExtensionArtifacts (heir : Coordinate) :
    AmountsTo (fun f => Roster.Distinct f.extensions ∧
        ∀ e ∈ f.extensions, ∀ l, e.content = .artifacts l → Roster.Distinct l)
      (fun f entry => ∃ l, Extensions.artifacts? f.extensions entry.1 = some l ∧
        Artifacts.CanLeave l entry.2)
      (removeExtensionArtifacts heir) leaveArtifacts where
  nil f := by
    have hall : f.extensions.map (Extension.without []) = f.extensions := by
      rw [List.map_congr_left fun e _ => Extension.without_of_unlisted rfl, List.map_id']
    exact congrArg (fun l => { f with extensions := l }) hall
  cons f entry entries _ := by
    have hall : f.extensions.map (Extension.without (entry :: entries)) =
        (f.extensions.map (Extension.without [entry])).map (Extension.without entries) := by
      rw [List.map_map]
      exact List.map_congr_left fun e _ => Extension.without_append [entry] entries e
    exact congrArg (fun l => { f with extensions := l }) hall
  keeps f entry hf := by
    refine ⟨hf.1.map fun _ => Extension.name_without, fun x hx => ?_⟩
    obtain ⟨e, he, rfl⟩ := List.mem_map.mp hx
    exact Extension.distinct_without (hf.2 e he)
  step_iff _ _ _ hf := removeExtensionArtifacts_eq_done_iff hf.1 hf.2

/-! Requirements and capabilities. -/

def leaveRequirements (f : Feature) (ds : List Descriptor) : Feature :=
  { f with requirements := Descriptors.without f.requirements ds }

def leaveCapabilities (f : Feature) (ds : List Descriptor) : Feature :=
  { f with capabilities := Descriptors.without f.capabilities ds }

theorem removeRequirement_eq_done_iff {d : Descriptor} :
    removeRequirement heir f d = done b ↔
      Descriptors.contains f.requirements d ∧ b = f.leaveRequirements [d] := by
  unfold removeRequirement
  split
  · next hthere =>
    rw [and_iff_right hthere, done_eq_done_iff]
    rfl
  · next hnot => exact iff_of_false failed_ne_done fun h => hnot h.1

theorem removeCapability_eq_done_iff {d : Descriptor} :
    removeCapability heir f d = done b ↔
      Descriptors.contains f.capabilities d ∧ b = f.leaveCapabilities [d] := by
  unfold removeCapability
  split
  · next hthere =>
    rw [and_iff_right hthere, done_eq_done_iff]
    rfl
  · next hnot => exact iff_of_false failed_ne_done fun h => hnot h.1

theorem amountsTo_removeRequirement (heir : Coordinate) :
    AmountsTo (fun _ => True) (fun f d => Descriptors.contains f.requirements d)
      (removeRequirement heir) leaveRequirements where
  nil _ := rfl
  cons _ _ _ _ := rfl
  keeps _ _ _ := trivial
  step_iff _ _ _ _ := removeRequirement_eq_done_iff

theorem amountsTo_removeCapability (heir : Coordinate) :
    AmountsTo (fun _ => True) (fun f d => Descriptors.contains f.capabilities d)
      (removeCapability heir) leaveCapabilities where
  nil _ := rfl
  cons _ _ _ _ := rfl
  keeps _ _ _ := trivial
  step_iff _ _ _ _ := removeCapability_eq_done_iff

end Feature
end FeatureAssembly
