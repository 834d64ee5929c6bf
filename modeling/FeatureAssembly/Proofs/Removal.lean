import FeatureAssembly.Proofs.ExtensionRemoval

/-! What a prototype reference leaves of a feature. Bundles go first and take along the configurations
that they brought; then configurations and their properties, names, artifacts and descriptors. A reference
whose parts can all be left out takes what it names and leaves the rest as it was. -/

namespace FeatureAssembly
open Outcome

def Prototype.targets (p : Prototype) : List (String × Option String) :=
  p.configurations.map splitRemoval

structure Extension.LeavesOut (ids : List Coordinate) (e x : Extension) : Prop where
  name : x.name = e.name
  state : x.state = e.state
  artifacts : ∀ l, e.content = .artifacts l →
    ∃ k, x.content = .artifacts k ∧ Artifacts.LeavesOut ids l k
  untouched : (ids = [] ∨ ∀ l, e.content ≠ .artifacts l) → x = e

theorem Extension.leavesOut_without {e : Extension}
    (he : ∀ l, e.content = .artifacts l → Roster.Distinct l)
    (entries : List (String × List Coordinate)) :
    e.LeavesOut (Artifacts.listedFor entries e.name) (e.without entries) := by
  obtain ⟨name, state, l | s | c⟩ := e
  · refine ⟨rfl, rfl, fun k hk => ?_, fun h => ?_⟩
    · obtain rfl := ExtensionContent.artifacts.inj hk
      exact ⟨_, rfl, Artifacts.leavesOut_without (he l rfl) _⟩
    · rcases h with h | h
      · exact without_of_unlisted h
      · exact absurd rfl (h l)
  · exact ⟨rfl, rfl, fun _ h => (nomatch h), fun _ => rfl⟩
  · exact ⟨rfl, rfl, fun _ h => (nomatch h), fun _ => rfl⟩

namespace Feature
variable {heir : Coordinate} {p : Prototype} {f r : Feature}

/-! The parts one after the other. -/

def withoutConfigurations (p : Prototype) (f : Feature) : Feature :=
  (f.leaveBundles p.bundles).leaveConfigurations p.configurations

def withoutNames (p : Prototype) (f : Feature) : Feature :=
  p.extensions.foldl removeExtension
    (p.frameworkProperties.foldl removeFrameworkProperty (f.withoutConfigurations p))

def withoutArtifacts (p : Prototype) (f : Feature) : Feature :=
  (f.withoutNames p).leaveArtifacts p.artifactExtensions

def remainder (p : Prototype) (f : Feature) : Feature :=
  ((f.withoutArtifacts p).leaveRequirements p.requirements).leaveCapabilities p.capabilities

structure CanLeave (p : Prototype) (f : Feature) : Prop where
  bundles : Artifacts.CanLeave f.bundles p.bundles
  configurations : ∀ before entry after, p.configurations = before ++ entry :: after →
    Configurations.Has ((f.leaveBundles p.bundles).leaveConfigurations before).configurations
      (Prototype.splitRemoval entry)
  artifacts : ∀ before entry after, p.artifactExtensions = before ++ entry :: after →
    ∃ l, Extensions.artifacts? ((f.withoutNames p).leaveArtifacts before).extensions entry.1 = some l ∧
      Artifacts.CanLeave l entry.2
  requirements : ∀ before d after, p.requirements = before ++ d :: after →
    Descriptors.contains (Descriptors.without (f.withoutArtifacts p).requirements before) d
  capabilities : ∀ before d after, p.capabilities = before ++ d :: after →
    Descriptors.contains (Descriptors.without (f.withoutArtifacts p).capabilities before) d

theorem withoutNames_eq (hf : f.Unambiguous) : f.withoutNames p =
    { f.withoutConfigurations p with
      frameworkProperties := f.frameworkProperties.filter fun e => e.1 ∉ p.frameworkProperties
      extensions := f.extensions.filter fun e => e.name ∉ p.extensions } := by
  have hproperties : Roster.Distinct (f.withoutConfigurations p).frameworkProperties :=
    hf.frameworkProperties
  have hextensions : Roster.Distinct (f.withoutConfigurations p).extensions := hf.extensions
  exact foldl_names hproperties hextensions p.frameworkProperties p.extensions

theorem distinct_extensions_withoutNames (hf : f.Unambiguous) :
    Roster.Distinct (f.withoutNames p).extensions ∧ ∀ e ∈ (f.withoutNames p).extensions,
      ∀ l, e.content = .artifacts l → Roster.Distinct l := by
  rw [withoutNames_eq hf]
  exact ⟨hf.extensions.filter _, fun e he => hf.artifacts e (List.mem_of_mem_filter he)⟩

theorem distinct_configurations_leaveBundles (hf : f.Unambiguous) (ids : List Coordinate) :
    Roster.Distinct (f.leaveBundles ids).configurations ∧
      ∀ c ∈ (f.leaveBundles ids).configurations, Roster.Distinct c.properties :=
  ⟨hf.configurations.filter _, fun c hc => hf.properties c (List.mem_of_mem_filter hc)⟩

theorem requirements_withoutArtifacts (hf : f.Unambiguous) :
    (f.withoutArtifacts p).requirements = f.requirements := by
  rw [withoutArtifacts, leaveArtifacts, withoutNames_eq hf]
  rfl

theorem capabilities_withoutArtifacts (hf : f.Unambiguous) :
    (f.withoutArtifacts p).capabilities = f.capabilities := by
  rw [withoutArtifacts, leaveArtifacts, withoutNames_eq hf]
  rfl

theorem withoutRemovals_eq_done_iff (hf : f.Unambiguous) :
    withoutRemovals heir p f = done r ↔ f.CanLeave p ∧ r = f.remainder p := by
  rw [withoutRemovals, (amountsTo_removeBundle heir).andThen_eq_done_iff hf.bundles,
    (amountsTo_removeConfiguration heir).andThen_eq_done_iff
      (distinct_configurations_leaveBundles hf p.bundles)]
  dsimp only
  rw [← withoutConfigurations, ← withoutNames,
    (amountsTo_removeExtensionArtifacts heir).andThen_eq_done_iff
      (distinct_extensions_withoutNames hf),
    (amountsTo_removeRequirement heir).andThen_eq_done_iff trivial,
    (amountsTo_removeCapability heir).each_eq_done_iff trivial]
  constructor
  · rintro ⟨hbundles, hconfigurations, hartifacts, hrequirements, hcapabilities, hr⟩
    exact ⟨⟨hbundles, hconfigurations, hartifacts, hrequirements, hcapabilities⟩, hr⟩
  · rintro ⟨⟨hbundles, hconfigurations, hartifacts, hrequirements, hcapabilities⟩, hr⟩
    exact ⟨hbundles, hconfigurations, hartifacts, hrequirements, hcapabilities, hr⟩

theorem remainder_eq (hf : f.Unambiguous) : f.remainder p = { f with
    bundles := Artifacts.without f.bundles p.bundles
    configurations := Configurations.without (Configurations.withoutOrigins f.configurations
      (Artifacts.lost f.bundles (Artifacts.without f.bundles p.bundles))) p.targets
    frameworkProperties := f.frameworkProperties.filter fun e => e.1 ∉ p.frameworkProperties
    extensions := (f.extensions.filter fun e => e.name ∉ p.extensions).map
      (Extension.without p.artifactExtensions)
    requirements := Descriptors.without f.requirements p.requirements
    capabilities := Descriptors.without f.capabilities p.capabilities } := by
  rw [remainder, withoutArtifacts, withoutNames_eq hf]
  rfl

structure LeavesOut (p : Prototype) (f r : Feature) : Prop where
  bundles : Artifacts.LeavesOut p.bundles f.bundles r.bundles
  configurations : r.configurations =
    (f.configurations.filter fun c =>
      (∀ o ∈ c.artifactOrigin, o ∉ Artifacts.lost f.bundles r.bundles) ∧
        (c.pid, none) ∉ p.targets).map fun c =>
      { c with properties := c.properties.filter fun e => (c.pid, some e.1) ∉ p.targets }
  frameworkProperties : r.frameworkProperties =
    f.frameworkProperties.filter fun e => e.1 ∉ p.frameworkProperties
  extensions : List.Forall₂
    (fun e x => e.LeavesOut (Artifacts.listedFor p.artifactExtensions e.name) x)
    (f.extensions.filter fun e => e.name ∉ p.extensions) r.extensions
  requirements : r.requirements = f.requirements.filter fun d => ∀ e ∈ p.requirements, d.same e = false
  capabilities : r.capabilities = f.capabilities.filter fun d => ∀ e ∈ p.capabilities, d.same e = false
  rest : r = { f with
    bundles := r.bundles
    configurations := r.configurations
    frameworkProperties := r.frameworkProperties
    extensions := r.extensions
    requirements := r.requirements
    capabilities := r.capabilities }

theorem leavesOut_of_withoutRemovals (hf : f.Unambiguous) (h : withoutRemovals heir p f = done r) :
    LeavesOut p f r := by
  obtain ⟨-, rfl⟩ := (withoutRemovals_eq_done_iff hf).mp h
  rw [remainder_eq hf]
  refine ⟨Artifacts.leavesOut_without hf.bundles p.bundles, ?_, rfl, ?_,
    Descriptors.without_eq_filter _ _, Descriptors.without_eq_filter _ _, rfl⟩
  · dsimp only
    rw [Configurations.without, Configurations.withoutOrigins, List.filter_filter]
    refine congrArg (List.map (Configuration.without p.targets)) (List.filter_congr fun c _ => ?_)
    rw [Bool.decide_and, Bool.and_comm]
  · refine List.forall₂_map_right_iff.mpr (List.forall₂_same.mpr fun e he => ?_)
    exact Extension.leavesOut_without (hf.artifacts e (List.mem_of_mem_filter he)) _

end Feature

namespace Sample

def jar (name version : String) : Artifact := .ofId { id name with version }

def shop : Feature :=
  { Feature.ofId (id "base") with
    bundles := [jar "b" "1", jar "b" "2", jar "c" "1", jar "c" "2"]
    configurations := [⟨"of.b", [], [], some (jar "b" "1").id⟩,
      ⟨"of.c", [], [], some (jar "c" "2").id⟩, ⟨"dropped", [], [], none⟩,
      ⟨"own", [("k", .boolean true), ("l", .boolean false)], [], none⟩]
    extensions := [⟨"repository", .optional, .artifacts [jar "d" "1", jar "e" "1"]⟩,
      ⟨"notes", .optional, .text "n"⟩]
    requirements := [⟨"ee", [], []⟩] }

def cuts : Prototype :=
  { Prototype.ofId (id "base") with
    bundles := [(jar "b" "1").id, (jar "c" "3").id]
    configurations := ["dropped", "own@k"]
    frameworkProperties := ["absent"]
    extensions := ["notes"]
    artifactExtensions := [("repository", [(jar "d" "2").id])]
    requirements := [⟨"ee", [], []⟩] }

theorem unambiguous_shop : shop.Unambiguous where
  toDistinct := by
    refine ⟨?_, ?_, ?_, ?_, List.pairwise_singleton .., List.Pairwise.nil, ?_⟩
    all_goals
      unfold Roster.Distinct
      decide
  properties := by
    unfold Roster.Distinct
    decide
  artifacts e he l hl := by
    rcases List.mem_cons.mp he with rfl | he
    · obtain rfl := ExtensionContent.artifacts.inj hl
      unfold Roster.Distinct
      decide
    · obtain rfl := List.mem_singleton.mp he
      exact nomatch hl

end Sample

theorem Feature.shop_without_cuts : Sample.shop.Unambiguous ∧ ∃ r,
    withoutRemovals (Sample.id "heir") Sample.cuts Sample.shop = done r ∧
      LeavesOut Sample.cuts Sample.shop r ∧ r.bundles = [Sample.jar "b" "2"] ∧
      r.configurations = [⟨"own", [("l", .boolean false)], [], none⟩] := by
  refine ⟨Sample.unambiguous_shop, _, rfl, ?_, rfl, rfl⟩
  exact leavesOut_of_withoutRemovals Sample.unambiguous_shop rfl

end FeatureAssembly
