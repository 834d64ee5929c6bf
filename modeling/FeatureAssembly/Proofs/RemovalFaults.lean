import FeatureAssembly.Proofs.DescriptorEquality
import FeatureAssembly.Proofs.Removal

/-! When a reference can be left out. If it lists nothing twice, its items do not get in the way of each
other, except that a bundle takes the configurations along that it brought, that a configuration takes its
properties and that an extension takes its artifacts. So it can be left out exactly if what it names is
there but for these. -/

namespace FeatureAssembly
open Outcome

structure Prototype.ListsOnce (p : Prototype) : Prop where
  bundles : (p.bundles.map Coordinate.identity).Nodup
  artifacts : ∀ name,
    ((Artifacts.listedFor p.artifactExtensions name).map Coordinate.identity).Nodup
  configurations : p.targets.Nodup
  requirements : Descriptors.Distinct p.requirements
  capabilities : Descriptors.Distinct p.capabilities

def Configuration.GoesWith (ids : List Coordinate) (bundles : List Artifact) (c : Configuration) :
    Prop :=
  ∃ a ∈ bundles, c.artifactOrigin = some a.id ∧ ∃ i ∈ ids, Artifacts.Takes bundles i a.id

/-- Whether all that a reference names is in a feature, as far as it is expected to be. -/
structure Feature.Covers (f : Feature) (p : Prototype) : Prop where
  bundles : ∀ i ∈ p.bundles, ∃ a ∈ f.bundles, a.id.identity = i.identity
  configurations : ∀ pid, (pid, none) ∈ p.targets →
    ∃ c ∈ f.configurations, c.pid = pid ∧ ¬ c.GoesWith p.bundles f.bundles
  properties : ∀ before pid key after, p.targets = before ++ (pid, some key) :: after →
    (pid, none) ∉ before ∧ ∃ c ∈ f.configurations, c.pid = pid ∧
      ¬ c.GoesWith p.bundles f.bundles ∧ key ∈ Roster.keys c.properties
  artifacts : ∀ entry ∈ p.artifactExtensions, entry.1 ∉ p.extensions ∧
    ∃ e ∈ f.extensions, e.name = entry.1 ∧ ∃ l, e.content = .artifacts l ∧
      ∀ i ∈ entry.2, ∃ a ∈ l, a.id.identity = i.identity
  requirements : ∀ d ∈ p.requirements, Descriptors.contains f.requirements d
  capabilities : ∀ d ∈ p.capabilities, Descriptors.contains f.capabilities d

theorem Roster.filter_not_mem_filter {α κ : Type} [Keyed α κ] [DecidableEq κ] (l : List α)
    (ks : List κ) : (l.filter fun x => Keyed.key x ∉ ks.filter (· ∈ keys l)) =
      l.filter fun x => Keyed.key x ∉ ks := by
  refine List.filter_congr fun x hx => ?_
  have hthere : Keyed.key x ∈ keys l := List.mem_map_of_mem hx
  rw [decide_eq_decide, List.mem_filter, decide_eq_true_iff, and_iff_left hthere]

/-! Artifacts. -/

namespace Artifacts
variable {l : List Artifact} {ids : List Coordinate}

theorem canLeave_iff (hl : Roster.Distinct l) (hids : (ids.map Coordinate.identity).Nodup) :
    CanLeave l ids ↔ ∀ i ∈ ids, ∃ a ∈ l, a.id.identity = i.identity := by
  rw [← forall_split_iff_forall_mem]
  refine forall_congr' fun before => forall_congr' fun i => forall₂_congr fun after hsplit => ?_
  subst hsplit
  refine exists_without_iff hl fun k hk hid => ?_
  rw [List.map_append] at hids
  exact (List.nodup_append.mp hids).2.2 _ (List.mem_map_of_mem hk) _ (List.mem_cons_self ..) hid

theorem canLeave_without_iff (hl : Roster.Distinct l) {more : List Coordinate}
    (hids : ((ids ++ more).map Coordinate.identity).Nodup) :
    CanLeave (without l ids) more ↔ ∀ i ∈ more, ∃ a ∈ l, a.id.identity = i.identity := by
  rw [List.map_append] at hids
  obtain ⟨-, hmore, hbeside⟩ := List.nodup_append.mp hids
  rw [canLeave_iff (distinct_without hl ids) hmore]
  refine forall₂_congr fun i hi => exists_without_iff hl fun k hk => ?_
  exact hbeside _ (List.mem_map_of_mem hk) _ (List.mem_map_of_mem hi)

theorem mem_lost_without_iff (hl : Roster.Distinct l) (hids : (ids.map Coordinate.identity).Nodup)
    {o : Coordinate} :
    o ∈ lost l (without l ids) ↔ ∃ a ∈ l, a.id = o ∧ ∃ i ∈ ids, Takes l i a.id := by
  rw [mem_lost]
  refine exists_congr fun a => and_congr_right fun ha => ?_
  rw [mem_without hl, and_iff_right ha, stays_iff_of_nodup hids, and_comm]
  push Not
  rfl

end Artifacts

theorem Configuration.not_goesWith_iff {l : List Artifact} {ids : List Coordinate}
    {c : Configuration} (hl : Roster.Distinct l) (hids : (ids.map Coordinate.identity).Nodup) :
    ¬ c.GoesWith ids l ↔ ∀ o ∈ c.artifactOrigin, o ∉ Artifacts.lost l (Artifacts.without l ids) := by
  simp only [Artifacts.mem_lost_without_iff hl hids, GoesWith]
  constructor
  · rintro hnot o ho ⟨a, ha, rfl, htaken⟩
    exact hnot ⟨a, ha, ho, htaken⟩
  · rintro hall ⟨a, ha, ho, htaken⟩
    exact hall a.id ho ⟨a, ha, rfl, htaken⟩

namespace Feature
variable {heir : Coordinate} {p : Prototype} {f : Feature}

/-! Configurations. -/

theorem has_leaveConfigurations_iff (hf : f.Unambiguous) (hp : p.ListsOnce) :
    (∀ before entry after, p.configurations = before ++ entry :: after →
      Configurations.Has ((f.leaveBundles p.bundles).leaveConfigurations before).configurations
        (Prototype.splitRemoval entry)) ↔
      (∀ pid, (pid, none) ∈ p.targets →
        ∃ c ∈ f.configurations, c.pid = pid ∧ ¬ c.GoesWith p.bundles f.bundles) ∧
      ∀ before pid key after, p.targets = before ++ (pid, some key) :: after →
        (pid, none) ∉ before ∧ ∃ c ∈ f.configurations, c.pid = pid ∧
          ¬ c.GoesWith p.bundles f.bundles ∧ key ∈ Roster.keys c.properties := by
  have hleft : ∀ c, c ∈ (f.leaveBundles p.bundles).configurations ↔
      c ∈ f.configurations ∧ ¬ c.GoesWith p.bundles f.bundles := by
    intro c
    rw [Configuration.not_goesWith_iff hf.bundles hp.bundles]
    exact Configurations.mem_withoutOrigins
  -- nothing is listed twice, so only a plain entry for the whole configuration can be in the way
  have hfresh : ∀ before t after, p.targets = before ++ t :: after → t ∉ before := by
    intro before t after hsplit hmem
    have hnodup := hp.configurations
    rw [hsplit] at hnodup
    exact (List.nodup_append.mp hnodup).2.2 t hmem t (List.mem_cons_self ..) rfl
  refine (forall_split_map_iff (C := fun before t => Configurations.Has
    (Configurations.without (f.leaveBundles p.bundles).configurations before) t)).trans ?_
  simp only [Configurations.has_without]
  constructor
  · intro h
    constructor
    · intro pid hpid
      obtain ⟨before, after, hsplit⟩ := List.append_of_mem hpid
      obtain ⟨⟨c, hc, hcpid⟩, -, -⟩ := h before _ after hsplit
      obtain ⟨hmem, hstays⟩ := (hleft c).mp hc
      exact ⟨c, hmem, hcpid, hstays⟩
    · intro before pid key after hsplit
      obtain ⟨⟨c, hc, hcpid, hkey⟩, -, hplain⟩ := h before _ after hsplit
      obtain ⟨hmem, hstays⟩ := (hleft c).mp hc
      exact ⟨hplain, c, hmem, hcpid, hstays, hkey⟩
  · rintro ⟨hplain, hkeyed⟩ before ⟨pid, _ | key⟩ after hsplit
    · have hlisted : (pid, none) ∈ p.targets := by
        rw [Prototype.targets, hsplit]
        exact List.mem_append_right _ (List.mem_cons_self ..)
      obtain ⟨c, hmem, hcpid, hstays⟩ := hplain pid hlisted
      have hnew := hfresh before _ after hsplit
      exact ⟨⟨c, (hleft c).mpr ⟨hmem, hstays⟩, hcpid⟩, hnew, hnew⟩
    · obtain ⟨hearlier, c, hmem, hcpid, hstays, hkey⟩ := hkeyed before pid key after hsplit
      exact ⟨⟨c, (hleft c).mpr ⟨hmem, hstays⟩, hcpid, hkey⟩, hfresh before _ after hsplit, hearlier⟩

/-! Artifacts of extensions. -/

theorem canLeave_artifacts_iff (hf : f.Unambiguous) (hp : p.ListsOnce) :
    (∀ before entry after, p.artifactExtensions = before ++ entry :: after →
      ∃ l, Extensions.artifacts? ((f.withoutNames p).leaveArtifacts before).extensions entry.1 = some l ∧
        Artifacts.CanLeave l entry.2) ↔
      ∀ entry ∈ p.artifactExtensions, entry.1 ∉ p.extensions ∧
        ∃ e ∈ f.extensions, e.name = entry.1 ∧ ∃ l, e.content = .artifacts l ∧
          ∀ i ∈ entry.2, ∃ a ∈ l, a.id.identity = i.identity := by
  rw [← forall_split_iff_forall_mem]
  refine forall_congr' fun before => forall_congr' fun entry => forall₂_congr fun after hsplit => ?_
  -- earlier entries of the same extension list other identities than this one
  have hlisted : Artifacts.listedFor p.artifactExtensions entry.1 =
      Artifacts.listedFor before entry.1 ++ entry.2 ++ Artifacts.listedFor after entry.1 := by
    simp [Artifacts.listedFor, hsplit]
  have honce : ((Artifacts.listedFor before entry.1 ++ entry.2).map Coordinate.identity).Nodup := by
    have hall := hp.artifacts entry.1
    rw [hlisted, List.map_append] at hall
    exact (List.nodup_append.mp hall).1
  have hdistinct : Roster.Distinct
      ((f.extensions.filter fun e => e.name ∉ p.extensions).map (Extension.without before)) :=
    (hf.extensions.filter _).map fun _ => Extension.name_without
  rw [withoutNames_eq hf]
  simp only [leaveArtifacts, Extensions.artifacts?_eq_some_iff hdistinct, List.mem_map]
  constructor
  · rintro ⟨k, ⟨_, ⟨e, he, rfl⟩, hname, hk⟩, hleave⟩
    obtain ⟨hmem, hunlisted⟩ := List.mem_filter.mp he
    obtain ⟨l, hl, rfl⟩ := Extension.content_without_eq_iff.mp hk
    rw [Extension.name_without] at hname
    rw [hname, Artifacts.canLeave_without_iff (hf.artifacts e hmem l hl) honce] at hleave
    exact ⟨hname ▸ of_decide_eq_true hunlisted, e, hmem, hname, l, hl, hleave⟩
  · rintro ⟨hunlisted, e, hmem, hname, l, hl, hall⟩
    refine ⟨_, ⟨_, ⟨e, ?_, rfl⟩, Extension.name_without.trans hname,
      Extension.content_without_eq_iff.mpr ⟨l, hl, rfl⟩⟩, ?_⟩
    · exact List.mem_filter.mpr ⟨hmem, decide_eq_true (hname ▸ hunlisted)⟩
    · rw [hname]
      exact (Artifacts.canLeave_without_iff (hf.artifacts e hmem l hl) honce).mpr hall

theorem canLeave_iff_covers (hf : f.Unambiguous)
    (hd : ∀ d ∈ f.requirements ++ f.capabilities, d.Unambiguous) (hp : p.ListsOnce) :
    f.CanLeave p ↔ f.Covers p := by
  rw [List.forall_mem_append] at hd
  have hbundles := Artifacts.canLeave_iff hf.bundles hp.bundles
  have hconfigurations := has_leaveConfigurations_iff hf hp
  have hartifacts := canLeave_artifacts_iff hf hp
  have hrequirements := Descriptors.forall_contains_without_iff hd.1 hp.requirements
  have hcapabilities := Descriptors.forall_contains_without_iff hd.2 hp.capabilities
  have hr : (f.withoutArtifacts p).requirements = f.requirements := requirements_withoutArtifacts hf
  have hc : (f.withoutArtifacts p).capabilities = f.capabilities := capabilities_withoutArtifacts hf
  constructor
  · intro h
    obtain ⟨hplain, hkeyed⟩ := hconfigurations.mp h.configurations
    exact ⟨hbundles.mp h.bundles, hplain, hkeyed, hartifacts.mp h.artifacts,
      hrequirements.mp (hr ▸ h.requirements), hcapabilities.mp (hc ▸ h.capabilities)⟩
  · intro h
    exact ⟨hbundles.mpr h.bundles, hconfigurations.mpr ⟨h.configurations, h.properties⟩,
      hartifacts.mpr h.artifacts, hr ▸ hrequirements.mpr h.requirements,
      hc ▸ hcapabilities.mpr h.capabilities⟩

/-! Names that are not there. -/

def present (f : Feature) (p : Prototype) : Prototype :=
  { p with
    frameworkProperties := p.frameworkProperties.filter (· ∈ Roster.keys f.frameworkProperties)
    extensions := p.extensions.filter (· ∈ Roster.keys f.extensions) }

def SameNames (f g : Feature) : Prop :=
  g.frameworkProperties = f.frameworkProperties ∧ g.extensions = f.extensions

theorem sameNames_removeBundle {g : Feature} (h : f.SameNames g) (i : Coordinate) :
    f.SameNames (removeBundle heir g i).value := by
  unfold removeBundle
  split <;> exact h

theorem sameNames_removeConfiguration {g : Feature} (h : f.SameNames g) (entry : String) :
    f.SameNames (removeConfiguration heir g entry).value := by
  unfold removeConfiguration
  split
  · split <;> exact h
  · split
    · exact h
    · split <;> exact h

theorem foldl_present {g : Feature} (hf : f.Distinct) (h : f.SameNames g) (p : Prototype) :
    (f.present p).extensions.foldl removeExtension
        ((f.present p).frameworkProperties.foldl removeFrameworkProperty g) =
      p.extensions.foldl removeExtension (p.frameworkProperties.foldl removeFrameworkProperty g) := by
  have hproperties : Roster.Distinct g.frameworkProperties := h.1.symm ▸ hf.frameworkProperties
  have hextensions : Roster.Distinct g.extensions := h.2.symm ▸ hf.extensions
  have hkeys : (g.frameworkProperties.filter fun e => e.1 ∉ (f.present p).frameworkProperties) =
      g.frameworkProperties.filter fun e => e.1 ∉ p.frameworkProperties := by
    rw [present, ← h.1]
    exact Roster.filter_not_mem_filter _ _
  have hnames : (g.extensions.filter fun e => e.name ∉ (f.present p).extensions) =
      g.extensions.filter fun e => e.name ∉ p.extensions := by
    rw [present, ← h.2]
    exact Roster.filter_not_mem_filter _ _
  rw [foldl_names hproperties hextensions, foldl_names hproperties hextensions, hkeys, hnames]

theorem withoutRemovals_present (hf : f.Distinct) (heir : Coordinate) (p : Prototype) :
    withoutRemovals heir (f.present p) f = withoutRemovals heir p f := by
  have hbundles : f.SameNames (each (removeBundle heir) f p.bundles).value :=
    each_keeps (P := f.SameNames) (fun _ i _ h => sameNames_removeBundle h i) ⟨rfl, rfl⟩
  have hconfigurations : f.SameNames (each (removeConfiguration heir)
      (each (removeBundle heir) f p.bundles).value p.configurations).value :=
    each_keeps (P := f.SameNames) (fun _ entry _ h => sameNames_removeConfiguration h entry) hbundles
  refine andThen_congr (andThen_congr ?_)
  exact congrArg (fun g => (each (removeExtensionArtifacts heir) g p.artifactExtensions).andThen
    fun g => (each (removeRequirement heir) g p.requirements).andThen fun g =>
      each (removeCapability heir) g p.capabilities) (foldl_present hf hconfigurations p)

/-- A reference that lists nothing twice can be left out exactly if what it names is there; all that may
be reported is that something is missing, and it is never a framework property or a whole extension. -/
theorem withoutRemovals_succeeds_iff (hf : f.Unambiguous)
    (hd : ∀ d ∈ f.requirements ++ f.capabilities, d.Unambiguous) (hp : p.ListsOnce)
    (heir : Coordinate) :
    ((∃ r, withoutRemovals heir p f = done r) ↔ f.Covers p) ∧
      withoutRemovals heir (f.present p) f = withoutRemovals heir p f ∧
      ∀ e, (withoutRemovals heir p f).fault = some e → ∃ missing, e = .missingRemoval missing heir := by
  refine ⟨?_, withoutRemovals_present hf.toDistinct heir p,
    (faultsIn_withoutRemovals heir f p).of_fault⟩
  simp only [withoutRemovals_eq_done_iff hf, exists_and_left, exists_eq, and_true]
  exact canLeave_iff_covers hf hd hp

end Feature

namespace Sample

def excess : Prototype := { cuts with configurations := "of.b" :: cuts.configurations }

theorem unambiguous_descriptors_shop :
    ∀ d ∈ shop.requirements ++ shop.capabilities, d.Unambiguous := by
  intro d hd
  obtain rfl := List.mem_singleton.mp hd
  exact ⟨List.nodup_nil, fun _ h => absurd h List.not_mem_nil, List.nodup_nil⟩

theorem listsOnce_cuts : cuts.ListsOnce where
  bundles := by decide
  artifacts name := by
    by_cases hname : "repository" = name
    · subst hname
      decide
    · simp [cuts, Artifacts.listedFor, hname]
  configurations := by decide
  requirements := List.pairwise_singleton ..
  capabilities := List.Pairwise.nil

theorem listsOnce_excess : excess.ListsOnce :=
  { listsOnce_cuts with configurations := by decide }

end Sample

theorem Feature.shop_covers_cuts :
    Sample.shop.Unambiguous ∧
      (∀ d ∈ Sample.shop.requirements ++ Sample.shop.capabilities, d.Unambiguous) ∧
      Sample.cuts.ListsOnce ∧ Sample.shop.Covers Sample.cuts ∧
      Sample.excess.ListsOnce ∧ ¬ Sample.shop.Covers Sample.excess := by
  have hshop := Sample.unambiguous_shop
  have hdescriptors := Sample.unambiguous_descriptors_shop
  have hcuts := withoutRemovals_succeeds_iff hshop hdescriptors Sample.listsOnce_cuts
    (Sample.id "heir")
  have hexcess := withoutRemovals_succeeds_iff hshop hdescriptors Sample.listsOnce_excess
    (Sample.id "heir")
  refine ⟨hshop, hdescriptors, Sample.listsOnce_cuts, hcuts.1.mp ⟨_, rfl⟩, Sample.listsOnce_excess,
    fun hcovers => ?_⟩
  obtain ⟨r, hr⟩ := hexcess.1.mpr hcovers
  exact nomatch (eq_done_iff.mp hr).2

end FeatureAssembly
