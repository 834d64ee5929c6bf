import FeatureAssembly.Assembly.Assemble
import FeatureAssembly.Proofs.Outcome
import FeatureAssembly.Proofs.Walk

/-! Within each part of a feature no name comes twice. Merging, leaving out and assembling keep it
so, also where a fault ends them early. -/

namespace FeatureAssembly
open Outcome

namespace Roster
variable {α κ : Type} [Keyed α κ]

theorem keys_map {f : α → α} (hf : ∀ x, (Keyed.key (f x) : κ) = Keyed.key x) (l : List α) :
    keys (l.map f) = keys l := by
  simp only [keys, List.map_map]
  exact List.map_congr_left fun x _ => hf x

theorem Distinct.map {l : List α} (hl : Distinct l) {f : α → α}
    (hf : ∀ x, (Keyed.key (f x) : κ) = Keyed.key x) : Distinct (l.map f) := by
  rwa [Distinct, keys_map hf]

theorem Distinct.eq_of_key {l : List α} (hl : Distinct l) {x y : α} (hx : x ∈ l) (hy : y ∈ l)
    (h : (Keyed.key x : κ) = Keyed.key y) : x = y :=
  List.inj_on_of_nodup_map hl hx hy h

theorem find?_eq_some_iff [DecidableEq κ] {l : List α} (hl : Distinct l) {x : α} {k : κ} :
    find? l k = some x ↔ x ∈ l ∧ Keyed.key x = k := by
  constructor
  · exact fun h => ⟨mem_of_find? h, key_of_find? h⟩
  · rintro ⟨hx, rfl⟩
    have hfound : (find? l (Keyed.key x)).isSome := find?_isSome_iff.mpr (List.mem_map_of_mem hx)
    obtain ⟨y, hy⟩ := Option.isSome_iff_exists.mp hfound
    rw [hy, hl.eq_of_key (mem_of_find? hy) hx (key_of_find? hy)]

theorem Distinct.insertAt? [DecidableEq κ] {l m : List α} (hl : Distinct l) {i : Nat} {x : α}
    (h : Roster.insertAt? l i x = some m) : Distinct m := by
  have hm := hl.insertAt i x
  rwa [Roster.insertAt, h] at hm

end Roster

@[simp] theorem Artifact.key_eq (a : Artifact) : (Keyed.key a : Coordinate) = a.id := rfl

@[simp] theorem Configuration.key_eq (c : Configuration) : (Keyed.key c : String) = c.pid := rfl

@[simp] theorem Extension.key_eq (e : Extension) : (Keyed.key e : String) = e.name := rfl

@[simp] theorem Table.key_eq {α : Type} (e : String × α) : (Keyed.key e : String) = e.1 := rfl

@[simp] theorem Artifact.id_stamped (a : Artifact) (origin : Coordinate) :
    (a.stamped origin).id = a.id := by
  unfold stamped
  split <;> rfl

@[simp] theorem Configuration.pid_stamped (c : Configuration) (origin : Coordinate) :
    (c.stamped origin).pid = c.pid := by
  unfold stamped
  split <;> rfl

@[simp] theorem Extension.name_stamped (e : Extension) (origin : Coordinate) :
    (e.stamped origin).name = e.name := by
  unfold stamped
  split <;> rfl

namespace Descriptors

/-- No descriptor of a list is equal to a later one. -/
def Distinct (l : List Descriptor) : Prop := l.Pairwise fun d e => d.same e = false

theorem Distinct.add {l : List Descriptor} (hl : Distinct l) (d : Descriptor) :
    Distinct (Descriptors.add l d) := by
  unfold Descriptors.add
  split
  · exact hl
  · next h =>
    refine List.pairwise_append.mpr ⟨hl, List.pairwise_singleton .., fun e he d' hd' => ?_⟩
    rw [List.mem_singleton.mp hd']
    exact Bool.eq_false_iff.mpr fun hsame => h (List.any_eq_true.mpr ⟨e, he, hsame⟩)

theorem Distinct.addAll {l : List Descriptor} (hl : Distinct l) (ds : List Descriptor) :
    Distinct (Descriptors.addAll l ds) := by
  induction ds generalizing l with
  | nil => exact hl
  | cons d ds ih => exact ih (hl.add d)

theorem Distinct.remove {l : List Descriptor} (hl : Distinct l) (d : Descriptor) :
    Distinct (Descriptors.remove l d) := List.Pairwise.filter _ hl

theorem addAll_of_distinct {l ds : List Descriptor} (h : Distinct (l ++ ds)) :
    addAll l ds = l ++ ds := by
  induction ds generalizing l with
  | nil => simp [addAll]
  | cons d ds ih =>
    have hnew : contains l d = false := by
      rw [contains, List.any_eq_false]
      intro e he
      exact Bool.eq_false_iff.mp ((List.pairwise_append.mp h).2.2 e he d (List.mem_cons_self ..))
    have hadd : Descriptors.add l d = l ++ [d] := by
      rw [Descriptors.add, hnew]
      rfl
    have htail := ih (l := l ++ [d]) (by simpa using h)
    simpa [addAll, hadd] using htail

theorem addAll_nil_of_distinct {ds : List Descriptor} (h : Distinct ds) : addAll [] ds = ds :=
  addAll_of_distinct (l := []) h

end Descriptors

structure Feature.Distinct (f : Feature) : Prop where
  bundles : Roster.Distinct f.bundles
  configurations : Roster.Distinct f.configurations
  frameworkProperties : Roster.Distinct f.frameworkProperties
  vars : Roster.Distinct f.vars
  requirements : Descriptors.Distinct f.requirements
  capabilities : Descriptors.Distinct f.capabilities
  extensions : Roster.Distinct f.extensions

namespace Artifacts

theorem distinct_placeAt {l : List Artifact} (hl : Roster.Distinct l) (i : Nat)
    (as : List Artifact) : Roster.Distinct (placeAt l i as) := by
  induction as generalizing l i with
  | nil => exact hl
  | cons a as ih =>
    unfold placeAt
    split
    · next h => exact ih (hl.insertAt? h) (i + 1)
    · exact ih hl i

theorem distinct_mergeOne {rules : List OverrideRule} {origin : Coordinate} {p : Progress}
    (hp : Roster.Distinct p.artifacts) (a : Artifact) :
    Roster.Distinct (mergeOne rules origin p a).value.artifacts := by
  unfold mergeOne mergeIncoming
  split
  · exact hp.add _
  · dsimp only
    split
    · exact hp
    · exact distinct_placeAt (hp.filter _) ..

theorem distinct_merge {target : List Artifact} (ht : Roster.Distinct target)
    (rules : List OverrideRule) (origin : Coordinate) (source : List Artifact) :
    Roster.Distinct (merge rules origin target source).value :=
  each_keeps (P := fun p : Progress => Roster.Distinct p.artifacts)
    (fun _ a _ hp => distinct_mergeOne hp a) ht

theorem distinct_removeNamed {l : List Artifact} (hl : Roster.Distinct l) (id : Coordinate) :
    Roster.Distinct (removeNamed l id) := by
  unfold removeNamed
  split
  · exact hl.remove id
  · exact hl.filter _

end Artifacts

theorem Configurations.distinct_merge {target : List Configuration} (ht : Roster.Distinct target)
    (policies : ConfigurationPolicies) (origin : Coordinate) (source : List Configuration) :
    Roster.Distinct (merge policies origin target source).value := by
  refine each_keeps (P := Roster.Distinct) (fun t c _ ht => ?_) ht
  unfold mergeIncoming
  split
  · exact ht.add _
  · exact ht.put _

namespace Properties
variable {target : Table Property}

theorem distinct_merge (ht : Roster.Distinct target) (kind : PropertyKind)
    (overrides : Table String) (origin : Coordinate) (source : Table Property) :
    Roster.Distinct (merge kind overrides origin target source).value := by
  refine each_keeps (P := Roster.Distinct) (fun t e _ ht => ?_) ht
  unfold mergeIncoming
  split
  · exact ht.put _
  · exact ht.put _
  · exact ht.put _
  · split
    · exact ht.put _
    · exact ht

theorem distinct_overlayIncoming (ht : Roster.Distinct target) (key : String) (p : Property) :
    Roster.Distinct (overlayIncoming target key p) := by
  unfold overlayIncoming
  split <;> exact ht.put _

theorem distinct_overlay (ht : Roster.Distinct target) (origin : Coordinate)
    (source : Table Property) : Roster.Distinct (overlay origin target source) := by
  unfold overlay
  induction source generalizing target with
  | nil => exact ht
  | cons e source ih => exact ih (distinct_overlayIncoming ht ..)

end Properties

theorem MergeMode.distinct_mergeProperties {target : Table Property} (ht : Roster.Distinct target)
    (mode : MergeMode) (kind : PropertyKind) (overrides : Table String) (origin : Coordinate)
    (source : Table Property) :
    Roster.Distinct (mode.mergeProperties kind overrides origin target source).value := by
  cases mode with
  | aggregate => exact Properties.distinct_merge ht ..
  | layer => exact Properties.distinct_overlay ht ..

theorem Extensions.distinct_mergeOne {target : List Extension} (ht : Roster.Distinct target)
    (rules : List OverrideRule) (origin : Coordinate) (e : Extension) :
    Roster.Distinct (mergeOne rules origin target e).value := by
  unfold mergeOne
  split
  · exact ht.put _
  · cases e.copied rules origin with
    | ok x => exact ht.put x
    | error _ => exact ht

namespace Feature

theorem distinct_ofId (id : Coordinate) : (ofId id).Distinct :=
  ⟨Roster.distinct_nil, Roster.distinct_nil, Roster.distinct_nil, Roster.distinct_nil,
    List.Pairwise.nil, List.Pairwise.nil, Roster.distinct_nil⟩

theorem distinct_mergeContent {target : Feature} (ht : target.Distinct) (ctx : MergeContext)
    (mode : MergeMode) (source : Feature) :
    (mergeContent ctx mode source target).value.Distinct := by
  refine andThen_keeps ?_ fun t ht => andThen_keeps ?_ fun t ht => andThen_keeps ?_ fun t ht =>
    andThen_keeps ?_ fun t ht => ?_
  · exact { ht with bundles := Artifacts.distinct_merge ht.bundles .. }
  · exact { ht with configurations := Configurations.distinct_merge ht.configurations .. }
  · exact { ht with
      frameworkProperties := MergeMode.distinct_mergeProperties ht.frameworkProperties .. }
  · exact { ht with vars := MergeMode.distinct_mergeProperties ht.vars .. }
  · exact { ht with
      requirements := ht.requirements.addAll _
      capabilities := ht.capabilities.addAll _ }

end Feature

theorem Draft.distinct_merge {d : Draft} (hd : d.feature.Distinct) {ctx : MergeContext}
    (hctx : ctx.mergeHandlers = []) (mode : MergeMode) (source : Feature) :
    (d.merge ctx mode source).value.feature.Distinct := by
  refine andThen_keeps (P := fun d : Draft => d.feature.Distinct)
    (Feature.distinct_mergeContent hd ..) fun d hd => ?_
  refine each_keeps (P := fun d : Draft => d.feature.Distinct) (fun d e _ hd => ?_) hd
  unfold mergeExtension
  rw [hctx]
  exact { hd with extensions := Extensions.distinct_mergeOne hd.extensions .. }

namespace Feature
variable {f : Feature}

theorem distinct_removeBundle (hf : f.Distinct) (heir id : Coordinate) :
    (removeBundle heir f id).value.Distinct := by
  unfold removeBundle
  split
  · exact hf
  · exact { hf with
      bundles := Artifacts.distinct_removeNamed hf.bundles id
      configurations := hf.configurations.filter _ }

theorem distinct_removeConfiguration (hf : f.Distinct) (heir : Coordinate) (entry : String) :
    (removeConfiguration heir f entry).value.Distinct := by
  unfold removeConfiguration
  split
  · split
    · exact { hf with configurations := hf.configurations.remove _ }
    · exact hf
  · split
    · exact hf
    · split
      · exact { hf with configurations := hf.configurations.put _ }
      · exact hf

theorem distinct_removeExtensionArtifacts (hf : f.Distinct) (heir : Coordinate)
    (entry : String × List Coordinate) :
    (removeExtensionArtifacts heir f entry).value.Distinct := by
  unfold removeExtensionArtifacts
  split
  · exact hf
  · exact { hf with extensions := hf.extensions.adjust entry.1 fun _ => rfl }

theorem distinct_removeRequirement (hf : f.Distinct) (heir : Coordinate) (d : Descriptor) :
    (removeRequirement heir f d).value.Distinct := by
  unfold removeRequirement
  split
  · exact { hf with requirements := hf.requirements.remove d }
  · exact hf

theorem distinct_removeCapability (hf : f.Distinct) (heir : Coordinate) (d : Descriptor) :
    (removeCapability heir f d).value.Distinct := by
  unfold removeCapability
  split
  · exact { hf with capabilities := hf.capabilities.remove d }
  · exact hf

theorem withoutRemovals_keeps {P : Feature → Prop} {heir : Coordinate} {p : Prototype}
    (bundle : ∀ f, ∀ id ∈ p.bundles, P f → P (removeBundle heir f id).value)
    (configuration : ∀ f entry, P f → P (removeConfiguration heir f entry).value)
    (frameworkProperty : ∀ f key, P f → P (f.removeFrameworkProperty key))
    (extension : ∀ f name, P f → P (f.removeExtension name))
    (extensionArtifacts : ∀ f entry, P f → P (removeExtensionArtifacts heir f entry).value)
    (requirement : ∀ f d, P f → P (removeRequirement heir f d).value)
    (capability : ∀ f d, P f → P (removeCapability heir f d).value) {f : Feature} (hf : P f) :
    P (withoutRemovals heir p f).value := by
  refine andThen_keeps ?_ fun f hf => andThen_keeps ?_ fun f hf => andThen_keeps ?_ fun f hf =>
    andThen_keeps ?_ fun f hf => ?_
  · exact each_keeps bundle hf
  · exact each_keeps (fun f entry _ => configuration f entry) hf
  · refine each_keeps (fun f entry _ => extensionArtifacts f entry) ?_
    refine List.foldlRecOn _ _ ?_ fun f hf name _ => extension f name hf
    exact List.foldlRecOn _ _ hf fun f hf key _ => frameworkProperty f key hf
  · exact each_keeps (fun f d _ => requirement f d) hf
  · exact each_keeps (fun f d _ => capability f d) hf

theorem distinct_withoutRemovals (hf : f.Distinct) (heir : Coordinate) (p : Prototype) :
    (withoutRemovals heir p f).value.Distinct := by
  refine withoutRemovals_keeps (P := Distinct) ?_ ?_ ?_ ?_ ?_ ?_ ?_ hf
  · exact fun f id _ hf => distinct_removeBundle hf heir id
  · exact fun f entry hf => distinct_removeConfiguration hf heir entry
  · exact fun f key hf => { hf with frameworkProperties := hf.frameworkProperties.remove key }
  · exact fun f name hf => { hf with extensions := hf.extensions.remove name }
  · exact fun f entry hf => distinct_removeExtensionArtifacts hf heir entry
  · exact fun f d hf => distinct_removeRequirement hf heir d
  · exact fun f d hf => distinct_removeCapability hf heir d

theorem Distinct.stamped (hf : f.Distinct) (origin : Coordinate) : (f.stamped origin).Distinct :=
  { hf with
    bundles := hf.bundles.map fun _ => Artifact.id_stamped ..
    configurations := hf.configurations.map fun _ => Configuration.pid_stamped ..
    extensions := hf.extensions.map fun _ => Extension.name_stamped .. }

end Feature

section
variable {ctx : MergeContext} (hctx : ctx.mergeHandlers = [])
include hctx

theorem Draft.distinct_layer {d : Draft} (hd : d.feature.Distinct) (f : Feature) :
    (layer ctx f d).value.feature.Distinct := by
  refine andThen_keeps (P := fun d : Draft => d.feature.Distinct) (distinct_merge hd hctx ..)
    fun d hd => ?_
  have hs : (d.feature.stamped f.id).Distinct := hd.stamped f.id
  exact { hs with }

theorem Draft.distinct_inherit {d : Draft} (hd : d.feature.Distinct) (heir : Feature)
    (p : Prototype) : (inherit ctx heir p d).value.feature.Distinct := by
  refine andThen_keeps (P := fun d : Draft => d.feature.Distinct)
    (Feature.distinct_withoutRemovals hd ..) fun d hd => ?_
  refine andThen_keeps (P := fun d : Draft => d.feature.Distinct)
    (distinct_merge (Feature.distinct_ofId _) hctx ..) fun d hd => ?_
  exact { hd with }

theorem Lineage.Follows.distinct_build {c : Catalogue} {f : Feature} {l : Lineage}
    (h : Follows c f l) (hl : ∀ g ∈ l.features, g.isAssembled = true → g.Distinct)
    (notes : List String) : (l.build ctx notes).value.feature.Distinct := by
  induction h with
  | assembled hf => exact hl _ (List.mem_singleton_self _) hf
  | root => exact Draft.distinct_layer hctx (Feature.distinct_ofId _) _
  | heir _ _ _ _ ih =>
    have hbase := ih fun g hg => hl g (List.mem_cons_of_mem _ hg)
    refine andThen_keeps (P := fun d : Draft => d.feature.Distinct) ?_ fun d hd => ?_
    · refine andThen_keeps (P := fun d : Draft => d.feature.Distinct) hbase fun d hd => ?_
      exact Draft.distinct_inherit hctx hd _ _
    · exact Draft.distinct_layer hctx hd _

theorem Lineage.Follows.distinct_of_build {c : Catalogue} {f : Feature} {l : Lineage}
    (h : Follows c f l) (hl : ∀ g ∈ l.features, g.isAssembled = true → g.Distinct)
    {notes : List String} {d : Draft} (hd : l.build ctx notes = done d) : d.feature.Distinct := by
  have hkept := h.distinct_build hctx hl notes
  rwa [hd] at hkept

end
end FeatureAssembly
