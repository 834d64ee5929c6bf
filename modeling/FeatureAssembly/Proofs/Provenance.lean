import FeatureAssembly.Proofs.ArtifactMerge
import FeatureAssembly.Proofs.Marks
import FeatureAssembly.Proofs.NearestDefinition

/-! Who contributed the entries of an assembled feature. Every entry of a source gets an origin when
it is merged, and every merge unites the origins of what it merges; so what holds of the origins of
all sources, and passes on to unions of them, holds of all entries of the result. -/

namespace FeatureAssembly
open Outcome

def attributed (origin : Coordinate) (origins : List Coordinate) : List Coordinate :=
  if origins = [] then [origin] else origins

theorem attributed_of_ne_nil (origin : Coordinate) {origins : List Coordinate} (h : origins ≠ []) :
    attributed origin origins = origins := if_neg h

theorem nodup_attributed {origins : List Coordinate} (h : origins.Nodup) (origin : Coordinate) :
    (attributed origin origins).Nodup := by
  unfold attributed
  split
  · exact List.nodup_singleton origin
  · exact h

theorem Artifact.origins_stamped (a : Artifact) (origin : Coordinate) :
    (a.stamped origin).origins = attributed origin a.origins := by
  unfold stamped attributed
  split <;> rfl

theorem Artifact.stamped_of_ne_nil {a : Artifact} (h : a.origins ≠ []) (origin : Coordinate) :
    a.stamped origin = a := if_neg h

theorem Configuration.origins_stamped (c : Configuration) (origin : Coordinate) :
    (c.stamped origin).origins = attributed origin c.origins := by
  unfold stamped attributed
  split <;> rfl

theorem Property.origins_stamped (p : Property) (origin : Coordinate) :
    (p.stamped origin).origins = attributed origin p.origins := by
  unfold stamped attributed
  split <;> rfl

theorem Table.mem_of_get? {α : Type} {t : Table α} {key : String} {v : α}
    (h : get? t key = some v) : ∃ e ∈ t, e.2 = v := by
  obtain ⟨e, he, hv⟩ := Option.map_eq_some_iff.mp h
  exact ⟨e, Roster.mem_of_find? he, hv⟩

def Extension.All (P : Artifact → Prop) (e : Extension) : Prop :=
  ∀ l, e.content = .artifacts l → ∀ a ∈ l, P a

structure Feature.All (P : Artifact → Prop) (R : List Coordinate → Prop) (f : Feature) : Prop where
  bundles : ∀ a ∈ f.bundles, P a
  extensions : ∀ e ∈ f.extensions, e.All P
  configurations : ∀ c ∈ f.configurations, R c.origins
  frameworkProperties : ∀ e ∈ f.frameworkProperties, R e.2.origins
  vars : ∀ e ∈ f.vars, R e.2.origins

theorem Feature.all_ofId (P : Artifact → Prop) (R : List Coordinate → Prop) (id : Coordinate) :
    (ofId id).All P R where
  bundles _ h := absurd h List.not_mem_nil
  extensions _ h := absurd h List.not_mem_nil
  configurations _ h := absurd h List.not_mem_nil
  frameworkProperties _ h := absurd h List.not_mem_nil
  vars _ h := absurd h List.not_mem_nil

namespace Feature.All
variable {P Q : Artifact → Prop} {R S : List Coordinate → Prop} {f : Feature}

theorem mono (h : f.All P R) (hPQ : ∀ a, P a → Q a) (hRS : ∀ os, R os → S os) : f.All Q S where
  bundles a ha := hPQ a (h.bundles a ha)
  extensions e he l hl a ha := hPQ a (h.extensions e he l hl a ha)
  configurations c hc := hRS _ (h.configurations c hc)
  frameworkProperties e he := hRS _ (h.frameworkProperties e he)
  vars e he := hRS _ (h.vars e he)

theorem stamped (h : f.All P R) {origin : Coordinate} (artifact : ∀ a, P a → P (a.stamped origin))
    (origins : ∀ os, R os → R (attributed origin os)) : (f.stamped origin).All P R := by
  refine { h with bundles := fun a ha => ?_, extensions := fun e he => ?_,
                  configurations := fun c hc => ?_ }
  · obtain ⟨b, hb, rfl⟩ := List.mem_map.mp ha
    exact artifact b (h.bundles b hb)
  · obtain ⟨x, hx, rfl⟩ := List.mem_map.mp he
    intro l hl
    unfold Extension.stamped at hl
    split at hl
    · next k hk =>
      obtain rfl := ExtensionContent.artifacts.inj hl
      intro a ha
      obtain ⟨b, hb, rfl⟩ := List.mem_map.mp ha
      exact artifact b (h.extensions x hx k hk b hb)
    · exact h.extensions x hx l hl
  · obtain ⟨b, hb, rfl⟩ := List.mem_map.mp hc
    rw [Configuration.origins_stamped]
    exact origins _ (h.configurations b hb)

end Feature.All

/-! Leaving out. -/

namespace Artifacts

theorem removeNamed_subset (l : List Artifact) (id : Coordinate) : removeNamed l id ⊆ l := by
  unfold removeNamed
  split
  · exact (Roster.remove_sublist l id).subset
  · exact fun _ h => List.mem_of_mem_filter h

end Artifacts

namespace Feature

/-! Each removal touches only what it is about. -/

section
variable (heir : Coordinate) (f : Feature)

theorem value_removeBundle (id : Coordinate) : ∃ bundles configurations,
    (removeBundle heir f id).value = { f with bundles, configurations } := by
  unfold removeBundle
  split <;> exact ⟨_, _, rfl⟩

theorem value_removeConfiguration (entry : String) : ∃ configurations,
    (removeConfiguration heir f entry).value = { f with configurations } := by
  unfold removeConfiguration
  split
  · split <;> exact ⟨_, rfl⟩
  · split
    · exact ⟨_, rfl⟩
    · split <;> exact ⟨_, rfl⟩

theorem value_removeExtensionArtifacts (entry : String × List Coordinate) : ∃ extensions,
    Roster.keys extensions = Roster.keys f.extensions ∧
      (removeExtensionArtifacts heir f entry).value = { f with extensions } := by
  unfold removeExtensionArtifacts
  split
  · exact ⟨_, rfl, rfl⟩
  · refine ⟨_, ?_, rfl⟩
    exact Roster.keys_adjust f.extensions entry.1 fun _ => rfl

theorem value_removeRequirement (d : Descriptor) : ∃ requirements,
    (removeRequirement heir f d).value = { f with requirements } := by
  unfold removeRequirement
  split <;> exact ⟨_, rfl⟩

theorem value_removeCapability (d : Descriptor) : ∃ capabilities,
    (removeCapability heir f d).value = { f with capabilities } := by
  unfold removeCapability
  split <;> exact ⟨_, rfl⟩

end

variable {P : Artifact → Prop} {R : List Coordinate → Prop} {f : Feature}

theorem all_removeBundle (hf : f.All P R) (heir id : Coordinate) :
    (removeBundle heir f id).value.All P R := by
  unfold removeBundle
  split
  · exact hf
  · exact { hf with
      bundles := fun a ha => hf.bundles a (Artifacts.removeNamed_subset f.bundles id ha)
      configurations := fun c hc => hf.configurations c (List.mem_of_mem_filter hc) }

theorem all_removeConfiguration (hf : f.All P R) (heir : Coordinate) (entry : String) :
    (removeConfiguration heir f entry).value.All P R := by
  unfold removeConfiguration
  split
  · next pid _ =>
    split
    · have hsub := (Roster.remove_sublist f.configurations pid).subset
      exact { hf with configurations := fun c hc => hf.configurations c (hsub hc) }
    · exact hf
  · split
    · exact hf
    · next existing hfound =>
      split
      · refine { hf with configurations := fun c hc => ?_ }
        rcases Roster.mem_put hc with rfl | hc
        · exact hf.configurations existing (Roster.mem_of_find? hfound)
        · exact hf.configurations c hc
      · exact hf

theorem all_removeArtifacts (heir : Coordinate) (name : String) {l : List Artifact}
    (hl : ∀ a ∈ l, P a) (ids : List Coordinate) :
    ∀ a ∈ (removeArtifacts heir name l ids).value, P a := by
  refine each_keeps (P := fun l : List Artifact => ∀ a ∈ l, P a) (fun l id _ hl => ?_) hl
  split
  · exact hl
  · exact fun a ha => hl a (Artifacts.removeNamed_subset l id ha)

theorem all_removeExtensionArtifacts (hf : f.All P R) (heir : Coordinate)
    (entry : String × List Coordinate) :
    (removeExtensionArtifacts heir f entry).value.All P R := by
  unfold removeExtensionArtifacts
  split
  · exact hf
  · next l hl =>
    obtain ⟨x, hx, hcontent⟩ := Option.bind_eq_some_iff.mp hl
    have hpresent : ∀ a ∈ l, P a := by
      refine hf.extensions x (Roster.mem_of_find? hx) l ?_
      unfold Extension.artifacts? at hcontent
      split at hcontent
      · next heq => rw [heq, Option.some.inj hcontent]
      · cases hcontent
    refine { hf with extensions := fun e he => ?_ }
    rcases Roster.mem_adjust he with he | ⟨y, -, rfl⟩
    · exact hf.extensions e he
    · intro k hk
      obtain rfl := ExtensionContent.artifacts.inj hk
      exact all_removeArtifacts heir entry.1 hpresent entry.2

theorem all_removeFrameworkProperty (hf : f.All P R) (key : String) :
    (f.removeFrameworkProperty key).All P R := by
  have hsub := (Roster.remove_sublist f.frameworkProperties key).subset
  exact { hf with frameworkProperties := fun e he => hf.frameworkProperties e (hsub he) }

theorem all_removeExtension (hf : f.All P R) (name : String) :
    (f.removeExtension name).All P R := by
  have hsub := (Roster.remove_sublist f.extensions name).subset
  exact { hf with extensions := fun e he => hf.extensions e (hsub he) }

theorem all_removeRequirement (hf : f.All P R) (heir : Coordinate) (d : Descriptor) :
    (removeRequirement heir f d).value.All P R := by
  obtain ⟨_, hvalue⟩ := value_removeRequirement heir f d
  rw [hvalue]
  exact { hf with }

theorem all_removeCapability (hf : f.All P R) (heir : Coordinate) (d : Descriptor) :
    (removeCapability heir f d).value.All P R := by
  obtain ⟨_, hvalue⟩ := value_removeCapability heir f d
  rw [hvalue]
  exact { hf with }

theorem all_withoutRemovals (hf : f.All P R) (heir : Coordinate) (p : Prototype) :
    (withoutRemovals heir p f).value.All P R := by
  refine withoutRemovals_keeps (P := All P R) ?_ ?_ ?_ ?_ ?_ ?_ ?_ hf
  · exact fun f id _ hf => all_removeBundle hf heir id
  · exact fun f entry hf => all_removeConfiguration hf heir entry
  · exact fun f key hf => all_removeFrameworkProperty hf key
  · exact fun f name hf => all_removeExtension hf name
  · exact fun f entry hf => all_removeExtensionArtifacts hf heir entry
  · exact fun f d hf => all_removeRequirement hf heir d
  · exact fun f d hf => all_removeCapability hf heir d

theorem rest_withoutRemovals (f : Feature) (heir : Coordinate) (p : Prototype) :
    (withoutRemovals heir p f).value.id = f.id ∧
      (p.bundles = [] → (withoutRemovals heir p f).value.bundles = f.bundles) := by
  refine withoutRemovals_keeps (P := fun g => g.id = f.id ∧ (p.bundles = [] → g.bundles = f.bundles))
    ?_ ?_ ?_ ?_ ?_ ?_ ?_ ⟨rfl, fun _ => rfl⟩
  · intro g id hid hg
    obtain ⟨_, _, hvalue⟩ := value_removeBundle heir g id
    rw [hvalue]
    exact ⟨hg.1, fun hnone => absurd hid (hnone ▸ List.not_mem_nil)⟩
  · intro g entry hg
    obtain ⟨_, hvalue⟩ := value_removeConfiguration heir g entry
    rwa [hvalue]
  · exact fun g key hg => hg
  · exact fun g name hg => hg
  · intro g entry hg
    obtain ⟨_, -, hvalue⟩ := value_removeExtensionArtifacts heir g entry
    rwa [hvalue]
  · intro g d hg
    obtain ⟨_, hvalue⟩ := value_removeRequirement heir g d
    rwa [hvalue]
  · intro g d hg
    obtain ⟨_, hvalue⟩ := value_removeCapability heir g d
    rwa [hvalue]

end Feature

/-! Merging. -/

structure Feature.Hereditary (P : Artifact → Prop) (R : List Coordinate → Prop) : Prop where
  artifact : Artifact.Hereditary P
  union : ∀ {os os'}, R os → R os' → R (addAllNew os os')

/-- A demand on artifacts and on the origins of other entries, which only entries with origins meet,
and which merged entries meet if both sides do. -/
structure Demand where
  artifact : Artifact → Prop
  origins : List Coordinate → Prop
  hereditary : Artifact.Hereditary artifact
  artifact_ne_nil : ∀ {a}, artifact a → a.origins ≠ []
  ne_nil : ∀ {os}, origins os → os ≠ []
  union : ∀ {os os'}, origins os → origins os' → origins (addAllNew os os')

namespace Demand
variable {D : Demand} {f : Feature}

theorem hereditaryPair (D : Demand) : Feature.Hereditary D.artifact D.origins :=
  ⟨D.hereditary, D.union⟩

def Met (D : Demand) (f : Feature) : Prop := f.All D.artifact D.origins

def Offered (D : Demand) (f : Feature) : Prop :=
  f.All (fun a => D.artifact (a.stamped f.id)) fun os => D.origins (attributed f.id os)

theorem artifact_stamped {a : Artifact} (ha : D.artifact a) (origin : Coordinate) :
    D.artifact (a.stamped origin) := by
  rwa [Artifact.stamped_of_ne_nil (D.artifact_ne_nil ha)]

theorem origins_attributed {os : List Coordinate} (hos : D.origins os) (origin : Coordinate) :
    D.origins (attributed origin os) := by
  rwa [attributed_of_ne_nil origin (D.ne_nil hos)]

theorem Met.offered (h : D.Met f) : D.Offered f :=
  h.mono (fun _ ha => artifact_stamped ha f.id) fun _ hos => origins_attributed hos f.id

theorem Met.stamped (h : D.Met f) (origin : Coordinate) : D.Met (f.stamped origin) :=
  Feature.All.stamped h (fun _ ha => artifact_stamped ha origin)
    fun _ hos => origins_attributed hos origin

end Demand

section
variable {P : Artifact → Prop} {R : List Coordinate → Prop} {origin : Coordinate}

theorem Artifacts.all_merge (hP : Artifact.Hereditary P) {target source : List Artifact} (ht : ∀ a ∈ target, P a)
    (hs : ∀ a ∈ source, P (a.stamped origin)) (rules : List OverrideRule) :
    ∀ a ∈ (merge rules origin target source).value, P a :=
  hereditary_each hP (p := ⟨target, []⟩) ht hs

theorem Configuration.origins_agree (c : Configuration) (entry : String × ConfigValue) :
    (agree origin c entry).value.origins = c.origins := by
  unfold agree
  split
  · rfl
  · split <;> rfl

section
variable (union : ∀ {os os'}, R os → R os' → R (addAllNew os os'))
include union

theorem Configuration.origins_mergeBy {existing incoming : Configuration}
    (he : R existing.origins) (hi : R incoming.origins) (policy : ConfigurationPolicy) :
    R (existing.mergeBy policy origin incoming).value.origins := by
  cases policy with
  | failOnClash => exact he
  | failOnPropertyClash =>
    refine andThen_keeps (P := fun c : Configuration => R c.origins) ?_ fun c hc => ?_
    · refine each_keeps (P := fun c : Configuration => R c.origins) (fun c e _ hc => ?_) he
      rwa [origins_agree]
    · exact union hc hi
  | useLatest => exact hi
  | useFirst => exact he
  | mergeLatest => exact union he hi
  | mergeFirst => exact union he hi

theorem Configurations.all_merge {target source : List Configuration}
    (ht : ∀ c ∈ target, R c.origins)
    (hs : ∀ c ∈ source, R (attributed origin c.origins)) (policies : ConfigurationPolicies) :
    ∀ c ∈ (merge policies origin target source).value, R c.origins := by
  refine each_keeps (P := fun t : List Configuration => ∀ c ∈ t, R c.origins)
    (fun t c hc ht => ?_) ht
  have hincoming : R (c.stamped origin).origins := by
    rw [Configuration.origins_stamped]
    exact hs c hc
  unfold mergeIncoming
  intro d hd
  split at hd
  · rcases Roster.mem_add hd with rfl | hd
    · exact hincoming
    · exact ht d hd
  · next existing hfound =>
    rcases Roster.mem_put hd with rfl | hd
    · have hexisting := ht existing (Roster.mem_of_find? hfound)
      exact Configuration.origins_mergeBy union hexisting hincoming _
    · exact ht d hd

end

namespace Properties
variable {target source : Table Property}

theorem all_set (ht : ∀ e ∈ target, R e.2.origins) {p : Property} (hp : R p.origins)
    (key : String) : ∀ e ∈ Table.set target key p, R e.2.origins := by
  intro e he
  rcases Roster.mem_put he with rfl | he
  · exact hp
  · exact ht e he

variable (union : ∀ {os os'}, R os → R os' → R (addAllNew os os'))
include union

theorem all_mergeIncoming (ht : ∀ e ∈ target, R e.2.origins) {incoming : Property}
    (hi : R incoming.origins) (kind : PropertyKind) (overrides : Table String)
    (key : String) :
    ∀ e ∈ (mergeIncoming kind overrides origin target key incoming).value,
      R e.2.origins := by
  have present : ∀ {p : Property}, Table.get? target key = some p → R p.origins := by
    intro p hp
    obtain ⟨e, he, rfl⟩ := Table.mem_of_get? hp
    exact ht e he
  unfold mergeIncoming
  split
  · exact all_set ht hi key
  · next v _ _ => exact all_set (p := { incoming with value := v }) ht hi key
  · next hp _ => exact all_set ht (union (present hp) hi) key
  · next hp _ =>
    split
    · exact all_set ht (union (present hp) hi) key
    · exact ht

theorem all_overlayIncoming (ht : ∀ e ∈ target, R e.2.origins) {incoming : Property}
    (hi : R incoming.origins) (key : String) :
    ∀ e ∈ overlayIncoming target key incoming, R e.2.origins := by
  unfold overlayIncoming
  split
  · exact all_set ht hi key
  · next p hp =>
    obtain ⟨e, he, rfl⟩ := Table.mem_of_get? hp
    exact all_set ht (union (ht e he) hi) key

theorem all_mergeProperties (ht : ∀ e ∈ target, R e.2.origins)
    (hs : ∀ e ∈ source, R (attributed origin e.2.origins)) (mode : MergeMode)
    (kind : PropertyKind) (overrides : Table String) :
    ∀ e ∈ (mode.mergeProperties kind overrides origin target source).value,
      R e.2.origins := by
  have incoming : ∀ e ∈ source, R (e.2.stamped origin).origins := by
    intro e he
    rw [Property.origins_stamped]
    exact hs e he
  cases mode with
  | aggregate =>
    exact each_keeps (P := fun t : Table Property => ∀ e ∈ t, R e.2.origins)
      (fun t e he ht => all_mergeIncoming union ht (incoming e he) kind overrides e.1) ht
  | layer =>
    refine List.foldlRecOn (motive := fun t : Table Property => ∀ e ∈ t, R e.2.origins)
      source _ ht fun t ht e he => ?_
    exact all_overlayIncoming union ht (incoming e he) e.1

end Properties

section
variable (hP : Artifact.Hereditary P)
include hP

namespace Extension

theorem all_merge {existing incoming : Extension} (he : existing.All P)
    (hi : incoming.All fun a => P (a.stamped origin)) (rules : List OverrideRule) :
    (existing.merge rules origin incoming).value.All P := by
  unfold merge
  split
  · exact fun _ h => nomatch h
  · split
    · exact he
    · split
      · exact he
      · exact fun _ h => nomatch h
  · next l k hl hk =>
    have hmerged := Artifacts.all_merge hP (he l hl) (hi k hk) rules
    refine andThen_keeps (P := All P) ?_ fun e h => h
    intro m hm
    obtain rfl := ExtensionContent.artifacts.inj hm
    exact hmerged
  · exact he

theorem all_copy {e : Extension} (he : e.All fun a => P (a.stamped origin)) :
    (e.copy origin).All P := by
  unfold copy
  split
  · next l hl =>
    intro m hm
    obtain rfl := ExtensionContent.artifacts.inj hm
    have hmerged := Artifacts.all_merge hP (fun _ h => absurd h List.not_mem_nil) (he l hl) []
    rwa [Artifacts.merge_into_empty] at hmerged
  · next hother => exact fun l hl => absurd hl (hother l)

end Extension

theorem Extensions.all_merge {target source : List Extension} (ht : ∀ e ∈ target, e.All P)
    (hs : ∀ e ∈ source, e.All fun a => P (a.stamped origin)) (rules : List OverrideRule) :
    ∀ e ∈ (merge rules origin target source).value, e.All P :=
  forall_merge ht (fun _ he x hx => Extension.all_merge hP he (hs x hx) rules)
    fun x hx => Extension.all_copy hP (hs x hx)

end

namespace Feature.Hereditary
variable {target source : Feature}

theorem mergeContent (h : Feature.Hereditary P R) (ht : target.All P R)
    (hs : source.All (fun a => P (a.stamped source.id)) fun os => R (attributed source.id os))
    (ctx : MergeContext) (mode : MergeMode) :
    (Feature.mergeContent ctx mode source target).value.All P R := by
  refine andThen_keeps ?_ fun t ht => andThen_keeps ?_ fun t ht => andThen_keeps ?_ fun t ht =>
    andThen_keeps ?_ fun t ht => ?_
  · exact { ht with bundles := Artifacts.all_merge h.artifact ht.bundles hs.bundles _ }
  · exact { ht with
      configurations := Configurations.all_merge h.union ht.configurations hs.configurations _ }
  · exact { ht with
      frameworkProperties := Properties.all_mergeProperties h.union ht.frameworkProperties
        hs.frameworkProperties mode _ _ }
  · exact { ht with vars := Properties.all_mergeProperties h.union ht.vars hs.vars mode _ _ }
  · exact { ht with }

theorem merge (h : Feature.Hereditary P R) {ctx : MergeContext} (hctx : ctx.mergeHandlers = [])
    {d : Draft} (hd : d.feature.All P R)
    (hs : source.All (fun a => P (a.stamped source.id)) fun os => R (attributed source.id os))
    (mode : MergeMode) : (d.merge ctx mode source).value.feature.All P R := by
  refine andThen_keeps (P := fun d : Draft => d.feature.All P R) (h.mergeContent hd hs ctx mode)
    fun d hd => ?_
  rw [Draft.mergeExtensions_eq hctx]
  exact { hd with extensions := Extensions.all_merge h.artifact hd.extensions hs.extensions _ }

end Feature.Hereditary
end

section
variable {D : Demand} {ctx : MergeContext} (hctx : ctx.mergeHandlers = [])
include hctx

theorem Demand.Met.mergeOrFail {d : Draft} (hd : D.Met d.feature) {source : Feature}
    (hs : D.Offered source) (mode : MergeMode) :
    D.Met (d.mergeOrFail ctx mode source).value.feature := D.hereditaryPair.merge hctx hd hs mode

theorem Demand.Met.layer {d : Draft} (hd : D.Met d.feature) {f : Feature} (hf : D.Offered f) :
    D.Met (Draft.layer ctx f d).value.feature := by
  have hsource : D.Offered { f with prototype := none } := { hf with }
  refine andThen_keeps (P := fun d : Draft => D.Met d.feature) ?_ fun d hd => ?_
  · exact hd.mergeOrFail hctx hsource .layer
  · have hinherited : D.Met (d.feature.inheritAbout f) := { hd with }
    exact { hinherited.stamped f.id with }

theorem Demand.Offered.inherit {base d : Draft} (hbase : D.Offered base.feature) {heir : Feature}
    {p : Prototype} (h : Draft.inherit ctx heir p base = done d) : D.Met d.feature := by
  obtain ⟨rest, t, hrest, ht, hd⟩ := Draft.inherit_eq_done h
  obtain rfl : (base.feature.withoutRemovals heir.id p).value = rest := (eq_done_iff.mp hrest).1
  have hoffered : D.Offered (base.feature.withoutRemovals heir.id p).value := by
    rw [Offered, (Feature.rest_withoutRemovals ..).1]
    exact Feature.all_withoutRemovals hbase heir.id p
  have hmet := Met.mergeOrFail hctx (d := ⟨Feature.ofId heir.id, base.notes⟩)
    (Feature.all_ofId _ _ heir.id) hoffered .aggregate
  rw [ht] at hmet
  rw [hd]
  exact { hmet with }

/-- A feature that is built from others offers what all of them offer, and its entries meet the demand
as soon as something was merged into it. -/
theorem Lineage.Follows.offered_build {c : Catalogue} {f : Feature} {l : Lineage}
    (h : Follows c f l) (hl : ∀ g ∈ l.features, D.Offered g) {notes : List String} {d : Draft}
    (hd : l.build ctx notes = done d) :
    D.Offered d.feature ∧ (f.isAssembled = false → D.Met d.feature) := by
  induction h generalizing d with
  | assembled hassembled =>
    rw [← (eq_done_iff.mp hd).1]
    refine ⟨hl _ (List.mem_singleton_self _), fun hf => ?_⟩
    rw [hassembled] at hf
    cases hf
  | @root f =>
    have hempty : D.Met (Feature.ofId f.id) := Feature.all_ofId _ _ f.id
    have hmet := Demand.Met.layer hctx (d := ⟨Feature.ofId f.id, notes⟩) hempty
      (hl f (List.mem_singleton_self _))
    have hvalue : (Draft.layer ctx f ⟨Feature.ofId f.id, notes⟩).value = d := (eq_done_iff.mp hd).1
    rw [hvalue] at hmet
    exact ⟨hmet.offered, fun _ => hmet⟩
  | @heir f p g base hf hp hg further ih =>
    obtain ⟨lower, hlower, hlayer⟩ := andThen_eq_done_iff.mp hd
    obtain ⟨b, hb, hinherit⟩ := andThen_eq_done_iff.mp hlower
    -- a base that is taken as it is need not meet the demand before it is copied
    have hbase := (ih (fun g hg => hl g (List.mem_cons_of_mem _ hg)) hb).1
    have hmet := (hbase.inherit hctx hinherit).layer hctx (hl f (List.mem_cons_self ..))
    rw [hlayer] at hmet
    exact ⟨hmet.offered, fun _ => hmet⟩

end

/-! Substitution changes values, but not who contributed them. -/

theorem Properties.map_replaceValues {α : Type} {g : String × Property → α}
    (hg : ∀ key p value, g (key, { p with value }) = g (key, p))
    {replace : String → Except MergeError String} {t u : Table Property}
    (h : replaceValues replace t = .ok u) : u.map g = t.map g := by
  induction t generalizing u with
  | nil =>
    obtain rfl := Except.ok.inj h
    rfl
  | cons e t ih =>
    simp only [replaceValues, bind, Except.bind, pure, Except.pure] at h
    split at h
    · cases h
    · split at h
      · cases h
      · next rest hrest =>
        obtain rfl := Except.ok.inj h
        rw [List.map_cons, List.map_cons, ih hrest, hg]

theorem Configuration.origins_replaceTexts (replace : String → Outcome MergeError String)
    (c : Configuration) : (c.replaceTexts replace).value.origins = c.origins := rfl

theorem Feature.all_substitute {P : Artifact → Prop} {R : List Coordinate → Prop} {f : Feature}
    (hf : f.All P R) (overrides : Table String) : (f.substitute overrides).value.All P R := by
  unfold substitute
  dsimp only
  split
  · exact hf
  · next t ht =>
    refine { hf with configurations := fun c hc => ?_, frameworkProperties := fun e he => ?_ }
    · have hmem := List.mem_map_of_mem (f := Configuration.origins) hc
      rw [value_map, map_value_traverse fun c => Configuration.origins_replaceTexts _ c] at hmem
      obtain ⟨c', hc', hsame⟩ := List.mem_map.mp hmem
      rw [← hsame]
      exact hf.configurations c' hc'
    · have he : e ∈ t := he
      have hmem := List.mem_map_of_mem (f := fun e : String × Property => e.2.origins) he
      rw [Properties.map_replaceValues (fun _ _ _ => rfl) ht] at hmem
      obtain ⟨e', he', hsame⟩ := List.mem_map.mp hmem
      have hsame : e'.2.origins = e.2.origins := hsame
      rw [← hsame]
      exact hf.frameworkProperties e' he'

theorem Draft.all_finish {P : Artifact → Prop} {R : List Coordinate → Prop} {ctx : AssemblyContext}
    (hpost : ctx.merge.postHandlers = []) {d : Draft} (hd : d.feature.All P R) :
    (d.finish ctx).value.feature.All P R := by
  rw [finish_eq_substitute hpost, substitute]
  split
  · exact Feature.all_substitute hd _
  · exact hd

/-! Origins that a line of features knows. -/

inductive Feature.Records (g : Feature) (o : Coordinate) : Prop where
  | bundle {a} (ha : a ∈ g.bundles) (ho : o ∈ a.origins)
  | extension {e l a} (he : e ∈ g.extensions) (hl : e.content = .artifacts l) (ha : a ∈ l)
    (ho : o ∈ a.origins)
  | configuration {c} (hc : c ∈ g.configurations) (ho : o ∈ c.origins)
  | frameworkProperty {e} (he : e ∈ g.frameworkProperties) (ho : o ∈ e.2.origins)
  | variable {e} (he : e ∈ g.vars) (ho : o ∈ e.2.origins)

/-- Origins without repetition, at least one, and each of them a feature of the line or recorded in
one. -/
structure Attested (fs : List Feature) (origins : List Coordinate) : Prop where
  ne_nil : origins ≠ []
  nodup : origins.Nodup
  known : ∀ o ∈ origins, ∃ g ∈ fs, o = g.id ∨ g.Records o

namespace Attested
variable {fs : List Feature} {os os' : List Coordinate}

theorem addAllNew (h : Attested fs os) (h' : Attested fs os') :
    Attested fs (addAllNew os os') := by
  refine ⟨addAllNew_ne_nil h'.ne_nil os, nodup_addAllNew h.nodup os', fun o ho => ?_⟩
  rcases mem_addAllNew.mp ho with ho | ho
  · exact h.known o ho
  · exact h'.known o ho

theorem combine (h : Attested fs os) (h' : Attested fs os') :
    Attested fs (FeatureAssembly.addAllNew [] (os ++ os')) := by
  rw [addAllNew_append, addAllNew_of_nodup (l := []) h.nodup]
  exact h.addAllNew h'

theorem attributed {g : Feature} (hg : g ∈ fs) (hnodup : os.Nodup) (hos : ∀ o ∈ os, g.Records o) :
    Attested fs (attributed g.id os) := by
  unfold FeatureAssembly.attributed
  split
  · refine ⟨List.cons_ne_nil _ _, List.nodup_singleton _, fun o ho => ?_⟩
    exact ⟨g, hg, .inl (List.mem_singleton.mp ho)⟩
  · next hne => exact ⟨hne, hnodup, fun o ho => ⟨g, hg, .inr (hos o ho)⟩⟩

end Attested

def Demand.attested (fs : List Feature) : Demand where
  artifact a := Attested fs a.origins
  origins := Attested fs
  hereditary := ⟨Attested.combine, fun _ => Attested.combine, Attested.addAllNew⟩
  artifact_ne_nil h := h.ne_nil
  ne_nil h := h.ne_nil
  union := Attested.addAllNew

theorem Demand.attested_offered {fs : List Feature} {g : Feature} (hg : g ∈ fs)
    (hnodup : g.All (fun a => a.origins.Nodup) List.Nodup) : (attested fs).Offered g where
  bundles a ha := by
    have hattested := Attested.attributed hg (hnodup.bundles a ha) fun _ ho => .bundle ha ho
    rwa [← Artifact.origins_stamped] at hattested
  extensions e he l hl a ha := by
    have hattested := Attested.attributed hg (hnodup.extensions e he l hl a ha)
      fun _ ho => .extension he hl ha ho
    rwa [← Artifact.origins_stamped] at hattested
  configurations c hc :=
    .attributed hg (hnodup.configurations c hc) fun _ ho => .configuration hc ho
  frameworkProperties e he :=
    .attributed hg (hnodup.frameworkProperties e he) fun _ ho => .frameworkProperty he ho
  vars e he := .attributed hg (hnodup.vars e he) fun _ ho => .variable he ho

end FeatureAssembly
