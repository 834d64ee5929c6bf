import FeatureAssembly.Proofs.BundleOrigins
import FeatureAssembly.Proofs.Contributors
import FeatureAssembly.Proofs.JsonEntries

/-! Well-formed features: no part has a name twice, no list of origins or aliases repeats one, and every
JSON extension is a container with its text. Merging, leaving out, substituting and assembling keep
features so, and what a fault leaves behind is well formed too. -/

namespace FeatureAssembly
open Outcome

structure Extension.WellFormed (e : Extension) : Prop where
  artifacts : ∀ l, e.content = .artifacts l → Roster.Distinct l
  json : ∀ c, e.content = .json c → c.Valid

structure Feature.WellFormed (f : Feature) : Prop where
  distinct : f.Distinct
  unrepeated : f.All (fun a => a.origins.Nodup ∧ a.aliases.Nodup) List.Nodup
  extensions : ∀ e ∈ f.extensions, e.WellFormed

/-! Origins and aliases. -/

theorem Artifact.hereditary_nodup :
    Hereditary fun a => a.origins.Nodup ∧ a.aliases.Nodup where
  existing he _ := ⟨nodup_addAllNew List.nodup_nil _, he.2⟩
  incoming _ _ hi := ⟨nodup_addAllNew List.nodup_nil _, hi.2⟩
  absorb ha _ := ⟨nodup_addAllNew ha.1 _, ha.2⟩

theorem Feature.hereditary_nodup :
    Hereditary (fun a => a.origins.Nodup ∧ a.aliases.Nodup) List.Nodup :=
  ⟨Artifact.hereditary_nodup, fun h _ => nodup_addAllNew h _⟩

theorem Artifact.nodup_stamped {a : Artifact} (h : a.origins.Nodup ∧ a.aliases.Nodup)
    (origin : Coordinate) :
    (a.stamped origin).origins.Nodup ∧ (a.stamped origin).aliases.Nodup := by
  rw [origins_stamped, aliases_stamped]
  exact ⟨nodup_attributed h.1 origin, h.2⟩

/-! Extensions. -/

theorem JsonContent.ofValue_of_isContainer {v : Json} (h : v.isContainer) :
    ofValue v = .ok ⟨v, v.text⟩ := if_pos h

namespace Extension

theorem wellFormed_of_artifacts {name : String} {state : ExtensionState} {l : List Artifact}
    (h : Roster.Distinct l) : WellFormed ⟨name, state, .artifacts l⟩ where
  artifacts _ hl := ExtensionContent.artifacts.inj hl ▸ h
  json _ hc := nomatch hc

theorem WellFormed.withState {e : Extension} (h : e.WellFormed) (state : ExtensionState) :
    ({ e with state } : Extension).WellFormed := ⟨h.artifacts, h.json⟩

theorem WellFormed.stamped {e : Extension} (h : e.WellFormed) (origin : Coordinate) :
    (e.stamped origin).WellFormed := by
  unfold Extension.stamped
  split
  · next l hl =>
    exact wellFormed_of_artifacts ((h.artifacts l hl).map fun a => Artifact.id_stamped a origin)
  · exact h

theorem WellFormed.copy {e : Extension} (h : e.WellFormed) (origin : Coordinate) :
    (e.copy origin).WellFormed := by
  unfold Extension.copy
  split
  · next l _ =>
    have hdistinct := Artifacts.distinct_merge Roster.distinct_nil [] origin l
    rw [Artifacts.merge_into_empty] at hdistinct
    exact wellFormed_of_artifacts hdistinct
  · exact h

theorem WellFormed.merge {existing incoming : Extension} (he : existing.WellFormed)
    (hi : incoming.WellFormed) (rules : List OverrideRule) (origin : Coordinate) :
    (existing.merge rules origin incoming).value.WellFormed := by
  unfold Extension.merge
  split
  · exact ⟨fun _ h => (nomatch h), fun _ h => nomatch h⟩
  · next c d hc hd =>
    split
    · exact he
    · next v hv =>
      have hcontainer := Json.isContainer_of_merge (hi.json d hd).container hv
      rw [JsonContent.ofValue_of_isContainer hcontainer]
      refine ⟨fun _ h => (nomatch h), fun c hc => ?_⟩
      obtain rfl := ExtensionContent.json.inj hc
      exact ⟨hcontainer, rfl⟩
  · next l k hl _ =>
    have hdistinct := Artifacts.distinct_merge (he.artifacts l hl) rules origin k
    exact andThen_keeps (P := WellFormed) (wellFormed_of_artifacts hdistinct)
      fun e h => h.withState _
  · exact he

theorem WellFormed.merge_structured {existing incoming : Extension} (hi : incoming.WellFormed)
    {c d : JsonContent} (hc : existing.content = .json c) (hd : incoming.content = .json d)
    (rules : List OverrideRule) (origin : Coordinate) (kind : Json.Kind) :
    (existing.merge rules origin incoming).fault ≠ some (.content (.unstructuredJson kind)) := by
  unfold Extension.merge
  rw [hc, hd]
  dsimp only
  split
  · simp
  · next v hv =>
    have hcontainer := Json.isContainer_of_merge (hi.json d hd).container hv
    rw [JsonContent.ofValue_of_isContainer hcontainer]
    simp

end Extension

theorem Extensions.wellFormed_merge {target source : List Extension}
    (ht : ∀ e ∈ target, e.WellFormed) (hs : ∀ e ∈ source, e.WellFormed)
    (rules : List OverrideRule) (origin : Coordinate) :
    ∀ e ∈ (merge rules origin target source).value, e.WellFormed :=
  forall_merge ht (fun _ he x hx => he.merge (hs x hx) rules origin)
    fun x hx => (hs x hx).copy origin

namespace Feature

theorem wellFormed_ofId (id : Coordinate) : (ofId id).WellFormed :=
  ⟨distinct_ofId id, all_ofId _ _ id, fun _ h => absurd h List.not_mem_nil⟩

namespace WellFormed
variable {f : Feature}

theorem withMarks (h : f.WellFormed) (isFinal isComplete isAssembled : Bool) :
    ({ f with isFinal, isComplete, isAssembled } : Feature).WellFormed :=
  ⟨{ h.distinct with }, { h.unrepeated with }, h.extensions⟩

theorem withoutPrototype (h : f.WellFormed) : ({ f with prototype := none } : Feature).WellFormed :=
  ⟨{ h.distinct with }, { h.unrepeated with }, h.extensions⟩

theorem inheritAbout (h : f.WellFormed) (g : Feature) : (f.inheritAbout g).WellFormed :=
  ⟨{ h.distinct with }, { h.unrepeated with }, h.extensions⟩

theorem stamped (h : f.WellFormed) (origin : Coordinate) : (f.stamped origin).WellFormed where
  distinct := h.distinct.stamped origin
  unrepeated := h.unrepeated.stamped (fun _ ha => Artifact.nodup_stamped ha origin)
    fun _ hos => nodup_attributed hos origin
  extensions e he := by
    obtain ⟨x, hx, rfl⟩ := List.mem_map.mp he
    exact (h.extensions x hx).stamped origin

/-! Leaving out. -/

theorem distinct_removeArtifacts (heir : Coordinate) (name : String) {l : List Artifact}
    (hl : Roster.Distinct l) (ids : List Coordinate) :
    Roster.Distinct (removeArtifacts heir name l ids).value := by
  refine each_keeps (P := Roster.Distinct) (fun l id _ hl => ?_) hl
  split
  · exact hl
  · exact Artifacts.distinct_removeNamed hl id

theorem extensions_removeExtensionArtifacts (h : ∀ e ∈ f.extensions, e.WellFormed)
    (heir : Coordinate) (entry : String × List Coordinate) :
    ∀ e ∈ (removeExtensionArtifacts heir f entry).value.extensions, e.WellFormed := by
  unfold removeExtensionArtifacts
  split
  · exact h
  · next l hl =>
    obtain ⟨x, hx, hcontent⟩ := Option.bind_eq_some_iff.mp hl
    have hpresent : Roster.Distinct l := by
      refine (h x (Roster.mem_of_find? hx)).artifacts l ?_
      unfold Extension.artifacts? at hcontent
      split at hcontent
      · next heq => rw [heq, Option.some.inj hcontent]
      · cases hcontent
    intro e he
    rcases Roster.mem_adjust he with he | ⟨y, -, rfl⟩
    · exact h e he
    · exact Extension.wellFormed_of_artifacts
        (distinct_removeArtifacts heir entry.1 hpresent entry.2)

theorem withoutRemovals (h : f.WellFormed) (heir : Coordinate) (p : Prototype) :
    (f.withoutRemovals heir p).value.WellFormed := by
  refine ⟨distinct_withoutRemovals h.distinct heir p, all_withoutRemovals h.unrepeated heir p, ?_⟩
  refine withoutRemovals_keeps (P := fun g => ∀ e ∈ g.extensions, e.WellFormed)
    ?_ ?_ ?_ ?_ ?_ ?_ ?_ h.extensions
  · intro g id _ hg
    obtain ⟨_, _, hvalue⟩ := value_removeBundle heir g id
    rwa [hvalue]
  · intro g entry hg
    obtain ⟨_, hvalue⟩ := value_removeConfiguration heir g entry
    rwa [hvalue]
  · exact fun g key hg => hg
  · exact fun g name hg e he => hg e ((Roster.remove_sublist g.extensions name).subset he)
  · exact fun g entry hg => extensions_removeExtensionArtifacts hg heir entry
  · intro g d hg
    obtain ⟨_, hvalue⟩ := value_removeRequirement heir g d
    rwa [hvalue]
  · intro g d hg
    obtain ⟨_, hvalue⟩ := value_removeCapability heir g d
    rwa [hvalue]

/-! Substitution. -/

theorem distinct_substitute (h : f.Distinct) (overrides : Table String) :
    (f.substitute overrides).value.Distinct := by
  unfold Feature.substitute
  dsimp only
  split
  · exact h
  · next t ht =>
    have hkeys : Roster.keys t = Roster.keys f.frameworkProperties :=
      Properties.map_replaceValues (fun _ _ _ => rfl) ht
    refine { h with configurations := ?_, frameworkProperties := ?_ }
    · rw [value_map, Roster.Distinct, Roster.keys, map_value_traverse fun _ => rfl]
      exact h.configurations
    · have hsame : Roster.Distinct t := by
        rw [Roster.Distinct, hkeys]
        exact h.frameworkProperties
      exact hsame

theorem extensions_substitute (overrides : Table String) (f : Feature) :
    (f.substitute overrides).value.extensions = f.extensions := by
  unfold Feature.substitute
  dsimp only
  split <;> rfl

theorem substitute (h : f.WellFormed) (overrides : Table String) :
    (f.substitute overrides).value.WellFormed :=
  ⟨distinct_substitute h.distinct overrides, all_substitute h.unrepeated overrides,
    (extensions_substitute overrides f).symm ▸ h.extensions⟩

end WellFormed
end Feature

/-! Merging and building. -/

section
variable {ctx : MergeContext} (hctx : ctx.mergeHandlers = [])
include hctx

theorem Draft.wellFormed_merge {d : Draft} (hd : d.feature.WellFormed) {source : Feature}
    (hs : source.WellFormed) (mode : MergeMode) :
    (d.merge ctx mode source).value.feature.WellFormed where
  distinct := distinct_merge hd.distinct hctx mode source
  unrepeated := by
    have hoffered := hs.unrepeated.mono
      (fun a ha => Artifact.nodup_stamped ha source.id) fun os hos => nodup_attributed hos source.id
    exact Feature.hereditary_nodup.merge hctx hd.unrepeated hoffered mode
  extensions := by
    refine andThen_keeps (P := fun d : Draft => ∀ e ∈ d.feature.extensions, e.WellFormed) ?_
      fun d hd => ?_
    · exact (Feature.extensions_mergeContent ctx mode source d.feature).symm ▸ hd.extensions
    · rw [mergeExtensions_eq hctx]
      exact Extensions.wellFormed_merge hd hs.extensions _ _

theorem Draft.wellFormed_layer {d : Draft} (hd : d.feature.WellFormed) {f : Feature}
    (hf : f.WellFormed) : (layer ctx f d).value.feature.WellFormed := by
  refine andThen_keeps (P := fun d : Draft => d.feature.WellFormed)
    (wellFormed_merge hctx hd hf.withoutPrototype .layer) fun d hd => ?_
  exact ((hd.inheritAbout f).stamped f.id).withMarks ..

theorem Draft.wellFormed_inherit {base : Draft} (hbase : base.feature.WellFormed) (heir : Feature)
    (p : Prototype) : (inherit ctx heir p base).value.feature.WellFormed := by
  refine andThen_keeps (P := fun d : Draft => d.feature.WellFormed)
    (hbase.withoutRemovals heir.id p) fun rest hrest => ?_
  refine andThen_keeps (P := fun d : Draft => d.feature.WellFormed) ?_ fun d hd =>
    hd.inheritAbout rest.feature
  exact wellFormed_merge hctx (d := ⟨Feature.ofId heir.id, rest.notes⟩)
    (Feature.wellFormed_ofId heir.id) hrest .aggregate

theorem Lineage.wellFormed_build {l : Lineage} (hl : ∀ g ∈ l.features, g.WellFormed)
    (notes : List String) : (l.build ctx notes).value.feature.WellFormed := by
  induction l with
  | assembled f => exact hl f (List.mem_singleton_self f)
  | root f =>
    exact Draft.wellFormed_layer hctx (d := ⟨Feature.ofId f.id, notes⟩)
      (Feature.wellFormed_ofId f.id) (hl f (List.mem_singleton_self f))
  | heir f p base ih =>
    have hbase := ih fun g hg => hl g (List.mem_cons_of_mem _ hg)
    refine andThen_keeps (P := fun d : Draft => d.feature.WellFormed) ?_ fun d hd => ?_
    · refine andThen_keeps (P := fun d : Draft => d.feature.WellFormed) hbase fun d hd => ?_
      exact Draft.wellFormed_inherit hctx hd f p
    · exact Draft.wellFormed_layer hctx hd (hl f (List.mem_cons_self ..))

theorem Lineage.wellFormed_build_ofFeature {c : Catalogue} {f : Feature} {l : Lineage}
    (hl : ofFeature c f = .ok l) (hf : f.WellFormed) (hc : ∀ e ∈ c, e.2.WellFormed)
    (notes : List String) : (l.build ctx notes).value.feature.WellFormed := by
  refine wellFormed_build hctx (fun g hg => ?_) notes
  rcases (follows_of_ofFeature hl).mem_catalogue hg with rfl | ⟨e, he, rfl⟩
  · exact hf
  · exact hc e he

end

theorem Draft.wellFormed_finish {ctx : AssemblyContext} (hpost : ctx.merge.postHandlers = [])
    {d : Draft} (hd : d.feature.WellFormed) : (d.finish ctx).value.feature.WellFormed := by
  rw [finish_eq_substitute hpost, substitute]
  split
  · exact hd.substitute _
  · exact hd

/-! Aggregates. -/

namespace Features

theorem mem_keepHighest {kept : List Feature} {f g : Feature} (h : g ∈ keepHighest kept f) :
    g ∈ kept ∨ g = f := by
  induction kept with
  | nil => exact .inr (List.mem_singleton.mp h)
  | cons k kept ih =>
    rw [keepHighest] at h
    split at h
    · rcases List.mem_cons.mp h with rfl | h
      · split
        · exact .inr rfl
        · exact .inl (List.mem_cons_self ..)
      · exact .inl (List.mem_cons_of_mem _ h)
    · rcases List.mem_cons.mp h with rfl | h
      · exact .inl (List.mem_cons_self ..)
      · exact (ih h).imp_left (List.mem_cons_of_mem _)

theorem deduplicate_subset (fs : List Feature) : deduplicate fs ⊆ fs := by
  refine List.foldlRecOn (motive := fun kept : List Feature => kept ⊆ fs) fs keepHighest
    (List.nil_subset fs) fun kept hkept f hf g hg => ?_
  rcases mem_keepHighest hg with hg | rfl
  · exact hkept hg
  · exact hf

end Features

namespace Aggregate

theorem wellFormed_record (contributors : List Feature) : (record contributors).WellFormed :=
  Extension.wellFormed_of_artifacts (Roster.distinct_ofList _)

theorem wellFormed_sealWith {f : Feature} (hf : f.WellFormed) (contributors : List Feature) :
    (sealWith contributors f).WellFormed where
  distinct := { hf.distinct with extensions := hf.distinct.extensions.put _ }
  unrepeated := by
    refine { hf.unrepeated with extensions := fun e he => ?_ }
    rcases Roster.mem_put he with rfl | he
    · intro l hl a ha
      obtain rfl := ExtensionContent.artifacts.inj hl
      have hplain : ∀ a ∈ Roster.ofList (contributors.map fun f => Artifact.ofId f.id),
          a.origins.Nodup ∧ a.aliases.Nodup := by
        refine List.foldlRecOn (motive := fun l : List Artifact => ∀ a ∈ l,
          a.origins.Nodup ∧ a.aliases.Nodup) _ Roster.add (by simp) fun l hl b hb a ha => ?_
        rcases Roster.mem_add ha with rfl | ha
        · obtain ⟨f, -, rfl⟩ := List.mem_map.mp hb
          exact ⟨List.nodup_nil, List.nodup_nil⟩
        · exact hl a ha
      exact hplain a ha
    · exact hf.unrepeated.extensions e he
  extensions e he := by
    rcases Roster.mem_put he with rfl | he
    · exact wellFormed_record contributors
    · exact hf.extensions e he

variable {ctx : AssemblyContext} (hmerge : ctx.merge.mergeHandlers = [])
  (hpost : ctx.merge.postHandlers = [])
include hmerge

theorem wellFormed_batch {c : Catalogue} (hc : ∀ e ∈ c, e.2.WellFormed) {fs : List Feature}
    (hfs : ∀ f ∈ fs, f.WellFormed) :
    ∀ g ∈ (each (Batch.build ctx.merge c) .empty fs).value.assembled, g.WellFormed := by
  refine each_keeps (P := fun b : Batch => ∀ g ∈ b.assembled, g.WellFormed)
    (fun b f hf hb => ?_) (fun _ h => absurd h List.not_mem_nil)
  unfold Batch.build
  split
  · exact hb
  · next l hl =>
    intro g hg
    rcases List.mem_append.mp hg with hg | hg
    · exact hb g hg
    · obtain rfl := List.mem_singleton.mp hg
      exact Lineage.wellFormed_build_ofFeature hmerge hl (hfs f hf) hc b.notes

theorem wellFormed_mergeContributors {gs : List Feature} (hgs : ∀ g ∈ gs, g.WellFormed) {d : Draft}
    (hd : d.feature.WellFormed) :
    (mergeContributors ctx.merge gs d).value.feature.WellFormed := by
  rw [mergeContributors_eq]
  exact each_keeps (P := fun d : Draft => d.feature.WellFormed)
    (fun _ g hg hd => Draft.wellFormed_merge hmerge hd (hgs g hg) .aggregate) hd

include hpost

theorem wellFormed_assembleMany (hknown : ∀ e ∈ ctx.catalogue, e.2.WellFormed) {id : Coordinate}
    {features : List Feature} (hfs : ∀ f ∈ features, f.WellFormed) {r : Feature}
    (hr : (assembleMany ctx id features).result = .ok r) : r.WellFormed := by
  obtain ⟨notes, hdone⟩ := Report.result_ofOutcome_eq_ok_iff.mp hr
  obtain ⟨b, merged, hb, hmerged, hfinish⟩ := outcome_eq_done hdone
  have hparticipants : ∀ f ∈ Features.deduplicate features, f.WellFormed :=
    fun f hf => hfs f (Features.deduplicate_subset features hf)
  have hlocal : ∀ e ∈ localFirst (Features.deduplicate features) ctx.catalogue,
      e.2.WellFormed := by
    intro e he
    rcases List.mem_append.mp he with he | he
    · obtain ⟨f, hf, rfl⟩ := List.mem_map.mp he
      exact hparticipants f hf
    · exact hknown e he
  have hassembled := wellFormed_batch hmerge hlocal hparticipants
  rw [hb] at hassembled
  have hcontributors : ∀ g ∈ b.contributors, g.WellFormed :=
    fun g hg => hassembled g (List.mem_of_mem_filter hg)
  have hcontent := wellFormed_mergeContributors hmerge hcontributors
    (d := ⟨Feature.ofId id, b.notes⟩) (Feature.wellFormed_ofId id)
  rw [hmerged] at hcontent
  have hfinished := Draft.wellFormed_finish hpost (d := merged.mapFeature (sealWith b.contributors))
    (wellFormed_sealWith hcontent b.contributors)
  rwa [hfinish] at hfinished

end Aggregate

theorem wellFormed_assemble {ctx : AssemblyContext} (hmerge : ctx.merge.mergeHandlers = [])
    (hpost : ctx.merge.postHandlers = []) (hknown : ∀ e ∈ ctx.catalogue, e.2.WellFormed)
    {f : Feature} (hf : f.WellFormed) {r : Feature} (hr : (assemble ctx f).result = .ok r) :
    r.WellFormed := by
  cases hassembled : f.isAssembled with
  | true =>
    rw [assemble, if_pos hassembled] at hr
    exact Except.ok.inj hr ▸ hf
  | false =>
    cases hl : Lineage.ofFeature ctx.catalogue f with
    | error e =>
      rw [assemble_of_defect hassembled hl] at hr
      cases hr
    | ok l =>
      rw [assemble_of_lineage hassembled hl] at hr
      obtain ⟨notes, hdone⟩ := Report.result_ofOutcome_eq_ok_iff.mp hr
      have hbuilt := Lineage.wellFormed_build_ofFeature hmerge hl hf hknown []
      have hfinished := andThen_keeps (P := fun d : Draft => d.feature.WellFormed) hbuilt
        fun d hd => Draft.wellFormed_finish hpost hd
      rwa [hdone] at hfinished

/-- Every operation on features makes well-formed ones of well-formed ones. Where a change of one
feature ends with a fault, the value is the partly changed feature. -/
structure KeepsWellFormed (ctx : AssemblyContext) : Prop where
  merge : ∀ mode source (d : Draft), source.WellFormed → d.feature.WellFormed →
    (d.merge ctx.merge mode source).value.feature.WellFormed
  withoutRemovals : ∀ heir p (f : Feature), f.WellFormed →
    (f.withoutRemovals heir p).value.WellFormed
  substitute : ∀ overrides (f : Feature), f.WellFormed → (f.substitute overrides).value.WellFormed
  assemble : (∀ e ∈ ctx.catalogue, e.2.WellFormed) → ∀ f r, f.WellFormed →
    (assemble ctx f).result = .ok r → r.WellFormed
  assembleMany : (∀ e ∈ ctx.catalogue, e.2.WellFormed) → ∀ id features r,
    (∀ f ∈ features, f.WellFormed) → (assembleMany ctx id features).result = .ok r → r.WellFormed
  json : ∀ rules origin (existing incoming : Extension) c d, existing.WellFormed →
    incoming.WellFormed → existing.content = .json c → incoming.content = .json d →
      ∀ kind, (existing.merge rules origin incoming).fault ≠
        some (.content (.unstructuredJson kind))

/-- Without handlers all operations keep features well formed, also those that fail midway, and no
merge of JSON extensions ends with a value that cannot be the content of one. -/
theorem operations_keep_wellFormed {ctx : AssemblyContext} (hmerge : ctx.merge.mergeHandlers = [])
    (hpost : ctx.merge.postHandlers = []) : KeepsWellFormed ctx where
  merge mode _ _ hs hd := Draft.wellFormed_merge hmerge hd hs mode
  withoutRemovals heir p _ hf := hf.withoutRemovals heir p
  substitute overrides _ hf := hf.substitute overrides
  assemble hknown _ _ hf hr := wellFormed_assemble hmerge hpost hknown hf hr
  assembleMany hknown _ _ _ hfs hr := Aggregate.wellFormed_assembleMany hmerge hpost hknown hfs hr
  json rules origin _ _ _ _ _ hi hc hd kind := hi.merge_structured hc hd rules origin kind

theorem Sample.wellFormed_stocked {name : String} {bundles : List Artifact}
    (hkeys : (Roster.keys bundles).Nodup)
    (hlists : ∀ a ∈ bundles, a.origins.Nodup ∧ a.aliases.Nodup) :
    (stocked (Feature.ofId (id name)) bundles).WellFormed where
  distinct := distinct_stocked (Feature.distinct_ofId _) hkeys
  unrepeated := { Feature.all_ofId _ _ (id name) with bundles := hlists }
  extensions _ h := absurd h List.not_mem_nil

theorem merge_libs_fails_wellFormed : ∃ o,
    Draft.merge (Sample.context []).merge .aggregate
      (Sample.stocked (Feature.ofId (Sample.id "b")) [Sample.lib "1" [], Sample.lib "3" []])
      ⟨Sample.stocked (Feature.ofId (Sample.id "a"))
        [Sample.lib "1" [Sample.id "a"], Sample.lib "2" [Sample.id "a"]], []⟩ = o ∧
      o.fault.isSome ∧ o.value.feature.WellFormed := by
  have hkeeps : KeepsWellFormed (Sample.context []) := operations_keep_wellFormed rfl rfl
  refine ⟨_, rfl, by decide, ?_⟩
  exact hkeeps.merge .aggregate _ _ (Sample.wellFormed_stocked (by decide) (by decide))
    (Sample.wellFormed_stocked (by decide) (by decide))

end FeatureAssembly
