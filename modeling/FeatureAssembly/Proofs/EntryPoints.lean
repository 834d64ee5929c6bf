import FeatureAssembly.Proofs.BundleOrigins
import FeatureAssembly.Proofs.Contributors
import FeatureAssembly.Proofs.Grouping

/-! The aggregate of one feature and the feature assembled by itself. The aggregate merges what was
assembled once more into an empty feature; without aliases and overrides this second merge changes
nothing, so that both have the same content or fail alike. -/

namespace FeatureAssembly
open Outcome

def Extension.Settled (e : Extension) : Prop :=
  ∀ l, e.content = .artifacts l → Artifacts.Settled l

structure Feature.Settled (f : Feature) : Prop where
  bundles : Artifacts.Settled f.bundles
  extensions : ∀ e ∈ f.extensions, e.Settled

theorem Feature.settled_ofId (id : Coordinate) : (ofId id).Settled :=
  ⟨Artifacts.settled_nil, fun _ h => absurd h List.not_mem_nil⟩

namespace Extension
variable {e : Extension} {origin : Coordinate}

theorem settled_copy (he : e.All fun a => a.aliases = []) : (e.copy origin).Settled := by
  unfold copy
  split
  · next l hl =>
    intro m hm
    obtain rfl := ExtensionContent.artifacts.inj hm
    exact Artifacts.settled_nil.allBeside (he l hl) origin
  · next hother => exact fun l hl => absurd hl (hother l)

theorem Settled.merge {existing : Extension} (h : existing.Settled)
    (he : e.All fun a => a.aliases = []) :
    (existing.merge [OverrideRule.catchAll .all] origin e).value.Settled := by
  unfold Extension.merge
  split
  · exact fun _ h => nomatch h
  · split
    · exact h
    · split
      · exact h
      · exact fun _ h => nomatch h
  · next l k hl hk =>
    rw [Artifacts.merge_catchAll]
    intro m hm
    obtain rfl := ExtensionContent.artifacts.inj hm
    exact (h l hl).allBeside (he k hk) origin
  · exact h

theorem Settled.stamped_eq (h : e.Settled) (origin : Coordinate) : e.stamped origin = e := by
  obtain ⟨name, state, content⟩ := e
  cases content with
  | artifacts l =>
    have hl : l.map (fun a => a.stamped origin) = l := (h l rfl).stamped origin
    exact congrArg (fun m => (⟨name, state, .artifacts m⟩ : Extension)) hl
  | text => rfl
  | json => rfl

theorem Settled.copy_eq (h : e.Settled) (origin : Coordinate) : e.copy origin = e := by
  obtain ⟨name, state, content⟩ := e
  cases content with
  | artifacts l =>
    have hl : Artifacts.allBeside origin [] l = l := (h l rfl).allBeside_nil origin
    exact congrArg (fun m => (⟨name, state, .artifacts m⟩ : Extension)) hl
  | text => rfl
  | json => rfl

end Extension

theorem Extensions.settled_merge {target source r : List Extension} {origin : Coordinate}
    (ht : ∀ e ∈ target, e.Settled) (hs : ∀ e ∈ source, e.All fun a => a.aliases = [])
    (h : merge [OverrideRule.catchAll .all] origin target source = done r) :
    ∀ e ∈ r, e.Settled := by
  have hkept : ∀ e ∈ (merge [OverrideRule.catchAll .all] origin target source).value,
      e.Settled :=
    forall_merge ht (fun _ he x hx => he.merge (hs x hx))
      fun x hx => Extension.settled_copy (hs x hx)
  rwa [h] at hkept

def Demand.plain : Demand where
  artifact a := a.aliases = [] ∧ a.origins ≠ []
  origins os := os ≠ []
  hereditary := by
    refine ⟨fun he hi => ⟨he.1, ?_⟩, fun _ he hi => ⟨hi.1, ?_⟩, fun ha hb => ⟨ha.1, ?_⟩⟩
    · exact addAllNew_ne_nil (List.append_ne_nil_of_left_ne_nil he.2 _) []
    · exact addAllNew_ne_nil (List.append_ne_nil_of_left_ne_nil he.2 _) []
    · exact addAllNew_ne_nil hb.2 _
  artifact_ne_nil h := h.2
  ne_nil h := h
  union _ h := addAllNew_ne_nil h _

theorem attributed_ne_nil (origin : Coordinate) (os : List Coordinate) :
    attributed origin os ≠ [] := by
  unfold attributed
  split
  · exact List.cons_ne_nil _ _
  · next hne => exact hne

theorem Demand.plain_offered {f : Feature} (h : f.All (fun a => a.aliases = []) fun _ => True) :
    plain.Offered f := by
  have artifact : ∀ a : Artifact, a.aliases = [] → plain.artifact (a.stamped f.id) := by
    intro a ha
    have horigins : (a.stamped f.id).origins ≠ [] := by
      rw [Artifact.origins_stamped]
      exact attributed_ne_nil f.id a.origins
    exact ⟨(Artifact.aliases_stamped a f.id).trans ha, horigins⟩
  exact {
    bundles := fun a ha => artifact a (h.bundles a ha)
    extensions := fun e he l hl a ha => artifact a (h.extensions e he l hl a ha)
    configurations := fun c _ => attributed_ne_nil f.id c.origins
    frameworkProperties := fun e _ => attributed_ne_nil f.id e.2.origins
    vars := fun e _ => attributed_ne_nil f.id e.2.origins }

theorem Demand.Offered.unaliased {f : Feature} (h : plain.Offered f) :
    f.All (fun a => a.aliases = []) fun _ => True := by
  have artifact : ∀ a : Artifact, plain.artifact (a.stamped f.id) → a.aliases = [] :=
    fun a ha => (Artifact.aliases_stamped a f.id).symm.trans ha.1
  exact {
    bundles := fun a ha => artifact a (h.bundles a ha)
    extensions := fun e he l hl a ha => artifact a (h.extensions e he l hl a ha)
    configurations := fun _ _ => trivial
    frameworkProperties := fun _ _ => trivial
    vars := fun _ _ => trivial }

section
variable {ctx : MergeContext} (hctx : ctx.mergeHandlers = [])
include hctx

theorem Draft.settled_layer {f : Feature} {d r : Draft} (hd : d.feature.Settled)
    (hf : f.All (fun a => a.aliases = []) fun _ => True) (h : layer ctx f d = done r) :
    r.feature.Settled := by
  obtain ⟨t, ht, hr⟩ := layer_eq_done hctx h
  have hbundles : Artifacts.Settled t.bundles := by
    rw [ht.bundles]
    exact hd.bundles.allBeside hf.bundles f.id
  have hextensions := Extensions.settled_merge hd.extensions hf.extensions ht.extensions
  rw [hr]
  refine ⟨?_, fun e he => ?_⟩
  · show Artifacts.Settled (t.bundles.map fun a => a.stamped f.id)
    rw [hbundles.stamped]
    exact hbundles
  · obtain ⟨x, hx, rfl⟩ := List.mem_map.mp he
    rw [(hextensions x hx).stamped_eq]
    exact hextensions x hx

theorem Draft.settled_inherit {heir : Feature} {p : Prototype} {base d : Draft}
    (hdistinct : base.feature.Distinct)
    (hbase : base.feature.All (fun a => a.aliases = []) fun _ => True)
    (h : inherit ctx heir p base = done d) : d.feature.Settled := by
  obtain ⟨rest, t, hrest, ht, hd⟩ := inherit_eq_done h
  obtain rfl : (base.feature.withoutRemovals heir.id p).value = rest := (eq_done_iff.mp hrest).1
  have hrdistinct := Feature.distinct_withoutRemovals hdistinct heir.id p
  have hplain := Feature.all_withoutRemovals hbase heir.id p
  rw [mergeOrFail_into_empty hctx hrdistinct] at ht
  obtain rfl := (eq_done_iff.mp ht).1
  rw [hd]
  refine ⟨Artifacts.settled_nil.allBeside hplain.bundles _, fun e he => ?_⟩
  obtain ⟨x, hx, rfl⟩ := List.mem_map.mp he
  exact Extension.settled_copy (hplain.extensions x hx)

theorem Lineage.Follows.settled_build {c : Catalogue} {f : Feature} {l : Lineage}
    (h : Follows c f l) (hf : f.isAssembled = false)
    (hdistinct : ∀ g ∈ l.features, g.isAssembled = true → g.Distinct)
    (hplain : ∀ g ∈ l.features, g.All (fun a => a.aliases = []) fun _ => True)
    {notes : List String} {d : Draft} (hd : l.build ctx notes = done d) : d.feature.Settled := by
  cases h with
  | assembled hassembled =>
    rw [hassembled] at hf
    cases hf
  | root =>
    exact Draft.settled_layer hctx (Feature.settled_ofId f.id)
      (hplain f (List.mem_singleton_self _)) hd
  | @heir _ p g base _ hp hg further =>
    obtain ⟨lower, hlower, hlayer⟩ := andThen_eq_done_iff.mp hd
    obtain ⟨b, hb, hinherit⟩ := andThen_eq_done_iff.mp hlower
    have hbdistinct := further.distinct_of_build hctx
      (fun g hg => hdistinct g (List.mem_cons_of_mem _ hg)) hb
    have hoffered := (further.offered_build hctx
      (fun g hg => Demand.plain_offered (hplain g (List.mem_cons_of_mem _ hg))) hb).1
    exact Draft.settled_layer hctx (Draft.settled_inherit hctx hbdistinct hoffered.unaliased hinherit)
      (hplain f (List.mem_cons_self ..)) hlayer

/-! The names of extensions all come from the line. -/

theorem Draft.extensionName_layer {f : Feature} {d r : Draft} (h : layer ctx f d = done r)
    {name : String} (hname : name ∈ Roster.keys r.feature.extensions) :
    name ∈ Roster.keys d.feature.extensions ∨ name ∈ Roster.keys f.extensions := by
  obtain ⟨t, ht, hr⟩ := layer_eq_done hctx h
  have hkeys : Roster.keys r.feature.extensions = Roster.keys t.extensions := by
    rw [hr]
    exact Roster.keys_map (fun e => Extension.name_stamped e f.id) t.extensions
  rw [hkeys] at hname
  exact (Extensions.mem_keys_merge ht.extensions name).mp hname

omit hctx in
theorem Feature.extensionNames_withoutRemovals (f : Feature) (heir : Coordinate) (p : Prototype) :
    Roster.keys (withoutRemovals heir p f).value.extensions ⊆ Roster.keys f.extensions := by
  refine withoutRemovals_keeps
    (P := fun g => Roster.keys g.extensions ⊆ Roster.keys f.extensions) ?_ ?_ ?_ ?_ ?_ ?_ ?_
    (List.Subset.refl _)
  · intro g id _ hg
    obtain ⟨_, _, hvalue⟩ := value_removeBundle heir g id
    rwa [hvalue]
  · intro g entry hg
    obtain ⟨_, hvalue⟩ := value_removeConfiguration heir g entry
    rwa [hvalue]
  · exact fun g key hg => hg
  · intro g name hg
    have hsub := ((Roster.remove_sublist g.extensions name).map Keyed.key).subset
    exact List.Subset.trans hsub hg
  · intro g entry hg
    obtain ⟨_, hkeys, hvalue⟩ := value_removeExtensionArtifacts heir g entry
    rw [hvalue]
    exact hkeys ▸ hg
  · intro g d hg
    obtain ⟨_, hvalue⟩ := value_removeRequirement heir g d
    rwa [hvalue]
  · intro g d hg
    obtain ⟨_, hvalue⟩ := value_removeCapability heir g d
    rwa [hvalue]

theorem Draft.extensionName_inherit {heir : Feature} {p : Prototype} {base d : Draft}
    (hdistinct : base.feature.Distinct) (h : inherit ctx heir p base = done d) :
    Roster.keys d.feature.extensions ⊆ Roster.keys base.feature.extensions := by
  obtain ⟨rest, t, hrest, ht, hd⟩ := inherit_eq_done h
  obtain rfl : (base.feature.withoutRemovals heir.id p).value = rest := (eq_done_iff.mp hrest).1
  have hrdistinct := Feature.distinct_withoutRemovals hdistinct heir.id p
  rw [mergeOrFail_into_empty hctx hrdistinct] at ht
  obtain rfl := (eq_done_iff.mp ht).1
  rw [hd]
  intro name hname
  have hkeys := Roster.keys_map (fun e => Extension.name_copy
    (base.feature.withoutRemovals heir.id p).value.id e)
    (base.feature.withoutRemovals heir.id p).value.extensions
  exact Feature.extensionNames_withoutRemovals base.feature heir.id p (hkeys ▸ hname)

theorem Lineage.Follows.exists_extensionName {c : Catalogue} {f : Feature} {l : Lineage}
    (h : Follows c f l) (hdistinct : ∀ g ∈ l.features, g.isAssembled = true → g.Distinct)
    {notes : List String} {d : Draft} (hd : l.build ctx notes = done d) {name : String}
    (hname : name ∈ Roster.keys d.feature.extensions) :
    ∃ g ∈ l.features, name ∈ Roster.keys g.extensions := by
  induction h generalizing d with
  | @assembled f =>
    rw [← (eq_done_iff.mp hd).1] at hname
    exact ⟨f, List.mem_singleton_self f, hname⟩
  | @root f =>
    rcases Draft.extensionName_layer hctx hd hname with hlower | hown
    · exact absurd hlower List.not_mem_nil
    · exact ⟨f, List.mem_singleton_self f, hown⟩
  | @heir f p g base hf hp hg further ih =>
    obtain ⟨lower, hlower, hlayer⟩ := andThen_eq_done_iff.mp hd
    obtain ⟨b, hb, hinherit⟩ := andThen_eq_done_iff.mp hlower
    have hends := fun g hg => hdistinct g (List.mem_cons_of_mem _ hg)
    rcases Draft.extensionName_layer hctx hlayer hname with hinherited | hown
    · have hbdistinct := further.distinct_of_build hctx hends hb
      obtain ⟨g, hg, hfound⟩ :=
        ih hends hb (Draft.extensionName_inherit hctx hbdistinct hinherit hinherited)
      exact ⟨g, List.mem_cons_of_mem _ hg, hfound⟩
    · exact ⟨f, List.mem_cons_self .., hown⟩

end

def Feature.alone (id : Coordinate) (r : Feature) : Feature :=
  { Feature.ofId id with
    bundles := r.bundles
    configurations := r.configurations
    frameworkProperties := r.frameworkProperties
    vars := r.vars
    requirements := r.requirements
    capabilities := r.capabilities
    extensions := r.extensions ++ [Aggregate.record [r]]
    isComplete := r.isComplete
    isAssembled := true }

theorem Properties.map_copied {t : Table Property} (ht : ∀ e ∈ t, e.2.origins ≠ [])
    (origin : Coordinate) :
    (t.map fun e => (e.1, overridden [] e.1 (e.2.stamped origin))) = t := by
  have hfixed : ∀ e ∈ t, (e.1, overridden [] e.1 (e.2.stamped origin)) = e := by
    intro e he
    have hstamped : e.2.stamped origin = e.2 := if_neg (ht e he)
    rw [hstamped]
    rfl
  rw [List.map_congr_left hfixed, List.map_id']

theorem Feature.sealWith_copyInto {r : Feature} (hsettled : r.Settled) (hmet : Demand.plain.Met r)
    {ctx : MergeContext} (hframework : ctx.frameworkOverrides = [])
    (hvars : ctx.variableOverrides = [])
    (hname : Aggregate.recordName ∉ Roster.keys r.extensions) (id : Coordinate) :
    Aggregate.sealWith [r] (r.copyInto ctx id) = r.alone id := by
  have hconfigurations : (r.configurations.map fun c => c.stamped r.id) = r.configurations := by
    have hfixed : ∀ c ∈ r.configurations, c.stamped r.id = c :=
      fun c hc => if_neg (hmet.configurations c hc)
    rw [List.map_congr_left hfixed, List.map_id']
  have hextensions : (r.extensions.map fun e => e.copy r.id) = r.extensions := by
    have hfixed : ∀ e ∈ r.extensions, e.copy r.id = e :=
      fun e he => (hsettled.extensions e he).copy_eq r.id
    rw [List.map_congr_left hfixed, List.map_id']
  have hrecord : Roster.put r.extensions (Aggregate.record [r]) =
      r.extensions ++ [Aggregate.record [r]] := Roster.put_of_not_mem hname
  have hcomplete : [r].all Feature.isComplete = r.isComplete := by simp
  rw [Aggregate.sealWith, copyInto, hframework, hvars, hsettled.bundles.allBeside_nil,
    hconfigurations, hextensions, hrecord, hcomplete, Properties.map_copied hmet.frameworkProperties,
    Properties.map_copied hmet.vars]
  rfl

theorem Feature.unsubstituted_alone (id : Coordinate) : Unsubstituted (alone id) :=
  ⟨fun _ => rfl, fun _ => rfl, fun _ => rfl, fun _ _ _ => rfl⟩

theorem Draft.finish_alone {ctx : AssemblyContext} (hpost : ctx.merge.postHandlers = [])
    (id : Coordinate) (d : Draft) :
    (d.mapFeature (Feature.alone id)).finish ctx =
      (d.finish ctx).map fun d => d.mapFeature (Feature.alone id) := by
  rw [finish_eq_substitute hpost, finish_eq_substitute hpost,
    substitute_mapFeature (Feature.unsubstituted_alone id)]

theorem Report.result_map_alone (id : Coordinate) (o : Outcome BuildError Draft) :
    (ofOutcome (o.map fun d => d.mapFeature (Feature.alone id))).result =
      (ofOutcome o).result.map (Feature.alone id) := by
  obtain ⟨d, _ | e⟩ := o <;> rfl

namespace Aggregate
variable {ctx : AssemblyContext} {f : Feature}

theorem find?_localFirst_of_ne {c : Catalogue} {k : Coordinate} (h : f.id ≠ k) :
    Catalogue.find? (localFirst [f] c) k = Catalogue.find? c k := by
  have hfind : Roster.find? (Catalogue.entry f :: c) k = Roster.find? c k := if_neg h
  exact congrArg (Option.map Prod.snd) hfind

theorem outcome_singleton_of_error {e : BuildError} (id : Coordinate)
    (hl : Lineage.ofFeature (localFirst [f] ctx.catalogue) f = .error e) :
    outcome ctx id [f] = failed ⟨Feature.ofId id, []⟩ e := by
  have hone : Features.deduplicate [f] = [f] := rfl
  unfold outcome
  simp only [hone, each_cons, Batch.build, hl]
  rfl

theorem outcome_singleton_of_ok {l : Lineage} (id : Coordinate)
    (hl : Lineage.ofFeature (localFirst [f] ctx.catalogue) f = .ok l) :
    outcome ctx id [f] = (l.build ctx.merge []).chain (fun d => ⟨Feature.ofId id, d.notes⟩) fun d =>
      (mergeContributors ctx.merge (Batch.contributors ⟨[d.feature], l.references, d.notes⟩)
        ⟨Feature.ofId id, d.notes⟩).andThen fun m =>
          (m.mapFeature (sealWith (Batch.contributors ⟨[d.feature], l.references, d.notes⟩))).finish
            ctx := by
  have hone : Features.deduplicate [f] = [f] := rfl
  have hnotes : Batch.empty.notes = [] := rfl
  unfold outcome
  simp only [hone, hnotes, each_cons, Batch.build, hl]
  obtain ⟨d, _ | e⟩ := l.build ctx.merge [] <;> rfl

theorem contributors_singleton {d : Draft} {references : List Coordinate}
    (h : d.feature.id ∉ references) :
    Batch.contributors ⟨[d.feature], references, d.notes⟩ = [d.feature] :=
  List.filter_eq_self.mpr fun g hg => by
    rw [List.mem_singleton.mp hg]
    exact decide_eq_true h

theorem mergeContributors_singleton {ctx : MergeContext} (hctx : ctx.mergeHandlers = [])
    {g : Feature} (hg : g.Distinct) (id : Coordinate) (notes : List String) :
    mergeContributors ctx [g] ⟨Feature.ofId id, notes⟩ = done ⟨g.copyInto ctx id, notes⟩ := by
  rw [mergeContributors, each_cons, Draft.mergeOrFail_into_empty hctx hg]
  rfl

theorem outcome_singleton_of_done {l : Lineage} {d : Draft} (hmerge : ctx.merge.mergeHandlers = [])
    (hl : Lineage.ofFeature (localFirst [f] ctx.catalogue) f = .ok l)
    (hd : l.build ctx.merge [] = done d) (hfree : d.feature.id ∉ l.references)
    (hdistinct : d.feature.Distinct) (id : Coordinate) :
    outcome ctx id [f] = Draft.finish ctx
      ⟨sealWith [d.feature] (d.feature.copyInto ctx.merge id), d.notes⟩ := by
  rw [outcome_singleton_of_ok id hl, hd, done_chain, contributors_singleton hfree,
    mergeContributors_singleton hmerge hdistinct, done_andThen]
  rfl

end Aggregate

/-- A feature that its own line does not come back to is the same by itself and as an aggregate of its
own, provided that no override applies, no alias joins artifacts of different coordinates and no
extension has the name of the record: either both fail with one error or they share their content. -/
theorem assembleMany_singleton {ctx : AssemblyContext} (hmerge : ctx.merge.mergeHandlers = [])
    (hpost : ctx.merge.postHandlers = []) (hframework : ctx.merge.frameworkOverrides = [])
    (hvars : ctx.merge.variableOverrides = []) {f : Feature} (hf : f.isAssembled = false)
    (hfree : ¬ Dereferences ctx.catalogue f f.id) {fs : List Feature} {defect : Option BuildError}
    (walk : Walk ctx.catalogue [] f fs defect)
    (hdistinct : ∀ g ∈ fs, g.isAssembled = true → g.Distinct)
    (hplain : ∀ g ∈ fs, g.All (fun a => a.aliases = []) fun _ => True)
    (hname : ∀ g ∈ fs, Aggregate.recordName ∉ Roster.keys g.extensions) (id : Coordinate) :
    (assembleMany ctx id [f]).result = (assemble ctx f).result.map (Feature.alone id) := by
  -- the aggregate finds the feature itself first, but its line never asks for it
  have hlineage : Lineage.ofFeature (Aggregate.localFirst [f] ctx.catalogue) f =
      Lineage.ofFeature ctx.catalogue f :=
    Lineage.ofFeature_congr fun k hk =>
      Aggregate.find?_localFirst_of_ne fun heq => hfree (heq ▸ hk)
  cases hl : Lineage.ofFeature ctx.catalogue f with
  | error e =>
    rw [assemble_of_defect hf hl, assembleMany,
      Aggregate.outcome_singleton_of_error id (hlineage.trans hl)]
    rfl
  | ok l =>
    obtain ⟨rfl, -⟩ := walk.unique (Lineage.walk_of_ofFeature hl)
    have hline := Lineage.follows_of_ofFeature hl
    rw [assemble_of_lineage hf hl, assembleMany]
    rcases hd : l.build ctx.merge [] with ⟨d, _ | e⟩
    · have hbdistinct := hline.distinct_of_build hmerge hdistinct hd
      have hsettled := hline.settled_build hmerge hf hdistinct hplain hd
      have hmet := (hline.offered_build hmerge
        (fun g hg => Demand.plain_offered (hplain g hg)) hd).2 hf
      have hunnamed : Aggregate.recordName ∉ Roster.keys d.feature.extensions := by
        intro hmem
        obtain ⟨g, hg, hgname⟩ := hline.exists_extensionName hmerge hdistinct hd hmem
        exact hname g hg hgname
      have hcontributes : d.feature.id ∉ l.references := by
        rw [(hline.sharesMarks_build hmerge hd).id, hline.mem_references_iff]
        exact hfree
      -- merging it anew into an empty feature changes nothing but the id and the record
      have hsealed := Feature.sealWith_copyInto hsettled hmet hframework hvars hunnamed id
      rw [Aggregate.outcome_singleton_of_done hmerge (hlineage.trans hl) hd hcontributes hbdistinct,
        hsealed]
      exact (congrArg (fun o => (Report.ofOutcome o).result) (Draft.finish_alone hpost id d)).trans
        (Report.result_map_alone id (d.finish ctx))
    · rw [Aggregate.outcome_singleton_of_ok id (hlineage.trans hl), hd]
      rfl

theorem assembleMany_top : ∃ r,
    (assemble (Sample.context [Sample.extended, Sample.basis]) Sample.top).result = .ok r ∧
      (assembleMany (Sample.context [Sample.extended, Sample.basis]) (Sample.id "all")
        [Sample.top]).result = .ok (r.alone (Sample.id "all")) := by
  obtain ⟨r, hr⟩ : ∃ r,
      (assemble (Sample.context [Sample.extended, Sample.basis]) Sample.top).result = .ok r := by
    rw [assemble_of_lineage rfl (Lineage.ofFeature_eq_ok Sample.walk_top Sample.follows_top)]
    exact ⟨_, rfl⟩
  have hfree : ¬ Dereferences (Sample.context [Sample.extended, Sample.basis]).catalogue Sample.top
      Sample.top.id := by
    rw [← Sample.follows_top.mem_references_iff]
    decide
  have hends : ∀ g ∈ [Sample.top, Sample.extended, Sample.basis], g.isAssembled = true →
      g.Distinct := by
    intro g hg hassembled
    have hnone : ∀ g ∈ [Sample.top, Sample.extended, Sample.basis], g.isAssembled = false := by decide
    rw [hnone g hg] at hassembled
    cases hassembled
  have hplain : ∀ g ∈ [Sample.top, Sample.extended, Sample.basis],
      g.All (fun a => a.aliases = []) fun _ => True := by
    have hempty := Feature.all_ofId (fun a => a.aliases = []) fun _ => True
    simp only [List.forall_mem_cons, List.not_mem_nil, false_implies, implies_true, and_true]
    exact ⟨{ hempty (Sample.id "a") with bundles := by decide },
      { hempty (Sample.id "b") with bundles := by decide },
      { hempty (Sample.id "c") with bundles := by decide }⟩
  have hname : ∀ g ∈ [Sample.top, Sample.extended, Sample.basis],
      Aggregate.recordName ∉ Roster.keys g.extensions := by decide
  refine ⟨r, hr, ?_⟩
  rw [assembleMany_singleton rfl rfl rfl rfl rfl hfree Sample.walk_top hends hplain hname, hr]
  rfl

end FeatureAssembly
