import FeatureAssembly.Proofs.Contributors
import FeatureAssembly.Proofs.NearestDefinition

/-! Where the overrides of a context decide the values of framework properties and variables. A merge
of independent features gives every key that an override names the value of the override, so that an
aggregate has it throughout. Layering a feature over its prototype asks no override: of one assembled
feature, keys that it defines itself keep its own values, and only the inherited ones obey. -/

namespace FeatureAssembly
open Outcome

namespace Properties
variable {overrides : Table String} {t : Table Property}

def Obeys (overrides : Table String) (t : Table Property) : Prop :=
  ∀ e ∈ t, ∀ v, Table.get? overrides e.1 = some v → e.2.value = v

theorem obeys_nil (overrides : Table String) : Obeys overrides [] := by
  intro e he
  cases he

theorem Obeys.set (ht : Obeys overrides t) {key : String} {p : Property}
    (hp : ∀ v, Table.get? overrides key = some v → p.value = v) :
    Obeys overrides (Table.set t key p) := by
  intro e he
  rcases Roster.mem_put he with rfl | he
  · exact hp
  · exact ht e he

theorem Obeys.mergeIncoming (ht : Obeys overrides t) (kind : PropertyKind) (origin : Coordinate)
    (key : String) (p : Property) :
    Obeys overrides (Properties.mergeIncoming kind overrides origin t key p).value := by
  have free : ∀ {q : Property}, Table.get? overrides key = none →
      ∀ v, Table.get? overrides key = some v → q.value = v := by
    intro q hnone v hv
    rw [hnone] at hv
    cases hv
  have fixed : ∀ {q : Property} {w : String}, Table.get? overrides key = some w → q.value = w →
      ∀ v, Table.get? overrides key = some v → q.value = v := by
    intro q w hw hq v hv
    rw [hq]
    exact Option.some.inj (hw.symm.trans hv)
  unfold Properties.mergeIncoming
  split
  · next _ hnone => exact ht.set (free hnone)
  · next w _ hw => exact ht.set (fixed hw rfl)
  · next q w _ hw => exact ht.set (fixed hw rfl)
  · next q _ hnone =>
    split
    · exact ht.set (free hnone)
    · exact ht

theorem Obeys.merge (ht : Obeys overrides t) (kind : PropertyKind) (origin : Coordinate)
    (source : Table Property) :
    Obeys overrides (Properties.merge kind overrides origin t source).value := by
  refine each_keeps (P := Obeys overrides) (fun t e _ ht => ?_) ht
  exact ht.mergeIncoming kind origin e.1 (e.2.stamped origin)

/-- Every entry whose key an override names has the own value for it, if there is one, or else the
value of the override. -/
def Yields (overrides : Table String) (own t : Table Property) : Prop :=
  ∀ e ∈ t, ∀ v, Table.get? overrides e.1 = some v → e.2.value = (value? own e.1).getD v

theorem Obeys.overlay (ht : Obeys overrides t) (hdistinct : Roster.Distinct t)
    {own : Table Property} (hown : Roster.Distinct own) (origin : Coordinate) :
    Yields overrides own (Properties.overlay origin t own) := by
  intro e he v hv
  have hfound : Roster.find? (Properties.overlay origin t own) e.1 = some e :=
    (Roster.find?_eq_some_iff (distinct_overlay hdistinct origin own)).mpr ⟨he, rfl⟩
  have hvalue : value? (Properties.overlay origin t own) e.1 = some e.2.value := by
    rw [value?_eq_find?, hfound]
    rfl
  rw [value?_overlay hown] at hvalue
  cases hw : value? own e.1 with
  | some w =>
    rw [hw] at hvalue
    exact (Option.some.inj hvalue).symm
  | none =>
    rw [hw, Option.none_or, value?_eq_find?] at hvalue
    obtain ⟨lower, hlower, hsame⟩ := Option.map_eq_some_iff.mp hvalue
    have hkey : lower.1 = e.1 := Roster.key_of_find? hlower
    rw [← hkey] at hv
    have hobeys := ht lower (Roster.mem_of_find? hlower) v hv
    exact hsame.symm.trans hobeys

end Properties

structure Feature.Obeys (ctx : MergeContext) (f : Feature) : Prop where
  frameworkProperties : Properties.Obeys ctx.frameworkOverrides f.frameworkProperties
  vars : Properties.Obeys ctx.variableOverrides f.vars

theorem Feature.obeys_ofId (ctx : MergeContext) (id : Coordinate) : (ofId id).Obeys ctx :=
  ⟨Properties.obeys_nil _, Properties.obeys_nil _⟩

section
variable {ctx : MergeContext}

theorem Feature.Obeys.mergeContent {target : Feature} (h : target.Obeys ctx) (source : Feature) :
    (Feature.mergeContent ctx .aggregate source target).value.Obeys ctx := by
  refine andThen_keeps (P := Obeys ctx) ⟨h.frameworkProperties, h.vars⟩ fun t h => ?_
  refine andThen_keeps (P := Obeys ctx) ⟨h.frameworkProperties, h.vars⟩ fun t h => ?_
  have hproperties :=
    h.frameworkProperties.merge .framework source.id source.frameworkProperties
  refine andThen_keeps (P := Obeys ctx) ⟨hproperties, h.vars⟩ fun t h => ?_
  have hvars := h.vars.merge .variable source.id source.vars
  refine andThen_keeps (P := Obeys ctx) ⟨h.frameworkProperties, hvars⟩ fun t h => ?_
  exact ⟨h.frameworkProperties, h.vars⟩

variable (hctx : ctx.mergeHandlers = [])
include hctx

theorem Draft.obeys_mergeOrFail {d : Draft} (h : d.feature.Obeys ctx) (source : Feature) :
    (d.mergeOrFail ctx .aggregate source).value.feature.Obeys ctx := by
  refine andThen_keeps (P := fun d : Draft => d.feature.Obeys ctx) (h.mergeContent source)
    fun d h => ?_
  rw [mergeExtensions_eq hctx]
  exact ⟨h.frameworkProperties, h.vars⟩

theorem Draft.obeys_inherit {heir : Feature} {p : Prototype} {base d : Draft}
    (h : inherit ctx heir p base = done d) : d.feature.Obeys ctx ∧ d.feature.Distinct := by
  obtain ⟨rest, t, -, ht, hd⟩ := inherit_eq_done h
  have hobeys := obeys_mergeOrFail (d := ⟨Feature.ofId heir.id, base.notes⟩) hctx
    (Feature.obeys_ofId ctx heir.id) rest
  have hdistinct := distinct_merge (d := ⟨Feature.ofId heir.id, base.notes⟩)
    (Feature.distinct_ofId heir.id) hctx .aggregate rest
  have hvalue : (Draft.merge ctx .aggregate rest ⟨Feature.ofId heir.id, base.notes⟩).value = t :=
    (eq_done_iff.mp ht).1
  rw [ht] at hobeys
  rw [hvalue] at hdistinct
  rw [hd]
  exact ⟨⟨hobeys.frameworkProperties, hobeys.vars⟩, { hdistinct with }⟩

theorem Lineage.Follows.layers_over_obeying {c : Catalogue} {f : Feature} {l : Lineage}
    (h : Follows c f l) (hf : f.isAssembled = false) {notes : List String} {d : Draft}
    (hd : l.build ctx notes = done d) :
    ∃ lower : Draft, lower.feature.Obeys ctx ∧ lower.feature.Distinct ∧
      Draft.layer ctx f lower = done d := by
  cases h with
  | assembled hassembled =>
    rw [hf] at hassembled
    cases hassembled
  | root =>
    exact ⟨⟨Feature.ofId f.id, notes⟩, Feature.obeys_ofId ctx f.id, Feature.distinct_ofId f.id, hd⟩
  | heir =>
    obtain ⟨lower, hlower, hlayer⟩ := andThen_eq_done_iff.mp hd
    obtain ⟨base, -, hinherit⟩ := andThen_eq_done_iff.mp hlower
    obtain ⟨hobeys, hdistinct⟩ := Draft.obeys_inherit hctx hinherit
    exact ⟨lower, hobeys, hdistinct, hlayer⟩

end

theorem Aggregate.obeys_mergeContributors {ctx : MergeContext} (hctx : ctx.mergeHandlers = [])
    (gs : List Feature) {d : Draft} (h : d.feature.Obeys ctx) :
    (mergeContributors ctx gs d).value.feature.Obeys ctx :=
  each_keeps (P := fun d : Draft => d.feature.Obeys ctx)
    (fun _ g _ h => Draft.obeys_mergeOrFail hctx h g) h

section
variable {ctx : AssemblyContext} (hmerge : ctx.merge.mergeHandlers = [])
  (hpost : ctx.merge.postHandlers = []) (hsubstitutes : ctx.substitutes = false)
include hmerge hpost hsubstitutes

theorem Aggregate.obeys_assembleMany {id : Coordinate} {features : List Feature} {r : Feature}
    (hr : (assembleMany ctx id features).result = .ok r) : r.Obeys ctx.merge := by
  obtain ⟨notes, hdone⟩ := Report.result_ofOutcome_eq_ok_iff.mp hr
  obtain ⟨b, merged, -, hmerged, hfinish⟩ := outcome_eq_done hdone
  rw [Draft.finish_eq_substitute hpost, Draft.substitute_of_not_substitutes hsubstitutes] at hfinish
  have hobeys := obeys_mergeContributors hmerge b.contributors (d := ⟨Feature.ofId id, b.notes⟩)
    (Feature.obeys_ofId ctx.merge id)
  rw [hmerged] at hobeys
  obtain rfl : r = sealWith b.contributors merged.feature :=
    (congrArg Draft.feature (eq_done_iff.mp hfinish).1).symm
  exact ⟨hobeys.frameworkProperties, hobeys.vars⟩

theorem assemble_layers_over_obeying {f r : Feature} (hf : f.isAssembled = false)
    (hr : (assemble ctx f).result = .ok r) :
    ∃ lower : Draft, lower.feature.Obeys ctx.merge ∧ lower.feature.Distinct ∧
      ∃ notes, Draft.layer ctx.merge f lower = done ⟨r, notes⟩ := by
  cases hl : Lineage.ofFeature ctx.catalogue f with
  | error e =>
    rw [assemble_of_defect hf hl] at hr
    cases hr
  | ok l =>
    rw [assemble_of_lineage hf hl] at hr
    obtain ⟨notes, hdone⟩ := Report.result_ofOutcome_eq_ok_iff.mp hr
    obtain ⟨d, hd, hfinish⟩ := andThen_eq_done_iff.mp hdone
    rw [Draft.finish_eq_substitute hpost, Draft.substitute_of_not_substitutes hsubstitutes]
      at hfinish
    obtain rfl := (eq_done_iff.mp hfinish).1
    have hline := Lineage.follows_of_ofFeature hl
    obtain ⟨lower, hobeys, hlower, hlayer⟩ := hline.layers_over_obeying hmerge hf hd
    exact ⟨lower, hobeys, hlower, notes, hlayer⟩

end

/-- Without handlers and substitution an aggregate obeys all overrides. An assembled feature has,
under each key that an override names, its own value if it defines one, and else that of the
override. -/
theorem overrides_yield_to_own_values {ctx : AssemblyContext} (hmerge : ctx.merge.mergeHandlers = [])
    (hpost : ctx.merge.postHandlers = []) (hsubstitutes : ctx.substitutes = false) :
    (∀ id features r, (assembleMany ctx id features).result = .ok r → r.Obeys ctx.merge) ∧
      ∀ f r, f.isAssembled = false → f.Distinct → (assemble ctx f).result = .ok r →
        Properties.Yields ctx.merge.frameworkOverrides f.frameworkProperties r.frameworkProperties ∧
          Properties.Yields ctx.merge.variableOverrides f.vars r.vars := by
  refine ⟨fun id features r hr => ?_, fun f r hf hdistinct hr => ?_⟩
  · exact Aggregate.obeys_assembleMany hmerge hpost hsubstitutes hr
  · obtain ⟨lower, hobeys, hlower, notes, hlayer⟩ :=
      assemble_layers_over_obeying hmerge hpost hsubstitutes hf hr
    obtain ⟨t, ht, hr⟩ := Draft.layer_eq_done hmerge hlayer
    obtain rfl : r = _ := hr
    refine ⟨?_, ?_⟩
    · have hyields := hobeys.frameworkProperties.overlay hlower.frameworkProperties
        hdistinct.frameworkProperties f.id
      rwa [← ht.frameworkProperties] at hyields
    · have hyields := hobeys.vars.overlay hlower.vars hdistinct.vars f.id
      rwa [← ht.vars] at hyields

namespace Sample

def overriding (known : List Feature) (values : Table String) : AssemblyContext :=
  { context known with merge := { MergeContext.empty with variableOverrides := values } }

end Sample

theorem assemble_near_yields_own :
    ∃ r, (assemble (Sample.overriding [Sample.far] [("x", "9"), ("y", "9")])
        (Sample.setting (Sample.heir "a" "c") [("x", "1")])).result = .ok r ∧
      Properties.Yields [("x", "9"), ("y", "9")] [("x", .ofValue "1")] r.vars ∧
      r.vars.map (fun e => (e.1, e.2.value)) = [("x", "1"), ("y", "9"), ("z", "3")] := by
  have hline : Lineage.ofFeature (Sample.overriding [Sample.far] [("x", "9"), ("y", "9")]).catalogue
      (Sample.setting (Sample.heir "a" "c") [("x", "1")]) =
        .ok (.heir (Sample.setting (Sample.heir "a" "c") [("x", "1")]) (.ofId (Sample.id "c"))
          (.root Sample.far)) :=
    Lineage.ofFeature_eq_ok (.step rfl (by decide) rfl rfl rfl (.root rfl (by decide) rfl))
      (.heir rfl rfl rfl (.root rfl rfl))
  obtain ⟨r, hr, hvalues⟩ : ∃ r,
      (assemble (Sample.overriding [Sample.far] [("x", "9"), ("y", "9")])
        (Sample.setting (Sample.heir "a" "c") [("x", "1")])).result = .ok r ∧
      r.vars.map (fun e => (e.1, e.2.value)) = [("x", "1"), ("y", "9"), ("z", "3")] := by
    rw [assemble_of_lineage rfl hline]
    exact ⟨_, rfl, rfl⟩
  have hdistinct : (Sample.setting (Sample.heir "a" "c") [("x", "1")]).Distinct :=
    Sample.distinct_setting (Sample.distinct_heir ..) (by decide)
  have hyields := (@overrides_yield_to_own_values
    (Sample.overriding [Sample.far] [("x", "9"), ("y", "9")]) rfl rfl rfl).2 _ r rfl hdistinct hr
  exact ⟨r, hr, hyields.2, hvalues⟩

/-- An override does not win over the value of the feature that is assembled. -/
theorem assemble_disobeys_override :
    ∃ r, (assemble (Sample.overriding [] [("x", "9")])
        (Sample.setting (Feature.ofId (Sample.id "a")) [("x", "1")])).result = .ok r ∧
      ¬ r.Obeys (Sample.overriding [] [("x", "9")]).merge := by
  have hline : Lineage.ofFeature (Sample.overriding [] [("x", "9")]).catalogue
      (Sample.setting (Feature.ofId (Sample.id "a")) [("x", "1")]) =
        .ok (.root (Sample.setting (Feature.ofId (Sample.id "a")) [("x", "1")])) :=
    Lineage.ofFeature_eq_ok (.root rfl (by decide) rfl) (.root rfl rfl)
  obtain ⟨r, hr, hvars⟩ : ∃ r, (assemble (Sample.overriding [] [("x", "9")])
        (Sample.setting (Feature.ofId (Sample.id "a")) [("x", "1")])).result = .ok r ∧
      r.vars = [("x", ⟨"1", [], [Sample.id "a"]⟩)] := by
    rw [assemble_of_lineage rfl hline]
    exact ⟨_, rfl, rfl⟩
  refine ⟨r, hr, fun hobeys => ?_⟩
  have hsame : "1" = "9" := hobeys.vars ("x", ⟨"1", [], [Sample.id "a"]⟩)
    (hvars ▸ List.mem_singleton_self _) "9" rfl
  exact absurd hsame (by decide)

end FeatureAssembly
