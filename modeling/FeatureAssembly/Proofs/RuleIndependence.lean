import FeatureAssembly.Proofs.CopyIntoEmpty
import FeatureAssembly.Proofs.StructuralErrors

/-! Assembling one feature does not depend on the rules for artifacts and the policies for
configurations. A feature is layered over its prototype by fixed ones, and the prototype is merged
into an empty feature, where none is asked. -/

namespace FeatureAssembly
open Outcome

def MergeContext.withRules (ctx : MergeContext) (rules : List OverrideRule)
    (policies : ConfigurationPolicies) : MergeContext := { ctx with rules, policies }

def AssemblyContext.withRules (ctx : AssemblyContext) (rules : List OverrideRule)
    (policies : ConfigurationPolicies) : AssemblyContext :=
  { ctx with merge := ctx.merge.withRules rules policies }

section
variable {ctx : MergeContext} (hctx : ctx.mergeHandlers = []) (rules : List OverrideRule)
  (policies : ConfigurationPolicies)
include hctx

theorem Draft.merge_layer_withRules (source : Feature) (d : Draft) :
    Draft.merge (ctx.withRules rules policies) .layer source d =
      Draft.merge ctx .layer source d := by
  refine andThen_congr ?_
  rw [mergeExtensions_eq hctx]
  exact mergeExtensions_eq hctx _ _ _

theorem Draft.layer_withRules (f : Feature) (d : Draft) :
    Draft.layer (ctx.withRules rules policies) f d = Draft.layer ctx f d := by
  unfold layer mergeOrFail
  rw [merge_layer_withRules hctx]

theorem Draft.inherit_withRules {base : Draft} (hbase : base.feature.Distinct) (heir : Feature)
    (p : Prototype) :
    Draft.inherit (ctx.withRules rules policies) heir p base = Draft.inherit ctx heir p base := by
  refine andThen_congr ?_
  have hrest := Feature.distinct_withoutRemovals hbase heir.id p
  have hother : (ctx.withRules rules policies).mergeHandlers = [] := hctx
  simp only [value_map, mapFeature]
  rw [mergeOrFail_into_empty hctx hrest, mergeOrFail_into_empty hother hrest]
  rfl

theorem Lineage.Follows.build_withRules {c : Catalogue} {f : Feature} {l : Lineage}
    (h : Follows c f l) (hl : ∀ g ∈ l.features, g.isAssembled = true → g.Distinct)
    (notes : List String) :
    l.build (ctx.withRules rules policies) notes = l.build ctx notes := by
  induction h with
  | assembled => rfl
  | root => exact Draft.layer_withRules hctx rules policies _ _
  | heir _ _ _ further ih =>
    have hfurther := fun g hg => hl g (List.mem_cons_of_mem _ hg)
    have hbase := further.distinct_build hctx hfurther notes
    rw [build, build, ih hfurther,
      andThen_congr (Draft.inherit_withRules hctx rules policies hbase _ _)]
    exact andThen_congr (Draft.layer_withRules hctx rules policies _ _)

end

/-- The rules and policies of the context decide nothing about one feature and its prototypes:
assembling it gives the same feature or the same error under any others. Of the features that the
catalogue has as assembled already, no part may have a name twice. -/
theorem assemble_withRules (ctx : AssemblyContext) (hctx : ctx.merge.mergeHandlers = [])
    (hknown : ∀ e ∈ ctx.catalogue, e.2.isAssembled = true → e.2.Distinct)
    (rules : List OverrideRule) (policies : ConfigurationPolicies) (f : Feature) :
    assemble (ctx.withRules rules policies) f = assemble ctx f := by
  cases hf : f.isAssembled with
  | true => rw [assemble, assemble, if_pos hf, if_pos hf]
  | false =>
    cases hl : Lineage.ofFeature ctx.catalogue f with
    | error e =>
      rw [assemble_of_defect hf hl]
      exact assemble_of_defect hf hl
    | ok l =>
      have hline := Lineage.follows_of_ofFeature hl
      have hends : ∀ g ∈ l.features, g.isAssembled = true → g.Distinct := by
        intro g hg hga
        rcases hline.mem_catalogue hg with rfl | ⟨e, he, rfl⟩
        · rw [hf] at hga
          cases hga
        · exact hknown e he hga
      have hother : assemble (ctx.withRules rules policies) f =
          .ofOutcome ((l.build (ctx.merge.withRules rules policies) []).andThen
            (Draft.finish (ctx.withRules rules policies))) := assemble_of_lineage hf hl
      rw [assemble_of_lineage hf hl, hother,
        hline.build_withRules hctx rules policies hends []]
      rfl

namespace Sample

def release (version : String) : Artifact := .ofId { id "lib" with version }

def shelf : Feature :=
  { Feature.ofId (id "b") with bundles := [release "1", release "2"], isAssembled := true }

end Sample

theorem assemble_shelf_withRules :
    assemble ((Sample.context [Sample.shelf]).withRules [.catchAll .highest] (.uniform .useFirst))
        (Sample.heir "a" "b") = assemble (Sample.context [Sample.shelf]) (Sample.heir "a" "b") ∧
      ∃ r, (assemble (Sample.context [Sample.shelf]) (Sample.heir "a" "b")).result = .ok r ∧
        Roster.keys r.bundles = Roster.keys Sample.shelf.bundles := by
  have hknown : ∀ e ∈ (Sample.context [Sample.shelf]).catalogue, e.2.isAssembled = true →
      e.2.Distinct := by
    intro e he _
    rw [List.mem_singleton.mp he]
    have hbundles : (Roster.keys Sample.shelf.bundles).Nodup := by decide
    exact { Feature.distinct_ofId (Sample.id "b") with bundles := hbundles }
  have hline : Lineage.ofFeature (Sample.context [Sample.shelf]).catalogue (Sample.heir "a" "b") =
      .ok (.heir (Sample.heir "a" "b") (.ofId (Sample.id "b")) (.assembled Sample.shelf)) :=
    Lineage.ofFeature_eq_ok (.step rfl (by decide) rfl rfl rfl (.assembled rfl))
      (.heir rfl rfl rfl (.assembled rfl))
  refine ⟨assemble_withRules _ rfl hknown _ _ _, ?_⟩
  rw [assemble_of_lineage rfl hline]
  exact ⟨_, rfl, rfl⟩

end FeatureAssembly
