import FeatureAssembly.Proofs.Layering
import FeatureAssembly.Proofs.Walk

/-! What assembling keeps of a feature apart from its content: the id and the marks by which others
may use it. Merging never renames its target, and without handlers it leaves no notes. -/

namespace FeatureAssembly
open Outcome

structure Feature.SharesMarks (f r : Feature) : Prop where
  id : r.id = f.id
  isFinal : r.isFinal = f.isFinal
  isComplete : r.isComplete = f.isComplete
  isAssembled : r.isAssembled = true

theorem Feature.mergeContent_keeps {β : Type} {part : Feature → β}
    (hpart : ∀ t bundles configurations frameworkProperties vars requirements capabilities,
      part { t with
        bundles, configurations, frameworkProperties, vars, requirements, capabilities } = part t)
    (ctx : MergeContext) (mode : MergeMode) (source target : Feature) :
    part (mergeContent ctx mode source target).value = part target := by
  have step : ∀ t bundles configurations frameworkProperties vars requirements capabilities,
      part t = part target → part { t with
        bundles, configurations, frameworkProperties, vars, requirements, capabilities } =
          part target := fun t _ _ _ _ _ _ ht => (hpart t ..).trans ht
  refine andThen_keeps (P := fun t => part t = part target) (step target _ _ _ _ _ _ rfl)
    fun t ht => ?_
  refine andThen_keeps (P := fun t => part t = part target) (step t _ _ _ _ _ _ ht) fun t ht => ?_
  refine andThen_keeps (P := fun t => part t = part target) (step t _ _ _ _ _ _ ht) fun t ht => ?_
  refine andThen_keeps (P := fun t => part t = part target) (step t _ _ _ _ _ _ ht) fun t ht => ?_
  exact step t _ _ _ _ _ _ ht

theorem Feature.id_mergeContent (ctx : MergeContext) (mode : MergeMode) (source target : Feature) :
    (mergeContent ctx mode source target).value.id = target.id :=
  mergeContent_keeps (fun _ _ _ _ _ _ _ => rfl) ..

theorem Feature.extensions_mergeContent (ctx : MergeContext) (mode : MergeMode)
    (source target : Feature) :
    (mergeContent ctx mode source target).value.extensions = target.extensions :=
  mergeContent_keeps (fun _ _ _ _ _ _ _ => rfl) ..

section
variable {ctx : MergeContext} (hctx : ctx.mergeHandlers = [])
include hctx

theorem Draft.id_mergeOrFail (mode : MergeMode) (source : Feature) (d : Draft) :
    (d.mergeOrFail ctx mode source).value.feature.id = d.feature.id := by
  refine andThen_keeps (P := fun t : Draft => t.feature.id = d.feature.id)
    (Feature.id_mergeContent ..) fun t ht => ?_
  rw [mergeExtensions_eq hctx]
  exact ht

theorem Draft.notes_mergeOrFail (mode : MergeMode) (source : Feature) (d : Draft) :
    (d.mergeOrFail ctx mode source).value.notes = d.notes := by
  refine andThen_keeps (P := fun t : Draft => t.notes = d.notes) rfl fun t ht => ?_
  rw [mergeExtensions_eq hctx]
  exact ht

theorem Draft.notes_layer (f : Feature) (d : Draft) : (layer ctx f d).value.notes = d.notes :=
  andThen_keeps (P := fun t : Draft => t.notes = d.notes) (notes_mergeOrFail hctx ..)
    fun _ ht => ht

theorem Draft.notes_inherit (heir : Feature) (p : Prototype) (base : Draft) :
    (inherit ctx heir p base).value.notes = base.notes := by
  refine andThen_keeps (P := fun t : Draft => t.notes = base.notes) rfl fun t ht => ?_
  refine andThen_keeps (P := fun t : Draft => t.notes = base.notes) ?_ fun t ht => ht
  exact (notes_mergeOrFail hctx ..).trans ht

theorem Lineage.notes_build (notes : List String) (l : Lineage) :
    (l.build ctx notes).value.notes = notes := by
  induction l with
  | assembled f => rfl
  | root f => exact Draft.notes_layer hctx f ⟨Feature.ofId f.id, notes⟩
  | heir f p base ih =>
    refine andThen_keeps (P := fun t : Draft => t.notes = notes) ?_ fun t ht => ?_
    · refine andThen_keeps (P := fun t : Draft => t.notes = notes) ih fun t ht => ?_
      exact (Draft.notes_inherit hctx f p t).trans ht
    · exact (Draft.notes_layer hctx f t).trans ht

omit hctx in
theorem Draft.inherit_eq_done {heir : Feature} {p : Prototype} {base d : Draft}
    (h : inherit ctx heir p base = done d) :
    ∃ rest t, base.feature.withoutRemovals heir.id p = done rest ∧
      mergeOrFail ctx .aggregate rest ⟨Feature.ofId heir.id, base.notes⟩ = done t ∧
      d.feature = t.feature.inheritAbout rest := by
  obtain ⟨b, hb, h⟩ := andThen_eq_done_iff.mp h
  obtain ⟨rest, hrest, rfl⟩ := map_eq_done_iff.mp hb
  obtain ⟨t, ht, h⟩ := andThen_eq_done_iff.mp h
  refine ⟨rest, t, hrest, ht, ?_⟩
  rw [← (eq_done_iff.mp h).1]
  rfl

theorem Draft.id_inherit {heir : Feature} {p : Prototype} {base d : Draft}
    (h : inherit ctx heir p base = done d) : d.feature.id = heir.id := by
  obtain ⟨rest, t, -, ht, hd⟩ := inherit_eq_done h
  have hid := id_mergeOrFail hctx .aggregate rest ⟨Feature.ofId heir.id, base.notes⟩
  rw [ht] at hid
  rw [hd]
  exact hid

theorem Draft.layer_eq_done {f : Feature} {d r : Draft} (h : layer ctx f d = done r) :
    ∃ t, f.IsLayering d.feature t ∧ r.feature = { (t.inheritAbout f).stamped f.id with
      isFinal := f.isFinal, isComplete := f.isComplete, isAssembled := true } := by
  obtain ⟨t, ht, hr⟩ := andThen_eq_done_iff.mp h
  have hl := isLayering_of_merge hctx (mapFault_eq_done_iff.mp ht)
  refine ⟨t.feature, { hl with }, ?_⟩
  rw [← (eq_done_iff.mp hr).1]
  rfl

theorem Draft.sharesMarks_layer {f : Feature} {d r : Draft} (h : layer ctx f d = done r)
    (hd : d.feature.id = f.id) : f.SharesMarks r.feature := by
  obtain ⟨t, ht, hr⟩ := layer_eq_done hctx h
  rw [hr]
  exact ⟨ht.id.trans hd, rfl, rfl, rfl⟩

theorem Lineage.Follows.sharesMarks_build {c : Catalogue} {f : Feature} {l : Lineage}
    (h : Follows c f l) {notes : List String} {d : Draft} (hd : l.build ctx notes = done d) :
    f.SharesMarks d.feature := by
  cases h with
  | assembled hf =>
    rw [← (eq_done_iff.mp hd).1]
    exact ⟨rfl, rfl, rfl, hf⟩
  | root => exact Draft.sharesMarks_layer hctx hd rfl
  | heir =>
    -- only the last layer makes the marks; of the base nothing but the new id matters
    obtain ⟨t, ht, hlayer⟩ := andThen_eq_done_iff.mp hd
    obtain ⟨base, -, hinherit⟩ := andThen_eq_done_iff.mp ht
    exact Draft.sharesMarks_layer hctx hlayer (Draft.id_inherit hctx hinherit)

end

structure Feature.Unsubstituted (change : Feature → Feature) : Prop where
  vars : ∀ f, (change f).vars = f.vars
  frameworkProperties : ∀ f, (change f).frameworkProperties = f.frameworkProperties
  configurations : ∀ f, (change f).configurations = f.configurations
  commutes : ∀ f frameworkProperties configurations,
    change { f with frameworkProperties, configurations } =
      { change f with frameworkProperties, configurations }

theorem Feature.Unsubstituted.substitute {change : Feature → Feature} (h : Unsubstituted change)
    (overrides : Table String) (f : Feature) :
    (change f).substitute overrides = (f.substitute overrides).map change := by
  have hreplace : Substitution.substitute overrides (change f).vars =
      Substitution.substitute overrides f.vars := by rw [h.vars]
  unfold Feature.substitute
  dsimp only
  rw [hreplace, h.frameworkProperties, h.configurations]
  cases Properties.replaceValues (Substitution.substitute overrides f.vars)
    f.frameworkProperties with
  | error e => rfl
  | ok frameworkProperties =>
    exact congrArg (Outcome.mk · _) (h.commutes f frameworkProperties _).symm

namespace Draft
variable {ctx : AssemblyContext}

theorem finish_eq_substitute (hctx : ctx.merge.postHandlers = []) (d : Draft) :
    d.finish ctx = d.substitute ctx := by
  have hpost : d.postProcess ctx.merge = done d := by
    unfold postProcess
    simp only [hctx, each_nil]
    rw [each_done fun d _ => d, List.foldl_fixed]
  rw [finish, hpost, mapFault_done, done_andThen]

theorem substitute_mapFeature {change : Feature → Feature} (h : Feature.Unsubstituted change)
    (d : Draft) :
    (d.mapFeature change).substitute ctx =
      (d.substitute ctx).map fun d => d.mapFeature change := by
  rw [substitute, substitute]
  split
  · have hcontent : (d.mapFeature change).feature.substitute ctx.merge.variableOverrides =
        (d.feature.substitute ctx.merge.variableOverrides).map change := h.substitute ..
    rw [hcontent]
    rfl
  · rfl

theorem substitute_of_not_substitutes (hctx : ctx.substitutes = false) (d : Draft) :
    d.substitute ctx = done d := by
  rw [substitute, if_neg (Bool.eq_false_iff.mp hctx)]

theorem substitute_eq_done {d r : Draft} (h : d.substitute ctx = done r) :
    ∃ frameworkProperties configurations,
      r.feature = { d.feature with frameworkProperties, configurations } := by
  unfold substitute at h
  split at h
  · obtain ⟨f, hf, rfl⟩ := map_eq_done_iff.mp (mapFault_eq_done_iff.mp h)
    simp only [Feature.substitute] at hf
    split at hf
    · cases (eq_done_iff.mp hf).2
    · next frameworkProperties _ =>
      obtain ⟨configurations, -, rfl⟩ := map_eq_done_iff.mp hf
      exact ⟨frameworkProperties, configurations, rfl⟩
  · rw [← (eq_done_iff.mp h).1]
    exact ⟨_, _, rfl⟩

end Draft
end FeatureAssembly
