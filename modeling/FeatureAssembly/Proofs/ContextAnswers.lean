import FeatureAssembly.Assembly.Assemble

/-! What assembling asks a context. It looks up the rule for two coordinates, the policy for a pid and
the override for a key, lets handlers look up their configuration and asks whether to substitute;
contexts that give the same answers assemble the same features, with the same notes, and fail with the
same errors. -/

namespace FeatureAssembly

def OverrideRule.Agree (rules rules' : List OverrideRule) : Prop :=
  ∀ existing incoming, find? rules existing incoming = find? rules' existing incoming

def ConfigurationPolicies.Agree (policies policies' : ConfigurationPolicies) : Prop :=
  ∀ pid, policies.policyFor? pid = policies'.policyFor? pid

def Table.Agree {α : Type} (t u : Table α) : Prop := ∀ key, get? t key = get? u key

/-- Two contexts with the same handlers that answer every question of a merge alike. -/
structure MergeContext.Agree (a b : MergeContext) : Prop where
  rules : OverrideRule.Agree a.rules b.rules
  policies : ConfigurationPolicies.Agree a.policies b.policies
  variableOverrides : Table.Agree a.variableOverrides b.variableOverrides
  frameworkOverrides : Table.Agree a.frameworkOverrides b.frameworkOverrides
  view : ∀ id, a.view id = b.view id
  mergeHandlers : a.mergeHandlers = b.mergeHandlers
  postHandlers : a.postHandlers = b.postHandlers

structure AssemblyContext.Agree (a b : AssemblyContext) : Prop where
  catalogue : a.catalogue = b.catalogue
  merge : a.merge.Agree b.merge
  substitutes : a.substitutes = b.substitutes

/-! The parts of a merge. -/

section
variable {rules rules' : List OverrideRule} (h : OverrideRule.Agree rules rules')
include h

namespace Artifacts

theorem meet_congr : meet rules = meet rules' := by
  funext sameSource existing incoming
  rw [meet, meet, settle, settle, h existing.id incoming.id]

theorem meetAll_congr (sameSource : Artifact → Bool) (incoming : Artifact) (l : List Artifact) :
    meetAll rules sameSource incoming l = meetAll rules' sameSource incoming l := by
  induction l with
  | nil => rfl
  | cons existing l ih => rw [meetAll, meetAll, meet_congr h, ih]

theorem merge_congr : merge rules = merge rules' := by
  funext origin target source
  have hstep : mergeOne rules origin = mergeOne rules' origin := by
    funext p a
    simp only [mergeOne, mergeIncoming, meetAll_congr h]
  rw [merge, merge, hstep]

end Artifacts

theorem Extensions.mergeOne_congr : mergeOne rules = mergeOne rules' := by
  funext origin target e
  simp only [mergeOne, Extension.merge, Extension.copied, Artifacts.merge_congr h]

end

theorem Configurations.merge_congr {policies policies' : ConfigurationPolicies}
    (h : policies.Agree policies') : merge policies = merge policies' := by
  funext origin target source
  have hstep : mergeIncoming policies origin = mergeIncoming policies' origin := by
    funext t c
    rw [mergeIncoming, mergeIncoming, h]
  rw [merge, merge, hstep]

theorem Properties.merge_congr {overrides overrides' : Table String}
    (h : overrides.Agree overrides') (kind : PropertyKind) :
    merge kind overrides = merge kind overrides' := by
  funext origin target source
  have hstep : mergeIncoming kind overrides origin = mergeIncoming kind overrides' origin := by
    funext t key p
    rw [mergeIncoming, mergeIncoming, h key]
  rw [merge, merge, hstep]

theorem Feature.substitute_congr {overrides overrides' : Table String}
    (h : overrides.Agree overrides') : substitute overrides = substitute overrides' := by
  funext f
  have hlookup : Substitution.lookup? overrides f.vars = Substitution.lookup? overrides' f.vars := by
    funext name
    rw [Substitution.lookup?, Substitution.lookup?, h name]
  have hreplace : Substitution.substitute overrides f.vars =
      Substitution.substitute overrides' f.vars := by
    funext s
    rw [Substitution.substitute, Substitution.substitute, hlookup]
  rw [substitute, substitute, hreplace]

/-! Merging and building features. -/

section
variable {a b : MergeContext} (h : a.Agree b)
include h

theorem MergeMode.rules_congr (mode : MergeMode) :
    OverrideRule.Agree (mode.rules a) (mode.rules b) := by
  cases mode with
  | aggregate => exact h.rules
  | layer => exact fun _ _ => rfl

theorem MergeMode.policies_congr (mode : MergeMode) :
    ConfigurationPolicies.Agree (mode.policies a) (mode.policies b) := by
  cases mode with
  | aggregate => exact h.policies
  | layer => exact fun _ => rfl

theorem Feature.mergeContent_congr (mode : MergeMode) :
    mergeContent a mode = mergeContent b mode := by
  have hproperties : ∀ kind,
      mode.mergeProperties kind a.frameworkOverrides = mode.mergeProperties kind b.frameworkOverrides ∧
        mode.mergeProperties kind a.variableOverrides =
          mode.mergeProperties kind b.variableOverrides := by
    intro kind
    cases mode with
    | aggregate =>
      exact ⟨Properties.merge_congr h.frameworkOverrides kind,
        Properties.merge_congr h.variableOverrides kind⟩
    | layer => exact ⟨rfl, rfl⟩
  funext source target
  simp only [mergeContent, mergeBundles, mergeConfigurations, mergeFrameworkProperties, mergeVariables,
    Artifacts.merge_congr (mode.rules_congr h), Configurations.merge_congr (mode.policies_congr h),
    hproperties]

namespace Draft

theorem mergeExtensions_congr {rules rules' : List OverrideRule}
    (hrules : OverrideRule.Agree rules rules') : mergeExtensions a rules = mergeExtensions b rules' := by
  funext source d
  have hstep : mergeExtension a rules source = mergeExtension b rules' source := by
    funext d e
    simp only [mergeExtension, delegate, h.mergeHandlers, h.view, Extensions.mergeOne_congr hrules]
  rw [mergeExtensions, mergeExtensions, hstep]

theorem mergeOrFail_congr (mode : MergeMode) : mergeOrFail a mode = mergeOrFail b mode := by
  funext source d
  rw [mergeOrFail, mergeOrFail, merge, merge, Feature.mergeContent_congr h,
    mergeExtensions_congr h (mode.rules_congr h)]

theorem layer_congr : layer a = layer b := by
  funext f d
  rw [layer, layer, mergeOrFail_congr h]

theorem inherit_congr : inherit a = inherit b := by
  funext heir p base
  simp only [inherit, mergeOrFail_congr h]

theorem postProcess_congr : postProcess a = postProcess b := by
  funext d
  simp only [postProcess, h.view, h.postHandlers]

end Draft

theorem Lineage.build_congr (notes : List String) (l : Lineage) : l.build a notes = l.build b notes := by
  induction l with
  | assembled f => rfl
  | root f => rw [build, build, Draft.layer_congr h]
  | heir f p base ih => rw [build, build, ih, Draft.inherit_congr h, Draft.layer_congr h]

theorem Aggregate.mergeContributors_congr : mergeContributors a = mergeContributors b := by
  funext contributors d
  rw [mergeContributors, mergeContributors, Draft.mergeOrFail_congr h]

end

section
variable {a b : AssemblyContext} (h : a.Agree b)
include h

theorem Draft.finish_congr : finish a = finish b := by
  have hsubstitute : substitute a = substitute b := by
    funext d
    rw [substitute, substitute, h.substitutes, Feature.substitute_congr h.merge.variableOverrides]
  funext d
  rw [finish, finish, postProcess_congr h.merge, hsubstitute]

theorem assemble_congr : assemble a = assemble b := by
  funext f
  simp only [assemble, h.catalogue, Lineage.build_congr h.merge, Draft.finish_congr h]

theorem assembleMany_congr : assembleMany a = assembleMany b := by
  funext id features
  have hbatch : Aggregate.Batch.build a.merge = Aggregate.Batch.build b.merge := by
    funext c batch f
    simp only [Aggregate.Batch.build, Lineage.build_congr h.merge]
  simp only [assembleMany, Aggregate.outcome, hbatch, h.catalogue,
    Aggregate.mergeContributors_congr h.merge, Draft.finish_congr h]

end

end FeatureAssembly
