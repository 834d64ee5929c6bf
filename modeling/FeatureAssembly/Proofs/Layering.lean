import FeatureAssembly.Proofs.ConfigurationMerge

/-! What can be looked up in a feature after another one was layered over it, and after it was copied
into an empty one: entries of the upper feature hide those of the lower one under the same name. -/

namespace FeatureAssembly
open Outcome

namespace Properties

theorem value?_set (t : Table Property) (key k : String) (p : Property) :
    value? (Table.set t key p) k = if key = k then some p.value else value? t k := by
  rw [value?, Table.get?_set, apply_ite (Option.map Property.value)]
  rfl

theorem value?_eq_find? (t : Table Property) (k : String) :
    value? t k = (Roster.find? t k).map fun e => e.2.value := by
  rw [value?, Table.get?, Option.map_map]
  rfl

@[simp] theorem value_stamped (p : Property) (origin : Coordinate) :
    (p.stamped origin).value = p.value := by
  unfold Property.stamped
  split <;> rfl

theorem value?_overlayIncoming (t : Table Property) (key k : String) (p : Property) :
    value? (overlayIncoming t key p) k = if key = k then some p.value else value? t k := by
  unfold overlayIncoming
  split
  · exact value?_set ..
  · exact value?_set ..

theorem value?_overlay {source : Table Property} (hs : Roster.Distinct source)
    (origin : Coordinate) (t : Table Property) (k : String) :
    value? (overlay origin t source) k = (value? source k).or (value? t k) := by
  have hstep : ∀ (t : Table Property) (e : String × Property) (k : String),
      value? (overlayIncoming t e.1 (e.2.stamped origin)) k =
        if e.1 = k then some e.2.value else value? t k := by
    intro t e k
    rw [value?_overlayIncoming, value_stamped]
  rw [overlay, value?_eq_find? source]
  refine (Roster.view_foldl (fun e _ => some e.2.value) hstep hs t k).trans ?_
  cases Roster.find? source k <;> rfl

end Properties

/-- What a configuration says, apart from who contributed it. -/
def Configuration.content (c : Configuration) : Table ConfigValue × Option Coordinate :=
  (c.properties, c.artifactOrigin)

@[simp] theorem Configuration.content_stamped (c : Configuration) (origin : Coordinate) :
    (c.stamped origin).content = c.content := by
  unfold stamped
  split <;> rfl

namespace Configurations

def content? (l : List Configuration) (pid : String) :
    Option (Table ConfigValue × Option Coordinate) :=
  (Roster.find? l pid).map Configuration.content

theorem policyFor?_uniform {policy other : ConfigurationPolicy} {pid : String}
    (h : (ConfigurationPolicies.uniform policy).policyFor? pid = some other) : other = policy := by
  obtain ⟨e, he, rfl⟩ := Option.map_eq_some_iff.mp h
  rw [List.mem_singleton.mp (List.mem_of_find?_eq_some he)]

theorem value_joined_uniform {origin : Coordinate} {c : Configuration}
    {found : Option Configuration}
    (h : (joined (.uniform .useLatest) origin c found).fault = none) :
    (joined (.uniform .useLatest) origin c found).value = some (c.stamped origin) := by
  cases found with
  | none => rfl
  | some existing =>
    rw [joined, ConfigurationPolicies.policyFor] at h ⊢
    cases hp : (ConfigurationPolicies.uniform .useLatest).policyFor? c.pid with
    | none =>
      rw [hp] at h
      cases h
    | some policy =>
      rw [policyFor?_uniform hp]
      rfl

theorem find?_merge_uniform {source t r : List Configuration} (hs : Roster.Distinct source)
    {origin : Coordinate} (h : merge (.uniform .useLatest) origin t source = done r) (pid : String) :
    Roster.find? r pid = ((Roster.find? source pid).map fun c => c.stamped origin).or
      (Roster.find? t pid) := by
  have hlocal := isLocalStep_mergeIncoming (.uniform .useLatest) origin
  have hfault := fault_merge hs (.uniform .useLatest) origin t
  rw [h, fault_done, eq_comm, List.findSome?_eq_none_iff] at hfault
  rw [hlocal.view_each hs h]
  cases hfound : Roster.find? source pid with
  | none => rfl
  | some c =>
    obtain rfl : c.pid = pid := Roster.key_of_find? hfound
    exact value_joined_uniform (hfault c (Roster.mem_of_find? hfound))

theorem content?_merge_uniform {source t r : List Configuration} (hs : Roster.Distinct source)
    {origin : Coordinate} (h : merge (.uniform .useLatest) origin t source = done r)
    (pid : String) : content? r pid = (content? source pid).or (content? t pid) := by
  have hcontent : (fun c : Configuration => (c.stamped origin).content) = Configuration.content :=
    funext fun c => Configuration.content_stamped c origin
  rw [content?, find?_merge_uniform hs h, Option.map_or, Option.map_map, Function.comp_def, hcontent]
  rfl

theorem content?_map_stamped (l : List Configuration) (origin : Coordinate) (pid : String) :
    content? (l.map fun c => c.stamped origin) pid = content? l pid := by
  rw [content?, Roster.find?_map fun c => Configuration.pid_stamped c origin, Option.map_map]
  exact congrArg (fun g => (Roster.find? l pid).map g)
    (funext fun c => Configuration.content_stamped c origin)

end Configurations

namespace Extensions

theorem name_merge (rules : List OverrideRule) (origin : Coordinate) (existing e : Extension) :
    (existing.merge rules origin e).value.name = existing.name := by
  unfold Extension.merge
  split
  · rfl
  · split
    · rfl
    · split <;> rfl
  · exact andThen_keeps (P := fun x : Extension => x.name = existing.name) rfl fun _ h => h
  · rfl

def joined (rules : List OverrideRule) (origin : Coordinate) (found : Option Extension)
    (e : Extension) : Outcome MergeError Extension :=
  match found with
  | some existing => existing.merge rules origin e
  | none => done (e.copy origin)

theorem mergeOne_eq (rules : List OverrideRule) (origin : Coordinate) (target : List Extension)
    (e : Extension) :
    mergeOne rules origin target e =
      (joined rules origin (Roster.find? target e.name) e).map (Roster.put target) := by
  unfold mergeOne joined
  rw [Extension.copied_eq_copy]
  cases Roster.find? target e.name <;> rfl

theorem name_joined (rules : List OverrideRule) (origin : Coordinate) (target : List Extension)
    (e : Extension) : (joined rules origin (Roster.find? target e.name) e).value.name = e.name := by
  unfold joined
  split
  · next existing hfound => exact (name_merge ..).trans (Roster.key_of_find? hfound)
  · exact Extension.name_copy origin e

theorem forall_merge {Q : Extension → Prop} {rules : List OverrideRule} {origin : Coordinate}
    {target source : List Extension} (ht : ∀ e ∈ target, Q e)
    (merged : ∀ existing, Q existing → ∀ e ∈ source, Q (existing.merge rules origin e).value)
    (copied : ∀ e ∈ source, Q (e.copy origin)) :
    ∀ e ∈ (merge rules origin target source).value, Q e := by
  refine each_keeps (P := fun t : List Extension => ∀ e ∈ t, Q e) (fun t x hx ht => ?_) ht
  have hjoined : Q (joined rules origin (Roster.find? t x.name) x).value := by
    unfold joined
    split
    · next existing hfound => exact merged existing (ht existing (Roster.mem_of_find? hfound)) x hx
    · exact copied x hx
  rw [mergeOne_eq]
  intro e he
  rcases Roster.mem_put he with rfl | he
  · exact hjoined
  · exact ht e he

theorem keys_mergeOne {rules : List OverrideRule} {origin : Coordinate}
    {t t' : List Extension} {e : Extension} (h : mergeOne rules origin t e = done t') :
    Roster.keys t' = addNew (Roster.keys t) e.name := by
  have hname := name_joined rules origin t e
  rw [mergeOne_eq] at h
  rw [← (eq_done_iff.mp h).1, value_map, Roster.keys_put_eq_addNew, Extension.key_eq, hname]

theorem mem_keys_merge {rules : List OverrideRule} {origin : Coordinate}
    {t source r : List Extension} (h : merge rules origin t source = done r) (name : String) :
    name ∈ Roster.keys r ↔ name ∈ Roster.keys t ∨ name ∈ Roster.keys source := by
  rw [Roster.keys_each (fun _ _ _ ht => keys_mergeOne ht) h, mem_addAllNew]

end Extensions

/-- The feature that results from merging `upper` over `lower`, part by part. -/
structure Feature.IsLayering (upper lower r : Feature) : Prop where
  bundles : r.bundles = Artifacts.allBeside upper.id lower.bundles upper.bundles
  configurations : Configurations.merge (.uniform .useLatest) upper.id lower.configurations
    upper.configurations = done r.configurations
  frameworkProperties : r.frameworkProperties =
    Properties.overlay upper.id lower.frameworkProperties upper.frameworkProperties
  vars : r.vars = Properties.overlay upper.id lower.vars upper.vars
  requirements : r.requirements = Descriptors.addAll lower.requirements upper.requirements
  capabilities : r.capabilities = Descriptors.addAll lower.capabilities upper.capabilities
  extensions : Extensions.merge [OverrideRule.catchAll .all] upper.id lower.extensions
    upper.extensions = done r.extensions
  about : r.about = lower.about
  id : r.id = lower.id

theorem Draft.isLayering_of_merge {ctx : MergeContext} (hctx : ctx.mergeHandlers = [])
    {upper : Feature} {d r : Draft} (h : d.merge ctx .layer upper = done r) :
    upper.IsLayering d.feature r.feature := by
  obtain ⟨content, hcontent, hextensions⟩ := andThen_eq_done_iff.mp h
  obtain ⟨t, ht, rfl⟩ := map_eq_done_iff.mp hcontent
  rw [mergeExtensions_eq hctx] at hextensions
  obtain ⟨extensions, hes, rfl⟩ := map_eq_done_iff.mp hextensions
  simp only [Feature.mergeContent, Feature.mergeBundles, MergeMode.rules,
    Artifacts.merge_catchAll, map_done, done_andThen] at ht
  obtain ⟨u, hu, hrest⟩ := andThen_eq_done_iff.mp ht
  obtain ⟨configurations, hcs, rfl⟩ := map_eq_done_iff.mp hu
  obtain rfl := (eq_done_iff.mp hrest).1
  exact ⟨rfl, hcs, rfl, rfl, rfl, rfl, hes, rfl, rfl⟩

end FeatureAssembly
