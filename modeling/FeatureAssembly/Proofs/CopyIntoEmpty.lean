import FeatureAssembly.Proofs.SideBySide

/-! Merging a feature into an empty one copies it: no name is there twice, so that neither rules nor
policies are asked, and all entries without an origin get that of the feature. -/

namespace FeatureAssembly
open Outcome

namespace Roster
variable {α κ ε : Type} [Keyed α κ]

theorem find?_eq_none_iff [DecidableEq κ] {l : List α} {k : κ} : find? l k = none ↔ k ∉ keys l := by
  rw [← find?_isSome_iff, Option.not_isSome_iff_eq_none]

theorem put_of_not_mem [DecidableEq κ] {l : List α} {x : α} (h : Keyed.key x ∉ keys l) :
    put l x = l ++ [x] := by
  induction l with
  | nil => rfl
  | cons y l ih =>
    rw [keys_cons, List.mem_cons, not_or] at h
    rw [put, if_neg (Ne.symm h.1), ih h.2, List.cons_append]

theorem not_mem_keys_of_distinct_append {l m : List α} {x : α} (h : Distinct (l ++ x :: m)) :
    Keyed.key x ∉ keys l := by
  intro hx
  rw [Distinct, keys_append, keys_cons] at h
  exact (List.nodup_append.mp h).2.2 _ hx _ (List.mem_cons_self ..) rfl

theorem each_eq_append {step : List α → α → Outcome ε (List α)} {f : α → α}
    (hf : ∀ x, (Keyed.key (f x) : κ) = Keyed.key x)
    (hstep : ∀ t x, Keyed.key x ∉ keys t → step t x = done (t ++ [f x]))
    {target source : List α} (h : Distinct (target ++ source)) :
    each step target source = done (target ++ source.map f) := by
  induction source generalizing target with
  | nil => simp
  | cons x source ih =>
    have hx : Keyed.key x ∉ keys target := not_mem_keys_of_distinct_append h
    have hrest : Distinct (target ++ [f x] ++ source) := by
      simpa [Distinct, hf] using h
    rw [each_cons, hstep target x hx, done_andThen, ih hrest, List.map_cons, List.append_assoc,
      List.singleton_append]

theorem each_eq_append_nil {step : List α → α → Outcome ε (List α)} {f : α → α}
    (hf : ∀ x, (Keyed.key (f x) : κ) = Keyed.key x)
    (hstep : ∀ t x, Keyed.key x ∉ keys t → step t x = done (t ++ [f x]))
    {source : List α} (h : Distinct source) : each step [] source = done (source.map f) := by
  have hnil : Distinct ([] ++ source) := h
  exact each_eq_append hf hstep hnil

end Roster

theorem Table.get?_eq_none_iff {α : Type} {t : Table α} {k : String} :
    get? t k = none ↔ k ∉ Roster.keys t := by
  rw [get?, Option.map_eq_none_iff, Roster.find?_eq_none_iff]

theorem Configurations.merge_into_empty {source : List Configuration}
    (hs : Roster.Distinct source) (policies : ConfigurationPolicies) (origin : Coordinate) :
    merge policies origin [] source = done (source.map fun c => c.stamped origin) := by
  refine Roster.each_eq_append_nil (fun c => Configuration.pid_stamped c origin) ?_ hs
  intro t c hc
  have hnew : Roster.find? t (c.stamped origin).pid = none := by
    rwa [Configuration.pid_stamped, Roster.find?_eq_none_iff]
  have hadd : (Keyed.key (c.stamped origin) : String) ∉ Roster.keys t := by
    simpa using hc
  rw [mergeIncoming, hnew]
  exact congrArg done (Roster.add_of_not_mem hadd)

namespace Properties

def overridden (overrides : Table String) (key : String) (p : Property) : Property :=
  match Table.get? overrides key with
  | none => p
  | some v => { p with value := v }

theorem merge_into_empty {source : Table Property} (hs : Roster.Distinct source)
    (kind : PropertyKind) (overrides : Table String) (origin : Coordinate) :
    merge kind overrides origin [] source =
      done (source.map fun e => (e.1, overridden overrides e.1 (e.2.stamped origin))) := by
  let entry (e : String × Property) : String × Property :=
    (e.1, overridden overrides e.1 (e.2.stamped origin))
  refine Roster.each_eq_append_nil (f := entry) (fun e => rfl) ?_ hs
  intro t e he
  have hnew : Table.get? t e.1 = none := Table.get?_eq_none_iff.mpr he
  have hset : ∀ p : Property, Table.set t e.1 p = t ++ [(e.1, p)] :=
    fun p => Roster.put_of_not_mem (x := (e.1, p)) he
  rw [mergeIncoming, hnew]
  cases ho : Table.get? overrides e.1 <;> simp only [hset, entry, overridden, ho]

end Properties

def Extension.copy (origin : Coordinate) (e : Extension) : Extension :=
  match e.content with
  | .artifacts l => { e with content := .artifacts (Artifacts.allBeside origin [] l) }
  | _ => e

@[simp] theorem Extension.name_copy (origin : Coordinate) (e : Extension) :
    (e.copy origin).name = e.name := by
  unfold copy
  split <;> rfl

theorem Extension.copied_eq_copy (rules : List OverrideRule) (origin : Coordinate)
    (e : Extension) : e.copied rules origin = .ok (e.copy origin) := by
  unfold copied copy
  cases e.content with
  | artifacts l =>
    simp only [Artifacts.merge_into_empty]
    rfl
  | text => rfl
  | json => rfl

namespace Extensions

def merge (rules : List OverrideRule) (origin : Coordinate) (target source : List Extension) :
    Outcome MergeError (List Extension) := each (mergeOne rules origin) target source

theorem merge_into_empty {source : List Extension} (hs : Roster.Distinct source)
    (rules : List OverrideRule) (origin : Coordinate) :
    merge rules origin [] source = done (source.map fun e => e.copy origin) := by
  refine Roster.each_eq_append_nil (fun e => Extension.name_copy origin e) ?_ hs
  intro t e he
  have hnew : Roster.find? t e.name = none := Roster.find?_eq_none_iff.mpr he
  have hput : (Keyed.key (e.copy origin) : String) ∉ Roster.keys t := by
    simpa using he
  rw [mergeOne, hnew, Extension.copied_eq_copy]
  exact congrArg done (Roster.put_of_not_mem hput)

end Extensions

theorem Draft.mergeExtensions_eq {ctx : MergeContext} (hctx : ctx.mergeHandlers = [])
    (rules : List OverrideRule) (source : Feature) (d : Draft) :
    d.mergeExtensions ctx rules source =
      (Extensions.merge rules source.id d.feature.extensions source.extensions).map
        fun l => d.mapExtensions fun _ => l := by
  unfold mergeExtensions Extensions.merge
  generalize source.extensions = es
  induction es generalizing d with
  | nil => rfl
  | cons e es ih =>
    have hstep : d.mergeExtension ctx rules source e =
        (Extensions.mergeOne rules source.id d.feature.extensions e).map
          fun l => d.mapExtensions fun _ => l := by
      rw [mergeExtension, hctx]
      rfl
    rw [each_cons, each_cons, hstep]
    rcases Extensions.mergeOne rules source.id d.feature.extensions e with ⟨l, _ | fault⟩
    · exact ih (d.mapExtensions fun _ => l)
    · rfl

def Feature.copyInto (ctx : MergeContext) (id : Coordinate) (source : Feature) : Feature :=
  { Feature.ofId id with
    bundles := Artifacts.allBeside source.id [] source.bundles
    configurations := source.configurations.map fun c => c.stamped source.id
    frameworkProperties := source.frameworkProperties.map fun e =>
      (e.1, Properties.overridden ctx.frameworkOverrides e.1 (e.2.stamped source.id))
    vars := source.vars.map fun e =>
      (e.1, Properties.overridden ctx.variableOverrides e.1 (e.2.stamped source.id))
    requirements := source.requirements
    capabilities := source.capabilities
    extensions := source.extensions.map fun e => e.copy source.id }

theorem Draft.merge_into_empty {ctx : MergeContext} (hctx : ctx.mergeHandlers = [])
    {source : Feature} (hs : source.Distinct) (id : Coordinate) (notes : List String) :
    Draft.merge ctx .aggregate source ⟨Feature.ofId id, notes⟩ =
      done ⟨source.copyInto ctx id, notes⟩ := by
  have hreq : Descriptors.addAll [] source.requirements = source.requirements :=
    Descriptors.addAll_nil_of_distinct hs.requirements
  have hcap : Descriptors.addAll [] source.capabilities = source.capabilities :=
    Descriptors.addAll_nil_of_distinct hs.capabilities
  have hcontent : Feature.mergeContent ctx .aggregate source (Feature.ofId id) =
      done { source.copyInto ctx id with extensions := [] } := by
    simp only [Feature.mergeContent, Feature.mergeBundles, Feature.mergeConfigurations,
      Feature.mergeFrameworkProperties, Feature.mergeVariables, MergeMode.mergeProperties,
      Feature.ofId, Artifacts.merge_into_empty, Configurations.merge_into_empty hs.configurations,
      Properties.merge_into_empty hs.frameworkProperties, Properties.merge_into_empty hs.vars,
      map_done, done_andThen, Feature.mergeDescriptors, hreq, hcap, Feature.copyInto]
  rw [Draft.merge, hcontent, map_done, done_andThen, mergeExtensions_eq hctx]
  exact congrArg (Outcome.map _) (Extensions.merge_into_empty hs.extensions ..)

theorem Draft.mergeOrFail_into_empty {ctx : MergeContext} (hctx : ctx.mergeHandlers = [])
    {source : Feature} (hs : source.Distinct) (id : Coordinate) (notes : List String) :
    Draft.mergeOrFail ctx .aggregate source ⟨Feature.ofId id, notes⟩ =
      done ⟨source.copyInto ctx id, notes⟩ := by
  rw [mergeOrFail, merge_into_empty hctx hs, mapFault_done]

end FeatureAssembly
