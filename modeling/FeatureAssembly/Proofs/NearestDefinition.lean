import FeatureAssembly.Proofs.Marks
import FeatureAssembly.Proofs.StructuralErrors

/-! Along a line of prototypes the nearest definition wins: an assembled feature has every value that
some feature of the line defines, as the first such feature defines it, and the entries that do not
exclude each other of all features together. -/

namespace FeatureAssembly
open Outcome

theorem findSome?_cons_eq_or {α β : Type} (g : α → Option β) (a : α) (l : List α) :
    (a :: l).findSome? g = (g a).or (l.findSome? g) := by
  rw [List.findSome?_cons]
  cases g a <;> rfl

structure Description.IsNearest (ds : List Description) (d : Description) : Prop where
  title : d.title = ds.findSome? Description.title
  description : d.description = ds.findSome? Description.description
  vendor : d.vendor = ds.findSome? Description.vendor
  license : d.license = ds.findSome? Description.license
  docUrl : d.docUrl = ds.findSome? Description.docUrl
  scmInfo : d.scmInfo = ds.findSome? Description.scmInfo
  categories : d.categories = ((ds.map Description.categories).find? (· ≠ [])).getD []

namespace Description

theorem isNearest_nil : IsNearest [] .blank := ⟨rfl, rfl, rfl, rfl, rfl, rfl, rfl⟩

theorem orElse_blank (a : Description) : a.orElse .blank = a := by
  obtain ⟨t, d, v, l, u, s, cs⟩ := a
  cases cs <;> simp [orElse, blank]

theorem IsNearest.cons {ds : List Description} {d : Description} (h : IsNearest ds d)
    (a : Description) : IsNearest (a :: ds) (a.orElse d) := by
  have item : ∀ {g : Description → Option String}, g d = ds.findSome? g →
      (g a <|> g d) = (a :: ds).findSome? g := by
    intro g hg
    rw [hg, findSome?_cons_eq_or]
    cases g a <;> rfl
  refine ⟨item h.title, item h.description, item h.vendor, item h.license, item h.docUrl,
    item h.scmInfo, ?_⟩
  rw [orElse, List.map_cons, List.find?_cons, h.categories]
  by_cases hc : a.categories = [] <;> simp [hc]

end Description

namespace Descriptors

/-- The descriptors of all lists of a line without repetition, those of its far end first. -/
def gathered (lines : List (List Descriptor)) : List Descriptor :=
  lines.foldr (fun ds l => addAll l ds) []

theorem mem_add {l : List Descriptor} {d e : Descriptor} (h : e ∈ add l d) : e ∈ l ∨ e = d := by
  unfold add at h
  split at h
  · exact .inl h
  · simpa using h

theorem exists_same_add (l : List Descriptor) (d : Descriptor) :
    ∃ e ∈ add l d, e = d ∨ e.same d = true := by
  unfold add
  split
  · next h =>
    obtain ⟨e, he, hsame⟩ := List.any_eq_true.mp h
    exact ⟨e, he, .inr hsame⟩
  · exact ⟨d, by simp, .inl rfl⟩

theorem subset_addAll (l ds : List Descriptor) : l ⊆ addAll l ds := by
  induction ds generalizing l with
  | nil => exact fun _ h => h
  | cons d ds ih =>
    refine List.Subset.trans (fun e he => ?_) (ih (add l d))
    unfold add
    split
    · exact he
    · exact List.mem_append_left _ he

theorem mem_addAll {l ds : List Descriptor} {e : Descriptor} (h : e ∈ addAll l ds) :
    e ∈ l ∨ e ∈ ds := by
  induction ds generalizing l with
  | nil => exact .inl h
  | cons d ds ih =>
    rcases ih h with h | h
    · rcases mem_add h with h | rfl
      · exact .inl h
      · exact .inr (List.mem_cons_self ..)
    · exact .inr (List.mem_cons_of_mem _ h)

theorem exists_same_addAll {l ds : List Descriptor} {d : Descriptor} (h : d ∈ ds) :
    ∃ e ∈ addAll l ds, e = d ∨ e.same d = true := by
  induction ds generalizing l with
  | nil => cases h
  | cons d' ds ih =>
    rcases List.mem_cons.mp h with rfl | h
    · obtain ⟨e, he, hsame⟩ := exists_same_add l d
      exact ⟨e, subset_addAll (add l d) ds he, hsame⟩
    · exact ih h

structure IsUnion (lines : List (List Descriptor)) (l : List Descriptor) : Prop where
  distinct : Distinct l
  sound : ∀ d ∈ l, ∃ ds ∈ lines, d ∈ ds
  complete : ∀ ds ∈ lines, ∀ d ∈ ds, ∃ e ∈ l, e = d ∨ e.same d = true

theorem isUnion_gathered (lines : List (List Descriptor)) : IsUnion lines (gathered lines) := by
  induction lines with
  | nil => exact ⟨List.Pairwise.nil, by simp [gathered], by simp⟩
  | cons ds lines ih =>
    refine ⟨ih.distinct.addAll ds, fun d hd => ?_, fun ds' hds' d hd => ?_⟩
    · rcases mem_addAll hd with hd | hd
      · obtain ⟨ds', hds', hmem⟩ := ih.sound d hd
        exact ⟨ds', List.mem_cons_of_mem _ hds', hmem⟩
      · exact ⟨ds, List.mem_cons_self .., hd⟩
    · rcases List.mem_cons.mp hds' with rfl | hds'
      · exact exists_same_addAll hd
      · obtain ⟨e, he, hsame⟩ := ih.complete ds' hds' d hd
        exact ⟨e, subset_addAll _ ds he, hsame⟩

end Descriptors

theorem Properties.value?_map_overridden_nil (t : Table Property) (origin : Coordinate)
    (key : String) :
    value? (t.map fun e => (e.1, overridden [] e.1 (e.2.stamped origin))) key = value? t key := by
  have hkey : ∀ e : String × Property,
      (Keyed.key (e.1, overridden [] e.1 (e.2.stamped origin)) : String) = Keyed.key e :=
    fun _ => rfl
  rw [value?_eq_find?, value?_eq_find?, Roster.find?_map hkey, Option.map_map]
  exact congrArg (fun g => (Roster.find? t key).map g)
    (funext fun e => value_stamped e.2 origin)

/-- A feature that shows of each definition in a line, the nearest feature first, the first one, and
of bundles, requirements, capabilities and extensions those of all features. -/
structure Feature.ShowsNearest (fs : List Feature) (r : Feature) : Prop where
  frameworkProperties : ∀ key, Properties.value? r.frameworkProperties key =
    fs.findSome? fun g => Properties.value? g.frameworkProperties key
  vars : ∀ key, Properties.value? r.vars key = fs.findSome? fun g => Properties.value? g.vars key
  configurations : ∀ pid, Configurations.content? r.configurations pid =
    fs.findSome? fun g => Configurations.content? g.configurations pid
  about : Description.IsNearest (fs.map Feature.about) r.about
  bundles : ∀ id, id ∈ Roster.keys r.bundles ↔ ∃ g ∈ fs, id ∈ Roster.keys g.bundles
  requirements : r.requirements = Descriptors.gathered (fs.map Feature.requirements)
  capabilities : r.capabilities = Descriptors.gathered (fs.map Feature.capabilities)
  extensions : ∀ name, name ∈ Roster.keys r.extensions ↔ ∃ g ∈ fs, name ∈ Roster.keys g.extensions

namespace Feature

theorem showsNearest_nil (id : Coordinate) : (ofId id).ShowsNearest [] where
  frameworkProperties _ := rfl
  vars _ := rfl
  configurations _ := rfl
  about := Description.isNearest_nil
  bundles _ := by simp [ofId]
  requirements := rfl
  capabilities := rfl
  extensions _ := by simp [ofId]

theorem showsNearest_singleton {f : Feature} (hf : f.Distinct) : f.ShowsNearest [f] where
  frameworkProperties key := by
    rw [List.findSome?_singleton]
  vars key := by
    rw [List.findSome?_singleton]
  configurations pid := by
    rw [List.findSome?_singleton]
  about := by
    have h := Description.isNearest_nil.cons f.about
    rwa [Description.orElse_blank] at h
  bundles _ := by simp
  requirements := (Descriptors.addAll_nil_of_distinct hf.requirements).symm
  capabilities := (Descriptors.addAll_nil_of_distinct hf.capabilities).symm
  extensions _ := by simp

theorem ShowsNearest.stamped {fs : List Feature} {r : Feature} (h : r.ShowsNearest fs)
    (origin : Coordinate) : (r.stamped origin).ShowsNearest fs :=
  { h with
    configurations := fun pid =>
      (Configurations.content?_map_stamped r.configurations origin pid).trans (h.configurations pid)
    bundles := fun id => by
      rw [← h.bundles id, Feature.stamped, Roster.keys_map fun a => Artifact.id_stamped a origin]
    extensions := fun name => by
      rw [← h.extensions name, Feature.stamped, Roster.keys_map fun e => Extension.name_stamped e origin] }

theorem ShowsNearest.copyInto {fs : List Feature} {r : Feature} (h : r.ShowsNearest fs)
    {ctx : MergeContext} (hframework : ctx.frameworkOverrides = [])
    (hvars : ctx.variableOverrides = []) (id : Coordinate) :
    ((r.copyInto ctx id).inheritAbout r).ShowsNearest fs where
  frameworkProperties key := by
    rw [← h.frameworkProperties key, inheritAbout, Feature.copyInto, hframework]
    exact Properties.value?_map_overridden_nil ..
  vars key := by
    rw [← h.vars key, inheritAbout, Feature.copyInto, hvars]
    exact Properties.value?_map_overridden_nil ..
  configurations pid :=
    (Configurations.content?_map_stamped r.configurations r.id pid).trans (h.configurations pid)
  about := by
    have hblank : (r.about.orElse Description.blank) = r.about := Description.orElse_blank _
    rw [inheritAbout, Feature.copyInto, Feature.ofId, hblank]
    exact h.about
  bundles id := by
    rw [← h.bundles id]
    exact Artifacts.mem_keys_allBeside.trans (or_iff_right List.not_mem_nil)
  requirements := h.requirements
  capabilities := h.capabilities
  extensions name := by
    rw [← h.extensions name, inheritAbout, Feature.copyInto,
      Roster.keys_map fun e => Extension.name_copy r.id e]

theorem ShowsNearest.layering {fs : List Feature} {upper lower r : Feature}
    (h : lower.ShowsNearest fs) (hu : upper.Distinct) (hr : upper.IsLayering lower r) :
    (r.inheritAbout upper).ShowsNearest (upper :: fs) where
  frameworkProperties key := by
    rw [inheritAbout, hr.frameworkProperties, Properties.value?_overlay hu.frameworkProperties,
      h.frameworkProperties, findSome?_cons_eq_or]
  vars key := by
    rw [inheritAbout, hr.vars, Properties.value?_overlay hu.vars, h.vars, findSome?_cons_eq_or]
  configurations pid := by
    rw [inheritAbout, Configurations.content?_merge_uniform hu.configurations hr.configurations,
      h.configurations, findSome?_cons_eq_or]
  about := by
    rw [inheritAbout, hr.about]
    exact h.about.cons upper.about
  bundles id := by
    rw [inheritAbout, hr.bundles, Artifacts.mem_keys_allBeside, h.bundles, or_comm]
    simp
  requirements := by
    rw [inheritAbout, hr.requirements, h.requirements]
    rfl
  capabilities := by
    rw [inheritAbout, hr.capabilities, h.capabilities]
    rfl
  extensions name := by
    rw [inheritAbout, Extensions.mem_keys_merge hr.extensions, h.extensions, or_comm]
    simp

theorem ShowsNearest.withFlags {fs : List Feature} {r : Feature} (h : r.ShowsNearest fs)
    (isFinal isComplete isAssembled : Bool) :
    ({ r with isFinal, isComplete, isAssembled } : Feature).ShowsNearest fs := { h with }

end Feature

def Prototype.IsPlain (p : Prototype) : Prop := p = ofId p.id

theorem Feature.withoutRemovals_of_isPlain {p : Prototype} (hp : p.IsPlain) (heir : Coordinate)
    (f : Feature) : f.withoutRemovals heir p = done f := by
  rw [hp]
  rfl

/-- A context that neither changes what features say nor adds to it. -/
structure AssemblyContext.IsPlain (ctx : AssemblyContext) : Prop where
  mergeHandlers : ctx.merge.mergeHandlers = []
  postHandlers : ctx.merge.postHandlers = []
  frameworkOverrides : ctx.merge.frameworkOverrides = []
  variableOverrides : ctx.merge.variableOverrides = []
  substitutes : ctx.substitutes = false

section
variable {ctx : MergeContext} (hctx : ctx.mergeHandlers = [])
include hctx

theorem Draft.showsNearest_layer {fs : List Feature} {f : Feature} {d r : Draft} (hf : f.Distinct)
    (hd : d.feature.ShowsNearest fs) (h : layer ctx f d = done r) :
    r.feature.ShowsNearest (f :: fs) := by
  obtain ⟨t, ht, hr⟩ := layer_eq_done hctx h
  rw [hr]
  exact ((hd.layering hf ht).stamped f.id).withFlags ..

variable (hframework : ctx.frameworkOverrides = []) (hvars : ctx.variableOverrides = [])
include hframework hvars

theorem Draft.showsNearest_inherit {fs : List Feature} {heir : Feature} {p : Prototype}
    {base d : Draft} (hp : p.IsPlain) (hdistinct : base.feature.Distinct)
    (hbase : base.feature.ShowsNearest fs) (h : inherit ctx heir p base = done d) :
    d.feature.ShowsNearest fs := by
  rw [inherit, Feature.withoutRemovals_of_isPlain hp, map_done, done_andThen] at h
  obtain ⟨t, ht, hd⟩ := andThen_eq_done_iff.mp h
  have hcopy : Draft.mergeOrFail ctx .aggregate base.feature ⟨Feature.ofId heir.id, base.notes⟩ =
      done ⟨base.feature.copyInto ctx heir.id, base.notes⟩ :=
    mergeOrFail_into_empty hctx hdistinct heir.id base.notes
  obtain rfl := (eq_done_iff.mp (hcopy.symm.trans ht)).1
  rw [← (eq_done_iff.mp hd).1]
  exact hbase.copyInto hframework hvars heir.id

theorem Lineage.Follows.showsNearest_build {c : Catalogue} {f : Feature} {l : Lineage}
    (h : Follows c f l) (hdistinct : ∀ g ∈ l.features, g.Distinct)
    (hplain : ∀ g ∈ l.features, g.isAssembled = false → ∀ p, g.prototype = some p → p.IsPlain)
    {notes : List String} {d : Draft} (hd : l.build ctx notes = done d) :
    d.feature.ShowsNearest l.features := by
  -- the end of the line shows itself, and each feature before it hides what it defines anew
  induction h generalizing d with
  | assembled =>
    rw [← (eq_done_iff.mp hd).1]
    exact Feature.showsNearest_singleton (hdistinct _ (List.mem_singleton_self _))
  | @root f =>
    exact Draft.showsNearest_layer hctx (hdistinct _ (List.mem_singleton_self _))
      (Feature.showsNearest_nil f.id) hd
  | @heir f p g base hf hp hg further ih =>
    obtain ⟨t, ht, hlayer⟩ := andThen_eq_done_iff.mp hd
    obtain ⟨b, hb, hinherit⟩ := andThen_eq_done_iff.mp ht
    have hfurther := fun g hg => hdistinct g (List.mem_cons_of_mem _ hg)
    have hbase : b.feature.ShowsNearest base.features :=
      ih hfurther (fun g hg => hplain g (List.mem_cons_of_mem _ hg)) hb
    -- the copy of the base is one of all its entries only if no name is there twice
    have hbdistinct : b.feature.Distinct := by
      have := further.distinct_build hctx (fun g hg _ => hfurther g hg) notes
      rwa [hb] at this
    have hreference : p.IsPlain := hplain f (List.mem_cons_self ..) hf p hp
    exact Draft.showsNearest_layer hctx (hdistinct f (List.mem_cons_self ..))
      (Draft.showsNearest_inherit hctx hframework hvars hreference hbdistinct hbase hinherit)
      hlayer

end

/-- Whatever the features of a line define, the nearest definition wins, if no reference leaves
anything out and the context changes nothing. Bundles, requirements, capabilities and extensions come
from all features of the line; the marks are its own. -/
theorem assemble_nearest_definition_wins {ctx : AssemblyContext} (hctx : ctx.IsPlain) {f : Feature}
    (hf : f.isAssembled = false) {fs : List Feature} (walk : Walk ctx.catalogue [] f fs none)
    (hdistinct : ∀ g ∈ fs, g.Distinct)
    (hplain : ∀ g ∈ fs, g.isAssembled = false → ∀ p, g.prototype = some p → p.IsPlain)
    {r : Feature} (hr : (assemble ctx f).result = .ok r) :
    r.ShowsNearest fs ∧ r.Distinct ∧ f.SharesMarks r ∧
      Descriptors.IsUnion (fs.map Feature.requirements) r.requirements ∧
      Descriptors.IsUnion (fs.map Feature.capabilities) r.capabilities := by
  obtain ⟨l, hl, rfl⟩ := Lineage.exists_ofFeature walk
  have hline := Lineage.follows_of_ofFeature hl
  rw [assemble_of_lineage hf hl] at hr
  obtain ⟨notes, hdone⟩ := Report.result_ofOutcome_eq_ok_iff.mp hr
  obtain ⟨d, hd, hfinish⟩ := andThen_eq_done_iff.mp hdone
  rw [Draft.finish_eq_substitute hctx.postHandlers,
    Draft.substitute_of_not_substitutes hctx.substitutes] at hfinish
  obtain rfl := (eq_done_iff.mp hfinish).1
  have hshows := hline.showsNearest_build hctx.mergeHandlers hctx.frameworkOverrides
    hctx.variableOverrides hdistinct hplain hd
  have hrdistinct := hline.distinct_build hctx.mergeHandlers (fun g hg _ => hdistinct g hg) []
  rw [hd] at hrdistinct
  refine ⟨hshows, hrdistinct, hline.sharesMarks_build hctx.mergeHandlers hd, ?_, ?_⟩
  · rw [hshows.requirements]
    exact Descriptors.isUnion_gathered _
  · rw [hshows.capabilities]
    exact Descriptors.isUnion_gathered _

namespace Sample

def setting (f : Feature) (values : Table String) : Feature :=
  { f with vars := values.map fun e => (e.1, .ofValue e.2) }

theorem distinct_heir (name prototype : String) : (heir name prototype).Distinct :=
  { Feature.distinct_ofId (id name) with }

theorem distinct_setting {f : Feature} (hf : f.Distinct) {values : Table String}
    (h : (Roster.keys values).Nodup) : (setting f values).Distinct := by
  have hkeys : Roster.keys (setting f values).vars = Roster.keys values := List.map_map
  have hvars : Roster.Distinct (setting f values).vars := by
    rwa [Roster.Distinct, hkeys]
  exact { hf with vars := hvars }

def far : Feature := setting (Feature.ofId (id "c")) [("x", "3"), ("y", "3"), ("z", "3")]

def middle : Feature := setting (heir "b" "c") [("x", "2"), ("y", "2")]

def near : Feature := setting (heir "a" "b") [("x", "1")]

end Sample

theorem assemble_near_shows_nearest : ∃ r,
    (assemble (Sample.context [Sample.middle, Sample.far]) Sample.near).result = .ok r ∧
      Properties.value? r.vars "x" = some "1" ∧ Properties.value? r.vars "y" = some "2" ∧
      Properties.value? r.vars "z" = some "3" := by
  have hplain : (Sample.context [Sample.middle, Sample.far]).IsPlain := ⟨rfl, rfl, rfl, rfl, rfl⟩
  have walk : Walk (Sample.context [Sample.middle, Sample.far]).catalogue [] Sample.near
      [Sample.near, Sample.middle, Sample.far] none :=
    .step rfl (by decide) rfl rfl rfl <| .step rfl (by decide) rfl rfl rfl <|
      .root rfl (by decide) rfl
  have hline : Lineage.Follows (Sample.context [Sample.middle, Sample.far]).catalogue Sample.near
      (.heir Sample.near (.ofId (Sample.id "b")) <|
        .heir Sample.middle (.ofId (Sample.id "c")) (.root Sample.far)) :=
    .heir rfl rfl rfl <| .heir rfl rfl rfl <| .root rfl rfl
  obtain ⟨r, hr⟩ : ∃ r,
      (assemble (Sample.context [Sample.middle, Sample.far]) Sample.near).result = .ok r := by
    rw [assemble_of_lineage rfl (Lineage.ofFeature_eq_ok walk hline)]
    exact ⟨_, rfl⟩
  have hdistinct : ∀ g ∈ [Sample.near, Sample.middle, Sample.far], g.Distinct := by
    have hheir : ∀ name prototype, (Sample.heir name prototype).Distinct :=
      fun name _ => { Feature.distinct_ofId (Sample.id name) with }
    simp only [List.forall_mem_cons, List.not_mem_nil, false_implies, implies_true, and_true]
    exact ⟨Sample.distinct_setting (hheir ..) (by decide),
      Sample.distinct_setting (hheir ..) (by decide),
      Sample.distinct_setting (Feature.distinct_ofId _) (by decide)⟩
  have hreferences : ∀ g ∈ [Sample.near, Sample.middle, Sample.far], g.isAssembled = false →
      ∀ p, g.prototype = some p → p.IsPlain := by
    simp only [List.forall_mem_cons, List.not_mem_nil, false_implies, implies_true, and_true]
    refine ⟨fun _ p hp => Option.some.inj hp ▸ rfl, fun _ p hp => Option.some.inj hp ▸ rfl, ?_⟩
    rintro - p ⟨⟩
  obtain ⟨hshows, -⟩ := assemble_nearest_definition_wins hplain rfl walk hdistinct hreferences hr
  exact ⟨r, hr, (hshows.vars "x").trans (by decide), (hshows.vars "y").trans (by decide),
    (hshows.vars "z").trans (by decide)⟩

end FeatureAssembly
