import FeatureAssembly.Proofs.MergeFrame
import FeatureAssembly.Proofs.NamedArtifacts

/-! Leaving out bundles, configurations and properties, whole extensions. One item can be left out if
what it names is there; several leave what none of them takes, told on the content before the first. -/

namespace FeatureAssembly
open Outcome

structure Feature.Unambiguous (f : Feature) : Prop extends Feature.Distinct f where
  properties : ∀ c ∈ f.configurations, Roster.Distinct c.properties
  artifacts : ∀ e ∈ f.extensions, ∀ l, e.content = .artifacts l → Roster.Distinct l

namespace Roster
variable {α κ : Type} [Keyed α κ] [DecidableEq κ] {l : List α}

theorem put_eq_adjust {k : κ} {x : α} {f : α → α} (h : find? l k = some x)
    (hf : Keyed.key (f x) = k) : put l (f x) = adjust l k f := by
  induction l with
  | nil => cases h
  | cons y l ih =>
    rw [find?] at h
    rw [put, adjust, hf]
    split_ifs at h ⊢
    · rw [Option.some.inj h]
    · rw [ih h]

theorem foldl_remove_eq_filter (hl : Distinct l) (ks : List κ) :
    ks.foldl remove l = l.filter fun x => Keyed.key x ∉ ks := by
  induction ks generalizing l with
  | nil => exact (List.filter_eq_self.mpr fun _ _ => decide_eq_true List.not_mem_nil).symm
  | cons k ks ih =>
    rw [List.foldl_cons, ih (hl.remove k), remove_eq_filter hl, List.filter_filter]
    refine List.filter_congr fun x _ => ?_
    rw [← Bool.decide_and, decide_eq_decide, List.mem_cons, not_or, and_comm]

end Roster

/-! Bundles, and the configurations that they brought along. -/

namespace Artifacts

def lost (l r : List Artifact) : List Coordinate := ids (l.filter fun a => a ∉ r)

variable {l r s : List Artifact} {i o : Coordinate}

theorem mem_lost : o ∈ lost l r ↔ ∃ a ∈ l, a ∉ r ∧ a.id = o := by
  simp only [lost, ids, List.mem_map, List.mem_filter, decide_eq_true_iff, and_assoc]

theorem lost_self (l : List Artifact) : lost l l = [] := by
  refine List.eq_nil_iff_forall_not_mem.mpr fun o ho => ?_
  obtain ⟨a, ha, hgone, -⟩ := mem_lost.mp ho
  exact hgone ha

theorem mem_lost_through (hrl : r ⊆ l) (hsr : s ⊆ r) :
    o ∈ lost l s ↔ o ∈ lost l r ∨ o ∈ lost r s := by
  simp only [mem_lost]
  constructor
  · rintro ⟨a, hal, has, ho⟩
    by_cases har : a ∈ r
    · exact .inr ⟨a, har, has, ho⟩
    · exact .inl ⟨a, hal, har, ho⟩
  · rintro (⟨a, hal, har, ho⟩ | ⟨a, har, has, ho⟩)
    · exact ⟨a, hal, fun has => har (hsr has), ho⟩
    · exact ⟨a, hrl har, has, ho⟩

theorem mem_lost_removeNamed (hl : Roster.Distinct l) :
    o ∈ lost l (removeNamed l i) ↔ o ∈ (named l i).map Artifact.id := by
  rw [mem_lost, named_eq_filter hl, List.mem_map]
  simp only [mem_removeNamed hl, List.mem_filter, decide_eq_true_iff, and_assoc]
  constructor
  · rintro ⟨a, ha, hgone, ho⟩
    exact ⟨a, ha, by_contra fun hnot => hgone ⟨ha, hnot⟩, ho⟩
  · rintro ⟨a, ha, htakes, ho⟩
    exact ⟨a, ha, fun h => h.2 htakes, ho⟩

end Artifacts

namespace Configurations

def withoutOrigins (l : List Configuration) (origins : List Coordinate) : List Configuration :=
  l.filter fun c => ∀ o ∈ c.artifactOrigin, o ∉ origins

theorem mem_withoutOrigins {l : List Configuration} {origins : List Coordinate}
    {c : Configuration} :
    c ∈ withoutOrigins l origins ↔ c ∈ l ∧ ∀ o ∈ c.artifactOrigin, o ∉ origins := by
  rw [withoutOrigins, List.mem_filter, decide_eq_true_iff]

theorem withoutOrigins_nil (l : List Configuration) : withoutOrigins l [] = l :=
  List.filter_eq_self.mpr fun _ _ => decide_eq_true fun _ _ => List.not_mem_nil

theorem withoutOrigins_through {l r s : List Artifact} (hrl : r ⊆ l) (hsr : s ⊆ r)
    (cs : List Configuration) :
    withoutOrigins cs (Artifacts.lost l s) =
      withoutOrigins (withoutOrigins cs (Artifacts.lost l r)) (Artifacts.lost r s) := by
  refine Eq.trans (List.filter_congr fun c _ => ?_) List.filter_filter.symm
  rw [← Bool.decide_and, decide_eq_decide, ← forall_and]
  refine forall_congr' fun o => ?_
  rw [← imp_and, ← not_or, or_comm]
  exact imp_congr_right fun _ => not_congr (Artifacts.mem_lost_through hrl hsr)

end Configurations

namespace Feature
variable {heir : Coordinate} {f b : Feature}

def leaveBundles (f : Feature) (ids : List Coordinate) : Feature :=
  { f with
    bundles := Artifacts.without f.bundles ids
    configurations := Configurations.withoutOrigins f.configurations
      (Artifacts.lost f.bundles (Artifacts.without f.bundles ids)) }

theorem removeBundle_eq_done_iff (hf : Roster.Distinct f.bundles) {i : Coordinate} :
    removeBundle heir f i = done b ↔
      (∃ a ∈ f.bundles, a.id.identity = i.identity) ∧ b = f.leaveBundles [i] := by
  rw [← Artifacts.named_ne_nil_iff hf]
  unfold removeBundle
  split
  · next hnil => exact iff_of_false failed_ne_done fun h => h.1 hnil
  · next hthere =>
    have hleft : (f.configurations.filter fun c => c.artifactOrigin.all fun origin =>
        origin ∉ (Artifacts.named f.bundles i).map Artifact.id) =
          (f.leaveBundles [i]).configurations := by
      refine List.filter_congr fun c _ => ?_
      rw [Bool.eq_iff_iff, Option.all_eq_true, decide_eq_true_iff]
      simp only [decide_eq_true_iff, ← Artifacts.mem_lost_removeNamed hf]
      rfl
    rw [and_iff_right hthere, hleft, done_eq_done_iff]
    rfl

theorem leaveBundles_cons (hf : Roster.Distinct f.bundles) (i : Coordinate)
    (ids : List Coordinate) :
    f.leaveBundles (i :: ids) = (f.leaveBundles [i]).leaveBundles ids := by
  have hfirst := Artifacts.sublist_without hf [i]
  have hrest := Artifacts.sublist_without (Artifacts.distinct_without hf [i]) ids
  exact congrArg (fun l => { f with
      bundles := Artifacts.without f.bundles (i :: ids), configurations := l })
    (Configurations.withoutOrigins_through hfirst.subset hrest.subset f.configurations)

theorem leaveBundles_nil (f : Feature) : f.leaveBundles [] = f := by
  have hall : Configurations.withoutOrigins f.configurations
      (Artifacts.lost f.bundles f.bundles) = f.configurations := by
    rw [Artifacts.lost_self, Configurations.withoutOrigins_nil]
  exact congrArg (fun l => { f with configurations := l }) hall

theorem amountsTo_removeBundle (heir : Coordinate) :
    AmountsTo (fun f => Roster.Distinct f.bundles)
      (fun f i => ∃ a ∈ f.bundles, a.id.identity = i.identity) (removeBundle heir) leaveBundles where
  nil := leaveBundles_nil
  cons _ i ids hf := leaveBundles_cons hf i ids
  keeps _ i hf := Artifacts.distinct_without hf [i]
  step_iff _ _ _ hf := removeBundle_eq_done_iff hf

end Feature

/-! Configurations and their properties. -/

def Configuration.without (targets : List (String × Option String)) (c : Configuration) :
    Configuration :=
  { c with properties := c.properties.filter fun e => (c.pid, some e.1) ∉ targets }

theorem Configuration.without_of_unnamed {targets : List (String × Option String)}
    {c : Configuration} (h : ∀ key, (c.pid, some key) ∉ targets) : c.without targets = c := by
  have hall : (c.properties.filter fun e => (c.pid, some e.1) ∉ targets) = c.properties :=
    List.filter_eq_self.mpr fun e _ => decide_eq_true (h e.1)
  exact congrArg (fun properties => { c with properties }) hall

namespace Configurations

def without (l : List Configuration) (targets : List (String × Option String)) :
    List Configuration :=
  (l.filter fun c => (c.pid, none) ∉ targets).map (Configuration.without targets)

def Has (l : List Configuration) : String × Option String → Prop
  | (pid, none) => ∃ c ∈ l, c.pid = pid
  | (pid, some key) => ∃ c ∈ l, c.pid = pid ∧ key ∈ Roster.keys c.properties

variable {l : List Configuration} {s t : List (String × Option String)} {pid key : String}

theorem without_nil (l : List Configuration) : without l [] = l := by
  have hall : (l.filter fun c => (c.pid, none) ∉ ([] : List (String × Option String))) = l :=
    List.filter_eq_self.mpr fun _ _ => decide_eq_true List.not_mem_nil
  have hproperties : ∀ c : Configuration, c.without [] = c :=
    fun c => Configuration.without_of_unnamed fun _ => List.not_mem_nil
  rw [without, hall, List.map_congr_left fun c _ => hproperties c, List.map_id']

theorem without_append (l : List Configuration) (s t : List (String × Option String)) :
    without l (s ++ t) = without (without l s) t := by
  have hlisted : ∀ target : String × Option String,
      decide (target ∉ s ++ t) = (decide (target ∉ t) && decide (target ∉ s)) := by
    intro target
    rw [← Bool.decide_and, decide_eq_decide, List.mem_append, not_or, and_comm]
  simp only [without, List.filter_map, List.map_map, List.filter_filter, hlisted]
  refine List.map_congr_left fun c _ => ?_
  simp only [Configuration.without, hlisted, Function.comp_apply, List.filter_filter]
  rfl

theorem has_without {target : String × Option String} :
    Has (without l s) target ↔ Has l target ∧ target ∉ s ∧ (target.1, none) ∉ s := by
  obtain ⟨pid, _ | key⟩ := target
  · simp only [Has, without, List.mem_map, List.mem_filter, decide_eq_true_iff, and_self]
    constructor
    · rintro ⟨_, ⟨c, ⟨hc, hkept⟩, rfl⟩, rfl⟩
      exact ⟨⟨c, hc, rfl⟩, hkept⟩
    · rintro ⟨⟨c, hc, rfl⟩, hkept⟩
      exact ⟨_, ⟨c, ⟨hc, hkept⟩, rfl⟩, rfl⟩
  · simp only [Has, without, List.mem_map, List.mem_filter, decide_eq_true_iff, Roster.keys]
    constructor
    · rintro ⟨_, ⟨c, ⟨hc, hkept⟩, rfl⟩, rfl, e, he, rfl⟩
      obtain ⟨he, hunlisted⟩ := List.mem_filter.mp he
      exact ⟨⟨c, hc, rfl, e, he, rfl⟩, of_decide_eq_true hunlisted, hkept⟩
    · rintro ⟨⟨c, hc, rfl, e, he, rfl⟩, hunlisted, hkept⟩
      exact ⟨_, ⟨c, ⟨hc, hkept⟩, rfl⟩, rfl, e,
        List.mem_filter.mpr ⟨he, decide_eq_true hunlisted⟩, rfl⟩

theorem remove_eq_without (hl : Roster.Distinct l) (pid : String) :
    Roster.remove l pid = without l [(pid, none)] := by
  have hproperties : ∀ c : Configuration, c.without [(pid, none)] = c :=
    fun c => Configuration.without_of_unnamed fun key h => by simp at h
  rw [without, List.map_congr_left fun c _ => hproperties c, List.map_id',
    Roster.remove_eq_filter hl]
  exact List.filter_congr fun c _ => by simp

theorem put_eq_without (hl : Roster.Distinct l)
    (hproperties : ∀ c ∈ l, Roster.Distinct c.properties) {c : Configuration}
    (hc : Roster.find? l pid = some c) (key : String) :
    Roster.put l { c with properties := Roster.remove c.properties key } =
      without l [(pid, some key)] := by
  have hpid : c.pid = pid := Roster.key_of_find? hc
  have hchanged : { c with properties := Roster.remove c.properties key } =
      c.without [(pid, some key)] := by
    rw [Roster.remove_eq_filter (hproperties c (Roster.mem_of_find? hc)), Configuration.without]
    have hfilter := List.filter_congr (l := c.properties)
      (p := fun e => e.1 ≠ key) (q := fun e => (c.pid, some e.1) ∉ [(pid, some key)])
      fun e _ => by simp [hpid]
    exact congrArg (fun properties => { c with properties }) hfilter
  have hall : (l.filter fun c => (c.pid, none) ∉ [(pid, some key)]) = l :=
    List.filter_eq_self.mpr fun _ _ => by simp
  rw [hchanged, Roster.put_eq_adjust hc hpid, Roster.adjust_eq_map hl, without, hall]
  refine List.map_congr_left fun d _ => ?_
  split
  · rfl
  · next hne =>
    refine (Configuration.without_of_unnamed fun k h => hne ?_).symm
    exact congrArg Prod.fst (List.mem_singleton.mp h)

theorem distinct_without (hl : Roster.Distinct l) (targets : List (String × Option String)) :
    Roster.Distinct (without l targets) := (hl.filter _).map fun _ => rfl

theorem distinct_properties_without (hl : ∀ c ∈ l, Roster.Distinct c.properties)
    (targets : List (String × Option String)) :
    ∀ c ∈ without l targets, Roster.Distinct c.properties := by
  intro c hc
  obtain ⟨d, hd, rfl⟩ := List.mem_map.mp hc
  exact (hl d (List.mem_of_mem_filter hd)).filter _

end Configurations

namespace Feature
variable {heir : Coordinate} {f b : Feature}

def leaveConfigurations (f : Feature) (entries : List String) : Feature :=
  { f with
    configurations :=
      Configurations.without f.configurations (entries.map Prototype.splitRemoval) }

theorem removeConfiguration_eq_done_iff (hf : Roster.Distinct f.configurations)
    (hproperties : ∀ c ∈ f.configurations, Roster.Distinct c.properties) {entry : String} :
    removeConfiguration heir f entry = done b ↔
      Configurations.Has f.configurations (Prototype.splitRemoval entry) ∧
        b = f.leaveConfigurations [entry] := by
  rw [leaveConfigurations, List.map_singleton]
  unfold removeConfiguration
  obtain ⟨pid, _ | key⟩ := Prototype.splitRemoval entry
  · rw [← Configurations.remove_eq_without hf]
    dsimp only
    split
    · next hthere =>
      have hhas : Configurations.Has f.configurations (pid, none) :=
        List.mem_map.mp (Roster.contains_iff.mp hthere)
      rw [and_iff_right hhas, done_eq_done_iff]
    · next hnot =>
      refine iff_of_false failed_ne_done fun h => hnot ?_
      exact Roster.contains_iff.mpr (List.mem_map.mpr h.1)
  · dsimp only
    split
    · next hnone =>
      refine iff_of_false failed_ne_done ?_
      rintro ⟨⟨c, hc, hpid, -⟩, -⟩
      exact Roster.find?_eq_none_iff.mp hnone (List.mem_map.mpr ⟨c, hc, hpid⟩)
    · next c hc =>
      obtain ⟨hmem, hpid⟩ := (Roster.find?_eq_some_iff hf).mp hc
      rw [Configurations.put_eq_without hf hproperties hc]
      split
      · next hthere =>
        have hhas : Configurations.Has f.configurations (pid, some key) :=
          ⟨c, hmem, hpid, Roster.contains_iff.mp hthere⟩
        rw [and_iff_right hhas, done_eq_done_iff]
      · next hnot =>
        refine iff_of_false failed_ne_done ?_
        rintro ⟨⟨d, hd, hdpid, hkey⟩, -⟩
        rw [← hf.eq_of_key hmem hd (hpid.trans hdpid.symm)] at hkey
        exact hnot (Roster.contains_iff.mpr hkey)

theorem amountsTo_removeConfiguration (heir : Coordinate) :
    AmountsTo (fun f => Roster.Distinct f.configurations ∧
        ∀ c ∈ f.configurations, Roster.Distinct c.properties)
      (fun f entry => Configurations.Has f.configurations (Prototype.splitRemoval entry))
      (removeConfiguration heir) leaveConfigurations where
  nil f := congrArg (fun l => { f with configurations := l })
    (Configurations.without_nil f.configurations)
  cons f entry _ _ := congrArg (fun l => { f with configurations := l })
    (Configurations.without_append f.configurations [Prototype.splitRemoval entry] _)
  keeps _ _ hf := ⟨Configurations.distinct_without hf.1 _,
    Configurations.distinct_properties_without hf.2 _⟩
  step_iff _ _ _ hf := removeConfiguration_eq_done_iff hf.1 hf.2

/-! Framework properties and whole extensions. -/

theorem foldl_removeFrameworkProperty (f : Feature) (keys : List String) :
    keys.foldl removeFrameworkProperty f =
      { f with frameworkProperties := keys.foldl Roster.remove f.frameworkProperties } := by
  induction keys generalizing f with
  | nil => rfl
  | cons key keys ih => exact ih (f.removeFrameworkProperty key)

theorem foldl_removeExtension (f : Feature) (names : List String) :
    names.foldl removeExtension f =
      { f with extensions := names.foldl Roster.remove f.extensions } := by
  induction names generalizing f with
  | nil => rfl
  | cons name names ih => exact ih (f.removeExtension name)

theorem foldl_names (hproperties : Roster.Distinct f.frameworkProperties)
    (hextensions : Roster.Distinct f.extensions) (keys names : List String) :
    names.foldl removeExtension (keys.foldl removeFrameworkProperty f) =
      { f with
        frameworkProperties := f.frameworkProperties.filter fun e => e.1 ∉ keys
        extensions := f.extensions.filter fun e => e.name ∉ names } := by
  rw [foldl_removeExtension, foldl_removeFrameworkProperty,
    Roster.foldl_remove_eq_filter hproperties, Roster.foldl_remove_eq_filter hextensions]
  rfl

end Feature
end FeatureAssembly
