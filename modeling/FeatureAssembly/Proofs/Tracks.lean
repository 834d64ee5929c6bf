import FeatureAssembly.Proofs.Layering
import FeatureAssembly.Proofs.Walk

/-! Extensions of different names do not touch one another. When names are sorted into tracks, every
merge, removal and build splits: run with the extensions of one track only, it does on that track what
the whole run does, and the whole run fails only where the run of some track does. -/

namespace FeatureAssembly
open Outcome

namespace Outcome
variable {τ ε δ α β γ ι : Type}

/-- The runs of the tracks show a whole run: whether it fails, and its value on each track. -/
structure Splits (k : τ → α → β) (o : Outcome ε α) (part : τ → Outcome ε β) : Prop where
  part_eq : o.fault = none → ∀ t, part t = done (k t o.value)
  fault_eq : (∀ t, (part t).fault = none) → o.fault = none

namespace Splits
variable {k : τ → α → β} {o : Outcome ε α} {part : τ → Outcome ε β}

theorem of_eq [Nonempty τ] (h : ∀ t, part t = o.map (k t)) : Splits k o part where
  part_eq ho t := by
    rw [h t, eq_done_of_fault ho]
    rfl
  fault_eq hpart := by
    obtain ⟨t⟩ := ‹Nonempty τ›
    have ht := hpart t
    rwa [h t] at ht

theorem part_of_done (h : Splits k o part) {a : α} (ho : o = done a) (t : τ) :
    part t = done (k t a) := by
  have hpart := h.part_eq (eq_done_iff.mp ho).2 t
  rwa [ho] at hpart

theorem map (h : Splits k o part) {k' : τ → γ → δ} {g : α → γ} {g' : τ → β → δ}
    (hg : ∀ t a, g' t (k t a) = k' t (g a)) :
    Splits k' (o.map g) fun t => (part t).map (g' t) where
  part_eq ho t := by
    rw [h.part_eq ho t, map_done, hg]
    rfl
  fault_eq := h.fault_eq

theorem mapFault (h : Splits k o part) (g : ε → δ) :
    Splits k (o.mapFault g) fun t => (part t).mapFault g where
  part_eq ho t := by
    rw [h.part_eq (Option.map_eq_none_iff.mp ho) t]
    rfl
  fault_eq hpart :=
    Option.map_eq_none_iff.mpr (h.fault_eq fun t => Option.map_eq_none_iff.mp (hpart t))

theorem andThen (h : Splits k o part) {f : α → Outcome ε α} {f' : τ → β → Outcome ε β}
    (hf : ∀ a, Splits k (f a) fun t => f' t (k t a)) :
    Splits k (o.andThen f) fun t => (part t).andThen (f' t) where
  part_eq ho t := by
    obtain ⟨a, ha, hb⟩ := andThen_eq_done_iff.mp (eq_done_of_fault ho)
    obtain rfl := ha
    rw [h.part_eq rfl t]
    exact (hf a).part_eq ho t
  fault_eq hpart := by
    -- no part ends in its first half, so that all second halves start from the same value
    have hfirst : ∀ t, ∃ b, part t = done b ∧ (f' t b).fault = none := by
      intro t
      obtain ⟨b, hb, hrest⟩ := andThen_eq_done_iff.mp (eq_done_of_fault (hpart t))
      exact ⟨b, hb, (eq_done_iff.mp hrest).2⟩
    have ho : o.fault = none := h.fault_eq fun t => by
      obtain ⟨b, hb, -⟩ := hfirst t
      rw [hb]
      rfl
    rw [eq_done_of_fault ho]
    refine (hf o.value).fault_eq fun t => ?_
    obtain ⟨b, hb, hrest⟩ := hfirst t
    obtain rfl : k t o.value = b := (eq_done_iff.mp ((h.part_eq ho t).symm.trans hb)).1
    exact hrest

theorem each {step : α → ι → Outcome ε α} {step' : τ → β → ι → Outcome ε β} {is : List ι}
    [Nonempty τ] (hs : ∀ a, ∀ i ∈ is, Splits k (step a i) fun t => step' t (k t a) i) (a : α) :
    Splits k (Outcome.each step a is) fun t => Outcome.each (step' t) (k t a) is := by
  induction is generalizing a with
  | nil => exact of_eq fun _ => rfl
  | cons i is ih =>
    refine (hs a i (List.mem_cons_self ..)).andThen fun b => ?_
    exact ih (fun c j hj => hs c j (List.mem_cons_of_mem _ hj)) b

end Splits

theorem each_filter (step : α → ι → Outcome ε α) (p : ι → Bool) (a : α) (is : List ι) :
    each step a (is.filter p) = each (fun a i => if p i then step a i else done a) a is := by
  induction is generalizing a with
  | nil => rfl
  | cons i is ih =>
    rw [each_cons, List.filter_cons]
    split
    · simp only [each_cons, ih]
    · exact ih a

end Outcome

/-! The entries of a track. -/

namespace Roster
variable {α κ τ : Type} [Keyed α κ] [DecidableEq τ] (track : κ → τ) (t : τ)

def restrict (l : List α) : List α := l.filter fun x => track (Keyed.key x) = t

theorem restrict_map {f : α → α} (hf : ∀ x, (Keyed.key (f x) : κ) = Keyed.key x) (l : List α) :
    restrict track t (l.map f) = (restrict track t l).map f := by
  unfold restrict
  rw [List.filter_map]
  exact congrArg (List.map f) (List.filter_congr fun x _ => by simp only [Function.comp, hf])

theorem restrict_eq_self {l : List α} (h : ∀ x ∈ l, track (Keyed.key x) = t) :
    restrict track t l = l := List.filter_eq_self.mpr fun x hx => decide_eq_true (h x hx)

theorem restrict_cons_of_eq {x : α} (hx : track (Keyed.key x) = t) (l : List α) :
    restrict track t (x :: l) = x :: restrict track t l :=
  List.filter_cons_of_pos (decide_eq_true hx)

theorem restrict_cons_of_ne {x : α} (hx : track (Keyed.key x) ≠ t) (l : List α) :
    restrict track t (x :: l) = restrict track t l :=
  List.filter_cons_of_neg (by simpa using hx)

variable {track t}

theorem restrict_eq_singleton {l : List α} (hl : Distinct l) {x : α} (hx : x ∈ l)
    (h : ∀ y ∈ l, track (Keyed.key y) = t ↔ (Keyed.key y : κ) = Keyed.key x) :
    restrict track t l = [x] := by
  induction l with
  | nil => cases hx
  | cons y l ih =>
    obtain ⟨hy, hl⟩ := List.nodup_cons.mp hl
    have hrest := fun z hz => h z (List.mem_cons_of_mem y hz)
    rcases List.mem_cons.mp hx with rfl | hx
    · have hnone : restrict track t l = [] := by
        refine List.filter_eq_nil_iff.mpr fun z hz htrack => hy ?_
        exact (hrest z hz).mp (of_decide_eq_true htrack) ▸ List.mem_map_of_mem hz
      rw [restrict_cons_of_eq track t ((h x (List.mem_cons_self ..)).mpr rfl), hnone]
    · have hne : (Keyed.key y : κ) ≠ Keyed.key x := fun heq => hy (heq ▸ List.mem_map_of_mem hx)
      rw [restrict_cons_of_ne track t (mt (h y (List.mem_cons_self ..)).mp hne), ih hl hx hrest]

variable [DecidableEq κ]

theorem find?_restrict {k : κ} (hk : track k = t) (l : List α) :
    find? (restrict track t l) k = find? l k := by
  induction l with
  | nil => rfl
  | cons x l ih => grind [restrict, find?]

theorem restrict_put {x : α} (hx : track (Keyed.key x) = t) (l : List α) :
    restrict track t (put l x) = put (restrict track t l) x := by
  induction l with
  | nil => grind [restrict, put]
  | cons y l ih => grind [restrict, put]

theorem restrict_put_of_ne {x : α} (hx : track (Keyed.key x) ≠ t) (l : List α) :
    restrict track t (put l x) = restrict track t l := by
  induction l with
  | nil => grind [restrict, put]
  | cons y l ih => grind [restrict, put]

omit [DecidableEq κ] in
theorem not_mem_keys_restrict {k : κ} (hk : track k ≠ t) (l : List α) :
    k ∉ keys (restrict track t l) := by
  grind [restrict, keys]

variable (track t)

theorem restrict_remove (l : List α) (k : κ) :
    restrict track t (remove l k) = remove (restrict track t l) k := by
  induction l with
  | nil => rfl
  | cons x l ih => grind [restrict, remove, remove_of_not_mem, not_mem_keys_restrict]

theorem restrict_adjust (l : List α) (k : κ) {f : α → α}
    (hf : ∀ x, (Keyed.key (f x) : κ) = Keyed.key x) :
    restrict track t (adjust l k f) = adjust (restrict track t l) k f := by
  induction l with
  | nil => rfl
  | cons x l ih => grind [restrict, adjust, adjust_of_not_mem, not_mem_keys_restrict]

end Roster

/-- Changes by named items split if each one is that of its own track and none of another one. -/
theorem Outcome.splits_each_restrict {τ ε α β ι κ : Type} [Keyed ι κ] [DecidableEq τ] [Nonempty τ]
    (track : κ → τ) {k : τ → α → β} {step : α → ι → Outcome ε α} {step' : β → ι → Outcome ε β}
    (own : ∀ a i t, track (Keyed.key i) = t → step' (k t a) i = (step a i).map (k t))
    (other : ∀ a i t, track (Keyed.key i) ≠ t → k t (step a i).value = k t a) (a : α)
    (is : List ι) :
    Splits k (each step a is) fun t => each step' (k t a) (Roster.restrict track t is) := by
  simp only [Roster.restrict, each_filter, decide_eq_true_eq]
  refine Splits.each (fun a i _ => ⟨fun hdone t => ?_, fun hpart => ?_⟩) a
  · split
    · next ht =>
      rw [own a i t ht, eq_done_of_fault hdone]
      rfl
    · next ht => rw [other a i t ht]
  · have hown := hpart (track (Keyed.key i))
    rwa [if_pos rfl, own a i _ rfl] at hown

/-! Features on a track: without the extensions of other tracks and what is left out of these. -/

section
variable {τ : Type} [DecidableEq τ] (track : String → τ) (t : τ)

def Prototype.restrict (p : Prototype) : Prototype :=
  { p with artifactExtensions := Roster.restrict track t p.artifactExtensions }

def Feature.restrict (f : Feature) : Feature :=
  { f with
    extensions := Roster.restrict track t f.extensions
    prototype := f.prototype.map (Prototype.restrict track t) }

def Draft.restrict (d : Draft) : Draft := d.mapFeature (Feature.restrict track t)

def Catalogue.restrict (c : Catalogue) : Catalogue :=
  c.map fun e => (e.1, e.2.restrict track t)

def Lineage.restrict : Lineage → Lineage
  | .assembled f => .assembled (f.restrict track t)
  | .root f => .root (f.restrict track t)
  | .heir f p base => .heir (f.restrict track t) (p.restrict track t) base.restrict

@[simp] theorem Prototype.id_restrict (p : Prototype) : (p.restrict track t).id = p.id := rfl

@[simp] theorem Feature.id_restrict (f : Feature) : (f.restrict track t).id = f.id := rfl

@[simp] theorem Feature.isAssembled_restrict (f : Feature) :
    (f.restrict track t).isAssembled = f.isAssembled := rfl

theorem Feature.prototype_restrict (f : Feature) :
    (f.restrict track t).prototype = f.prototype.map (Prototype.restrict track t) := rfl

theorem Catalogue.find?_restrict (c : Catalogue) (id : Coordinate) :
    (c.restrict track t).find? id = (c.find? id).map (Feature.restrict track t) := by
  have hfound := Roster.find?_map
    (f := fun e : Coordinate × Feature => (e.1, e.2.restrict track t)) (fun _ => rfl) c id
  rw [find?, restrict, hfound, find?, Option.map_map, Option.map_map]
  rfl

theorem Lineage.climb_restrict_found {c : Catalogue} {path : List Coordinate} {f g : Feature}
    {p : Prototype} (hp : f.prototype = some p) (hg : c.find? p.id = some g) :
    climb (c.restrict track t) path (f.restrict track t) =
      if g.isFinal then .error (.finalPrototype p.id f.id)
      else if g.isAssembled then
        .ok (.heir (f.restrict track t) (p.restrict track t) (.assembled (g.restrict track t)))
      else if g.id ∈ path then .error (.cycle (path ++ [g.id]))
      else (climb (c.restrict track t) (path ++ [g.id]) (g.restrict track t)).map
        (.heir (f.restrict track t) (p.restrict track t)) := by
  have hpt : (f.restrict track t).prototype = some (p.restrict track t) := by
    rw [Feature.prototype_restrict, hp, Option.map_some]
  have hgt : (c.restrict track t).find? (p.restrict track t).id = some (g.restrict track t) := by
    rw [Catalogue.find?_restrict, Prototype.id_restrict, hg, Option.map_some]
  exact climb_found hpt hgt

theorem Lineage.climb_restrict (c : Catalogue) (path : List Coordinate) (f : Feature) :
    climb (c.restrict track t) path (f.restrict track t) =
      (climb c path f).map (restrict track t) := by
  induction path, f using climb.induct c with
  | case1 path f hp =>
    rw [climb_root hp, climb_root (by rw [Feature.prototype_restrict, hp, Option.map_none])]
    rfl
  | case2 path f p hp hg =>
    rw [climb_missing hp hg, climb_missing (p := p.restrict track t)
      (by rw [Feature.prototype_restrict, hp, Option.map_some])
      (by rw [Catalogue.find?_restrict, Prototype.id_restrict, hg, Option.map_none])]
    rfl
  | case3 path f p hp g hg closed =>
    rw [climb_restrict_found track t hp hg, climb_found hp hg, if_pos closed, if_pos closed]
    rfl
  | case4 path f p hp g hg free hga =>
    rw [climb_restrict_found track t hp hg, climb_found hp hg, if_neg free, if_neg free,
      if_pos hga, if_pos hga]
    rfl
  | case5 path f p hp g hg free hga seen =>
    rw [climb_restrict_found track t hp hg, climb_found hp hg, if_neg free, if_neg free,
      if_neg hga, if_neg hga, if_pos seen, if_pos seen]
    rfl
  | case6 path f p hp g hg free hga new ih =>
    rw [climb_restrict_found track t hp hg, climb_found hp hg, if_neg free, if_neg free,
      if_neg hga, if_neg hga, if_neg new, if_neg new, ih]
    cases climb c (path ++ [g.id]) g <;> rfl

theorem Lineage.ofFeature_restrict (c : Catalogue) (f : Feature) :
    ofFeature (c.restrict track t) (f.restrict track t) =
      (ofFeature c f).map (restrict track t) := by
  unfold ofFeature
  rw [climb_restrict, Feature.isAssembled_restrict, apply_ite (Except.map (restrict track t))]
  rfl

theorem Lineage.references_restrict (l : Lineage) :
    (l.restrict track t).references = l.references := by
  induction l with
  | assembled f => rfl
  | root f => rfl
  | heir f p base ih => exact congrArg (p.id :: ·) ih

end

/-! Merging. -/

section
variable {τ : Type} [DecidableEq τ] [Nonempty τ] (track : String → τ)

namespace Extensions
variable {track} {t : τ} {rules : List OverrideRule} {origin : Coordinate} {e : Extension}

omit [Nonempty τ] in
theorem mergeOne_restrict (he : track e.name = t) (target : List Extension) :
    mergeOne rules origin (Roster.restrict track t target) e =
      (mergeOne rules origin target e).map (Roster.restrict track t) := by
  have hname : track (joined rules origin (Roster.find? target e.name) e).value.name = t :=
    (congrArg track (name_joined ..)).trans he
  rw [mergeOne_eq, mergeOne_eq, Roster.find?_restrict he]
  exact congrArg (Outcome.mk · _) (Roster.restrict_put hname target).symm

omit [Nonempty τ] in
theorem restrict_mergeOne_of_ne (he : track e.name ≠ t) (target : List Extension) :
    Roster.restrict track t (mergeOne rules origin target e).value =
      Roster.restrict track t target := by
  have hname : track (joined rules origin (Roster.find? target e.name) e).value.name ≠ t :=
    fun h => he ((congrArg track (name_joined ..)).symm.trans h)
  rw [mergeOne_eq]
  exact Roster.restrict_put_of_ne hname target

theorem splits_merge (track : String → τ) (rules : List OverrideRule) (origin : Coordinate)
    (target source : List Extension) :
    Splits (Roster.restrict track) (merge rules origin target source) fun t =>
      merge rules origin (Roster.restrict track t target) (Roster.restrict track t source) := by
  refine splits_each_restrict (k := Roster.restrict track) track ?_ ?_ target source
  · exact fun target e t he => mergeOne_restrict he target
  · exact fun target e t he => restrict_mergeOne_of_ne he target

end Extensions

theorem Feature.splits_mergeContent (ctx : MergeContext) (mode : MergeMode)
    (source target : Feature) :
    Splits (Feature.restrict track) (mergeContent ctx mode source target) fun t =>
      mergeContent ctx mode (source.restrict track t) (target.restrict track t) := by
  refine Splits.andThen (.of_eq fun t => rfl) fun target => ?_
  refine Splits.andThen (.of_eq fun t => rfl) fun target => ?_
  refine Splits.andThen (.of_eq fun t => rfl) fun target => ?_
  refine Splits.andThen (.of_eq fun t => rfl) fun target => ?_
  exact .of_eq fun t => rfl

theorem Draft.splits_merge {ctx : MergeContext} (hctx : ctx.mergeHandlers = []) (mode : MergeMode)
    (source : Feature) (d : Draft) :
    Splits (Draft.restrict track) (d.merge ctx mode source) fun t =>
      (d.restrict track t).merge ctx mode (source.restrict track t) := by
  refine Splits.andThen ?_ fun d => ?_
  · exact (Feature.splits_mergeContent track ctx mode source d.feature).map fun _ _ => rfl
  · simp only [mergeExtensions_eq hctx]
    exact (Extensions.splits_merge track _ _ _ _).map fun _ _ => rfl

/-! Leaving out and building. -/

namespace Feature
variable (heir : Coordinate) (f : Feature)

section
omit [Nonempty τ]
variable (t : τ)

theorem removeBundle_restrict (id : Coordinate) :
    removeBundle heir (f.restrict track t) id = (removeBundle heir f id).map (restrict track t) := by
  simp only [removeBundle, restrict, orMissing]
  split <;> rfl

theorem removeConfiguration_restrict (entry : String) :
    removeConfiguration heir (f.restrict track t) entry =
      (removeConfiguration heir f entry).map (restrict track t) := by
  unfold removeConfiguration
  split
  · rw [apply_ite (Outcome.map (restrict track t))]
    rfl
  · have hconfigurations : (f.restrict track t).configurations = f.configurations := rfl
    rw [hconfigurations]
    cases Roster.find? f.configurations _ with
    | none => rfl
    | some c =>
      rw [apply_ite (Outcome.map (restrict track t))]
      rfl

theorem foldl_restrict {step : Feature → String → Feature}
    (h : ∀ f name, step (f.restrict track t) name = (step f name).restrict track t) (f : Feature)
    (names : List String) :
    names.foldl step (f.restrict track t) = (names.foldl step f).restrict track t :=
  List.foldl_hom (restrict track t) h

theorem removeExtension_restrict (name : String) :
    removeExtension (f.restrict track t) name = (removeExtension f name).restrict track t := by
  simp only [removeExtension, restrict, Roster.restrict_remove]

theorem removeRequirement_restrict (d : Descriptor) :
    removeRequirement heir (f.restrict track t) d =
      (removeRequirement heir f d).map (restrict track t) := by
  rw [removeRequirement, removeRequirement, apply_ite (Outcome.map (restrict track t))]
  rfl

theorem removeCapability_restrict (d : Descriptor) :
    removeCapability heir (f.restrict track t) d =
      (removeCapability heir f d).map (restrict track t) := by
  rw [removeCapability, removeCapability, apply_ite (Outcome.map (restrict track t))]
  rfl

variable {track t}

theorem setArtifacts_restrict (name : String) (l : List Artifact) :
    (f.restrict track t).setArtifacts name l = (f.setArtifacts name l).restrict track t := by
  have hname : ∀ e : Extension,
      Keyed.key { e with content := .artifacts l } = (Keyed.key e : String) := fun _ => rfl
  simp only [setArtifacts, restrict, Roster.restrict_adjust track t _ _ hname]

theorem removeExtensionArtifacts_restrict {entry : String × List Coordinate}
    (h : track entry.1 = t) :
    removeExtensionArtifacts heir (f.restrict track t) entry =
      (removeExtensionArtifacts heir f entry).map (restrict track t) := by
  have hfind : Extensions.artifacts? (f.restrict track t).extensions entry.1 =
      Extensions.artifacts? f.extensions entry.1 :=
    congrArg (Option.bind · Extension.artifacts?) (Roster.find?_restrict h f.extensions)
  rw [removeExtensionArtifacts, removeExtensionArtifacts, hfind]
  split
  · rfl
  · exact congrArg (Outcome.mk · _) (setArtifacts_restrict f entry.1 _)

theorem restrict_removeExtensionArtifacts_of_ne {entry : String × List Coordinate}
    (h : track entry.1 ≠ t) :
    (removeExtensionArtifacts heir f entry).value.restrict track t = f.restrict track t := by
  unfold removeExtensionArtifacts
  split
  · rfl
  · have hnot : entry.1 ∉ Roster.keys (f.restrict track t).extensions :=
      Roster.not_mem_keys_restrict h f.extensions
    rw [value_map, ← setArtifacts_restrict, setArtifacts, Roster.adjust_of_not_mem hnot]

end

theorem splits_removeExtensionArtifacts (entries : Table (List Coordinate)) :
    Splits (restrict track) (each (removeExtensionArtifacts heir) f entries) fun t =>
      each (removeExtensionArtifacts heir) (f.restrict track t)
        (Roster.restrict track t entries) := by
  refine splits_each_restrict (k := restrict track) track ?_ ?_ f entries
  · exact fun f entry t ht => removeExtensionArtifacts_restrict heir f ht
  · exact fun f entry t ht => restrict_removeExtensionArtifacts_of_ne heir f ht

theorem splits_withoutRemovals (p : Prototype) :
    Splits (restrict track) (f.withoutRemovals heir p) fun t =>
      (f.restrict track t).withoutRemovals heir (p.restrict track t) := by
  refine Splits.andThen ?_ fun f => Splits.andThen ?_ fun f => Splits.andThen ?_ fun f =>
    Splits.andThen ?_ fun f => ?_
  · exact .each (fun f id _ => .of_eq fun t => removeBundle_restrict track heir f t id) f
  · exact .each
      (fun f entry _ => .of_eq fun t => removeConfiguration_restrict track heir f t entry) f
  · have hremoved : ∀ t, p.extensions.foldl removeExtension
        (p.frameworkProperties.foldl removeFrameworkProperty (f.restrict track t)) =
        (p.extensions.foldl removeExtension
          (p.frameworkProperties.foldl removeFrameworkProperty f)).restrict track t := by
      intro t
      rw [foldl_restrict track t fun _ _ => rfl,
        foldl_restrict track t fun f name => removeExtension_restrict track f t name]
    have hsplits := splits_removeExtensionArtifacts track heir
      (p.extensions.foldl removeExtension
        (p.frameworkProperties.foldl removeFrameworkProperty f)) p.artifactExtensions
    simp only [← hremoved] at hsplits
    exact hsplits
  · exact .each (fun f d _ => .of_eq fun t => removeRequirement_restrict track heir f t d) f
  · exact .each (fun f d _ => .of_eq fun t => removeCapability_restrict track heir f t d) f

end Feature

section
variable {ctx : MergeContext} (hctx : ctx.mergeHandlers = [])
include hctx

theorem Draft.splits_layer (f : Feature) (d : Draft) :
    Splits (restrict track) (layer ctx f d) fun t =>
      layer ctx (f.restrict track t) (d.restrict track t) := by
  refine Splits.andThen ((splits_merge track hctx .layer _ d).mapFault _) fun d => ?_
  refine .of_eq fun t => ?_
  have hstamped := Roster.restrict_map track t (f := fun e : Extension => e.stamped f.id)
    (fun e => Extension.name_stamped e f.id) d.feature.extensions
  simp only [map_done, Draft.mapFeature, Feature.stamped, Feature.inheritAbout, Draft.restrict,
    Feature.restrict, hstamped]

theorem Draft.splits_inherit (heir : Feature) (p : Prototype) (base : Draft) :
    Splits (restrict track) (inherit ctx heir p base) fun t =>
      inherit ctx (heir.restrict track t) (p.restrict track t) (base.restrict track t) := by
  refine Splits.andThen ?_ fun base => ?_
  · exact (Feature.splits_withoutRemovals track heir.id base.feature p).map fun _ _ => rfl
  refine Splits.andThen ?_ fun d => .of_eq fun t => rfl
  exact (splits_merge track hctx .aggregate _ ⟨Feature.ofId heir.id, base.notes⟩).mapFault _

theorem Lineage.splits_build (notes : List String) (l : Lineage) :
    Splits (Draft.restrict track) (l.build ctx notes) fun t =>
      (l.restrict track t).build ctx notes := by
  induction l with
  | assembled f => exact .of_eq fun t => rfl
  | root f => exact Draft.splits_layer track hctx f ⟨Feature.ofId f.id, notes⟩
  | heir f p base ih =>
    refine Splits.andThen (ih.andThen fun d => ?_) fun d => Draft.splits_layer track hctx f d
    exact Draft.splits_inherit track hctx f p d

end

end
end FeatureAssembly
