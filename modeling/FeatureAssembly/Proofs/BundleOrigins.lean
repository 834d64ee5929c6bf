import FeatureAssembly.Proofs.Beside
import FeatureAssembly.Proofs.Provenance

/-! Where the bundles of an assembled feature come from, exactly. If the features of a line record no
origins themselves, each bundle of the result has as its origins the features of the line that declare
its coordinate, from the far end on, although on the way it may have met other versions and aliases. -/

namespace FeatureAssembly
open Outcome

/-- The smallest start order among some, of which those that are 0 do not count. -/
def IsFirstStart (starts : List Nat) (n : Nat) : Prop :=
  (n = 0 ∧ ∀ m ∈ starts, m = 0) ∨ (n ≠ 0 ∧ n ∈ starts ∧ ∀ m ∈ starts, m ≠ 0 → n ≤ m)

theorem isFirstStart_singleton (n : Nat) : IsFirstStart [n] n := by
  simp [IsFirstStart]
  omega

theorem IsFirstStart.append {starts : List Nat} {m : Nat} (h : IsFirstStart starts m) (n : Nat) :
    IsFirstStart (starts ++ [n]) (minStartOrder m n) := by
  unfold IsFirstStart minStartOrder at *
  simp only [List.mem_append, List.mem_singleton]
  grind

/-- The declarations of a bundle by the features of a line, which begins with its nearest feature:
those of the far end come first, each with the id of its feature. -/
def declarations (fs : List Feature) (id : Coordinate) : List (Coordinate × Artifact) :=
  fs.reverse.filterMap fun g => (Roster.find? g.bundles id).map fun a => (g.id, a)

theorem declarations_cons (f : Feature) (fs : List Feature) (id : Coordinate) :
    declarations (f :: fs) id =
      declarations fs id ++ ((Roster.find? f.bundles id).map fun a => (f.id, a)).toList := by
  rw [declarations, List.reverse_cons, List.filterMap_append]
  cases hfound : Roster.find? f.bundles id <;> simp [declarations, hfound]

theorem origins_declarations_sublist (fs : List Feature) (id : Coordinate) :
    ((declarations fs id).map Prod.fst).Sublist (fs.reverse.map Feature.id) := by
  unfold declarations
  induction fs.reverse with
  | nil => exact List.Sublist.refl []
  | cons g gs ih =>
    rw [List.filterMap_cons]
    cases Roster.find? g.bundles id with
    | none => exact ih.cons g.id
    | some a => exact ih.cons_cons g.id

/-- A bundle that unites declarations: of all it has the origins and the first start order, of the
first one the aliases and the metadata. -/
structure Artifact.Unites (ds : List (Coordinate × Artifact)) (a : Artifact) : Prop where
  origins : a.origins = addAllNew [] (ds.map Prod.fst)
  startOrder : IsFirstStart (ds.map fun d => d.2.startOrder) a.startOrder
  first : ∃ d, ds.head? = some d ∧ a.aliases = d.2.aliases ∧ a.metadata = d.2.metadata

namespace Artifact.Unites
variable {ds : List (Coordinate × Artifact)} {a i : Artifact}

theorem origins_ne_nil (h : a.Unites ds) : a.origins ≠ [] := by
  obtain ⟨d, hd, -⟩ := h.first
  have hmem : d.1 ∈ a.origins := by
    rw [h.origins, mem_addAllNew]
    exact .inr (List.mem_map_of_mem (List.mem_of_mem_head? hd))
  exact List.ne_nil_of_mem hmem

theorem singleton (hi : i.origins = []) (origin : Coordinate) :
    (i.stamped origin).Unites [(origin, i)] := by
  rw [Artifact.stamped, if_pos hi]
  exact ⟨rfl, isFirstStart_singleton i.startOrder, (origin, i), rfl, rfl, rfl⟩

theorem combine (h : a.Unites ds) (hi : i.origins = []) (origin : Coordinate) :
    (a.combine a (i.stamped origin)).Unites (ds ++ [(origin, i)]) := by
  have hstamped : i.stamped origin = { i with origins := [origin] } := if_pos hi
  have hnodup : a.origins.Nodup := by
    rw [h.origins]
    exact nodup_addAllNew List.nodup_nil _
  obtain ⟨d, hd, haliases, hmetadata⟩ := h.first
  rw [hstamped]
  refine ⟨?_, ?_, d, ?_, haliases, hmetadata⟩
  · have horigins : addAllNew [] a.origins = a.origins := addAllNew_of_nodup hnodup
    rw [Artifact.combine, List.map_append, addAllNew_append, addAllNew_append, horigins, h.origins]
    rfl
  · rw [List.map_append]
    exact h.startOrder.append i.startOrder
  · rw [List.head?_append, hd, Option.some_or]

end Artifact.Unites

def Traces (ds : List (Coordinate × Artifact)) : Option Artifact → Prop
  | none => ds = []
  | some a => a.Unites ds

def Feature.TracesBundles (fs : List Feature) (r : Feature) : Prop :=
  ∀ id, Traces (declarations fs id) (Roster.find? r.bundles id)

def Feature.OffersBundles (fs : List Feature) (r : Feature) : Prop :=
  ∀ id, Traces (declarations fs id) ((Roster.find? r.bundles id).map fun a => a.stamped r.id)

theorem Traces.map_stamped {ds : List (Coordinate × Artifact)} {o : Option Artifact}
    (h : Traces ds o) (origin : Coordinate) : Traces ds (o.map fun a => a.stamped origin) := by
  cases o with
  | none => exact h
  | some a =>
    have hunites : a.Unites ds := h
    rw [Option.map_some, Artifact.stamped_of_ne_nil hunites.origins_ne_nil]
    exact h

theorem Feature.TracesBundles.offers {fs : List Feature} {r : Feature} (h : r.TracesBundles fs) :
    r.OffersBundles fs := fun id => (h id).map_stamped r.id

theorem Traces.append {ds : List (Coordinate × Artifact)} {o : Option Artifact} (h : Traces ds o)
    {i : Artifact} (hi : i.origins = []) (origin : Coordinate) :
    Traces (ds ++ [(origin, i)])
      (some ((o.map fun e => e.combine e (i.stamped origin)).getD (i.stamped origin))) := by
  cases o with
  | none =>
    have hnone : ds = [] := h
    rw [hnone]
    exact Artifact.Unites.singleton hi origin
  | some e =>
    have hunites : e.Unites ds := h
    exact hunites.combine hi origin

theorem Artifacts.find?_allBeside {target source : List Artifact} (ht : Roster.Distinct target)
    (hs : Roster.Distinct source) (origin id : Coordinate) :
    Roster.find? (allBeside origin target source) id =
      (Roster.find? source id).elim (Roster.find? target id) fun i =>
        some (((Roster.find? target id).map fun e => e.combine e (i.stamped origin)).getD
          (i.stamped origin)) := by
  induction source generalizing target with
  | nil => rfl
  | cons a source ih =>
    have hrest : Roster.Distinct source := (List.nodup_cons.mp hs).2
    have hstep := find?_beside ht (a.stamped origin) id
    rw [Artifact.id_stamped] at hstep
    have hunfold : allBeside origin target (a :: source) =
        allBeside origin (beside target (a.stamped origin)) source := rfl
    rw [hunfold, ih (distinct_beside ht _) hrest, hstep, Roster.find?, Artifact.key_eq]
    by_cases hid : a.id = id
    · have hnone : Roster.find? source id = none :=
        Roster.find?_eq_none_iff.mpr (hid ▸ (List.nodup_cons.mp hs).1)
      rw [hnone, if_pos hid, if_pos hid, hid]
      rfl
    · rw [if_neg hid, if_neg hid]

namespace Feature
variable {fs : List Feature} {upper lower r : Feature}

theorem TracesBundles.layering (h : lower.TracesBundles fs) (hlower : Roster.Distinct lower.bundles)
    (hupper : Roster.Distinct upper.bundles) (hplain : ∀ a ∈ upper.bundles, a.origins = [])
    (hr : upper.IsLayering lower r) : r.TracesBundles (upper :: fs) := by
  intro id
  rw [hr.bundles, Artifacts.find?_allBeside hlower hupper, declarations_cons]
  cases hfound : Roster.find? upper.bundles id with
  | none =>
    simp only [Option.map_none, Option.toList_none, List.append_nil, Option.elim_none]
    exact h id
  | some i =>
    exact (h id).append (hplain i (Roster.mem_of_find? hfound)) upper.id

theorem TracesBundles.stamped (h : r.TracesBundles fs) (origin : Coordinate) :
    (r.stamped origin).TracesBundles fs := by
  intro id
  have hbundles : (r.stamped origin).bundles = r.bundles.map fun a => a.stamped origin := rfl
  rw [hbundles, Roster.find?_map fun a => Artifact.id_stamped a origin]
  exact (h id).map_stamped origin

theorem offersBundles_singleton {f : Feature} (hplain : ∀ a ∈ f.bundles, a.origins = []) :
    f.OffersBundles [f] := by
  intro id
  rw [declarations_cons]
  cases hfound : Roster.find? f.bundles id with
  | none => exact rfl
  | some a =>
    exact Artifact.Unites.singleton (hplain a (Roster.mem_of_find? hfound)) f.id

theorem tracesBundles_nil (id : Coordinate) : (ofId id).TracesBundles [] := fun _ => rfl

theorem OffersBundles.copyInto (h : r.OffersBundles fs) (hr : Roster.Distinct r.bundles)
    (ctx : MergeContext) (id : Coordinate) : (r.copyInto ctx id).TracesBundles fs := by
  intro k
  have hbundles : (r.copyInto ctx id).bundles = Artifacts.allBeside r.id [] r.bundles := rfl
  rw [hbundles, Artifacts.find?_allBeside Roster.distinct_nil hr]
  have hk := h k
  cases hfound : Roster.find? r.bundles k with
  | none =>
    rw [hfound] at hk
    exact hk
  | some i =>
    rw [hfound] at hk
    exact hk

end Feature

section
variable {ctx : MergeContext} (hctx : ctx.mergeHandlers = [])
include hctx

theorem Draft.tracesBundles_layer {fs : List Feature} {f : Feature} {d r : Draft}
    (hd : d.feature.TracesBundles fs) (hdistinct : d.feature.Distinct) (hf : f.Distinct)
    (hplain : ∀ a ∈ f.bundles, a.origins = []) (h : layer ctx f d = done r) :
    r.feature.TracesBundles (f :: fs) := by
  obtain ⟨t, ht, hr⟩ := layer_eq_done hctx h
  have htraces := hd.layering hdistinct.bundles hf.bundles hplain ht
  have hinherited : (t.inheritAbout f).TracesBundles (f :: fs) := htraces
  rw [hr]
  exact hinherited.stamped f.id

theorem Draft.tracesBundles_inherit {fs : List Feature} {heir : Feature} {p : Prototype}
    {base d : Draft} (hp : p.bundles = []) (hdistinct : base.feature.Distinct)
    (hbase : base.feature.OffersBundles fs) (h : inherit ctx heir p base = done d) :
    d.feature.TracesBundles fs := by
  obtain ⟨rest, t, hrest, ht, hd⟩ := inherit_eq_done h
  obtain rfl : (base.feature.withoutRemovals heir.id p).value = rest := (eq_done_iff.mp hrest).1
  have hrdistinct := Feature.distinct_withoutRemovals hdistinct heir.id p
  obtain ⟨hid, hbundles⟩ := Feature.rest_withoutRemovals base.feature heir.id p
  have hoffers : (base.feature.withoutRemovals heir.id p).value.OffersBundles fs := by
    unfold Feature.OffersBundles
    rw [hid, hbundles hp]
    exact hbase
  rw [mergeOrFail_into_empty hctx hrdistinct] at ht
  obtain rfl := (eq_done_iff.mp ht).1
  rw [hd]
  exact hoffers.copyInto hrdistinct.bundles ctx heir.id

theorem Lineage.Follows.offersBundles_build {c : Catalogue} {f : Feature} {l : Lineage}
    (h : Follows c f l) (hdistinct : ∀ g ∈ l.features, g.Distinct)
    (hplain : ∀ g ∈ l.features, ∀ a ∈ g.bundles, a.origins = [])
    (hkeep : ∀ g ∈ l.features, g.isAssembled = false → ∀ p, g.prototype = some p → p.bundles = [])
    {notes : List String} {d : Draft} (hd : l.build ctx notes = done d) :
    d.feature.OffersBundles l.features ∧
      (f.isAssembled = false → d.feature.TracesBundles l.features) := by
  induction h generalizing d with
  | @assembled f hassembled =>
    rw [← (eq_done_iff.mp hd).1]
    refine ⟨Feature.offersBundles_singleton (hplain f (List.mem_singleton_self _)), fun hf => ?_⟩
    rw [hassembled] at hf
    cases hf
  | @root f =>
    have htraces := Draft.tracesBundles_layer hctx (Feature.tracesBundles_nil f.id)
      (Feature.distinct_ofId f.id) (hdistinct f (List.mem_singleton_self _))
      (hplain f (List.mem_singleton_self _)) hd
    exact ⟨htraces.offers, fun _ => htraces⟩
  | @heir f p g base hf hp hg further ih =>
    obtain ⟨lower, hlower, hlayer⟩ := andThen_eq_done_iff.mp hd
    obtain ⟨b, hb, hinherit⟩ := andThen_eq_done_iff.mp hlower
    have hfurther := fun g hg => hdistinct g (List.mem_cons_of_mem _ hg)
    obtain ⟨hbase, -⟩ := ih hfurther (fun g hg => hplain g (List.mem_cons_of_mem _ hg))
      (fun g hg => hkeep g (List.mem_cons_of_mem _ hg)) hb
    have hbdistinct := further.distinct_of_build hctx (fun g hg _ => hfurther g hg) hb
    have hldistinct : lower.feature.Distinct := by
      have h := Draft.distinct_inherit hctx hbdistinct f p
      rwa [hinherit] at h
    have htraces := Draft.tracesBundles_layer hctx
      (Draft.tracesBundles_inherit hctx (hkeep f (List.mem_cons_self ..) hf p hp) hbdistinct hbase
        hinherit)
      hldistinct (hdistinct f (List.mem_cons_self ..)) (hplain f (List.mem_cons_self ..)) hlayer
    exact ⟨htraces.offers, fun _ => htraces⟩

end

/-- Without handlers every entry of an assembled feature has origins, each once, which the line has or
records. If no bundle of the line records an origin and no reference leaves bundles out, the origins
of a bundle are exactly the features that declare its coordinate, those of the far end first. -/
theorem assemble_provenance {ctx : AssemblyContext} (hmerge : ctx.merge.mergeHandlers = [])
    (hpost : ctx.merge.postHandlers = []) {f : Feature} (hf : f.isAssembled = false)
    {fs : List Feature} (walk : Walk ctx.catalogue [] f fs none)
    (hdistinct : ∀ g ∈ fs, g.Distinct)
    (hnodup : ∀ g ∈ fs, g.All (fun a => a.origins.Nodup) List.Nodup)
    {r : Feature} (hr : (assemble ctx f).result = .ok r) :
    r.All (fun a => Attested fs a.origins) (Attested fs) ∧
      ((∀ g ∈ fs, ∀ a ∈ g.bundles, a.origins = []) →
        (∀ g ∈ fs, g.isAssembled = false → ∀ p, g.prototype = some p → p.bundles = []) →
          ∀ a ∈ r.bundles, a.Unites (declarations fs a.id) ∧
            ((fs.map Feature.id).Nodup → a.origins = (declarations fs a.id).map Prod.fst)) := by
  obtain ⟨l, hl, rfl⟩ := Lineage.exists_ofFeature walk
  have hline := Lineage.follows_of_ofFeature hl
  rw [assemble_of_lineage hf hl] at hr
  obtain ⟨notes, hdone⟩ := Report.result_ofOutcome_eq_ok_iff.mp hr
  obtain ⟨d, hd, hfinish⟩ := andThen_eq_done_iff.mp hdone
  refine ⟨?_, fun hplain hkeep a ha => ?_⟩
  · have hoffered : ∀ g ∈ l.features, (Demand.attested l.features).Offered g :=
      fun g hg => Demand.attested_offered hg (hnodup g hg)
    have hmet := (hline.offered_build hmerge hoffered hd).2 hf
    have hall := Draft.all_finish hpost hmet
    rwa [hfinish] at hall
  · obtain ⟨-, htraces⟩ := hline.offersBundles_build hmerge hdistinct hplain hkeep hd
    rw [Draft.finish_eq_substitute hpost] at hfinish
    obtain ⟨_, _, hsubstituted⟩ := Draft.substitute_eq_done hfinish
    obtain rfl : r = _ := hsubstituted
    have hbdistinct := hline.distinct_of_build hmerge (fun g hg _ => hdistinct g hg) hd
    have hfound : Roster.find? d.feature.bundles a.id = some a :=
      (Roster.find?_eq_some_iff hbdistinct.bundles).mpr ⟨ha, rfl⟩
    have hunites : a.Unites (declarations l.features a.id) := by
      have htraced := htraces hf a.id
      rwa [hfound] at htraced
    refine ⟨hunites, fun hids => ?_⟩
    have hreverse : (l.features.reverse.map Feature.id).Nodup := by
      rwa [List.map_reverse, List.nodup_reverse]
    rw [hunites.origins]
    exact addAllNew_of_nodup ((origins_declarations_sublist l.features a.id).nodup hreverse)

namespace Sample

def stocked (f : Feature) (bundles : List Artifact) : Feature := { f with bundles }

theorem distinct_stocked {f : Feature} (hf : f.Distinct) {bundles : List Artifact}
    (h : (Roster.keys bundles).Nodup) : (stocked f bundles).Distinct := { hf with bundles := h }

def basis : Feature :=
  stocked (Feature.ofId (id "c")) [{ lib "1" [] with startOrder := 5 }, lib "2" []]

def extended : Feature := stocked (heir "b" "c") [{ lib "2" [] with startOrder := 3 }]

def top : Feature := stocked (heir "a" "b") [{ lib "1" [] with startOrder := 7 }, lib "3" []]

theorem walk_top : Walk (context [extended, basis]).catalogue [] top [top, extended, basis] none :=
  .step rfl (by decide) rfl rfl rfl <| .step rfl (by decide) rfl rfl rfl <|
    .root rfl (by decide) rfl

theorem follows_top : Lineage.Follows (context [extended, basis]).catalogue top
    (.heir top (.ofId (id "b")) <| .heir extended (.ofId (id "c")) (.root basis)) :=
  .heir rfl rfl rfl <| .heir rfl rfl rfl <| .root rfl rfl

end Sample

theorem assemble_top_provenance : ∃ r,
    (assemble (Sample.context [Sample.extended, Sample.basis]) Sample.top).result = .ok r ∧
      r.bundles.map (fun a => (a.id.version, a.origins, a.startOrder)) =
        [("1", [Sample.id "c", Sample.id "a"], 5), ("2", [Sample.id "c", Sample.id "b"], 3),
          ("3", [Sample.id "a"], 0)] ∧
      ∀ a ∈ r.bundles,
        a.Unites (declarations [Sample.top, Sample.extended, Sample.basis] a.id) := by
  obtain ⟨r, hr, hbundles⟩ : ∃ r,
      (assemble (Sample.context [Sample.extended, Sample.basis]) Sample.top).result = .ok r ∧
        r.bundles.map (fun a => (a.id.version, a.origins, a.startOrder)) =
          [("1", [Sample.id "c", Sample.id "a"], 5), ("2", [Sample.id "c", Sample.id "b"], 3),
            ("3", [Sample.id "a"], 0)] := by
    rw [assemble_of_lineage rfl (Lineage.ofFeature_eq_ok Sample.walk_top Sample.follows_top)]
    exact ⟨_, rfl, rfl⟩
  have hdistinct : ∀ g ∈ [Sample.top, Sample.extended, Sample.basis], g.Distinct := by
    simp only [List.forall_mem_cons, List.not_mem_nil, false_implies, implies_true, and_true]
    exact ⟨Sample.distinct_stocked (Sample.distinct_heir ..) (by decide),
      Sample.distinct_stocked (Sample.distinct_heir ..) (by decide),
      Sample.distinct_stocked (Feature.distinct_ofId _) (by decide)⟩
  have hnodup : ∀ g ∈ [Sample.top, Sample.extended, Sample.basis],
      g.All (fun a => a.origins.Nodup) List.Nodup := by
    have hempty := Feature.all_ofId (fun a => a.origins.Nodup) List.Nodup
    simp only [List.forall_mem_cons, List.not_mem_nil, false_implies, implies_true, and_true]
    exact ⟨{ hempty (Sample.id "a") with bundles := by decide },
      { hempty (Sample.id "b") with bundles := by decide },
      { hempty (Sample.id "c") with bundles := by decide }⟩
  have hplain : ∀ g ∈ [Sample.top, Sample.extended, Sample.basis], ∀ a ∈ g.bundles,
      a.origins = [] := by decide
  have hkeep : ∀ g ∈ [Sample.top, Sample.extended, Sample.basis], g.isAssembled = false →
      ∀ p, g.prototype = some p → p.bundles = [] := by
    simp only [List.forall_mem_cons, List.not_mem_nil, false_implies, implies_true, and_true]
    refine ⟨fun _ p hp => Option.some.inj hp ▸ rfl, fun _ p hp => Option.some.inj hp ▸ rfl, ?_⟩
    rintro - p ⟨⟩
  obtain ⟨-, hexact⟩ := assemble_provenance rfl rfl rfl Sample.walk_top hdistinct hnodup hr
  exact ⟨r, hr, hbundles, fun a ha => (hexact hplain hkeep a ha).1⟩

end FeatureAssembly
