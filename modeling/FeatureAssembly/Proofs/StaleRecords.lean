import FeatureAssembly.Proofs.Contributors
import FeatureAssembly.Proofs.Tracks

/-! Records that participants bring along from when they were made as aggregates. The new aggregate
writes its own record, but before that it merges the old ones as any other extensions of their name.
That name is a track of its own: they can make the aggregate fail, but not change it. -/

namespace FeatureAssembly
open Outcome

namespace Features
variable {change : Feature → Feature} (hid : ∀ f, (change f).id = f.id)
include hid

theorem keepHighest_map (kept : List Feature) (f : Feature) :
    keepHighest (kept.map change) (change f) = (keepHighest kept f).map change := by
  induction kept with
  | nil => rfl
  | cons k kept ih =>
    rw [List.map_cons, keepHighest, keepHighest, hid, hid, ih, apply_ite (List.map change)]
    split
    · split <;> rfl
    · rfl

theorem deduplicate_map (fs : List Feature) :
    deduplicate (fs.map change) = (deduplicate fs).map change := by
  have hfold : ∀ kept : List Feature, (fs.map change).foldl keepHighest (kept.map change) =
      (fs.foldl keepHighest kept).map change := by
    induction fs with
    | nil => exact fun _ => rfl
    | cons f fs ih =>
      intro kept
      rw [List.map_cons, List.foldl_cons, keepHighest_map hid, ih]
      rfl
  exact hfold []

end Features

section
variable {τ : Type} [DecidableEq τ] (track : String → τ) (t : τ)

def AssemblyContext.restrict (ctx : AssemblyContext) : AssemblyContext :=
  { ctx with catalogue := ctx.catalogue.restrict track t }

theorem Draft.prototype_merge {ctx : MergeContext} (hctx : ctx.mergeHandlers = [])
    (mode : MergeMode) (source : Feature) (d : Draft) :
    (d.merge ctx mode source).value.feature.prototype = d.feature.prototype := by
  refine andThen_keeps (P := fun t : Draft => t.feature.prototype = d.feature.prototype)
    (Feature.mergeContent_keeps (fun _ _ _ _ _ _ _ => rfl) ..) fun t ht => ?_
  rw [mergeExtensions_eq hctx]
  exact ht

theorem Feature.unsubstituted_restrict : Unsubstituted (restrict track t) :=
  ⟨fun _ => rfl, fun _ => rfl, fun _ => rfl, fun _ _ _ => rfl⟩

namespace Aggregate

def Batch.restrict (b : Batch) : Batch :=
  { b with assembled := b.assembled.map (Feature.restrict track t) }

theorem Batch.contributors_restrict (b : Batch) :
    (b.restrict track t).contributors = b.contributors.map (Feature.restrict track t) := by
  unfold contributors restrict
  rw [List.filter_map]
  rfl

theorem localFirst_restrict (participants : List Feature) (c : Catalogue) :
    localFirst (participants.map (Feature.restrict track t)) (c.restrict track t) =
      (localFirst participants c).restrict track t := by
  simp only [localFirst, Catalogue.restrict, List.map_append, List.map_map]
  rfl

theorem unsubstituted_sealWith (contributors : List Feature) :
    Feature.Unsubstituted (sealWith contributors) :=
  ⟨fun _ => rfl, fun _ => rfl, fun _ => rfl, fun _ _ _ => rfl⟩

theorem sealWith_map_restrict (contributors : List Feature) :
    sealWith (contributors.map (Feature.restrict track t)) = sealWith contributors := by
  funext f
  simp only [sealWith, record, List.map_map, List.all_map]
  rfl

end Aggregate
end

/-! An aggregate splits up to its record. -/

namespace Aggregate

def built (ctx : AssemblyContext) (features : List Feature) : Outcome BuildError Batch :=
  each (Batch.build ctx.merge (localFirst (Features.deduplicate features) ctx.catalogue)) .empty
    (Features.deduplicate features)

/-- What the contributors are merged to, with variables substituted: the aggregate but for its record
and its marks. -/
def unsealed (ctx : AssemblyContext) (id : Coordinate) (b : Batch) : Outcome BuildError Draft :=
  (mergeContributors ctx.merge b.contributors ⟨Feature.ofId id, b.notes⟩).andThen
    (Draft.substitute ctx)

structure Makes (ctx : AssemblyContext) (id : Coordinate) (features : List Feature) (b : Batch)
    (d : Draft) : Prop where
  batch : built ctx features = done b
  draft : unsealed ctx id b = done d

theorem Makes.unique {ctx : AssemblyContext} {id : Coordinate} {features : List Feature}
    {b b' : Batch} {d d' : Draft} (h : Makes ctx id features b d) (h' : Makes ctx id features b' d') :
    b' = b ∧ d' = d := by
  obtain rfl : b' = b := (eq_done_iff.mp (h'.batch.symm.trans h.batch)).1
  exact ⟨rfl, (eq_done_iff.mp (h'.draft.symm.trans h.draft)).1⟩

theorem result_assembleMany_eq_ok_iff {ctx : AssemblyContext} (hpost : ctx.merge.postHandlers = [])
    {id : Coordinate} {features : List Feature} {r : Feature} :
    (assembleMany ctx id features).result = .ok r ↔
      ∃ b d, Makes ctx id features b d ∧ r = sealWith b.contributors d.feature := by
  have hfinish : ∀ (b : Batch) (d : Draft), (d.mapFeature (sealWith b.contributors)).finish ctx =
      (d.substitute ctx).map fun d => d.mapFeature (sealWith b.contributors) := fun b d => by
    rw [Draft.finish_eq_substitute hpost, Draft.substitute_mapFeature (unsubstituted_sealWith _)]
  rw [assembleMany, Report.result_ofOutcome_eq_ok_iff]
  constructor
  · rintro ⟨notes, h⟩
    obtain ⟨b, merged, hb, hmerged, hsealed⟩ := outcome_eq_done h
    rw [hfinish] at hsealed
    obtain ⟨d, hd, hr⟩ := map_eq_done_iff.mp hsealed
    exact ⟨b, d, ⟨hb, andThen_eq_done_iff.mpr ⟨merged, hmerged, hd⟩⟩,
      (congrArg Draft.feature hr).symm⟩
  · rintro ⟨b, d, h, rfl⟩
    obtain ⟨merged, hmerged, hd⟩ := andThen_eq_done_iff.mp h.draft
    refine ⟨d.notes, ?_⟩
    unfold outcome
    refine chain_eq_done_iff.mpr ⟨b, h.batch, andThen_eq_done_iff.mpr ⟨merged, hmerged, ?_⟩⟩
    rw [hfinish, hd]
    rfl

section
variable {τ : Type} [DecidableEq τ] [Nonempty τ] (track : String → τ)

theorem Batch.splits_build {ctx : MergeContext} (hctx : ctx.mergeHandlers = []) (c : Catalogue)
    (b : Batch) (f : Feature) :
    Splits (restrict track) (build ctx c b f) fun t =>
      build ctx (c.restrict track t) (b.restrict track t) (f.restrict track t) := by
  simp only [build, Lineage.ofFeature_restrict]
  cases Lineage.ofFeature c f with
  | error e => exact .of_eq fun t => rfl
  | ok l =>
    refine (l.splits_build track hctx b.notes).map fun t d => ?_
    simp only [restrict, Lineage.references_restrict, List.map_append]
    rfl

theorem splits_mergeContributors {ctx : MergeContext} (hctx : ctx.mergeHandlers = [])
    (gs : List Feature) (d : Draft) :
    Splits (Draft.restrict track) (mergeContributors ctx gs d) fun t =>
      mergeContributors ctx (gs.map (Feature.restrict track t)) (d.restrict track t) := by
  simp only [mergeContributors, each_map]
  exact .each (fun d g _ => (Draft.splits_merge track hctx .aggregate g d).mapFault _) d

variable {ctx : AssemblyContext} (hmerge : ctx.merge.mergeHandlers = []) {id : Coordinate}
  {features : List Feature}
include hmerge

theorem splits_built (features : List Feature) :
    Splits (Batch.restrict track) (built ctx features) fun t =>
      built (ctx.restrict track t) (features.map (Feature.restrict track t)) := by
  have hparticipants : ∀ t, Features.deduplicate (features.map (Feature.restrict track t)) =
      (Features.deduplicate features).map (Feature.restrict track t) :=
    fun t => Features.deduplicate_map (fun f => Feature.id_restrict track t f) features
  have hcatalogue : ∀ t, (ctx.restrict track t).catalogue = ctx.catalogue.restrict track t :=
    fun _ => rfl
  simp only [built, hparticipants, hcatalogue, localFirst_restrict, each_map]
  exact .each (fun b f _ => Batch.splits_build track hmerge _ b f) .empty

theorem splits_unsealed (id : Coordinate) (b : Batch) :
    Splits (Draft.restrict track) (unsealed ctx id b) fun t =>
      unsealed (ctx.restrict track t) id (b.restrict track t) := by
  simp only [unsealed, Batch.contributors_restrict]
  refine Splits.andThen (splits_mergeContributors track hmerge b.contributors
    ⟨Feature.ofId id, b.notes⟩) fun d => ?_
  exact .of_eq fun t => Draft.substitute_mapFeature (Feature.unsubstituted_restrict track t) d

theorem Makes.restrict {b : Batch} {d : Draft} (h : Makes ctx id features b d) (t : τ) :
    Makes (ctx.restrict track t) id (features.map (Feature.restrict track t)) (b.restrict track t)
      (d.restrict track t) :=
  ⟨(splits_built track hmerge features).part_of_done h.batch t,
    (splits_unsealed track hmerge id b).part_of_done h.draft t⟩

theorem exists_makes_of_restrict
    (h : ∀ t, ∃ b d, Makes (ctx.restrict track t) id (features.map (Feature.restrict track t)) b d) :
    ∃ b d, Makes ctx id features b d := by
  have hbuilt := splits_built track hmerge features
  have hbatch : built ctx features = done (built ctx features).value := by
    refine eq_done_of_fault (hbuilt.fault_eq fun t => ?_)
    obtain ⟨b, d, hpart⟩ := h t
    rw [hpart.batch, fault_done]
  have hunsealed := splits_unsealed track hmerge id (built ctx features).value
  refine ⟨_, _, hbatch, eq_done_of_fault (hunsealed.fault_eq fun t => ?_)⟩
  obtain ⟨b, d, hpart⟩ := h t
  obtain rfl : (built ctx features).value.restrict track t = b :=
    (eq_done_iff.mp ((hbuilt.part_of_done hbatch t).symm.trans hpart.batch)).1
  rw [hpart.draft, fault_done]

end

end Aggregate

def Report.Succeeds (r : Report) : Prop := ∃ f, r.result = .ok f

namespace Aggregate
variable {ctx : AssemblyContext} (hmerge : ctx.merge.mergeHandlers = [])
  (hpost : ctx.merge.postHandlers = []) {id : Coordinate} {features : List Feature}

section
include hpost

theorem succeeds_iff_makes :
    (assembleMany ctx id features).Succeeds ↔ ∃ b d, Makes ctx id features b d := by
  constructor
  · rintro ⟨r, hr⟩
    obtain ⟨b, d, h, -⟩ := (result_assembleMany_eq_ok_iff hpost).mp hr
    exact ⟨b, d, h⟩
  · rintro ⟨b, d, h⟩
    exact ⟨_, (result_assembleMany_eq_ok_iff hpost).mpr ⟨b, d, h, rfl⟩⟩

include hmerge

/-- An aggregate fails only where it would fail with the extensions of some track alone. -/
theorem succeeds_iff_restrict {τ : Type} [DecidableEq τ] [Nonempty τ] (track : String → τ) :
    (assembleMany ctx id features).Succeeds ↔ ∀ t,
      (assembleMany (ctx.restrict track t) id (features.map (Feature.restrict track t))).Succeeds := by
  have hafter : ∀ t, (ctx.restrict track t).merge.postHandlers = [] := fun _ => hpost
  constructor
  · intro h t
    obtain ⟨b, d, h⟩ := (succeeds_iff_makes hpost).mp h
    exact (succeeds_iff_makes (hafter t)).mpr ⟨_, _, h.restrict track hmerge t⟩
  · intro h
    have hparts := fun t => (succeeds_iff_makes (hafter t)).mp (h t)
    exact (succeeds_iff_makes hpost).mpr (exists_makes_of_restrict track hmerge hparts)

end

/-! The track of the records. -/

def isRecord (name : String) : Bool := name = recordName

end Aggregate

def Feature.withoutRecord (f : Feature) : Feature :=
  if f.isAssembled then
    { f with extensions := f.extensions.filter fun e =>
        !(Aggregate.isRecord e.name && e.artifacts?.isSome) }
  else f

theorem Feature.restrict_withoutRecord (f : Feature) :
    f.withoutRecord.restrict Aggregate.isRecord false = f.restrict Aggregate.isRecord false := by
  unfold withoutRecord
  split
  · have hothers : ∀ e : Extension, (decide (Aggregate.isRecord e.name = false) &&
        !(Aggregate.isRecord e.name && e.artifacts?.isSome)) =
          decide (Aggregate.isRecord e.name = false) := by
      intro e
      cases Aggregate.isRecord e.name <;> rfl
    simp only [restrict, Roster.restrict, List.filter_filter, Extension.key_eq, hothers]
  · rfl

structure Feature.LacksRecord (f : Feature) : Prop where
  extensions : Aggregate.recordName ∉ Roster.keys f.extensions
  prototype : ∀ p, f.prototype = some p → Aggregate.recordName ∉ Roster.keys p.artifactExtensions

theorem Feature.LacksRecord.restrict_eq {f : Feature} (h : f.LacksRecord) :
    f.restrict Aggregate.isRecord false = f := by
  have hother : ∀ {names : List String}, Aggregate.recordName ∉ names → ∀ name ∈ names,
      Aggregate.isRecord name = false :=
    fun hnames name hname => decide_eq_false fun heq => hnames (heq ▸ hname)
  have hextensions : Roster.restrict Aggregate.isRecord false f.extensions = f.extensions :=
    Roster.restrict_eq_self _ _ fun e he => hother h.extensions _ (List.mem_map_of_mem he)
  have hprototype : f.prototype.map (Prototype.restrict Aggregate.isRecord false) = f.prototype := by
    cases hp : f.prototype with
    | none => rfl
    | some p =>
      rw [Option.map_some, Prototype.restrict, Roster.restrict_eq_self _ _ fun e he =>
        hother (h.prototype p hp) _ (List.mem_map_of_mem he)]
  rw [restrict, hextensions, hprototype]

/-- Two features that are the same but for the place of the one record that each has among its
extensions. -/
structure Feature.SameButPlaceOfRecord (f g : Feature) : Prop where
  rest : { f with extensions := [] } = { g with extensions := [] }
  others : Roster.restrict Aggregate.isRecord false f.extensions =
    Roster.restrict Aggregate.isRecord false g.extensions
  record : ∃ e, Roster.restrict Aggregate.isRecord true f.extensions = [e] ∧
    Roster.restrict Aggregate.isRecord true g.extensions = [e]

namespace Aggregate

theorem restrict_record_sealWith {f : Feature} (hf : Roster.Distinct f.extensions)
    (contributors : List Feature) :
    Roster.restrict isRecord true (sealWith contributors f).extensions =
      [record contributors] := by
  refine Roster.restrict_eq_singleton (hf.put _) (Roster.mem_of_find? (find?_sealWith ..)) ?_
  intro e _
  exact decide_eq_true_iff

theorem sameButPlaceOfRecord_sealWith {f g : Feature} (hf : Roster.Distinct f.extensions)
    (hg : Roster.Distinct g.extensions) (hfp : f.prototype = none) (hgp : g.prototype = none)
    (hrest : f.restrict isRecord false = g.restrict isRecord false) (contributors : List Feature) :
    (sealWith contributors f).SameButPlaceOfRecord (sealWith contributors g) where
  rest := by
    have hsealed : ∀ f : Feature, f.prototype = none →
        { sealWith contributors f with extensions := [] } =
          { sealWith contributors (f.restrict isRecord false) with extensions := [] } := by
      intro f hp
      simp only [sealWith, Feature.restrict, hp, Option.map_none]
    rw [hsealed f hfp, hsealed g hgp, hrest]
  others := by
    have hne : isRecord (record contributors).name ≠ false := by simp [isRecord, record]
    exact (Roster.restrict_put_of_ne hne f.extensions).trans
      ((congrArg Feature.extensions hrest).trans (Roster.restrict_put_of_ne hne g.extensions).symm)
  record := ⟨_, restrict_record_sealWith hf contributors, restrict_record_sealWith hg contributors⟩

variable {ctx : AssemblyContext} (hmerge : ctx.merge.mergeHandlers = [])
  (hpost : ctx.merge.postHandlers = []) {id : Coordinate} {features : List Feature}
include hmerge

theorem Makes.distinct {b : Batch} {d : Draft} (h : Makes ctx id features b d) :
    Roster.Distinct d.feature.extensions ∧ d.feature.prototype = none := by
  obtain ⟨merged, hmerged, hd⟩ := andThen_eq_done_iff.mp h.draft
  obtain ⟨_, _, hfeature⟩ := Draft.substitute_eq_done hd
  have hkept : (mergeContributors ctx.merge b.contributors
      ⟨Feature.ofId id, b.notes⟩).value.feature.Distinct ∧ (mergeContributors ctx.merge
        b.contributors ⟨Feature.ofId id, b.notes⟩).value.feature.prototype = none := by
    rw [mergeContributors_eq]
    refine each_keeps (P := fun d : Draft => d.feature.Distinct ∧ d.feature.prototype = none)
      (fun d g _ hd => ⟨Draft.distinct_merge hd.1 hmerge .aggregate g, ?_⟩) ?_
    · exact (Draft.prototype_merge hmerge .aggregate g d).trans hd.2
    · exact ⟨Feature.distinct_ofId id, rfl⟩
  rw [hmerged] at hkept
  rw [hfeature]
  exact ⟨hkept.1.extensions, hkept.2⟩

def assembleTrack (ctx : AssemblyContext) (id : Coordinate) (features : List Feature)
    (records : Bool) : Report :=
  assembleMany (ctx.restrict isRecord records) id (features.map (Feature.restrict isRecord records))

omit hmerge in
theorem map_restrict_withoutRecord (features : List Feature) :
    (features.map Feature.withoutRecord).map (Feature.restrict isRecord false) =
      features.map (Feature.restrict isRecord false) := by
  rw [List.map_map]
  exact List.map_congr_left fun f _ => f.restrict_withoutRecord

theorem Makes.sameButPlaceOfRecord {b b' : Batch} {d d' : Draft} (h : Makes ctx id features b d)
    (h' : Makes ctx id (features.map Feature.withoutRecord) b' d') :
    (sealWith b.contributors d.feature).SameButPlaceOfRecord
      (sealWith b'.contributors d'.feature) := by
  -- on the track of the others both are made of the same features
  have hothers := h.restrict isRecord hmerge false
  have hothers' := h'.restrict isRecord hmerge false
  rw [map_restrict_withoutRecord] at hothers'
  obtain ⟨hb, hd⟩ := hothers.unique hothers'
  have hseal : sealWith b'.contributors = sealWith b.contributors := by
    rw [← sealWith_map_restrict isRecord false b'.contributors, ← Batch.contributors_restrict, hb,
      Batch.contributors_restrict, sealWith_map_restrict]
  obtain ⟨hdistinct, hprototype⟩ := h.distinct hmerge
  obtain ⟨hdistinct', hprototype'⟩ := h'.distinct hmerge
  rw [hseal]
  exact sameButPlaceOfRecord_sealWith hdistinct hdistinct' hprototype hprototype'
    (congrArg Draft.feature hd).symm _

omit hmerge in
theorem assembleMany_withoutRecord_eq (hknown : ∀ e ∈ ctx.catalogue, e.2.LacksRecord)
    (hfeatures : ∀ f ∈ features, f.withoutRecord.LacksRecord) :
    assembleMany ctx id (features.map Feature.withoutRecord) =
      assembleTrack ctx id features false := by
  have hcatalogue : ctx.catalogue.restrict isRecord false = ctx.catalogue := by
    have hself : ∀ e ∈ ctx.catalogue, (e.1, e.2.restrict isRecord false) = e :=
      fun e he => by rw [(hknown e he).restrict_eq]
    exact (List.map_congr_left hself).trans (List.map_id' _)
  have hparticipants : features.map Feature.withoutRecord =
      features.map (Feature.restrict isRecord false) := by
    refine List.map_congr_left fun f hf => ?_
    rw [← f.restrict_withoutRecord, (hfeatures f hf).restrict_eq]
  rw [assembleTrack, AssemblyContext.restrict, hcatalogue, hparticipants]

/-- What the records of participants do to an aggregate. Where it succeeds with and without them, they
change nothing but the place of the new record. Whether it succeeds depends on them only through what
becomes of all extensions of their name, and where there are no other ones, it succeeds without the
records if it does with them. -/
structure RecordsOnlyHinder (ctx : AssemblyContext) (id : Coordinate) (features : List Feature) :
    Prop where
  same : ∀ r r', (assembleMany ctx id features).result = .ok r →
    (assembleMany ctx id (features.map Feature.withoutRecord)).result = .ok r' →
      r.SameButPlaceOfRecord r'
  succeeds : (assembleMany ctx id features).Succeeds ↔
    (assembleTrack ctx id features false).Succeeds ∧
      (assembleTrack ctx id features true).Succeeds
  succeeds_without : (assembleMany ctx id (features.map Feature.withoutRecord)).Succeeds ↔
    (assembleTrack ctx id features false).Succeeds ∧
      (assembleTrack ctx id (features.map Feature.withoutRecord) true).Succeeds
  only_hinder : (∀ e ∈ ctx.catalogue, e.2.LacksRecord) →
    (∀ f ∈ features, f.withoutRecord.LacksRecord) → (assembleMany ctx id features).Succeeds →
      (assembleMany ctx id (features.map Feature.withoutRecord)).Succeeds

include hpost

theorem succeeds_iff_tracks (id : Coordinate) (features : List Feature) :
    (assembleMany ctx id features).Succeeds ↔ (assembleTrack ctx id features false).Succeeds ∧
      (assembleTrack ctx id features true).Succeeds :=
  (succeeds_iff_restrict hmerge hpost isRecord).trans Bool.forall_bool

/-- Records of earlier aggregates do not change what an aggregate is, but may keep it from being. -/
theorem stale_records_only_hinder (id : Coordinate) (features : List Feature) :
    RecordsOnlyHinder ctx id features where
  same r r' hr hr' := by
    obtain ⟨b, d, h, rfl⟩ := (result_assembleMany_eq_ok_iff hpost).mp hr
    obtain ⟨b', d', h', rfl⟩ := (result_assembleMany_eq_ok_iff hpost).mp hr'
    exact h.sameButPlaceOfRecord hmerge h'
  succeeds := succeeds_iff_tracks hmerge hpost id features
  succeeds_without := by
    have hothers : assembleTrack ctx id (features.map Feature.withoutRecord) false =
        assembleTrack ctx id features false := by
      rw [assembleTrack, assembleTrack, map_restrict_withoutRecord]
    rw [succeeds_iff_tracks hmerge hpost, hothers]
  only_hinder hknown hfeatures hsucceeds := by
    rw [assembleMany_withoutRecord_eq hknown hfeatures]
    exact ((succeeds_iff_tracks hmerge hpost id features).mp hsucceeds).1

end Aggregate

namespace Sample

def aggregate (name : String) (listed : Coordinate) : Feature :=
  { Feature.ofId (id name) with
    extensions := [⟨Aggregate.recordName, .transient, .artifacts [.ofId listed]⟩]
    isAssembled := true }

def noted (f : Feature) : Feature :=
  { f with extensions := f.extensions ++ [⟨"notes", .optional, .text "n"⟩] }

end Sample

namespace Aggregate

theorem assembleMany_moves_record : ∃ r r',
    (assembleMany (Sample.context []) (Sample.id "all")
      [Sample.noted (Sample.aggregate "a" (Sample.id "c")),
        Sample.aggregate "b" (Sample.id "d")]).result = .ok r ∧
    (assembleMany (Sample.context []) (Sample.id "all")
      ([Sample.noted (Sample.aggregate "a" (Sample.id "c")),
        Sample.aggregate "b" (Sample.id "d")].map Feature.withoutRecord)).result = .ok r' ∧
    r.SameButPlaceOfRecord r' ∧ Roster.keys r.extensions = [recordName, "notes"] ∧
    Roster.keys r'.extensions = ["notes", recordName] := by
  have honly : RecordsOnlyHinder (Sample.context []) (Sample.id "all")
      [Sample.noted (Sample.aggregate "a" (Sample.id "c")), Sample.aggregate "b" (Sample.id "d")] :=
    stale_records_only_hinder rfl rfl _ _
  exact ⟨_, _, rfl, rfl, honly.same _ _ rfl rfl, rfl, rfl⟩

/-- Two records that list different versions of a feature clash, although neither is in the result. -/
theorem assembleMany_clashes_over_records :
    (assembleMany (Sample.context []) (Sample.id "all")
      [Sample.aggregate "a" { Sample.id "c" with version := "1" },
        Sample.aggregate "b" { Sample.id "c" with version := "2" }]).result =
      .error (.merge (.artifactClash { Sample.id "c" with version := "1" }
        { Sample.id "c" with version := "2" })) ∧
    (assembleMany (Sample.context []) (Sample.id "all")
      ([Sample.aggregate "a" { Sample.id "c" with version := "1" },
        Sample.aggregate "b" { Sample.id "c" with version := "2" }].map
          Feature.withoutRecord)).Succeeds :=
  ⟨rfl, _, rfl⟩

end Aggregate
end FeatureAssembly
