import FeatureAssembly.Proofs.Marks
import FeatureAssembly.Proofs.StructuralErrors
import Mathlib.Data.List.Forall2

/-! Which participants an aggregate merges and records: those that no participant comes to along its
prototypes, wherever it stands among them. -/

namespace FeatureAssembly
open Outcome

namespace Roster
variable {α κ : Type} [Keyed α κ] [DecidableEq κ]

theorem ofList_of_distinct {l : List α} (h : Distinct l) : ofList l = l := by
  have hrun : each (fun t x => (done (add t x) : Outcome Empty (List α))) [] l =
      done (l.map fun x => x) := by
    refine each_eq_append_nil (fun _ => rfl) (fun t x hx => ?_) h
    rw [add_of_not_mem hx]
  rw [each_done, List.map_id'] at hrun
  exact (eq_done_iff.mp hrun).1

end Roster

/-! Of several versions of a feature one takes part. -/

namespace Features

def identities (fs : List Feature) : List (String × String × String × Option String) :=
  fs.map fun f => f.id.identity

theorem identities_keepHighest (kept : List Feature) (f : Feature) :
    identities (keepHighest kept f) =
      if f.id.identity ∈ identities kept then identities kept
      else identities kept ++ [f.id.identity] := by
  induction kept with
  | nil => rfl
  | cons k kept ih =>
    by_cases hk : k.id.isSame f.id
    · have hsame : k.id.identity = f.id.identity := Coordinate.isSame_iff.mp hk
      have hmem : f.id.identity ∈ identities (k :: kept) := by
        rw [identities, List.map_cons, hsame]
        exact List.mem_cons_self ..
      rw [keepHighest, if_pos hk, if_pos hmem]
      split
      · exact congrArg (· :: identities kept) hsame.symm
      · rfl
    · have hother : f.id.identity ≠ k.id.identity := fun h => hk (Coordinate.isSame_iff.mpr h.symm)
      have hmem : f.id.identity ∈ identities (k :: kept) ↔ f.id.identity ∈ identities kept :=
        List.mem_cons.trans (or_iff_right hother)
      rw [keepHighest, if_neg hk, if_congr hmem rfl rfl]
      refine (congrArg (k.id.identity :: ·) ih).trans ?_
      split <;> rfl

theorem nodup_identities_deduplicate (fs : List Feature) : (identities (deduplicate fs)).Nodup := by
  have hfold : ∀ kept, (identities kept).Nodup → (identities (fs.foldl keepHighest kept)).Nodup := by
    induction fs with
    | nil => exact fun _ h => h
    | cons f fs ih =>
      intro kept h
      refine ih _ ?_
      rw [identities_keepHighest]
      split
      · exact h
      · next hnew =>
        refine List.nodup_append.mpr ⟨h, List.nodup_singleton _, fun a ha b hb => ?_⟩
        rw [List.mem_singleton.mp hb]
        exact fun hab => hnew (hab ▸ ha)
  exact hfold [] List.nodup_nil

theorem nodup_id_deduplicate (fs : List Feature) : ((deduplicate fs).map Feature.id).Nodup := by
  have h : ((deduplicate fs).map Feature.id).map Coordinate.identity =
      identities (deduplicate fs) := List.map_map
  exact List.Nodup.of_map Coordinate.identity (h ▸ nodup_identities_deduplicate fs)

end Features

namespace Aggregate
variable {ctx : MergeContext} {c : Catalogue}

def Builds (ctx : MergeContext) (c : Catalogue) (f g : Feature) : Prop :=
  ∃ l, Lineage.ofFeature c f = .ok l ∧ l.build ctx [] = done ⟨g, []⟩

theorem Builds.sharesMarks (hctx : ctx.mergeHandlers = []) {f g : Feature}
    (h : Builds ctx c f g) : f.SharesMarks g := by
  obtain ⟨l, hl, hg⟩ := h
  exact (Lineage.follows_of_ofFeature hl).sharesMarks_build hctx hg

theorem Batch.build_eq_done (hctx : ctx.mergeHandlers = []) {b b' : Batch} {f : Feature}
    (hb : b.notes = []) (h : build ctx c b f = done b') :
    ∃ g, Builds ctx c f g ∧ b'.assembled = b.assembled ++ [g] ∧ b'.notes = [] ∧
      ∀ id, id ∈ b'.references ↔ id ∈ b.references ∨ Dereferences c f id := by
  unfold build at h
  cases hl : Lineage.ofFeature c f with
  | error e =>
    rw [hl] at h
    cases (eq_done_iff.mp h).2
  | ok l =>
    rw [hl] at h
    obtain ⟨d, hd, rfl⟩ := map_eq_done_iff.mp h
    rw [hb] at hd
    have hnotes : d.notes = [] := by
      have hkept := Lineage.notes_build hctx [] l
      rwa [hd] at hkept
    have hbuilds : Builds ctx c f d.feature := by
      refine ⟨l, hl, hd.trans ?_⟩
      rw [← hnotes]
    refine ⟨d.feature, hbuilds, rfl, hnotes, fun id => ?_⟩
    rw [List.mem_append, (Lineage.follows_of_ofFeature hl).mem_references_iff]

theorem Batch.each_build_eq_done (hctx : ctx.mergeHandlers = []) {fs : List Feature}
    {b b' : Batch} (hb : b.notes = []) (h : each (build ctx c) b fs = done b') :
    ∃ gs, List.Forall₂ (Builds ctx c) fs gs ∧ b'.assembled = b.assembled ++ gs ∧ b'.notes = [] ∧
      ∀ id, id ∈ b'.references ↔ id ∈ b.references ∨ ∃ f ∈ fs, Dereferences c f id := by
  induction fs generalizing b with
  | nil =>
    rw [← (eq_done_iff.mp h).1]
    exact ⟨[], .nil, (List.append_nil _).symm, hb, by simp⟩
  | cons f fs ih =>
    obtain ⟨m, hm, hrest⟩ := andThen_eq_done_iff.mp h
    obtain ⟨g, hg, hassembled, hnotes, hreferences⟩ := build_eq_done hctx hb hm
    obtain ⟨gs, hgs, hassembled', hnotes', hreferences'⟩ := ih hnotes hrest
    refine ⟨g :: gs, .cons hg hgs, ?_, hnotes', fun id => ?_⟩
    · rw [hassembled', hassembled, List.append_assoc, List.singleton_append]
    · rw [hreferences', hreferences, or_assoc, List.exists_mem_cons_iff]

/-- The participants that no line of a participant comes back to, in their order. -/
structure AreContributors (c : Catalogue) (participants contributors : List Feature) : Prop where
  sublist : contributors.Sublist participants
  mem_iff : ∀ f, f ∈ contributors ↔
    f ∈ participants ∧ ∀ s ∈ participants, ¬ Dereferences c s f.id
  nodup_id : (contributors.map Feature.id).Nodup

theorem Batch.exists_contributors (hctx : ctx.mergeHandlers = []) {fs : List Feature} {b : Batch}
    (hfs : (fs.map Feature.id).Nodup) (h : each (build ctx c) .empty fs = done b) :
    b.notes = [] ∧ ∃ contributors, AreContributors c fs contributors ∧
      List.Forall₂ (Builds ctx c) contributors b.contributors := by
  obtain ⟨gs, hgs, hassembled, hnotes, hreferences⟩ := each_build_eq_done hctx rfl h
  have href : ∀ id, id ∈ b.references ↔ ∃ f ∈ fs, Dereferences c f id :=
    fun id => (hreferences id).trans (or_iff_right List.not_mem_nil)
  refine ⟨hnotes, fs.filter fun f => f.id ∉ b.references, ⟨List.filter_sublist, fun f => ?_, ?_⟩, ?_⟩
  · rw [List.mem_filter, decide_eq_true_iff, href]
    simp only [not_exists, not_and]
  · exact hfs.sublist (List.filter_sublist.map Feature.id)
  · rw [contributors, hassembled]
    refine List.rel_filter (fun f g hfg => ?_) hgs
    have hid : g.id = f.id := (hfg.sharesMarks hctx).id
    simp only [hid]

theorem map_eq_of_forall₂ {α β γ : Type} {R : α → β → Prop} {f : α → γ} {g : β → γ} {as : List α}
    {bs : List β} (hR : ∀ a b, R a b → g b = f a) (h : List.Forall₂ R as bs) :
    bs.map g = as.map f := by
  induction h with
  | nil => rfl
  | cons hab _ ih => rw [List.map_cons, List.map_cons, hR _ _ hab, ih]

theorem sealWith_eq {contributors gs : List Feature}
    (h : List.Forall₂ Feature.SharesMarks contributors gs) : sealWith gs = sealWith contributors := by
  have hid : gs.map (fun g => Artifact.ofId g.id) = contributors.map fun f => Artifact.ofId f.id :=
    map_eq_of_forall₂ (fun f g hfg => congrArg Artifact.ofId hfg.id) h
  have hcomplete : gs.all Feature.isComplete = contributors.all Feature.isComplete := by
    have hmap : gs.map Feature.isComplete = contributors.map Feature.isComplete :=
      map_eq_of_forall₂ (fun f g hfg => hfg.isComplete) h
    have hall := congrArg (fun l => l.all id) hmap
    simpa only [List.all_map, Function.id_comp] using hall
  funext f
  rw [sealWith, sealWith, record, record, hid, hcomplete]

theorem find?_sealWith (contributors : List Feature) (f : Feature) :
    Roster.find? (sealWith contributors f).extensions recordName = some (record contributors) := by
  have hname : Keyed.key (record contributors) = recordName := rfl
  rw [sealWith, Roster.find?_put, if_pos hname]

theorem record_eq {contributors : List Feature} (h : (contributors.map Feature.id).Nodup) :
    record contributors =
      ⟨recordName, .transient, .artifacts (contributors.map fun f => Artifact.ofId f.id)⟩ := by
  have hdistinct : Roster.Distinct (contributors.map fun f => Artifact.ofId f.id) := by
    have hkeys : Roster.keys (contributors.map fun f => Artifact.ofId f.id) =
        contributors.map Feature.id := List.map_map
    rwa [Roster.Distinct, hkeys]
  rw [record, Roster.ofList_of_distinct hdistinct]

end Aggregate

def AssemblyContext.among (ctx : AssemblyContext) (participants : List Feature) : AssemblyContext :=
  { ctx with
    catalogue := Aggregate.localFirst participants ctx.catalogue
    substitutes := false }

theorem Aggregate.Builds.result_assemble_among {ctx : AssemblyContext} {participants : List Feature}
    (hpost : ctx.merge.postHandlers = []) {f g : Feature}
    (h : Builds ctx.merge (localFirst participants ctx.catalogue) f g) :
    (assemble (ctx.among participants) f).result = .ok g := by
  obtain ⟨l, hl, hg⟩ := h
  cases hf : f.isAssembled with
  | true =>
    rw [Lineage.ofFeature, if_pos hf] at hl
    cases hl
    rw [assemble, if_pos hf]
    exact congrArg (fun d : Draft => Except.ok d.feature) (eq_done_iff.mp hg).1
  | false =>
    have hbuild : l.build (ctx.among participants).merge [] = done ⟨g, []⟩ := hg
    have hafter : (ctx.among participants).merge.postHandlers = [] := hpost
    rw [assemble_of_lineage hf hl, hbuild, done_andThen, Draft.finish_eq_substitute hafter,
      Draft.substitute_of_not_substitutes rfl]
    rfl

namespace Aggregate

def mergeEach (ctx : MergeContext) (gs : List Feature) (d : Draft) : Outcome MergeError Draft :=
  each (fun d g => Draft.merge ctx .aggregate g d) d gs

theorem mergeContributors_eq (ctx : MergeContext) (gs : List Feature) (d : Draft) :
    mergeContributors ctx gs d = (mergeEach ctx gs d).mapFault .merge := each_mapFault ..

theorem id_mergeContributors {ctx : MergeContext} (hctx : ctx.mergeHandlers = [])
    (gs : List Feature) (d : Draft) :
    (mergeContributors ctx gs d).value.feature.id = d.feature.id :=
  each_keeps (P := fun t : Draft => t.feature.id = d.feature.id)
    (fun t g _ ht => (Draft.id_mergeOrFail hctx .aggregate g t).trans ht) rfl

/-- What an aggregate of some participants is: their contributors are listed in it, and it holds what
merging them one after another, each assembled, into an empty feature gives. -/
structure IsAggregate (ctx : AssemblyContext) (id : Coordinate)
    (participants contributors : List Feature) (r : Feature) : Prop where
  chosen : AreContributors (localFirst participants ctx.catalogue) participants contributors
  record : Roster.find? r.extensions recordName = some
    ⟨recordName, .transient, .artifacts (contributors.map fun f => Artifact.ofId f.id)⟩
  isComplete_iff : r.isComplete = true ↔ ∀ f ∈ contributors, f.isComplete = true
  isFinal : r.isFinal = false
  isAssembled : r.isAssembled = true
  content : ∃ assembled merged,
    List.Forall₂ (fun f g => (assemble (ctx.among participants) f).result = .ok g)
      contributors assembled ∧
    mergeEach ctx.merge assembled ⟨Feature.ofId id, []⟩ = done merged ∧
    (ctx.substitutes = false → r = sealWith contributors merged.feature)
  id : r.id = id

theorem outcome_eq_done {ctx : AssemblyContext} {id : Coordinate} {features : List Feature}
    {d : Draft} (h : outcome ctx id features = done d) :
    ∃ b merged, each (Batch.build ctx.merge
        (localFirst (Features.deduplicate features) ctx.catalogue))
        .empty (Features.deduplicate features) = done b ∧
      mergeContributors ctx.merge b.contributors ⟨Feature.ofId id, b.notes⟩ = done merged ∧
      (merged.mapFeature (sealWith b.contributors)).finish ctx = done d := by
  unfold outcome at h
  obtain ⟨b, hb, hrest⟩ := chain_eq_done_iff.mp h
  obtain ⟨merged, hmerged, hfinish⟩ := andThen_eq_done_iff.mp hrest
  exact ⟨b, merged, hb, hmerged, hfinish⟩

/-- Without handlers an aggregate merges and records exactly the participants that no other one
builds upon, also where these come first, and however far up the line. -/
theorem assembleMany_isAggregate {ctx : AssemblyContext} (hmerge : ctx.merge.mergeHandlers = [])
    (hpost : ctx.merge.postHandlers = []) {id : Coordinate} {features : List Feature} {r : Feature}
    (hr : (assembleMany ctx id features).result = .ok r) :
    ∃ contributors, IsAggregate ctx id (Features.deduplicate features) contributors r := by
  obtain ⟨notes, hdone⟩ := Report.result_ofOutcome_eq_ok_iff.mp hr
  obtain ⟨b, merged, hb, hmerged, hfinish⟩ := outcome_eq_done hdone
  -- all lines are known before the first merge, so that the order of the participants is no matter
  obtain ⟨hnotes, contributors, hcontributors, hbuilds⟩ :=
    Batch.exists_contributors hmerge (Features.nodup_id_deduplicate features) hb
  -- the seal reads ids and completeness, which building leaves as they were
  have hseal : sealWith b.contributors = sealWith contributors :=
    sealWith_eq (hbuilds.imp fun f g hfg => hfg.sharesMarks hmerge)
  rw [Draft.finish_eq_substitute hpost, hseal] at hfinish
  rw [mergeContributors_eq, hnotes, mapFault_eq_done_iff] at hmerged
  have hid : merged.feature.id = id := by
    have hkept := id_mergeContributors hmerge b.contributors ⟨Feature.ofId id, []⟩
    rwa [mergeContributors_eq, hmerged] at hkept
  have hassembled : List.Forall₂ (fun f g =>
      (assemble (ctx.among (Features.deduplicate features)) f).result = .ok g)
      contributors b.contributors :=
    hbuilds.imp fun f g hfg => Builds.result_assemble_among hpost hfg
  obtain ⟨frameworkProperties, configurations, hsealed⟩ := Draft.substitute_eq_done hfinish
  obtain rfl : r = { sealWith contributors merged.feature with
      frameworkProperties, configurations } := hsealed
  refine ⟨contributors, hcontributors, ?_, List.all_eq_true, rfl, rfl,
    ⟨_, merged, hassembled, hmerged, fun hoff => ?_⟩, hid⟩
  · have hrecord := find?_sealWith contributors merged.feature
    rw [record_eq hcontributors.nodup_id] at hrecord
    exact hrecord
  · rw [Draft.substitute_of_not_substitutes hoff] at hfinish
    exact (congrArg Draft.feature (eq_done_iff.mp hfinish).1).symm

theorem assembleMany_skips_prototype :
    (Sample.context []).merge.mergeHandlers = [] ∧ ∃ contributors r,
      IsAggregate (Sample.context []) (Sample.id "all")
        [Feature.ofId (Sample.id "b"), Sample.heir "a" "b"] contributors r ∧
      Feature.ofId (Sample.id "b") ∉ contributors := by
  obtain ⟨r, hr⟩ : ∃ r, (assembleMany (Sample.context []) (Sample.id "all")
      [Feature.ofId (Sample.id "b"), Sample.heir "a" "b"]).result = .ok r := by
    have hbase : Lineage.ofFeature
        (localFirst [Feature.ofId (Sample.id "b"), Sample.heir "a" "b"] [])
        (Feature.ofId (Sample.id "b")) = .ok (.root (Feature.ofId (Sample.id "b"))) :=
      Lineage.ofFeature_eq_ok (.root rfl (by decide) rfl) (.root rfl rfl)
    have hheir : Lineage.ofFeature
        (localFirst [Feature.ofId (Sample.id "b"), Sample.heir "a" "b"] [])
        (Sample.heir "a" "b") = .ok (.heir (Sample.heir "a" "b") (.ofId (Sample.id "b"))
          (.root (Feature.ofId (Sample.id "b")))) :=
      Lineage.ofFeature_eq_ok
        (.step rfl (by decide) rfl rfl rfl (.root rfl (by decide) rfl))
        (.heir rfl rfl rfl (.root rfl rfl))
    have hdedup : Features.deduplicate [Feature.ofId (Sample.id "b"), Sample.heir "a" "b"] =
        [Feature.ofId (Sample.id "b"), Sample.heir "a" "b"] := rfl
    have hcatalogue : (Sample.context []).catalogue = [] := rfl
    unfold assembleMany outcome
    simp only [hdedup, hcatalogue, each_cons, Batch.build, hbase, hheir]
    exact ⟨_, rfl⟩
  obtain ⟨contributors, h⟩ := assembleMany_isAggregate rfl rfl hr
  refine ⟨rfl, contributors, r, h, fun hmem => ?_⟩
  have hfree := ((h.chosen.mem_iff _).mp hmem).2
  exact hfree (Sample.heir "a" "b") (.tail _ (.head _)) (.own (p := .ofId (Sample.id "b")) rfl rfl)

end Aggregate
end FeatureAssembly
