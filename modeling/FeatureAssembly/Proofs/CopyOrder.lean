import FeatureAssembly.Proofs.Grouping
import Mathlib.Data.List.Induction

/-! Copying a list of artifacts into an empty one. The copy holds the artifacts of the list, each with
an origin, and only artifacts that match one another can move. Without aliases the versions of an
artifact come to stand together, where the first of them stood. -/

namespace FeatureAssembly
open Outcome

theorem Roster.distinct_perm {α κ : Type} [Keyed α κ] {l m : List α} (h : l.Perm m) :
    Distinct l ↔ Distinct m := (h.map Keyed.key).nodup_iff

section
variable {κ : Type} [DecidableEq κ] {ks : List κ} {k : κ}

theorem addAllNew_concat_of_mem (h : k ∈ ks) : addAllNew [] (ks ++ [k]) = addAllNew [] ks := by
  rw [addAllNew_append]
  exact addAllNew_of_subset (by simpa using h)

theorem addAllNew_concat_of_not_mem (h : k ∉ ks) :
    addAllNew [] (ks ++ [k]) = addAllNew [] ks ++ [k] := by
  rw [addAllNew_append]
  exact if_neg (by simpa using h)

end

namespace Artifact

@[simp] theorem stamped_isSame (a b : Artifact) (origin : Coordinate) :
    (a.stamped origin).isSame b = a.isSame b := by
  simp [isSame, ids]

@[simp] theorem isSame_stamped (a b : Artifact) (origin : Coordinate) :
    a.isSame (b.stamped origin) = a.isSame b := by
  simp [isSame, ids]

end Artifact

namespace Artifacts
variable {l source : List Artifact} {incoming a : Artifact} {origin : Coordinate}

theorem allBeside_cons (origin : Coordinate) (target source : List Artifact) (a : Artifact) :
    allBeside origin target (a :: source) =
      allBeside origin (beside target (a.stamped origin)) source := rfl

theorem allBeside_concat (origin : Coordinate) (target source : List Artifact) (a : Artifact) :
    allBeside origin target (source ++ [a]) =
      beside (allBeside origin target source) (a.stamped origin) := List.foldl_append

theorem Placed.perm {as m : List Artifact} {i : Nat} (h : Placed l i as m) : m.Perm (as ++ l) := by
  have hmoved : (l.take i ++ as ++ l.drop i).Perm (as ++ l.take i ++ l.drop i) :=
    List.perm_append_comm.append_right _
  rwa [← h.eq_append, List.append_assoc, List.take_append_drop] at hmoved

theorem beside_perm (hl : Roster.Distinct l) (hnew : incoming.id ∉ Roster.keys l) :
    (beside l incoming).Perm (l ++ [incoming]) := by
  by_cases hmatched : l.filter (fun a => a.isSame incoming) = []
  · rw [beside_of_unmatched hmatched]
  · have hnot : incoming.id ∉ Roster.keys (l.filter fun a => a.isSame incoming) :=
      fun h => hnew (Roster.mem_keys_filter_or.mp (.inr h))
    have hplaced := (beside_of_matched hl hmatched).perm
    rw [if_neg hnot, List.append_assoc] at hplaced
    apply hplaced.trans
    have hparts := List.filter_append_perm (fun a => a.isSame incoming) l
    exact (List.perm_append_comm.append_left _).trans
      ((List.append_assoc ..).symm ▸ hparts.append_right [incoming])

theorem allBeside_perm (target : List Artifact) (h : Roster.Distinct (target ++ source)) :
    (allBeside origin target source).Perm (target ++ source.map fun a => a.stamped origin) := by
  induction source generalizing target with
  | nil => rw [List.map_nil, List.append_nil]; rfl
  | cons a source ih =>
    have hnew : (a.stamped origin).id ∉ Roster.keys target := by
      rw [Artifact.id_stamped]
      exact Roster.not_mem_keys_of_distinct_append h
    have htarget : Roster.Distinct target := by
      rw [Roster.Distinct, Roster.keys_append] at h
      exact (List.nodup_append.mp h).1
    have hstep : (beside target (a.stamped origin)).Perm (target ++ [a.stamped origin]) :=
      beside_perm htarget hnew
    have hrest : Roster.Distinct (beside target (a.stamped origin) ++ source) := by
      rw [Roster.distinct_perm (hstep.append_right source)]
      simpa [Roster.Distinct] using h
    rw [allBeside_cons, List.map_cons]
    apply (ih _ hrest).trans
    have hstepped := hstep.append_right (source.map fun a => a.stamped origin)
    rwa [List.append_assoc, List.singleton_append] at hstepped

theorem allBeside_of_unrelated (target : List Artifact)
    (htarget : ∀ e ∈ target, ∀ a ∈ source, e.isSame a = false)
    (hsource : source.Pairwise fun a b => a.isSame b = false) :
    allBeside origin target source = target ++ source.map fun a => a.stamped origin := by
  induction source generalizing target with
  | nil => rw [List.map_nil, List.append_nil]; rfl
  | cons a source ih =>
    obtain ⟨hfirst, hlater⟩ := List.pairwise_cons.mp hsource
    have hunmatched : target.filter (fun e => e.isSame (a.stamped origin)) = [] := by
      apply List.filter_eq_nil_iff.mpr
      intro e he
      rw [Artifact.isSame_stamped, htarget e he a (List.mem_cons_self ..)]
      exact Bool.false_ne_true
    have hstep : ∀ e ∈ target ++ [a.stamped origin], ∀ b ∈ source, e.isSame b = false := by
      intro e he b hb
      rcases List.mem_append.mp he with he | he
      · exact htarget e he b (List.mem_cons_of_mem _ hb)
      · rw [List.mem_singleton.mp he, Artifact.stamped_isSame]
        exact hfirst b hb
    rw [allBeside_cons, beside_of_unmatched hunmatched, ih _ hstep hlater, List.map_cons,
      List.append_assoc, List.singleton_append]

/-! The order without aliases. -/

def versions (l : List Artifact) (k : String × String × String × Option String) : List Artifact :=
  l.filter fun a => a.id.identity = k

def byIdentity (l : List Artifact) : List Artifact :=
  (addAllNew [] (identities l)).flatMap (versions l)

theorem versions_concat (l : List Artifact) (a : Artifact)
    (k : String × String × String × Option String) :
    versions (l ++ [a]) k = if a.id.identity = k then versions l k ++ [a] else versions l k := by
  unfold versions
  rw [List.filter_append, List.filter_singleton]
  by_cases h : a.id.identity = k
  · rw [decide_eq_true h, if_pos h]
    rfl
  · rw [decide_eq_false h, if_neg h]
    exact List.append_nil _

theorem identity_of_mem_versions {k : String × String × String × Option String}
    (h : a ∈ versions l k) : a ∈ l ∧ a.id.identity = k := by
  obtain ⟨ha, hk⟩ := List.mem_filter.mp h
  exact ⟨ha, of_decide_eq_true hk⟩

theorem identities_concat (l : List Artifact) (a : Artifact) :
    identities (l ++ [a]) = identities l ++ [a.id.identity] := List.map_append

theorem not_mem_identities_flatMap {ks : List (String × String × String × Option String)}
    {k : String × String × String × Option String} (h : k ∉ ks) :
    k ∉ identities (ks.flatMap (versions l)) := by
  intro hk
  obtain ⟨a, ha, rfl⟩ := List.mem_map.mp hk
  obtain ⟨k', hk', ha⟩ := List.mem_flatMap.mp ha
  rw [(identity_of_mem_versions ha).2] at h
  exact h hk'

theorem flatMap_versions_concat {ks : List (String × String × String × Option String)}
    (h : a.id.identity ∉ ks) : ks.flatMap (versions (l ++ [a])) = ks.flatMap (versions l) := by
  apply List.flatMap_congr
  intro k hk
  have hother : a.id.identity ≠ k := by
    rintro rfl
    exact h hk
  rw [versions_concat, if_neg hother]

theorem mem_of_mem_byIdentity (h : a ∈ byIdentity l) : a ∈ l := by
  obtain ⟨k, -, ha⟩ := List.mem_flatMap.mp h
  exact (identity_of_mem_versions ha).1

theorem versions_of_not_mem {k : String × String × String × Option String}
    (h : k ∉ identities l) : versions l k = [] := by
  apply List.filter_eq_nil_iff.mpr
  intro a ha hk
  rw [← of_decide_eq_true hk] at h
  exact h (List.mem_map_of_mem ha)

theorem beside_byIdentity_of_mem (hl : Roster.Distinct (byIdentity l))
    (hplain : ∀ a ∈ byIdentity l, a.aliases = []) (hi : incoming.aliases = [])
    (hnew : incoming.id ∉ Roster.keys l) (hk : incoming.id.identity ∈ identities l) :
    beside (byIdentity l) incoming = byIdentity (l ++ [incoming]) := by
  have hkeys : incoming.id.identity ∈ addAllNew [] (identities l) := mem_addAllNew.mpr (.inr hk)
  obtain ⟨ks, js, hsplit⟩ := List.append_of_mem hkeys
  have hnodup : (ks ++ incoming.id.identity :: js).Nodup := by
    rw [← hsplit]
    exact nodup_addAllNew List.nodup_nil _
  obtain ⟨-, hjs, hks⟩ := List.nodup_append.mp hnodup
  have hbefore : incoming.id.identity ∉ ks := fun h => hks _ h _ (List.mem_cons_self ..) rfl
  have hafter : incoming.id.identity ∉ js := (List.nodup_cons.mp hjs).1
  have hblock : versions l incoming.id.identity ≠ [] := by
    obtain ⟨a, ha, hid⟩ := List.mem_map.mp hk
    exact List.ne_nil_of_mem (List.mem_filter.mpr ⟨ha, decide_eq_true hid⟩)
  have hnot : incoming.id ∉ Roster.keys (versions l incoming.id.identity) := by
    intro h
    obtain ⟨a, ha, hid⟩ := List.mem_map.mp h
    exact hnew (List.mem_map.mpr ⟨a, (identity_of_mem_versions ha).1, hid⟩)
  have hparts : byIdentity l = ks.flatMap (versions l) ++ versions l incoming.id.identity ++
      js.flatMap (versions l) := by
    rw [byIdentity, hsplit, List.flatMap_append, List.flatMap_cons, List.append_assoc]
  rw [hparts] at hl hplain
  rw [hparts, beside_of_block hl hplain hi (not_mem_identities_flatMap hbefore)
    (fun a ha => (identity_of_mem_versions ha).2) (not_mem_identities_flatMap hafter) hblock,
    if_neg hnot, byIdentity, identities_concat, addAllNew_concat_of_mem hk, hsplit,
    List.flatMap_append, List.flatMap_cons, flatMap_versions_concat hbefore,
    flatMap_versions_concat hafter, versions_concat, if_pos rfl, List.append_assoc]

theorem beside_byIdentity_of_not_mem (hplain : ∀ a ∈ byIdentity l, a.aliases = [])
    (hi : incoming.aliases = []) (hk : incoming.id.identity ∉ identities l) :
    beside (byIdentity l) incoming = byIdentity (l ++ [incoming]) := by
  have hunmatched : (byIdentity l).filter (fun a => a.isSame incoming) = [] := by
    apply List.filter_eq_nil_iff.mpr
    intro a ha hsame
    have hid := (Artifact.isSame_iff_of_no_aliases (hplain a ha) hi).mp hsame
    rw [← hid] at hk
    exact hk (List.mem_map_of_mem (mem_of_mem_byIdentity ha))
  have hks : incoming.id.identity ∉ addAllNew [] (identities l) := by
    rw [mem_addAllNew]
    exact not_or_intro List.not_mem_nil hk
  rw [beside_of_unmatched hunmatched, byIdentity, byIdentity, identities_concat,
    addAllNew_concat_of_not_mem hk, List.flatMap_append, flatMap_versions_concat hks,
    List.flatMap_singleton, versions_concat, if_pos rfl, versions_of_not_mem hk, List.nil_append]

theorem beside_byIdentity (hl : Roster.Distinct (byIdentity l)) (hplain : ∀ a ∈ l, a.aliases = [])
    (hi : incoming.aliases = []) (hnew : incoming.id ∉ Roster.keys l) :
    beside (byIdentity l) incoming = byIdentity (l ++ [incoming]) := by
  have hplain : ∀ a ∈ byIdentity l, a.aliases = [] :=
    fun a ha => hplain a (mem_of_mem_byIdentity ha)
  by_cases hk : incoming.id.identity ∈ identities l
  · exact beside_byIdentity_of_mem hl hplain hi hnew hk
  · exact beside_byIdentity_of_not_mem hplain hi hk

theorem allBeside_eq_byIdentity (hs : Roster.Distinct source)
    (hplain : ∀ a ∈ source, a.aliases = []) (origin : Coordinate) :
    allBeside origin [] source = byIdentity (source.map fun a => a.stamped origin) := by
  induction source using List.reverseRecOn with
  | nil => rfl
  | append_singleton source a ih =>
    have hfront : Roster.Distinct source := by
      rw [Roster.Distinct, Roster.keys_append] at hs
      exact (List.nodup_append.mp hs).1
    have hnew : a.id ∉ Roster.keys source := Roster.not_mem_keys_of_distinct_append hs
    rw [List.forall_mem_append] at hplain
    have ih := ih hfront hplain.1
    have hdistinct : Roster.Distinct (byIdentity (source.map fun a => a.stamped origin)) := by
      rw [← ih, Roster.distinct_perm (allBeside_perm [] hfront)]
      exact hfront.map fun a => Artifact.id_stamped a origin
    have hstamped : ∀ b ∈ source.map (fun a => a.stamped origin), b.aliases = [] := by
      intro b hb
      obtain ⟨a, ha, rfl⟩ := List.mem_map.mp hb
      rw [Artifact.aliases_stamped, hplain.1 a ha]
    have ha : (a.stamped origin).aliases = [] := by
      rw [Artifact.aliases_stamped, hplain.2 a (List.mem_singleton_self a)]
    have hid : (a.stamped origin).id ∉ Roster.keys (source.map fun a => a.stamped origin) := by
      rwa [Artifact.id_stamped, Roster.keys_map fun a => Artifact.id_stamped a origin]
    rw [allBeside_concat, ih, beside_byIdentity hdistinct hstamped ha hid, List.map_append,
      List.map_singleton]

/-- What a copy of `source` is: all its artifacts with origins, in the order of `source` where they do
not match one another, and grouped by identity where aliases make no further ones match. -/
structure IsCopy (origin : Coordinate) (source r : List Artifact) : Prop where
  perm : r.Perm (source.map fun a => a.stamped origin)
  unrelated : source.Pairwise (fun a b => a.isSame b = false) →
    r = source.map fun a => a.stamped origin
  grouped : (∀ a ∈ source, a.aliases = []) → r = byIdentity (source.map fun a => a.stamped origin)

theorem merge_into_empty_isCopy (rules : List OverrideRule) (origin : Coordinate)
    {source : List Artifact} (hs : Roster.Distinct source) :
    ∃ r, merge rules origin [] source = done r ∧ IsCopy origin source r := by
  refine ⟨allBeside origin [] source, merge_into_empty rules origin source, ?_, ?_, ?_⟩
  · exact allBeside_perm [] hs
  · exact allBeside_of_unrelated [] fun e he => absurd he List.not_mem_nil
  · exact fun hplain => allBeside_eq_byIdentity hs hplain origin

end Artifacts

namespace Sample

def library : List Artifact := [lib "1" [], Artifact.ofId (id "guide"), lib "2" [id "c"]]

end Sample

theorem Artifacts.copy_library_isCopy : Roster.Distinct Sample.library ∧
    (∀ a ∈ Sample.library, a.aliases = []) ∧
    merge [] (Sample.id "f") [] Sample.library = done [Sample.lib "1" [Sample.id "f"],
      Sample.lib "2" [Sample.id "c"], (Artifact.ofId (Sample.id "guide")).stamped (Sample.id "f")] := by
  have hdistinct : Roster.Distinct Sample.library := by
    unfold Roster.Distinct
    decide
  have hplain : ∀ a ∈ Sample.library, a.aliases = [] := by decide
  obtain ⟨r, hr, hcopy⟩ := merge_into_empty_isCopy [] (Sample.id "f") hdistinct
  refine ⟨hdistinct, hplain, ?_⟩
  rw [hr, hcopy.grouped hplain]
  rfl

end FeatureAssembly
