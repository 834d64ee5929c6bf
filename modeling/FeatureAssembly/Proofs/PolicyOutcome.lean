import FeatureAssembly.Proofs.BundleOrigins
import FeatureAssembly.Proofs.CoordinateForms
import FeatureAssembly.Proofs.CoordinateOrder
import FeatureAssembly.Proofs.MergeFrame

/-! What a policy leaves of the versions of one artifact that features bring in one after another. Where
both sides of a clash are kept, each version remains with the features that brought it. Under any other
policy a single version remains, which has taken over the origins and the first start order of all. -/

namespace FeatureAssembly
open Outcome

theorem Coordinate.eq_of_identity {a b : Coordinate} (h : a.identity = b.identity)
    (hv : a.version = b.version) : a = b := by
  obtain ⟨g, n, v, c, t⟩ := a
  obtain ⟨g', n', v', c', t'⟩ := b
  simp only [identity, Prod.mk.injEq] at h
  obtain ⟨rfl, rfl, rfl, rfl⟩ := h
  obtain rfl : v = v' := hv
  rfl

theorem OverrideRule.isFor_congr {a b : Coordinate} (h : a.identity = b.identity)
    (r : OverrideRule) : r.isFor a = r.isFor b := by
  simp only [Coordinate.identity, Prod.mk.injEq] at h
  obtain ⟨hgroup, hartifact, htype, hclassifier⟩ := h
  rw [isFor, isFor, hgroup, hartifact, htype, hclassifier]

def OverridePolicy.IsApplicable (p : OverridePolicy) : Prop :=
  ∀ v, p = .version v → v ≠ "" ∧ Coordinate.isPlain v

theorem Version.compareTexts_self (v : String) : compareTexts v v ≠ .lt :=
  fun h => Std.OrientedCmp.not_lt_of_lt h h

theorem Version.compareTexts_trans {a b c : String} (ha : (ofText? a).isSome)
    (hb : (ofText? b).isSome) (hc : (ofText? c).isSome) (hab : compareTexts b a ≠ .lt)
    (hbc : compareTexts b c = .lt) : compareTexts a c = .lt := by
  obtain ⟨u, hu⟩ := Option.isSome_iff_exists.mp ha
  obtain ⟨v, hv⟩ := Option.isSome_iff_exists.mp hb
  obtain ⟨w, hw⟩ := Option.isSome_iff_exists.mp hc
  rw [compareTexts_of_read hv hu] at hab
  rw [compareTexts_of_read hv hw] at hbc
  rw [compareTexts_of_read hu hw]
  have hswap : Ord.compare u v = (Ord.compare v u).swap := Std.OrientedCmp.eq_swap
  have hle : (Ord.compare u v).isLE := by
    rw [hswap]
    cases h : Ord.compare v u with
    | lt => exact absurd h hab
    | eq => rfl
    | gt => rfl
  exact Std.TransCmp.lt_of_isLE_of_lt hle hbc

theorem Version.lt_of_first_greatest {α : Type} (version : α → String) {before after : List α}
    {z x : α} (hread : ∀ y ∈ before ++ z :: after ++ [x], (ofText? (version y)).isSome)
    (hbefore : ∀ y ∈ before, compareTexts (version y) (version z) = .lt)
    (hafter : ∀ y ∈ after, compareTexts (version z) (version y) ≠ .lt)
    (hlt : compareTexts (version z) (version x) = .lt) :
    ∀ y ∈ before ++ z :: after, compareTexts (version y) (version x) = .lt := by
  intro y hy
  have hle : compareTexts (version z) (version y) ≠ .lt := by
    rcases List.mem_append.mp hy with hy | hy
    · exact Std.OrientedCmp.not_lt_of_lt (hbefore y hy)
    · rcases List.mem_cons.mp hy with rfl | hy
      · exact compareTexts_self _
      · exact hafter y hy
  exact compareTexts_trans (hread y (List.mem_append_left _ hy)) (hread z (by simp))
    (hread x (by simp)) hle hlt

namespace Artifact

/-- The artifact has the origins and the first start order of all of a series. -/
structure Pools (series : List (Coordinate × Artifact)) (a : Artifact) : Prop where
  origins : a.origins = series.map Prod.fst
  startOrder : IsFirstStart (series.map fun x => x.2.startOrder) a.startOrder

variable {series : List (Coordinate × Artifact)} {e i : Artifact} {f : Coordinate}

theorem pools_singleton (hi : i.origins = []) (f : Coordinate) :
    (i.stamped f).Pools [(f, i)] := by
  rw [stamped, if_pos hi]
  exact ⟨rfl, isFirstStart_singleton i.startOrder⟩

theorem Pools.combine (h : e.Pools series) (hi : i.origins = [])
    (hf : ((series ++ [(f, i)]).map Prod.fst).Nodup) (chosen : Artifact) :
    (chosen.combine e (i.stamped f)).Pools (series ++ [(f, i)]) := by
  rw [List.map_append] at hf
  rw [stamped, if_pos hi]
  refine ⟨?_, ?_⟩
  · have horigins : addAllNew [] (e.origins ++ [f]) = [] ++ (e.origins ++ [f]) := by
      apply addAllNew_of_nodup
      rwa [h.origins]
    rw [Artifact.combine, List.map_append, horigins, h.origins]
    rfl
  · rw [List.map_append]
    exact h.startOrder.append i.startOrder

end Artifact

namespace Artifacts

def mergeSeries (rules : List OverrideRule) (series : List (Coordinate × Artifact)) :
    Outcome MergeError (List Artifact) :=
  each (fun l x => merge rules x.1 l [x.2]) [] series

/-- Versions of the artifact that a coordinate names, without aliases and origins, each from a feature
of its own. -/
structure IsSeries (id : Coordinate) (series : List (Coordinate × Artifact)) : Prop where
  features : (series.map Prod.fst).Nodup
  identity : ∀ x ∈ series, x.2.id.identity = id.identity
  aliases : ∀ x ∈ series, x.2.aliases = []
  origins : ∀ x ∈ series, x.2.origins = []

section
variable {rule : OverrideRule} {id : Coordinate} {series front : List (Coordinate × Artifact)}
  {x : Coordinate × Artifact} {l : List Artifact} {e i : Artifact}

theorem mergeSeries_concat (rules : List OverrideRule) (front : List (Coordinate × Artifact))
    (x : Coordinate × Artifact) : mergeSeries rules (front ++ [x]) =
      (mergeSeries rules front).andThen fun l => (merge rules x.1 l [x.2]).andThen done :=
  each_append ..

theorem IsSeries.init (h : IsSeries id (front ++ [x])) : IsSeries id front := by
  obtain ⟨hfeatures, hidentity, haliases, horigins⟩ := h
  rw [List.forall_mem_append] at hidentity haliases horigins
  rw [List.map_append] at hfeatures
  exact ⟨(List.nodup_append.mp hfeatures).1, hidentity.1, haliases.1, horigins.1⟩

theorem IsSeries.not_mem_features (h : IsSeries id (front ++ [x])) : x.1 ∉ front.map Prod.fst := by
  have hfeatures := h.features
  rw [List.map_append] at hfeatures
  intro hmem
  exact (List.nodup_append.mp hfeatures).2.2 _ hmem _ (List.mem_singleton_self _) rfl

theorem merge_singleton (rules : List OverrideRule) (f : Coordinate) (l : List Artifact)
    (a : Artifact) {q : Progress} (h : mergeIncoming rules f ⟨l, []⟩ (a.stamped f) = .ok q) :
    merge rules f l [a] = done q.artifacts := by
  rw [merge, each_cons, mergeOne, h]
  rfl

theorem merge_nil (rules : List OverrideRule) (f : Coordinate) (a : Artifact) :
    merge rules f [] [a] = done [a.stamped f] :=
  merge_singleton rules f [] a rfl

/-! Keeping both sides. -/

theorem merge_of_keepsBoth (hfor : rule.isFor i.id = true) (hpolicy : rule.policy = .all)
    (f : Coordinate) (l : List Artifact) :
    merge [rule] f l [i] = done (beside l (i.stamped f)) := by
  have hstamped : rule.isFor (i.stamped f).id = true := by rwa [Artifact.id_stamped]
  exact merge_singleton _ _ _ _
    (mergeIncoming_of_abreast fun a _ => meet_of_keepsBoth _ hstamped hpolicy)

theorem keys_beside_of_same (hl : Roster.Distinct l) (hplain : ∀ a ∈ l, a.aliases = [])
    (hi : i.aliases = []) (hsame : ∀ a ∈ l, a.id.identity = i.id.identity) :
    Roster.keys (beside l i) = addNew (Roster.keys l) i.id := by
  by_cases hne : l = []
  · rw [hne]
    rfl
  · have hblock : beside ([] ++ l ++ []) i = _ :=
      beside_of_block (by rwa [List.append_nil]) (by rwa [List.append_nil]) hi List.not_mem_nil
        hsame List.not_mem_nil hne
    rw [List.append_nil, List.append_nil, List.nil_append, List.nil_append] at hblock
    rw [hblock, addNew]
    split
    · exact Roster.keys_map (fun a => Artifact.id_united i a) l
    · rw [Roster.keys_append]
      rfl

structure Lists (series : List (Coordinate × Artifact)) (l : List Artifact) : Prop where
  keys : Roster.keys l = addAllNew [] (series.map fun x => x.2.id)
  traces : ∀ id, Traces (series.filter fun x => x.2.id = id) (Roster.find? l id)

theorem Lists.distinct (h : Lists series l) : Roster.Distinct l := by
  rw [Roster.Distinct, h.keys]
  exact nodup_addAllNew List.nodup_nil _

theorem Lists.unites (h : Lists series l) {a : Artifact} (ha : a ∈ l) :
    a.Unites (series.filter fun x => x.2.id = a.id) := by
  have hfound : Roster.find? l a.id = some a :=
    (Roster.find?_eq_some_iff h.distinct).mpr ⟨ha, rfl⟩
  have htraces := h.traces a.id
  rwa [hfound] at htraces

theorem Lists.plain (h : Lists series l) (hseries : IsSeries id series) :
    ∀ a ∈ l, a.aliases = [] ∧ a.id.identity = id.identity := by
  intro a ha
  obtain ⟨x, hx, haliases, -⟩ := (h.unites ha).first
  obtain ⟨hx, hid⟩ := List.mem_filter.mp (List.mem_of_mem_head? hx)
  have hid : x.2.id = a.id := of_decide_eq_true hid
  rw [haliases, ← hid]
  exact ⟨hseries.aliases x hx, hseries.identity x hx⟩

theorem Lists.origins (h : Lists series l) (hseries : IsSeries id series) :
    ∀ a ∈ l, a.origins = (series.filter fun x => x.2.id = a.id).map Prod.fst := by
  intro a ha
  rw [(h.unites ha).origins]
  apply addAllNew_of_nodup
  exact (List.filter_sublist.map Prod.fst).nodup hseries.features

theorem mergeSeries_of_keepsBoth (hfor : rule.isFor id = true) (hpolicy : rule.policy = .all)
    (h : IsSeries id series) : ∃ l, mergeSeries [rule] series = done l ∧ Lists series l := by
  induction series using List.reverseRecOn with
  | nil => exact ⟨[], rfl, rfl, fun _ => rfl⟩
  | append_singleton front x ih =>
    obtain ⟨l, hl, hlists⟩ := ih h.init
    have hplain := hlists.plain h.init
    have hid : x.2.id.identity = id.identity := h.identity x (by simp)
    have haliases : (x.2.stamped x.1).aliases = [] := by
      rw [Artifact.aliases_stamped]
      exact h.aliases x (by simp)
    have hfor : rule.isFor x.2.id = true := by rwa [rule.isFor_congr hid]
    refine ⟨beside l (x.2.stamped x.1), ?_, ?_, fun k => ?_⟩
    · rw [mergeSeries_concat, hl, done_andThen, merge_of_keepsBoth hfor hpolicy, done_andThen]
    · have hsame : ∀ a ∈ l, a.id.identity = (x.2.stamped x.1).id.identity := by
        intro a ha
        rw [Artifact.id_stamped, hid]
        exact (hplain a ha).2
      rw [keys_beside_of_same hlists.distinct (fun a ha => (hplain a ha).1) haliases hsame,
        hlists.keys, Artifact.id_stamped, List.map_append, addAllNew_append]
      rfl
    · rw [find?_beside hlists.distinct, Artifact.id_stamped, List.filter_append,
        List.filter_singleton]
      by_cases hk : x.2.id = k
      · rw [if_pos hk, decide_eq_true hk, ← hk]
        exact (hlists.traces x.2.id).append (h.origins x (by simp)) x.1
      · rw [if_neg hk, decide_eq_false hk]
        simpa using hlists.traces k

end

end Artifacts

/-! Keeping one side. -/

def OverridePolicy.chosen (p : OverridePolicy) (e i : Artifact) : Artifact :=
  if e.id = i.id then e
  else match p.select e.id i.id with
    | .existing => e
    | .incoming => i
    | .both => e
    | .synthesized v => i.copy { i.id with version := v }

theorem OverridePolicy.select_ne_both {p : OverridePolicy} (hp : p ≠ .all)
    (existing incoming : Coordinate) : p.select existing incoming ≠ .both := by
  unfold select
  cases p with
  | all => exact absurd rfl hp
  | latest => exact Selection.noConfusion
  | highest =>
    dsimp only
    split <;> exact Selection.noConfusion
  | version v =>
    dsimp only
    split_ifs <;> exact Selection.noConfusion

theorem Coordinate.changeVersion_of_isPlain {v : String} (hv : v ≠ "" ∧ isPlain v)
    (a : Coordinate) : a.changeVersion v = .ok { a with version := v } := by
  rw [changeVersion, required_of_isPlain hv.1 hv.2]
  rfl

namespace Artifacts

section
variable {rule : OverrideRule} {id : Coordinate} {series front : List (Coordinate × Artifact)}
  {x : Coordinate × Artifact} {l : List Artifact} {e i : Artifact}

theorem settle_existing {rules : List OverrideRule}
    (hfind : OverrideRule.find? rules e.id i.id = some rule)
    (hselect : rule.policy.select e.id i.id = .existing) :
    settle rules e i = .ok ⟨[e.combine e i], []⟩ := by
  rw [settle, hfind]
  dsimp only
  rw [hselect]

theorem settle_incoming {rules : List OverrideRule}
    (hfind : OverrideRule.find? rules e.id i.id = some rule)
    (hselect : rule.policy.select e.id i.id = .incoming) :
    settle rules e i = .ok ⟨[], [i.combine e i]⟩ := by
  rw [settle, hfind]
  dsimp only
  rw [hselect]

theorem settle_synthesized {rules : List OverrideRule} {v : String}
    (hfind : OverrideRule.find? rules e.id i.id = some rule)
    (hselect : rule.policy.select e.id i.id = .synthesized v)
    (hid : i.id.changeVersion v = .ok id) :
    settle rules e i = .ok ⟨[], [(i.copy id).combine e i]⟩ := by
  rw [settle, hfind]
  dsimp only
  rw [hselect]
  dsimp only
  rw [hid]

theorem meet_of_choice (hfor : rule.isFor i.id = true) (hpolicy : rule.policy ≠ .all)
    (happlicable : rule.policy.IsApplicable) : ∃ s, meet [rule] false e i = .ok s ∧
      s.present ++ s.incoming = [(rule.policy.chosen e i).combine e i] := by
  have hfind := find?_rule_singleton hfor e.id
  unfold meet OverridePolicy.chosen
  by_cases hid : e.id = i.id
  · rw [if_pos hid, if_pos hid]
    exact ⟨_, rfl, rfl⟩
  · rw [if_neg hid, if_neg hid, if_neg Bool.false_ne_true]
    cases hselect : rule.policy.select e.id i.id with
    | both => exact absurd hselect (OverridePolicy.select_ne_both hpolicy _ _)
    | existing => exact ⟨_, settle_existing hfind hselect, rfl⟩
    | incoming => exact ⟨_, settle_incoming hfind hselect, rfl⟩
    | synthesized v =>
      have hv := happlicable v (OverridePolicy.eq_version_of_select hselect)
      have hversion := Coordinate.changeVersion_of_isPlain hv i.id
      exact ⟨_, settle_synthesized hfind hselect hversion, rfl⟩

theorem placeAt_nil_singleton (n : Nat) (a : Artifact) : placeAt [] n [a] = [a] := by
  have hplaced := Roster.insertAt?_of_not_mem (l := []) (x := a) List.not_mem_nil n
  rw [List.take_nil, List.drop_nil] at hplaced
  rw [placeAt, hplaced]
  rfl

theorem mergeIncoming_of_one {rules : List OverrideRule} {f : Coordinate} {a : Artifact}
    {s : Survivors} (hsame : e.isSame i = true)
    (hmeet : meet rules (decide (f ∈ e.origins)) e i = .ok s)
    (hone : s.present ++ s.incoming = [a]) :
    ∃ q, mergeIncoming rules f ⟨[e], []⟩ i = .ok q ∧ q.artifacts = [a] := by
  have hmatched : [e].filter (fun d => d.isSame i) = [e] := by
    rw [List.filter_singleton, hsame]
    rfl
  have hothers : [e].filter (fun d => !d.isSame i) = [] := by
    rw [List.filter_singleton, hsame]
    rfl
  have hall : meetAll rules (fun d => d.id ∈ ([] : List Coordinate) || f ∈ d.origins) i [e] =
      .ok ⟨s.present ++ [], s.incoming ++ []⟩ := by
    have hown : (decide (e.id ∈ ([] : List Coordinate)) || decide (f ∈ e.origins)) =
        decide (f ∈ e.origins) := Bool.false_or _
    rw [meetAll, hown, hmeet]
    rfl
  unfold mergeIncoming
  rw [hmatched]
  dsimp only
  rw [hall, hothers, List.append_nil, List.append_nil]
  dsimp only
  rw [hone]
  exact ⟨_, rfl, placeAt_nil_singleton _ a⟩

theorem merge_of_choice (hfor : rule.isFor i.id = true) (hpolicy : rule.policy ≠ .all)
    (happlicable : rule.policy.IsApplicable) {f : Coordinate} (hf : f ∉ e.origins)
    (hsame : e.isSame i = true) :
    merge [rule] f [e] [i] = done [(rule.policy.chosen e (i.stamped f)).combine e (i.stamped f)] := by
  have hstamped : rule.isFor (i.stamped f).id = true := by rwa [Artifact.id_stamped]
  have hmatches : e.isSame (i.stamped f) = true := by rwa [Artifact.isSame_stamped]
  obtain ⟨s, hs, hone⟩ := meet_of_choice (e := e) hstamped hpolicy happlicable
  rw [← decide_eq_false hf] at hs
  obtain ⟨q, hq, hartifacts⟩ := mergeIncoming_of_one hmatches hs hone
  rw [merge_singleton _ _ _ _ hq, hartifacts]

theorem mergeSeries_of_choice (P : List (Coordinate × Artifact) → Artifact → Prop)
    (hfor : rule.isFor id = true) (hpolicy : rule.policy ≠ .all)
    (happlicable : rule.policy.IsApplicable) (h : IsSeries id series) (hne : series ≠ [])
    (first : ∀ x, x.2.origins = [] → P [x] (x.2.stamped x.1))
    (next : ∀ front x e, front ≠ [] → e.id.identity = x.2.id.identity → P front e →
      P (front ++ [x])
        ((rule.policy.chosen e (x.2.stamped x.1)).combine e (x.2.stamped x.1))) :
    ∃ a, mergeSeries [rule] series = done [a] ∧ a.Pools series ∧ a.id.identity = id.identity ∧
      P series a := by
  induction series using List.reverseRecOn with
  | nil => exact absurd rfl hne
  | append_singleton front x ih =>
    have hid : x.2.id.identity = id.identity := h.identity x (by simp)
    have horigins : x.2.origins = [] := h.origins x (by simp)
    by_cases hfront : front = []
    · subst hfront
      refine ⟨x.2.stamped x.1, ?_, Artifact.pools_singleton horigins x.1, ?_, first x horigins⟩
      · rw [mergeSeries_concat, mergeSeries, each_nil, done_andThen, merge_nil, done_andThen]
      · rwa [Artifact.id_stamped]
    · obtain ⟨e, he, hpools, heid, hP⟩ := ih h.init hfront
      have hsame : e.isSame x.2 = true := Artifact.isSame_of_identity (heid.trans hid.symm)
      have hfor : rule.isFor x.2.id = true := by rwa [rule.isFor_congr hid]
      have hf : x.1 ∉ e.origins := by
        rw [hpools.origins]
        exact h.not_mem_features
      have hnext := next front x e hfront (heid.trans hid.symm) hP
      refine ⟨_, ?_, hpools.combine horigins h.features _, ?_, hnext⟩
      · rw [mergeSeries_concat, he, done_andThen, merge_of_choice hfor hpolicy happlicable hf hsame,
          done_andThen]
      · have hidentity : (x.2.stamped x.1).id.identity = id.identity := by rwa [Artifact.id_stamped]
        rw [Artifact.id_combine]
        unfold OverridePolicy.chosen
        split
        · exact heid
        · split
          · exact heid
          · exact hidentity
          · exact heid
          · exact hidentity

/-! Which version the single one is. -/

theorem id_chosen_latest (e i : Artifact) : (OverridePolicy.latest.chosen e i).id = i.id := by
  unfold OverridePolicy.chosen
  split
  · next h => exact h
  · rfl

def IsLast (series : List (Coordinate × Artifact)) (a : Artifact) : Prop :=
  ∀ x ∈ series.getLast?, a.id = x.2.id

theorem isLast_singleton (x : Coordinate × Artifact) : IsLast [x] (x.2.stamped x.1) := by
  intro y hy
  obtain rfl : x = y := Option.some.inj hy
  exact Artifact.id_stamped ..

theorem isLast_concat (front : List (Coordinate × Artifact)) (x : Coordinate × Artifact)
    (e : Artifact) : IsLast (front ++ [x])
      ((OverridePolicy.latest.chosen e (x.2.stamped x.1)).combine e (x.2.stamped x.1)) := by
  intro y hy
  rw [List.getLast?_concat] at hy
  obtain rfl : x = y := Option.some.inj hy
  rw [Artifact.id_combine, id_chosen_latest, Artifact.id_stamped]

theorem chosen_highest (e i : Artifact) : OverridePolicy.highest.chosen e i =
    if Version.compareTexts e.id.version i.id.version = .lt then i else e := by
  unfold OverridePolicy.chosen OverridePolicy.select
  by_cases hid : e.id = i.id
  · rw [if_pos hid, hid, if_neg (Version.compareTexts_self i.id.version)]
  · rw [if_neg hid]
    dsimp only
    by_cases hlt : Version.compareTexts e.id.version i.id.version = .lt
    · rw [if_pos hlt, if_pos hlt]
    · rw [if_neg hlt, if_neg hlt]

theorem version_chosen_version {v : String} (h : e.id ≠ i.id) :
    (OverridePolicy.chosen (.version v) e i).id.version = v := by
  unfold OverridePolicy.chosen OverridePolicy.select
  rw [if_neg h]
  dsimp only
  by_cases he : e.id.version = v
  · rw [if_pos he]
    exact he
  · rw [if_neg he]
    by_cases hi : i.id.version = v
    · rw [if_pos hi]
      exact hi
    · rw [if_neg hi]
      rfl

def IsFirstGreatest (series : List (Coordinate × Artifact)) (a : Artifact) : Prop :=
  ∃ before x after, series = before ++ x :: after ∧ x.2.Extends a ∧
    (∀ y ∈ before, Version.compareTexts y.2.id.version x.2.id.version = .lt) ∧
    ∀ y ∈ after, Version.compareTexts x.2.id.version y.2.id.version ≠ .lt

theorem isFirstGreatest_singleton (x : Coordinate × Artifact) :
    IsFirstGreatest [x] (x.2.stamped x.1) :=
  ⟨[], x, [], rfl, Artifact.Extends.stamped x.2 x.1, fun _ h => absurd h List.not_mem_nil,
    fun _ h => absurd h List.not_mem_nil⟩

theorem IsFirstGreatest.concat (h : IsFirstGreatest front e)
    (hread : ∀ y ∈ front ++ [x], (Version.ofText? y.2.id.version).isSome) :
    IsFirstGreatest (front ++ [x]) ((OverridePolicy.highest.chosen e (x.2.stamped x.1)).combine e
      (x.2.stamped x.1)) := by
  obtain ⟨before, z, after, rfl, hz, hbefore, hafter⟩ := h
  have hversion : e.id.version = z.2.id.version := by rw [hz.id]
  rw [chosen_highest, Artifact.id_stamped, hversion]
  by_cases hlt : Version.compareTexts z.2.id.version x.2.id.version = .lt
  · rw [if_pos hlt]
    have hstamped := Artifact.Extends.stamped x.2 x.1
    refine ⟨before ++ z :: after, x, [], rfl,
      hstamped.trans (Artifact.Extends.combine_incoming e _ _), ?_,
      fun y hy => absurd hy List.not_mem_nil⟩
    exact Version.lt_of_first_greatest (fun y : Coordinate × Artifact => y.2.id.version) hread
      hbefore hafter hlt
  · rw [if_neg hlt]
    refine ⟨before, z, after ++ [x], by simp, hz.trans (Artifact.Extends.combine_existing e _),
      hbefore, fun y hy => ?_⟩
    rcases List.mem_append.mp hy with hy | hy
    · exact hafter y hy
    · rw [List.mem_singleton.mp hy]
      exact hlt

def IsFixed (v : String) (series : List (Coordinate × Artifact)) (a : Artifact) : Prop :=
  (∀ x ∈ series, a.id = x.2.id) ∨
    a.id.version = v ∧ ∃ x ∈ series, ∃ y ∈ series, x.2.id.version ≠ y.2.id.version

theorem isFixed_singleton (v : String) (x : Coordinate × Artifact) :
    IsFixed v [x] (x.2.stamped x.1) := by
  left
  intro y hy
  rw [List.mem_singleton.mp hy, Artifact.id_stamped]

theorem IsFixed.version {v : String} {a : Artifact} (h : IsFixed v series a)
    (hdiffer : ∃ x ∈ series, ∃ y ∈ series, x.2.id.version ≠ y.2.id.version) : a.id.version = v := by
  rcases h with h | h
  · obtain ⟨x, hx, y, hy, hxy⟩ := hdiffer
    rw [← h x hx, ← h y hy] at hxy
    exact absurd rfl hxy
  · exact h.1

theorem IsFixed.id_of_same {v : String} {a : Artifact} (h : IsFixed v series a)
    (hsame : ∀ x ∈ series, ∀ y ∈ series, x.2.id.version = y.2.id.version) :
    ∀ x ∈ series, a.id = x.2.id := by
  rcases h with h | ⟨-, x, hx, y, hy, hxy⟩
  · exact h
  · exact absurd (hsame x hx y hy) hxy

theorem IsFixed.concat {v : String} (hne : front ≠ []) (h : IsFixed v front e)
    (hid : e.id.identity = x.2.id.identity) :
    IsFixed v (front ++ [x]) ((OverridePolicy.chosen (.version v) e (x.2.stamped x.1)).combine e
      (x.2.stamped x.1)) := by
  have hmem : x ∈ front ++ [x] := by simp
  by_cases heq : e.id = x.2.id
  · have hchosen : OverridePolicy.chosen (.version v) e (x.2.stamped x.1) = e :=
      if_pos (by rwa [Artifact.id_stamped])
    rw [hchosen]
    rcases h with h | ⟨hv, y, hy, z, hz, hyz⟩
    · left
      intro y hy
      rcases List.mem_append.mp hy with hy | hy
      · exact h y hy
      · rw [List.mem_singleton.mp hy]
        exact heq
    · exact .inr ⟨hv, y, List.mem_append_left _ hy, z, List.mem_append_left _ hz, hyz⟩
  · right
    refine ⟨version_chosen_version (by rwa [Artifact.id_stamped]), ?_⟩
    rcases h with h | ⟨-, y, hy, z, hz, hyz⟩
    · obtain ⟨y, hy⟩ := List.exists_mem_of_ne_nil _ hne
      refine ⟨y, List.mem_append_left _ hy, x, hmem, fun hyx => heq ?_⟩
      apply Coordinate.eq_of_identity hid
      rw [h y hy, hyx]
    · exact ⟨y, List.mem_append_left _ hy, z, List.mem_append_left _ hz, hyz⟩

def LeavesOne (id : Coordinate) (series : List (Coordinate × Artifact)) (r : List Artifact)
    (P : Artifact → Prop) : Prop :=
  ∃ a, r = [a] ∧ a.id.identity = id.identity ∧ a.Pools series ∧ P a

def Leaves (id : Coordinate) (series : List (Coordinate × Artifact)) (r : List Artifact) :
    OverridePolicy → Prop
  | .all => Roster.keys r = addAllNew [] (series.map fun x => x.2.id) ∧
      ∀ a ∈ r, a.origins = (series.filter fun x => x.2.id = a.id).map Prod.fst
  | .latest => LeavesOne id series r (IsLast series)
  | .highest => LeavesOne id series r fun a =>
      (∀ x ∈ series, (Version.ofText? x.2.id.version).isSome) → IsFirstGreatest series a
  | .version v => LeavesOne id series r fun a =>
      ((∃ x ∈ series, ∃ y ∈ series, x.2.id.version ≠ y.2.id.version) → a.id.version = v) ∧
        ((∀ x ∈ series, ∀ y ∈ series, x.2.id.version = y.2.id.version) → ∀ x ∈ series, a.id = x.2.id)

/-- Under a rule for their artifact, versions that features bring in one after another never fail to
merge, and its policy tells what is left. -/
theorem mergeSeries_leaves (hseries : IsSeries id series) (hne : series ≠ [])
    (hfor : rule.isFor id = true) (happlicable : rule.policy.IsApplicable) :
    ∃ r, mergeSeries [rule] series = done r ∧ Leaves id series r rule.policy := by
  by_cases hpolicy : rule.policy = .all
  · obtain ⟨l, hl, hlists⟩ := mergeSeries_of_keepsBoth hfor hpolicy hseries
    rw [hpolicy]
    exact ⟨l, hl, hlists.keys, hlists.origins hseries⟩
  · have hone := fun P => mergeSeries_of_choice P hfor hpolicy happlicable hseries hne
    cases hp : rule.policy with
    | all => exact absurd hp hpolicy
    | latest =>
      rw [hp] at hone
      obtain ⟨a, ha, hpools, hid, hlast⟩ := hone IsLast (fun x _ => isLast_singleton x)
        (fun front x e _ _ _ => isLast_concat front x e)
      exact ⟨[a], ha, a, rfl, hid, hpools, hlast⟩
    | highest =>
      rw [hp] at hone
      obtain ⟨a, ha, hpools, hid, hgreatest⟩ := hone
        (fun series a => (∀ x ∈ series, (Version.ofText? x.2.id.version).isSome) →
          IsFirstGreatest series a)
        (fun x _ _ => isFirstGreatest_singleton x)
        (fun front x e _ _ h hread =>
          (h fun y hy => hread y (List.mem_append_left _ hy)).concat hread)
      exact ⟨[a], ha, a, rfl, hid, hpools, hgreatest⟩
    | version v =>
      rw [hp] at hone
      obtain ⟨a, ha, hpools, hid, hfixed⟩ := hone (IsFixed v) (fun x _ => isFixed_singleton v x)
        (fun front x e hfront hid h => h.concat hfront hid)
      exact ⟨[a], ha, a, rfl, hid, hpools, hfixed.version, hfixed.id_of_same⟩

end
end Artifacts

namespace Sample

def editions : List (Coordinate × Artifact) :=
  [(id "f", lib "9" []), (id "k", { lib "10" [] with startOrder := 7 }),
    (id "m", { lib "10.0" [] with startOrder := 4 })]

theorem editions_isSeries : Artifacts.IsSeries (edition "9") editions where
  features := by decide
  identity := by decide
  aliases := by decide
  origins := by decide

end Sample

theorem Artifacts.mergeSeries_editions_leaves :
    IsSeries (Sample.edition "9") Sample.editions ∧ Sample.editions ≠ [] ∧
    ∃ r, mergeSeries [.catchAll .highest] Sample.editions = done r ∧
      Leaves (Sample.edition "9") Sample.editions r .highest ∧
      r = [{ Sample.lib "10" [Sample.id "f", Sample.id "k", Sample.id "m"] with startOrder := 4 }] := by
  have hne : Sample.editions ≠ [] := by decide
  have hfor : (OverrideRule.catchAll .highest).isFor (Sample.edition "9") = true := rfl
  obtain ⟨r, hr, hleaves⟩ := mergeSeries_leaves Sample.editions_isSeries hne hfor
    fun v h => OverridePolicy.noConfusion h
  refine ⟨Sample.editions_isSeries, hne, r, hr, hleaves, ?_⟩
  have hvalue : (mergeSeries [.catchAll .highest] Sample.editions).value = r := by rw [hr]; rfl
  rw [← hvalue]
  decide

end FeatureAssembly
