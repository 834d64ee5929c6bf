import FeatureAssembly.Proofs.MergeFrame

/-! How a merge of artifacts fails. Two versions that meet are refused if no rule is for either of them,
or if the rule fixes a version that no coordinate can have. A merge meets such a pair before it changes
anything for the artifact at hand, so that it stops between two artifacts of its source. -/

namespace FeatureAssembly
open Outcome

theorem OverrideRule.find?_eq_none_iff {rules : List OverrideRule} {existing incoming : Coordinate} :
    find? rules existing incoming = none ↔
      ∀ rule ∈ rules, rule.isFor existing = false ∧ rule.isFor incoming = false := by
  unfold find?
  split
  · next rule hfound =>
    have hfor : rule.isFor incoming = true := by simpa using List.find?_some hfound
    have hmem : rule ∈ rules := List.mem_of_find?_eq_some hfound
    refine ⟨(nomatch ·), fun h => ?_⟩
    rw [(h rule hmem).2] at hfor
    cases hfor
  · next hnone =>
    rw [List.find?_eq_none] at hnone ⊢
    have hincoming : ∀ rule ∈ rules, rule.isFor incoming = false :=
      fun rule hr => Bool.eq_false_iff.mpr (hnone rule hr)
    constructor
    · intro h rule hr
      exact ⟨Bool.eq_false_iff.mpr (h rule hr), hincoming rule hr⟩
    · intro h rule hr
      exact Bool.eq_false_iff.mp (h rule hr).1

theorem OverridePolicy.select_eq_synthesized_iff {policy : OverridePolicy}
    {existing incoming : Coordinate} {v : String} :
    policy.select existing incoming = .synthesized v ↔
      policy = .version v ∧ existing.version ≠ v ∧ incoming.version ≠ v := by
  constructor
  · intro h
    obtain rfl := eq_version_of_select h
    rw [select] at h
    split_ifs at h with hexisting hincoming
    exact ⟨rfl, hexisting, hincoming⟩
  · rintro ⟨rfl, hexisting, hincoming⟩
    rw [select, if_neg hexisting, if_neg hincoming]

namespace Artifacts

inductive Refuses (rules : List OverrideRule) (existing incoming : Coordinate) : MergeError → Prop where
  | clash (unmatched : ∀ rule ∈ rules, rule.isFor existing = false ∧ rule.isFor incoming = false) :
      Refuses rules existing incoming (.artifactClash existing incoming)
  | version {rule v error} (found : OverrideRule.find? rules existing incoming = some rule)
      (fixed : rule.policy = .version v) (other : existing.version ≠ v ∧ incoming.version ≠ v)
      (invalid : incoming.changeVersion v = .error error) :
      Refuses rules existing incoming (.coordinate error)

section
variable {rules : List OverrideRule} {origin : Coordinate} {p : Progress}
  {existing incoming : Artifact} {e : MergeError}

theorem settle_eq_error_iff :
    settle rules existing incoming = .error e ↔ Refuses rules existing.id incoming.id e := by
  constructor
  · intro h
    unfold settle at h
    split at h
    · next hnone =>
      rw [← Except.error.inj h]
      exact .clash (OverrideRule.find?_eq_none_iff.mp hnone)
    · next rule hrule =>
      split at h
      · cases h
      · cases h
      · cases h
      · next v hselect =>
        obtain ⟨hpolicy, hother⟩ := OverridePolicy.select_eq_synthesized_iff.mp hselect
        split at h
        · cases h
        · next error herror =>
          rw [← Except.error.inj h]
          exact .version hrule hpolicy hother herror
  · rintro (hnone | ⟨hrule, hpolicy, hother, herror⟩)
    · rw [settle, OverrideRule.find?_eq_none_iff.mpr hnone]
    · have hselect := OverridePolicy.select_eq_synthesized_iff.mpr ⟨hpolicy, hother⟩
      simp only [settle, hrule, hselect, herror]

theorem meet_eq_error_iff {sameSource : Bool} :
    meet rules sameSource existing incoming = .error e ↔ existing.id ≠ incoming.id ∧
      sameSource = false ∧ Refuses rules existing.id incoming.id e := by
  rw [← settle_eq_error_iff, meet]
  split_ifs with hid hsame
  · simp [hid]
  · simp [hsame]
  · simp [hid, hsame]

theorem exists_of_meetAll_eq_error {sameSource : Artifact → Bool} {matched : List Artifact}
    (h : meetAll rules sameSource incoming matched = .error e) :
    ∃ x ∈ matched, meet rules (sameSource x) x incoming = .error e := by
  induction matched with
  | nil => cases h
  | cons x rest ih =>
    rw [meetAll] at h
    split at h
    · next e' hx =>
      rw [Except.error.inj h] at hx
      exact ⟨x, List.mem_cons_self .., hx⟩
    · split at h
      · next e' hrest =>
        rw [Except.error.inj h] at hrest
        obtain ⟨y, hy, hmeet⟩ := ih hrest
        exact ⟨y, List.mem_cons_of_mem _ hy, hmeet⟩
      · cases h

structure Obstructs (rules : List OverrideRule) (origin : Coordinate) (p : Progress)
    (incoming x : Artifact) (e : MergeError) : Prop where
  present : x ∈ p.artifacts
  isSame : x.isSame incoming = true
  version : x.id ≠ incoming.id
  foreign : p.sameSource origin x = false
  refused : Refuses rules x.id incoming.id e

theorem exists_obstructs (h : mergeIncoming rules origin p incoming = .error e) :
    ∃ x, Obstructs rules origin p incoming x e := by
  unfold mergeIncoming at h
  split at h
  · cases h
  · dsimp only at h
    split at h
    · next e' hmeet =>
      rw [Except.error.inj h] at hmeet
      obtain ⟨x, hx, herror⟩ := exists_of_meetAll_eq_error hmeet
      obtain ⟨hmem, hsame⟩ := List.mem_filter.mp hx
      obtain ⟨hid, hforeign, hrefused⟩ := meet_eq_error_iff.mp herror
      exact ⟨x, hmem, hsame, hid, hforeign, hrefused⟩
    · cases h

theorem mergeOne_of_fault {a : Artifact} (h : (mergeOne rules origin p a).fault = some e) :
    mergeOne rules origin p a = failed p e ∧
      ∃ x, Obstructs rules origin p (a.stamped origin) x e := by
  unfold mergeOne at h ⊢
  cases hm : mergeIncoming rules origin p (a.stamped origin) with
  | ok q =>
    rw [hm] at h
    cases h
  | error e' =>
    rw [hm] at h
    obtain rfl : e' = e := Option.some.inj h
    exact ⟨rfl, exists_obstructs hm⟩

end

/-! Whole merges. -/

section
variable {rules : List OverrideRule} {origin : Coordinate} {target source before after : List Artifact}
  {p : Progress} {a x : Artifact} {e : MergeError}

/-- Where a merge that fails with `e` stops: in the state `p` that merging `before` has led to, the
artifact `a` is refused because of `x`. -/
structure StopsAt (rules : List OverrideRule) (origin : Coordinate) (target source : List Artifact)
    (e : MergeError) (before after : List Artifact) (p : Progress) (a x : Artifact) : Prop where
  source_eq : source = before ++ a :: after
  reached : each (mergeOne rules origin) ⟨target, []⟩ before = done p
  stopped : mergeOne rules origin p a = failed p e
  obstructs : Obstructs rules origin p (a.stamped origin) x e

theorem exists_stopsAt (h : (merge rules origin target source).fault = some e) :
    ∃ before after p a x, StopsAt rules origin target source e before after p a x := by
  have hrun : (each (mergeOne rules origin) ⟨target, []⟩ source).fault = some e := h
  obtain ⟨before, a, after, p, hsource, hbefore, hfault, -⟩ := exists_of_fault_each hrun
  obtain ⟨hstopped, x, hx⟩ := mergeOne_of_fault hfault
  exact ⟨before, after, p, a, x, hsource, hbefore, hstopped, hx⟩

namespace StopsAt
variable (h : StopsAt rules origin target source e before after p a x)
include h

theorem mem_source : a ∈ source := by
  rw [h.source_eq]
  simp

theorem refused : Refuses rules x.id a.id e := by
  have hrefused := h.obstructs.refused
  rwa [Artifact.id_stamped] at hrefused

theorem merge_before : merge rules origin target before = done p.artifacts := by
  rw [merge, h.reached]
  rfl

theorem merge_append (rest : List Artifact) :
    merge rules origin target (before ++ a :: rest) = failed p.artifacts e := by
  rw [merge, each_append, h.reached, done_andThen, each_cons, h.stopped]
  rfl

end StopsAt

/-- A merge that fails has merged the artifacts before some artifact of its source, and leaves what
those alone would have made of the target; with that artifact it fails, whatever follows. If the
fault is a clash, the present version is still there, and no rule is for either of the two. -/
theorem merge_stops_between (h : (merge rules origin target source).fault = some e) :
    ∃ before a after r, source = before ++ a :: after ∧
      merge rules origin target before = done r ∧
      merge rules origin target source = failed r e ∧
      merge rules origin target (before ++ [a]) = failed r e ∧
      ∀ existing incoming, e = .artifactClash existing incoming →
        incoming = a.id ∧ existing ≠ incoming ∧
        (∃ x ∈ r, x.id = existing ∧ x.isSame a = true) ∧
        ∀ rule ∈ rules, rule.isFor existing = false ∧ rule.isFor incoming = false := by
  obtain ⟨before, after, p, a, x, hstops⟩ := exists_stopsAt h
  have hwhole := hstops.merge_append after
  rw [← hstops.source_eq] at hwhole
  refine ⟨before, a, after, p.artifacts, hstops.source_eq, hstops.merge_before, hwhole,
    hstops.merge_append [], ?_⟩
  rintro existing incoming rfl
  have hsame : x.isSame a = true := by
    rw [← Artifact.isSame_stamped x a origin]
    exact hstops.obstructs.isSame
  have hversion : x.id ≠ a.id := by
    rw [← Artifact.id_stamped a origin]
    exact hstops.obstructs.version
  cases hstops.refused with
  | clash unmatched =>
    exact ⟨rfl, hversion, ⟨x, hstops.obstructs.present, rfl, hsame⟩, unmatched⟩

end
end Artifacts

namespace Sample

def old : Artifact := Artifact.ofId (id "old")

def renamed : Artifact := { lib "2" [] with aliases := [old.id] }

end Sample

theorem Artifacts.merge_renamed_stops_between :
    ∃ r e, merge [.make "g" "old" "jar" none .latest] (Sample.id "f") [Sample.old, Sample.lib "1" []]
        [Artifact.ofId (Sample.id "guide"), Sample.renamed] = failed r e ∧
      e = .artifactClash (Sample.lib "1" []).id (Sample.lib "2" []).id ∧
      ids r = ids [Sample.old, Sample.lib "1" [], Artifact.ofId (Sample.id "guide")] := by
  have hfault : (merge [.make "g" "old" "jar" none .latest] (Sample.id "f")
      [Sample.old, Sample.lib "1" []] [Artifact.ofId (Sample.id "guide"), Sample.renamed]).fault =
        some (.artifactClash (Sample.lib "1" []).id (Sample.lib "2" []).id) := rfl
  obtain ⟨before, a, after, r, -, -, hwhole, -, -⟩ := merge_stops_between hfault
  have hids : ids r = ids (merge [.make "g" "old" "jar" none .latest] (Sample.id "f")
      [Sample.old, Sample.lib "1" []] [Artifact.ofId (Sample.id "guide"), Sample.renamed]).value := by
    rw [hwhole, value_failed]
  exact ⟨r, _, hwhole, rfl, hids⟩

end FeatureAssembly
