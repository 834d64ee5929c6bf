import FeatureAssembly.Proofs.PolicyOutcome
import FeatureAssembly.Proofs.RuleTexts
import Mathlib.Data.List.Dedup
import Mathlib.Data.List.Perm.Subperm

/-! Following the hints of clashes. A clash names the shape of a rule for its incoming artifact; with a
keyword filled in, the hint is the text of a rule that is for it. A merge that is repeated with such
rules never clashes about an artifact again that it has had a hint for, so that it succeeds once every
artifact of its source has had one. -/

namespace FeatureAssembly
open Outcome Text

namespace OverridePolicy

def keywords : List OverridePolicy := [.all, .highest, .latest]

variable {p : OverridePolicy}

theorem mem_keywords : p ∈ keywords ↔ p = .all ∨ p = .highest ∨ p = .latest := by
  simp [keywords]

section
variable (hp : p ∈ keywords)
include hp

theorem ne_version_of_keyword (v : String) : p ≠ .version v := by
  rcases mem_keywords.mp hp with rfl | rfl | rfl
  · exact nofun
  · exact nofun
  · exact nofun

theorem text_of_keyword : p.text ≠ "" ∧ Coordinate.isPlain p.text := by
  rcases mem_keywords.mp hp with rfl | rfl | rfl
  · decide
  · decide
  · decide

theorem ofText?_text_of_keyword : ofText? p.text = some p := by
  rcases mem_keywords.mp hp with rfl | rfl | rfl
  · decide
  · decide
  · decide

end
end OverridePolicy

namespace OverrideRule

def alternatives : String := "(ALL|HIGHEST|LATEST|<version>)"

def IsFilling (hint s : String) (p : OverridePolicy) : Prop :=
  ∃ stem, hint = stem ++ alternatives ∧ s = stem ++ p.text

def ofHint (a : Coordinate) (p : OverridePolicy) : OverrideRule :=
  ⟨a.group, a.artifact, a.type, some (a.classifier.getD wildcard), p⟩

variable {a : Coordinate} {p : OverridePolicy}

theorem isFilling_hint_iff {s : String} : IsFilling (hint a) s p ↔ s = (ofHint a p).text := by
  have hstem : ∃ stem, hint a = stem ++ alternatives ∧ (ofHint a p).text = stem ++ p.text := by
    refine ⟨a.group ++ ":" ++ a.artifact ++ ":" ++ a.type ++ ":" ++ a.classifier.getD wildcard ++ ":",
      ?_, ?_⟩
    · have hend : ":(ALL|HIGHEST|LATEST|<version>)" = ":" ++ alternatives := rfl
      rw [hint, hend, ← String.append_assoc]
    · rfl
  obtain ⟨stem, hhint, htext⟩ := hstem
  constructor
  · rintro ⟨stem', hhint', rfl⟩
    rw [hhint, String.append_left_inj] at hhint'
    rw [← hhint', htext]
  · rintro rfl
    exact ⟨stem, hhint, htext⟩

theorem isFor_ofHint (a : Coordinate) (p : OverridePolicy) : (ofHint a p).isFor a = true := by
  have hclassifier : matchesClassifier (some (a.classifier.getD wildcard)) a.classifier = true := by
    cases a.classifier with
    | none => rfl
    | some c => simp [matchesClassifier, matchesField]
  simp [isFor, ofHint, matchesField, hclassifier]

theorem isPart_of_isPlain {s : String} (hne : s ≠ "") (h : Coordinate.isPlain s) : IsPart s := by
  refine ⟨?_, (Coordinate.separators_of_isPlain h).1⟩
  rwa [Coordinate.trim_of_isPlain h]

theorem isReadable_ofHint (ha : a.WellFormed) (hp : p ∈ OverridePolicy.keywords) :
    (ofHint a p).IsReadable := by
  have hclassifier : IsPart (a.classifier.getD wildcard) := by
    cases hc : a.classifier with
    | none => exact ⟨by decide, by decide⟩
    | some c => exact isPart_of_isPlain (ha.classifier c hc).1 (ha.classifier c hc).2
  have hpolicy := OverridePolicy.text_of_keyword hp
  constructor
  · simp only [parts, ofHint, Option.toList_some, List.singleton_append, List.forall_mem_cons]
    exact ⟨isPart_of_isPlain ha.group.1 ha.group.2, isPart_of_isPlain ha.artifact.1 ha.artifact.2,
      isPart_of_isPlain ha.type.1 ha.type.2.1, hclassifier, isPart_of_isPlain hpolicy.1 hpolicy.2,
      fun _ h => absurd h List.not_mem_nil⟩
  · exact dropWhile_of_forall (Coordinate.isBlank_of_isPlain ha.group.2)
  · exact ha.type.2.2
  · exact OverridePolicy.ofText?_text_of_keyword hp
  · exact Coordinate.trim_of_isPlain hpolicy.2

theorem parse_text_ofHint (ha : a.WellFormed) (hp : p ∈ OverridePolicy.keywords) :
    parse (ofHint a p).text = .ok (ofHint a p) :=
  parse_eq_ok_iff.mpr (isReadable_ofHint ha hp).ofText?_text

end OverrideRule

namespace Artifacts
open OverrideRule
open OverridePolicy (keywords)

section
variable (origin : Coordinate) (target source : List Artifact) (start : List OverrideRule)

/-- Rounds of one merge, each of which ends with a clash and adds a rule that the hint of this clash
gives. `hinted` are the artifacts that had a hint, and `rules` the rules after these rounds. -/
inductive Rounds : (hinted : List Coordinate) → (rules : List OverrideRule) → Prop where
  | start : Rounds [] start
  | next {hinted rules existing incoming s p rule} : Rounds hinted rules →
      (merge rules origin target source).fault = some (.artifactClash existing incoming) →
      p ∈ keywords → IsFilling (hint incoming) s p → parse s = .ok rule →
      Rounds (hinted ++ [incoming]) (rules ++ [rule])

/-- How the next round goes after those for `hinted`: the merge succeeds, or it clashes about an
artifact that has had no hint, and whichever keyword is filled into the hint, the text is that of a
rule for this artifact. -/
inductive NextRound (hinted : List Coordinate) (rules : List OverrideRule) : Prop where
  | success {r} (merged : merge rules origin target source = done r)
  | clash {existing incoming}
      (fault : (merge rules origin target source).fault = some (.artifactClash existing incoming))
      (fresh : incoming.identity ∉ hinted.map Coordinate.identity)
      (fewer : hinted.length < (identities source).dedup.length)
      (readable : ∀ p ∈ keywords, ∃ s rule, (∀ t, IsFilling (hint incoming) t p ↔ t = s) ∧
        parse s = .ok rule ∧ rule.isFor incoming = true ∧ rule.policy = p)

end

section
variable {origin : Coordinate} {target source : List Artifact} {start rules : List OverrideRule}
  {hinted : List Coordinate} {e : MergeError}

theorem exists_clash_of_keywords (hrules : ∀ rule ∈ rules, rule.policy ∈ keywords)
    (h : (merge rules origin target source).fault = some e) :
    ∃ existing, ∃ a ∈ source, e = .artifactClash existing a.id ∧
      ∀ rule ∈ rules, rule.isFor a.id = false := by
  obtain ⟨before, after, q, a, x, hstops⟩ := exists_stopsAt h
  cases hstops.refused with
  | clash unmatched =>
    exact ⟨x.id, a, hstops.mem_source, rfl, fun rule hr => (unmatched rule hr).2⟩
  | version found fixed =>
    exact absurd fixed (OverridePolicy.ne_version_of_keyword (hrules _ (mem_of_find? found)) _)

structure FollowsHints (source : List Artifact) (hinted : List Coordinate)
    (rules : List OverrideRule) : Prop where
  keywords : ∀ rule ∈ rules, rule.policy ∈ keywords
  covered : ∀ a ∈ hinted, ∃ rule ∈ rules, rule.isFor a = true
  identities : ∀ a ∈ hinted, a.identity ∈ identities source
  nodup : (hinted.map Coordinate.identity).Nodup

namespace FollowsHints
variable (h : FollowsHints source hinted rules)
include h

theorem fresh {a : Coordinate} (hunmatched : ∀ rule ∈ rules, rule.isFor a = false) :
    a.identity ∉ hinted.map Coordinate.identity := by
  intro hmem
  obtain ⟨b, hb, hidentity⟩ := List.mem_map.mp hmem
  obtain ⟨rule, hrule, hfor⟩ := h.covered b hb
  rw [rule.isFor_congr hidentity, hunmatched rule hrule] at hfor
  cases hfor

theorem next {a : Coordinate} {p : OverridePolicy} (hp : p ∈ OverridePolicy.keywords)
    (ha : a.identity ∈ Artifacts.identities source)
    (hunmatched : ∀ rule ∈ rules, rule.isFor a = false) :
    FollowsHints source (hinted ++ [a]) (rules ++ [ofHint a p]) where
  keywords rule hrule := by
    rcases List.mem_append.mp hrule with hrule | hrule
    · exact h.keywords rule hrule
    · rwa [List.mem_singleton.mp hrule]
  covered b hb := by
    rcases List.mem_append.mp hb with hb | hb
    · obtain ⟨rule, hrule, hfor⟩ := h.covered b hb
      exact ⟨rule, List.mem_append_left _ hrule, hfor⟩
    · rw [List.mem_singleton.mp hb]
      exact ⟨_, List.mem_append_right _ (List.mem_singleton_self _), isFor_ofHint a p⟩
  identities b hb := by
    rcases List.mem_append.mp hb with hb | hb
    · exact h.identities b hb
    · rwa [List.mem_singleton.mp hb]
  nodup := by
    rw [List.map_append, List.map_singleton]
    refine h.nodup.append (List.nodup_singleton _) ?_
    rw [List.disjoint_singleton]
    exact h.fresh hunmatched

theorem length_le : hinted.length ≤ (Artifacts.identities source).dedup.length := by
  have hsubset : hinted.map Coordinate.identity ⊆ (Artifacts.identities source).dedup := by
    intro k hk
    obtain ⟨a, ha, rfl⟩ := List.mem_map.mp hk
    exact List.mem_dedup.mpr (h.identities a ha)
  have hle := (List.subperm_of_subset h.nodup hsubset).length_le
  rwa [List.length_map] at hle

end FollowsHints

/-- One round keeps the invariant, since the artifact it ends at is none that had a hint. -/
theorem Rounds.followsHints (hsource : ∀ a ∈ source, a.id.WellFormed)
    (hstart : ∀ rule ∈ start, rule.policy ∈ keywords)
    (h : Rounds origin target source start hinted rules) : FollowsHints source hinted rules := by
  induction h with
  | start =>
    exact ⟨hstart, fun _ h => absurd h List.not_mem_nil, fun _ h => absurd h List.not_mem_nil,
      List.nodup_nil⟩
  | next _ hfault hp hfilling hparse ih =>
    obtain ⟨existing, a, ha, hclash, hunmatched⟩ := exists_clash_of_keywords ih.keywords hfault
    obtain ⟨-, rfl⟩ := MergeError.artifactClash.inj hclash
    rw [isFilling_hint_iff.mp hfilling, parse_text_ofHint (hsource a ha) hp] at hparse
    rw [← Except.ok.inj hparse]
    exact ih.next hp (List.mem_map_of_mem ha) hunmatched

theorem FollowsHints.nextRound (h : FollowsHints source hinted rules)
    (hsource : ∀ a ∈ source, a.id.WellFormed) : NextRound origin target source hinted rules := by
  cases hm : (merge rules origin target source).fault with
  | none => exact .success (eq_done_of_fault hm)
  | some e =>
    obtain ⟨existing, a, ha, rfl, hunmatched⟩ := exists_clash_of_keywords h.keywords hm
    have hidentity : a.id.identity ∈ Artifacts.identities source := List.mem_map_of_mem ha
    have hnext := h.next (p := .all) (by decide) hidentity hunmatched
    have hfewer : hinted.length < (Artifacts.identities source).dedup.length := by
      have hlength := hnext.length_le
      rwa [List.length_append, List.length_singleton] at hlength
    refine .clash hm (h.fresh hunmatched) hfewer fun p hp => ?_
    exact ⟨_, _, fun _ => isFilling_hint_iff, parse_text_ofHint (hsource a ha) hp,
      isFor_ofHint a.id p, rfl⟩

/-- Following the hints of a merge converges. In any number of rounds no artifact has had two hints; the
next round succeeds or ends with a hint about another artifact of the source, and once all of them have
had one it succeeds. -/
theorem hints_converge (hstart : ∀ rule ∈ start, rule.policy ∈ keywords)
    (hsource : ∀ a ∈ source, a.id.WellFormed)
    (h : Rounds origin target source start hinted rules) :
    FollowsHints source hinted rules ∧ NextRound origin target source hinted rules ∧
      hinted.length ≤ (identities source).dedup.length ∧
      (hinted.length = (identities source).dedup.length →
        ∃ r, merge rules origin target source = done r) := by
  have hfollows := h.followsHints hsource hstart
  have hnext : NextRound origin target source hinted rules := hfollows.nextRound hsource
  refine ⟨hfollows, hnext, hfollows.length_le, fun hall => ?_⟩
  cases hnext with
  | success merged => exact ⟨_, merged⟩
  | clash fault fresh fewer readable => exact absurd hall fewer.ne

end
end Artifacts

namespace Sample

def present : List Artifact := [lib "1" [], tool "1"]

def incoming : List Artifact := [lib "2" [], tool "2"]

theorem wellFormed_incoming : ∀ a ∈ incoming, a.id.WellFormed := by
  intro a ha
  rcases List.mem_pair.mp ha with rfl | rfl
  · exact wellFormed_edition (by decide) (by decide)
  · exact
      { group := by decide
        artifact := by decide
        version := by decide
        classifier := fun _ hc => nomatch hc
        type := by decide }

end Sample

theorem Artifacts.hints_of_incoming : ∃ hinted rules,
    Rounds (Sample.id "f") Sample.present Sample.incoming [] hinted rules ∧
      (∀ a ∈ Sample.incoming, a.id.WellFormed) ∧ hinted = ids Sample.incoming ∧
      ∃ r, merge rules (Sample.id "f") Sample.present Sample.incoming = done r := by
  have hread : ∀ a ∈ Sample.incoming, ∀ p ∈ OverridePolicy.keywords,
      OverrideRule.parse (OverrideRule.ofHint a.id p).text = .ok (OverrideRule.ofHint a.id p) :=
    fun a ha p hp => OverrideRule.parse_text_ofHint (Sample.wellFormed_incoming a ha) hp
  have hfirst : Rounds (Sample.id "f") Sample.present Sample.incoming [] [(Sample.lib "2" []).id]
      [.ofHint (Sample.lib "2" []).id .latest] :=
    .next .start rfl (by decide) (OverrideRule.isFilling_hint_iff.mpr rfl)
      (hread (Sample.lib "2" []) (by decide) .latest (by decide))
  have hsecond : Rounds (Sample.id "f") Sample.present Sample.incoming []
      [(Sample.lib "2" []).id, (Sample.tool "2").id]
      [.ofHint (Sample.lib "2" []).id .latest, .ofHint (Sample.tool "2").id .all] :=
    .next hfirst rfl (by decide) (OverrideRule.isFilling_hint_iff.mpr rfl)
      (hread (Sample.tool "2") (by decide) .all (by decide))
  obtain ⟨-, -, -, hsucceeds⟩ := hints_converge (fun _ h => absurd h List.not_mem_nil)
    Sample.wellFormed_incoming hsecond
  exact ⟨_, _, hsecond, Sample.wellFormed_incoming, rfl, hsucceeds (by decide)⟩

end FeatureAssembly
