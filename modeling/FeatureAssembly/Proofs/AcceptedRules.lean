import FeatureAssembly.Proofs.CoordinateForms
import FeatureAssembly.Proofs.MergeFaults

/-! Rules that were read from texts. The reader takes any text for a version that is not blank, no
keyword and no wildcard, but a coordinate takes only one without separators and blanks inside. A rule
with another version is accepted and fails once it has to settle a clash; all other rules settle the
clashes they are for, so that a merge by them fails only where no rule is for a clash. -/

namespace FeatureAssembly
open Outcome Text

theorem Coordinate.changeVersion_of_trimmed {v : String} (hne : v ≠ "") (htrim : trim v = v)
    (a : Coordinate) : a.changeVersion v =
      if isPlain v then .ok { a with version := v } else .error (.invalidCharacter .version v) := by
  have hrequired : required .version v = checked .version v := by
    rw [required, htrim, if_neg hne]
  rw [changeVersion, hrequired, checked]
  split_ifs <;> rfl

namespace OverridePolicy

theorem ofText?_eq_none_iff {s : String} : ofText? s = none ↔ trim s = "" ∨ trim s = wildcard := by
  unfold ofText?
  dsimp only
  split
  · next h => exact ⟨fun _ => h, fun _ => rfl⟩
  · next h =>
    refine ⟨fun hnone => ?_, fun hblank => absurd hblank h⟩
    split_ifs at hnone

theorem text_of_ofText? {s : String} {p : OverridePolicy} (h : ofText? s = some p) :
    p.text = trim s := by
  unfold ofText? at h
  dsimp only at h
  split_ifs at h with _ hall hhighest hlatest
  · exact Option.some.inj h ▸ hall.symm
  · exact Option.some.inj h ▸ hhighest.symm
  · exact Option.some.inj h ▸ hlatest.symm
  · exact Option.some.inj h ▸ rfl

theorem ofText?_trim (s : String) : ofText? (trim s) = ofText? s := by
  rw [ofText?, ofText?, trim_trim]

theorem ofText?_eq_version {s v : String} (h : ofText? s = some (.version v)) :
    v ≠ "" ∧ trim v = v := by
  have htext : v = trim s := text_of_ofText? h
  have hfilled : ¬ (trim s = "" ∨ trim s = wildcard) := by
    rw [← ofText?_eq_none_iff, h]
    exact Option.some_ne_none _
  rw [htext]
  exact ⟨fun hempty => hfilled (.inl hempty), trim_trim s⟩

end OverridePolicy

namespace OverrideRule

theorem parse_eq_ok_iff {s : String} {rule : OverrideRule} :
    parse s = .ok rule ↔ ofText? s = some rule := by
  unfold parse
  cases ofText? s with
  | none => simp
  | some r => simp

def IsAccepted (rule : OverrideRule) : Prop := ∃ s, parse s = .ok rule

namespace IsAccepted
variable {rule : OverrideRule}

theorem exists_policy (h : rule.IsAccepted) : ∃ t, OverridePolicy.ofText? t = some rule.policy := by
  obtain ⟨s, hs⟩ := h
  have hread := parse_eq_ok_iff.mp hs
  have hpolicy : ∀ {t} {f : OverridePolicy → OverrideRule}, (∀ p, (f p).policy = p) →
      (OverridePolicy.ofText? t).map f = some rule → OverridePolicy.ofText? t = some rule.policy := by
    intro t f hf hmap
    obtain ⟨p, hp, rfl⟩ := Option.map_eq_some_iff.mp hmap
    rw [hp, hf]
  unfold ofText? at hread
  dsimp only at hread
  split at hread
  · cases hread
  · unfold ofParts? at hread
    split at hread
    · exact ⟨_, hpolicy (fun _ => rfl) hread⟩
    · exact ⟨_, hpolicy (fun _ => rfl) hread⟩
    · exact ⟨_, hpolicy (fun _ => rfl) hread⟩
    · cases hread

theorem changeVersion (h : rule.IsAccepted) {v : String} (hv : rule.policy = .version v)
    (a : Coordinate) : a.changeVersion v = if Coordinate.isPlain v then .ok { a with version := v }
      else .error (.invalidCharacter .version v) := by
  obtain ⟨t, ht⟩ := h.exists_policy
  rw [hv] at ht
  obtain ⟨hne, htrim⟩ := OverridePolicy.ofText?_eq_version ht
  exact Coordinate.changeVersion_of_trimmed hne htrim a

end IsAccepted
end OverrideRule

namespace Artifacts
variable {rules : List OverrideRule}

/-- What a rule that fixes a version makes of a clash between two other ones. -/
def fixedOrRefused (v : String) (existing incoming : Artifact) : Except MergeError Survivors :=
  if Coordinate.isPlain v then
    .ok ⟨[], [(incoming.copy { incoming.id with version := v }).combine existing incoming]⟩
  else .error (.coordinate (.invalidCharacter .version v))

theorem settle_eq_fixedOrRefused {existing incoming : Artifact} {rule : OverrideRule} {v : String}
    (hrule : rule.IsAccepted) (hfound : OverrideRule.find? rules existing.id incoming.id = some rule)
    (hfixed : rule.policy = .version v)
    (hother : existing.id.version ≠ v ∧ incoming.id.version ≠ v) :
    settle rules existing incoming = fixedOrRefused v existing incoming := by
  have hselect := OverridePolicy.select_eq_synthesized_iff.mpr ⟨hfixed, hother⟩
  have hversion := hrule.changeVersion hfixed incoming.id
  simp only [settle, hfound, hselect, hversion, fixedOrRefused]
  split_ifs <;> rfl

theorem Refuses.of_accepted {existing incoming : Coordinate} {e : MergeError}
    (h : Refuses rules existing incoming e) (hrules : ∀ rule ∈ rules, rule.IsAccepted) :
    e = .artifactClash existing incoming ∨ ∃ rule ∈ rules, ∃ v, rule.policy = .version v ∧
      Coordinate.isPlain v = false ∧ e = .coordinate (.invalidCharacter .version v) := by
  rcases h with hclash | @⟨rule, v, error, hfound, hfixed, -, hinvalid⟩
  · exact .inl rfl
  · have hmem := OverrideRule.mem_of_find? hfound
    rw [(hrules rule hmem).changeVersion hfixed] at hinvalid
    split_ifs at hinvalid with hplain
    rw [← Except.error.inj hinvalid]
    exact .inr ⟨rule, hmem, v, hfixed, Bool.eq_false_iff.mpr hplain, rfl⟩

/-- A merge by accepted rules fails with a clash, or because one of them fixes a version with separators
or blanks in it. Wherever such a rule has to settle a clash between two other versions it is refused,
and wherever a rule that fixes a proper version has to, that version takes the place of both. -/
theorem accepted_rules_fail_on_versions (hrules : ∀ rule ∈ rules, rule.IsAccepted) :
    (∀ origin target source e, (merge rules origin target source).fault = some e →
      (∃ existing incoming, e = .artifactClash existing incoming) ∨
        ∃ rule ∈ rules, ∃ v, rule.policy = .version v ∧ Coordinate.isPlain v = false ∧
          e = .coordinate (.invalidCharacter .version v)) ∧
      ∀ (existing incoming : Artifact) rule v,
        OverrideRule.find? rules existing.id incoming.id = some rule → rule.policy = .version v →
          existing.id.version ≠ v ∧ incoming.id.version ≠ v →
            settle rules existing incoming = fixedOrRefused v existing incoming := by
  constructor
  · intro origin target source e h
    obtain ⟨before, after, p, a, x, hstops⟩ := exists_stopsAt h
    exact (hstops.refused.of_accepted hrules).imp_left fun hclash => ⟨_, _, hclash⟩
  · intro existing incoming rule v hfound hfixed hother
    have hrule := hrules rule (OverrideRule.mem_of_find? hfound)
    exact settle_eq_fixedOrRefused hrule hfound hfixed hother

end Artifacts

namespace Sample

def fixing : List OverrideRule :=
  [.make "g" "lib" "jar" none (.version "3 beta"), .make "g" "tool" "jar" none (.version "3")]

def tool (version : String) : Artifact := Artifact.ofId { id "tool" with version }

end Sample

theorem Artifacts.fixing_rules_settle : (∀ rule ∈ Sample.fixing, rule.IsAccepted) ∧
    settle Sample.fixing (Sample.lib "1" []) (Sample.lib "2" []) =
      .error (.coordinate (.invalidCharacter .version "3 beta")) ∧
    settle Sample.fixing (Sample.tool "1") (Sample.tool "2") = .ok ⟨[], [Sample.tool "3"]⟩ := by
  have hlib : OverrideRule.ofText? "g:lib:3 beta" =
      some (.make "g" "lib" "jar" none (.version "3 beta")) := by decide
  have htool : OverrideRule.ofText? "g:tool:3" =
      some (.make "g" "tool" "jar" none (.version "3")) := by decide
  have haccepted : ∀ rule ∈ Sample.fixing, rule.IsAccepted := by
    intro rule hrule
    rcases List.mem_pair.mp hrule with rfl | rfl
    · exact ⟨_, OverrideRule.parse_eq_ok_iff.mpr hlib⟩
    · exact ⟨_, OverrideRule.parse_eq_ok_iff.mpr htool⟩
  obtain ⟨-, hsettle⟩ := accepted_rules_fail_on_versions haccepted
  refine ⟨haccepted, ?_, ?_⟩
  · exact hsettle _ _ _ "3 beta" rfl rfl (by decide)
  · exact hsettle _ _ _ "3" rfl rfl (by decide)

/-- A rule that is accepted, and a merge by it that fails although it is for both versions. -/
theorem Artifacts.merge_accepted_rule_fails :
    ∃ rule, OverrideRule.parse "g:lib:3 beta" = .ok rule ∧
      ∃ e, (merge [rule] (Sample.id "f") [Sample.lib "1" []] [Sample.lib "2" []]).fault = some e ∧
        ∀ existing incoming, e ≠ .artifactClash existing incoming := by
  have hread : OverrideRule.ofText? "g:lib:3 beta" =
      some (.make "g" "lib" "jar" none (.version "3 beta")) := by decide
  exact ⟨_, OverrideRule.parse_eq_ok_iff.mpr hread, _, rfl, fun _ _ => MergeError.noConfusion⟩

end FeatureAssembly
