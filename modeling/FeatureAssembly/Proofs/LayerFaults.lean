import FeatureAssembly.Proofs.Marks
import FeatureAssembly.Proofs.StructuralErrors

/-! Conflicts under layering. The upper feature is layered by a rule that is for every artifact and by a
pattern that stands for any run of characters of a line. The rule settles every clash of artifacts, but
the pattern misses the pids with a line feed, so that those configurations clash instead of replacing
the present ones. -/

namespace FeatureAssembly
open Outcome

theorem Pattern.accepts_star_iff (cs : List Char) : accepts ['*'] cs = true ↔ '\n' ∉ cs := by
  induction cs with
  | nil => decide
  | cons c cs ih =>
    rw [accepts_star_cons, accepts_nil, List.isEmpty_cons, Bool.false_or, Bool.and_eq_true, ih,
      bne_iff_ne, List.mem_cons, not_or, ne_comm]

theorem ConfigurationPolicies.policyFor?_uniform_eq (policy : ConfigurationPolicy) (pid : String) :
    (uniform policy).policyFor? pid = if '\n' ∈ pid.toList then none else some policy := by
  have hpattern : "*".toList = ['*'] := rfl
  rw [policyFor?, uniform, List.find?_singleton, hpattern]
  by_cases h : '\n' ∈ pid.toList
  · rw [if_pos h, if_neg fun haccepts => (Pattern.accepts_star_iff _).mp haccepts h]
    rfl
  · rw [if_neg h, if_pos ((Pattern.accepts_star_iff _).mpr h)]
    rfl

def MergeError.isConflict : MergeError → Bool
  | .artifactClash .. => true
  | .configurationClash .. => true
  | .configurationPropertyClash .. => true
  | .propertyClash .. => true
  | _ => false

namespace Configurations
variable {origin : Coordinate} {c : Configuration} {t source : List Configuration}

def lineClash? (origin : Coordinate) (t : List Configuration) (c : Configuration) :
    Option MergeError :=
  if '\n' ∈ c.pid.toList then
    (Roster.find? t c.pid).map fun x => .configurationClash c.pid x.origins origin
  else none

theorem isConflict_of_lineClash? {e : MergeError} (h : lineClash? origin t c = some e) :
    e.isConflict = true := by
  unfold lineClash? at h
  split_ifs at h
  obtain ⟨x, -, rfl⟩ := Option.map_eq_some_iff.mp h
  rfl

theorem fault_joined_uniform (origin : Coordinate) (t : List Configuration) (c : Configuration) :
    (joined (.uniform .useLatest) origin c (Roster.find? t c.pid)).fault =
      lineClash? origin t c := by
  unfold joined lineClash?
  cases Roster.find? t c.pid with
  | none => simp
  | some x =>
    rw [ConfigurationPolicies.policyFor, ConfigurationPolicies.policyFor?_uniform_eq]
    split_ifs
    · simp [Configuration.mergeBy]
    · rfl

theorem fault_merge_uniform (hs : Roster.Distinct source) (origin : Coordinate)
    (t : List Configuration) : (merge (.uniform .useLatest) origin t source).fault =
      source.findSome? (lineClash? origin t) := by
  rw [fault_merge hs]
  exact findSome?_congr fun c _ => fault_joined_uniform origin t c

end Configurations

/-! Extensions. -/

theorem Extension.faultsIn_merge (origin : Coordinate) (existing e : Extension) :
    FaultsIn (fun e => e.isConflict = false)
      (existing.merge [OverrideRule.catchAll .all] origin e) := by
  unfold merge
  split
  · exact faultsIn_done _
  · split
    · exact faultsIn_failed rfl
    · split
      · exact faultsIn_failed rfl
      · exact faultsIn_done _
  · rw [Artifacts.merge_catchAll, map_done, done_andThen]
    exact faultsIn_done _
  · exact faultsIn_failed rfl

theorem Extensions.faultsIn_merge (origin : Coordinate) (target source : List Extension) :
    FaultsIn (fun e => e.isConflict = false)
      (merge [OverrideRule.catchAll .all] origin target source) := by
  refine FaultsIn.each (fun t e _ => ?_) target
  rw [mergeOne_eq]
  refine FaultsIn.map ?_ _
  unfold joined
  split
  · exact Extension.faultsIn_merge ..
  · exact faultsIn_done _

/-! Features. -/

section
variable {ctx : MergeContext} {source : Feature} {d : Draft}

theorem Feature.fault_mergeContent_layer (ctx : MergeContext) (source target : Feature) :
    (mergeContent ctx .layer source target).fault = (Configurations.merge (.uniform .useLatest)
      source.id target.configurations source.configurations).fault := by
  simp only [mergeContent, mergeBundles, MergeMode.rules, Artifacts.merge_catchAll, map_done,
    done_andThen, fault_andThen]
  exact Option.or_none

theorem Draft.fault_merge_layer (hctx : ctx.mergeHandlers = []) (source : Feature) (d : Draft) :
    (d.merge ctx .layer source).fault =
      (Configurations.merge (.uniform .useLatest) source.id d.feature.configurations
        source.configurations).fault.or
      (Extensions.merge [OverrideRule.catchAll .all] source.id d.feature.extensions
        source.extensions).fault := by
  rw [merge, fault_andThen, fault_map, Feature.fault_mergeContent_layer, mergeExtensions_eq hctx,
    fault_map, value_map, Feature.extensions_mergeContent]
  rfl

/-- A layered feature conflicts with what it is put over exactly if both have a configuration of one
pid with a line feed, and then about the first such configuration. Where the merge succeeds, its
configurations have taken the places of those of their pids, and all others are as they were. -/
theorem Draft.layer_conflicts_on_lines (hctx : ctx.mergeHandlers = [])
    (hs : Roster.Distinct source.configurations) (d : Draft) :
    (∀ e, (d.merge ctx .layer source).fault = some e ∧ e.isConflict = true ↔
      source.configurations.findSome?
        (Configurations.lineClash? source.id d.feature.configurations) = some e) ∧
      ∀ r, d.merge ctx .layer source = done r → ∀ pid,
        Roster.find? r.feature.configurations pid =
          ((Roster.find? source.configurations pid).map fun c => c.stamped source.id).or
            (Roster.find? d.feature.configurations pid) := by
  constructor
  · intro e
    rw [fault_merge_layer hctx, Configurations.fault_merge_uniform hs]
    cases hclash : source.configurations.findSome?
        (Configurations.lineClash? source.id d.feature.configurations) with
    | some clash =>
      obtain ⟨c, -, hc⟩ := List.exists_of_findSome?_eq_some hclash
      have hconflict := Configurations.isConflict_of_lineClash? hc
      rw [Option.some_or]
      refine ⟨And.left, fun h => ⟨h, ?_⟩⟩
      rwa [← Option.some.inj h]
    | none =>
      rw [Option.none_or]
      refine ⟨fun ⟨h, hconflict⟩ => ?_, nofun⟩
      rw [(Extensions.faultsIn_merge ..).of_fault e h] at hconflict
      cases hconflict
  · intro r hr
    exact Configurations.find?_merge_uniform hs (isLayering_of_merge hctx hr).configurations

end

namespace Sample

def configuring (name value : String) (pids : List String) : Feature :=
  { Feature.ofId (id name) with
    configurations := pids.map fun pid => ⟨pid, [("k", .string value)], [], none⟩ }

end Sample

theorem Draft.layer_configuring :
    Roster.Distinct (Sample.configuring "f" "2" ["p", "a\nb"]).configurations ∧
      ∃ r, Draft.merge .empty .layer (Sample.configuring "f" "2" ["p", "a\nb"])
          ⟨Sample.configuring "g" "1" ["p", "q"], []⟩ = done r ∧
        Roster.find? r.feature.configurations "p" =
          some ⟨"p", [("k", .string "2")], [Sample.id "f"], none⟩ ∧
        Roster.find? r.feature.configurations "q" = some ⟨"q", [("k", .string "1")], [], none⟩ := by
  have hdistinct : Roster.Distinct (Sample.configuring "f" "2" ["p", "a\nb"]).configurations := by
    unfold Roster.Distinct
    decide
  have hctx : MergeContext.empty.mergeHandlers = [] := rfl
  obtain ⟨-, hfind⟩ := layer_conflicts_on_lines hctx hdistinct
    ⟨Sample.configuring "g" "1" ["p", "q"], []⟩
  obtain ⟨r, hr⟩ : ∃ r, Draft.merge .empty .layer (Sample.configuring "f" "2" ["p", "a\nb"])
      ⟨Sample.configuring "g" "1" ["p", "q"], []⟩ = done r := ⟨_, rfl⟩
  refine ⟨hdistinct, r, hr, ?_, ?_⟩
  · rw [hfind r hr]
    rfl
  · rw [hfind r hr]
    rfl

/-- A pid may have a line feed, and its configuration clashes with the one it is layered over. -/
theorem Draft.layer_clashes_on_line :
    Configuration.ofPid "a\nb" = .ok ⟨"a\nb", [], [], none⟩ ∧
      (Draft.merge .empty .layer (Sample.configuring "f" "2" ["a\nb"])
        ⟨Sample.configuring "g" "1" ["a\nb"], []⟩).fault =
          some (.configurationClash "a\nb" [] (Sample.id "f")) := by
  have hdistinct : Roster.Distinct (Sample.configuring "f" "2" ["a\nb"]).configurations :=
    List.nodup_singleton _
  have hpid : Text.trim "a\nb" ≠ "" := by decide
  constructor
  · rw [Configuration.ofPid, if_neg hpid]
  · rw [fault_merge_layer rfl, Configurations.fault_merge_uniform hdistinct]
    rfl

end FeatureAssembly
