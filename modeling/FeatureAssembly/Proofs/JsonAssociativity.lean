import FeatureAssembly.Proofs.Bracketing
import FeatureAssembly.Proofs.JsonEntries
import FeatureAssembly.Proofs.Layering

/-! The deep merge of JSON values is associative, and empty objects and arrays are its units. What
the JSON extensions of any number of features are merged into therefore does not depend on which of
the features are merged first. -/

namespace FeatureAssembly
open Outcome

namespace Json
variable {present fields r : Table Json} {target source v : Json}

theorem joinsEntries_mergeEntry (present fields : Table Json) :
    Roster.JoinsEntries Prod.snd merge? (joinedEntry present) (mergeEntry present) present
      fields where
  isLocal := isLocalStep_mergeEntry present
  keys _ _ _ h := keys_mergeEntry h
  joins e _ := by
    show (joinedEntry present e (Table.get? present e.1)).toOption =
      optionally merge? (Table.get? present e.1) (some e.2)
    rw [joinedEntry]
    cases Table.get? present e.1 with
    | none => rfl
    | some w =>
      rw [joined, optionally_some_some, merge?]
      cases merge w e.2 <;> rfl

theorem holds_fields {fields : Table Json} :
    Roster.Holds Distinct Prod.snd fields ↔ (Json.object fields).Distinct := by
  constructor
  · exact fun h => .object h.distinct h.values
  · intro h
    cases h with
    | plain h => cases h
    | object names h => exact ⟨names, h⟩

theorem Merges.distinct (h : Merges target source v) (ht : target.Distinct) (hs : source.Distinct) :
    v.Distinct := by
  induction source using induction_on_entries generalizing target v with
  | h source ih =>
    cases h with
    | plain => exact hs
    | array present items =>
      cases ht with
      | plain h => cases h
      | array ht =>
        cases hs with
        | plain h => cases h
        | array hs =>
          exact .array fun v hv => (List.mem_append.mp hv).elim (ht v) (hs v)
    | @object present fields r h =>
      have hp := holds_fields.mpr ht
      have hf := holds_fields.mpr hs
      have hjoin := (joinsEntries_mergeEntry present fields).isJoin hf.distinct
        (toOption_eq_some_iff.mp h)
      refine holds_fields.mp (hjoin.holds hp hf fun e he w u hw hu => ?_)
      exact ih fields rfl e he (merge?_eq_some_iff_merges.mp hu) hw (hf.values e he)

theorem joinsTables_mergeEntry :
    Roster.JoinsTables Distinct Prod.snd merge? joinedEntry mergeEntry where
  determines _ _ := Prod.ext
  entries _ _ := joinsEntries_mergeEntry ..
  closed ha hb h := (merge?_eq_some_iff_merges.mp h).distinct ha hb

def RegroupsFields (a b c : Json) : Prop :=
  ∀ p f g, a = .object p → b = .object f → c = .object g →
    Regroups (fun p f => (mergeTable p f).toOption) p f g

section
variable {a b c d : Json} (h : RegroupsFields a b c)
include h

theorem Merges.assoc {ab : Json} (hab : Merges a b ab) (hd : Merges ab c d) :
    ∃ bc, Merges b c bc ∧ Merges a bc d := by
  cases hab with
  | plain ha hb =>
    cases hd with
    | plain _ hc => exact ⟨_, .plain hb hc, .plain ha hc⟩
    | _ => cases hb
  | array as bs =>
    cases hd with
    | plain h _ => cases h
    | array _ cs => exact ⟨_, .array bs cs, List.append_assoc as bs cs ▸ .array as (bs ++ cs)⟩
  | object hpf =>
    cases hd with
    | plain h _ => cases h
    | object hr =>
      obtain ⟨_, hfg, hr⟩ := (regroups_iff.mp (h _ _ _ rfl rfl rfl) _).mp ⟨_, hpf, hr⟩
      exact ⟨_, .object hfg, .object hr⟩

theorem Merges.assoc_symm {bc : Json} (hbc : Merges b c bc) (hd : Merges a bc d) :
    ∃ ab, Merges a b ab ∧ Merges ab c d := by
  cases hbc with
  | plain hb hc =>
    cases hd with
    | plain ha _ => exact ⟨_, .plain ha hb, .plain hb hc⟩
    | _ => cases hc
  | array bs cs =>
    cases hd with
    | plain _ h => cases h
    | array as _ => exact ⟨_, .array as bs, List.append_assoc as bs cs ▸ .array (as ++ bs) cs⟩
  | object hfg =>
    cases hd with
    | plain _ h => cases h
    | object hr =>
      obtain ⟨_, hpf, hr⟩ := (regroups_iff.mp (h _ _ _ rfl rfl rfl) _).mpr ⟨_, hfg, hr⟩
      exact ⟨_, .object hpf, .object hr⟩

theorem RegroupsFields.regroups : Regroups merge? a b c := by
  refine regroups_iff.mpr fun d => ?_
  simp only [merge?_eq_some_iff_merges]
  exact ⟨fun ⟨_, hab, hd⟩ => hab.assoc h hd, fun ⟨_, hbc, hd⟩ => hbc.assoc_symm h hd⟩

end

theorem regroups_merge? {a b c : Json} (ha : a.Distinct) (hb : b.Distinct) (hc : c.Distinct) :
    Regroups merge? a b c := by
  induction c using induction_on_entries generalizing a b with
  | h c ih =>
    refine RegroupsFields.regroups ?_
    rintro p f g rfl rfl rfl
    have hg := holds_fields.mpr hc
    exact joinsTables_mergeEntry.regroups (holds_fields.mpr ha) (holds_fields.mpr hb) hg
      fun e he x y hx hy => ih g rfl e he hx hy (hg.values e he)

/-! Units. -/

theorem merge_object_nil (fields : Table Json) :
    merge (.object fields) (.object []) = .ok (.object fields) := merge_object fields []

theorem merge_nil_object {fields : Table Json} (h : Roster.Distinct fields) :
    merge (.object []) (.object fields) = .ok (.object fields) := by
  have hkeys : addAllNew [] (Roster.keys fields) = Roster.keys fields := addAllNew_of_nodup h
  have hjoin : Roster.IsJoin Prod.snd merge? [] fields fields := ⟨hkeys.symm, fun name => rfl⟩
  have hdone := ((joinsEntries_mergeEntry [] fields).each_eq_done_iff h (fun _ _ => Prod.ext)
    Roster.distinct_nil).mpr hjoin
  rw [merge_object, mergeTable, hdone]
  rfl

theorem merge_array_nil (items : List Json) :
    merge (.array items) (.array []) = .ok (.array items) :=
  congrArg (Except.ok ∘ Json.array) (List.append_nil items)

theorem merge_nil_array (items : List Json) :
    merge (.array []) (.array items) = .ok (.array items) := rfl

end Json

/-! Extensions. -/

theorem ExtensionState.stronger_assoc (s t u : ExtensionState) :
    (s.stronger t).stronger u = s.stronger (t.stronger u) := by
  cases s <;> cases t <;> cases u <;> rfl

namespace Extension

def HoldsJson (e : Extension) : Prop := ∃ c, e.content = .json c ∧ c.value.Distinct

theorem HoldsJson.copy_eq {e : Extension} (h : e.HoldsJson) (origin : Coordinate) :
    e.copy origin = e := by
  obtain ⟨c, hc, -⟩ := h
  unfold copy
  rw [hc]

def merge? (rules : List OverrideRule) (origin : Coordinate) (existing incoming : Extension) :
    Option Extension :=
  (existing.merge rules origin incoming).toOption

variable {rules : List OverrideRule} {origin : Coordinate} {x y z : Extension} {c d : JsonContent}

theorem merge?_of_json (hx : x.content = .json c) (hy : y.content = .json d) :
    merge? rules origin x y = ((Json.merge? c.value d.value).filter Json.isContainer).map
      fun v => ⟨x.name, x.state.stronger y.state, .json ⟨v, v.text⟩⟩ := by
  rw [merge?, Extension.merge, hx, hy, Json.merge?]
  dsimp only
  cases Json.merge c.value d.value with
  | error m => rfl
  | ok v =>
    dsimp only [JsonContent.ofValue, Except.toOption]
    rw [Option.filter_some]
    by_cases hv : v.isContainer
    · rw [if_pos hv, if_pos hv]
      rfl
    · rw [if_neg hv, if_neg hv]
      rfl

theorem merge?_eq_some_iff (hx : x.content = .json c) (hy : y.content = .json d) :
    merge? rules origin x y = some z ↔ ∃ v, Json.merge? c.value d.value = some v ∧
      v.isContainer ∧ z = ⟨x.name, x.state.stronger y.state, .json ⟨v, v.text⟩⟩ := by
  rw [merge?_of_json hx hy, Option.map_eq_some_iff]
  simp only [Option.filter_eq_some_iff, and_assoc]
  exact exists_congr fun v => and_congr_right fun _ => and_congr_right fun _ => eq_comm

theorem HoldsJson.merge? (hx : x.HoldsJson) (hy : y.HoldsJson)
    (h : Extension.merge? rules origin x y = some z) : z.HoldsJson := by
  obtain ⟨c, hc, hcd⟩ := hx
  obtain ⟨d, hd, hdd⟩ := hy
  obtain ⟨v, hv, -, rfl⟩ := (merge?_eq_some_iff hc hd).mp h
  exact ⟨_, rfl, (Json.merge?_eq_some_iff_merges.mp hv).distinct hcd hdd⟩

theorem regroups_merge? (hx : x.HoldsJson) (hy : y.HoldsJson) (hz : z.HoldsJson) :
    Regroups (Extension.merge? rules origin) x y z := by
  obtain ⟨a, ha, hda⟩ := hx
  obtain ⟨b, hb, hdb⟩ := hy
  obtain ⟨c, hc, hdc⟩ := hz
  have hjson := regroups_iff.mp (Json.regroups_merge? hda hdb hdc)
  refine regroups_iff.mpr fun e => ⟨?_, ?_⟩
  · rintro ⟨xy, hxy, he⟩
    obtain ⟨v, hv, hcontainer, rfl⟩ := (merge?_eq_some_iff ha hb).mp hxy
    obtain ⟨w, hw, hwhole, rfl⟩ := (merge?_eq_some_iff rfl hc).mp he
    obtain ⟨u, hu, hwu⟩ := (hjson w).mp ⟨v, hv, hw⟩
    have hmerges := Json.merge?_eq_some_iff_merges.mp hwu
    have hucontainer : u.isContainer := hmerges.isContainer.2.trans hwhole
    refine ⟨_, (merge?_eq_some_iff hb hc).mpr ⟨u, hu, hucontainer, rfl⟩, ?_⟩
    refine (merge?_eq_some_iff ha rfl).mpr ⟨w, hwu, hwhole, ?_⟩
    rw [ExtensionState.stronger_assoc]
  · rintro ⟨yz, hyz, he⟩
    obtain ⟨v, hv, hcontainer, rfl⟩ := (merge?_eq_some_iff hb hc).mp hyz
    obtain ⟨w, hw, hwhole, rfl⟩ := (merge?_eq_some_iff ha rfl).mp he
    obtain ⟨u, hu, hwu⟩ := (hjson w).mpr ⟨v, hv, hw⟩
    have hmerges := Json.merge?_eq_some_iff_merges.mp hwu
    have hucontainer : u.isContainer := hmerges.isContainer.1.trans hwhole
    refine ⟨_, (merge?_eq_some_iff ha hb).mpr ⟨u, hu, hucontainer, rfl⟩, ?_⟩
    refine (merge?_eq_some_iff rfl hc).mpr ⟨w, hwu, hwhole, ?_⟩
    rw [ExtensionState.stronger_assoc]

end Extension

namespace Extensions
variable {rules : List OverrideRule} {origin : Coordinate}

def merge? (rules : List OverrideRule) (origin : Coordinate) (target source : List Extension) :
    Option (List Extension) :=
  (merge rules origin target source).toOption

theorem isLocalStep_mergeOne (rules : List OverrideRule) (origin : Coordinate) :
    Roster.IsLocalStep (Roster.valueAt? id)
      (fun e found => (joined rules origin found e).map some) (mergeOne rules origin) where
  fault t e := by
    rw [mergeOne_eq, Roster.valueAt?_id]
    rfl
  view t e name := by
    have hname := name_joined rules origin t e
    rw [mergeOne_eq, value_map, Roster.valueAt?_id, Roster.valueAt?_id, Roster.find?_put,
      Extension.key_eq, hname, Extension.key_eq]
    split
    · next heq => rw [heq]; rfl
    · rfl

theorem joinsEntries_mergeOne {source : List Extension} (hs : ∀ e ∈ source, e.HoldsJson)
    (target : List Extension) :
    Roster.JoinsEntries id (Extension.merge? rules origin)
      (fun e found => (joined rules origin found e).map some) (mergeOne rules origin) target
      source where
  isLocal := isLocalStep_mergeOne rules origin
  keys _ _ _ h := keys_mergeOne h
  joins e he := by
    cases Roster.valueAt? id target (Keyed.key e) with
    | none =>
      rw [joined, (hs e he).copy_eq]
      rfl
    | some existing =>
      rw [joined, id_eq, optionally_some_some, Extension.merge?]
      obtain ⟨x, _ | fault⟩ := existing.merge rules origin e <;> rfl

theorem joinsTables_mergeOne (rules : List OverrideRule) (origin : Coordinate) :
    Roster.JoinsTables Extension.HoldsJson id (Extension.merge? rules origin)
      (fun _ e found => (joined rules origin found e).map some)
      (fun _ => mergeOne rules origin) where
  determines _ _ _ h := h
  entries _ hm := joinsEntries_mergeOne hm.values _
  closed ha hb h := ha.merge? hb h

theorem isMonoidOn_merge? (rules : List OverrideRule) (origin : Coordinate) :
    IsMonoidOn (Roster.Holds Extension.HoldsJson id) (merge? rules origin) [] where
  unit_mem := ⟨Roster.distinct_nil, fun _ h => absurd h List.not_mem_nil⟩
  closed hl hm hr := (joinsTables_mergeOne rules origin).holds hl hm hr
  regroups hl hm hn := (joinsTables_mergeOne rules origin).regroups hl hm hn
    fun e he _ _ ha hb => Extension.regroups_merge? ha hb (hn.values e he)
  unit_op {l} hl := by
    have hcopies : l.map (fun e => e.copy origin) = l.map id :=
      List.map_congr_left fun e he => (hl.values e he).copy_eq origin
    rw [merge?, merge_into_empty hl.distinct, toOption_eq_some_iff, hcopies, List.map_id]
  op_unit _ := rfl

theorem merge?_congr {l m : List Extension} (hl : Roster.Holds Extension.HoldsJson id l)
    (hm : Roster.Holds Extension.HoldsJson id m) (rules : List OverrideRule)
    (origin origin' : Coordinate) : merge? rules origin l m = merge? rules origin' l m := by
  have hop : ∀ origin origin' (x y : Extension), x.HoldsJson → y.HoldsJson →
      Extension.merge? rules origin x y = Extension.merge? rules origin' x y := by
    rintro origin origin' x y ⟨c, hc, -⟩ ⟨d, hd, -⟩
    rw [Extension.merge?_of_json hc hd, Extension.merge?_of_json hc hd]
  refine Option.ext fun r => ?_
  have hfirst := (joinsTables_mergeOne rules origin).eq_some_iff (r := r) hl hm
  have hsecond := (joinsTables_mergeOne rules origin').eq_some_iff (r := r) hl hm
  refine hfirst.trans (Iff.trans ?_ hsecond.symm)
  exact ⟨fun h => h.congr hl hm (hop _ _), fun h => h.congr hl hm (hop _ _)⟩

end Extensions

/-- Three JSON values are merged into the same in both groupings, or cannot be in either; empty
objects and arrays change nothing; and in whatever groups the JSON extensions of features are
merged, from whichever features each group takes its origin, all come to what they do one after the
other. -/
theorem Json.merge_groups_freely :
    (∀ a b c : Json, a.Distinct → b.Distinct → c.Distinct →
      (merge? a b).bind (merge? · c) = (merge? b c).bind (merge? a)) ∧
    (∀ fields, Roster.Distinct fields → merge (.object fields) (.object []) = .ok (.object fields) ∧
      merge (.object []) (.object fields) = .ok (.object fields)) ∧
    (∀ items, merge (.array items) (.array []) = .ok (.array items) ∧
      merge (.array []) (.array items) = .ok (.array items)) ∧
    ∀ rules origin (g : Bracketing Coordinate (List Extension)),
      (∀ l ∈ g.operands, Roster.Distinct l ∧ ∀ e ∈ l, e.HoldsJson) →
      g.value? (Extensions.merge? rules) =
        g.operands.foldlM (Extensions.merge? rules origin) [] := by
  refine ⟨fun _ _ _ => regroups_merge?, fun _ h => ⟨merge_object_nil _, merge_nil_object h⟩,
    fun _ => ⟨merge_array_nil _, merge_nil_array _⟩, fun rules origin g hg => ?_⟩
  refine (Extensions.isMonoidOn_merge? rules origin).value?_eq_foldlM
    (fun i l m hl hm => Extensions.merge?_congr hl hm rules i origin) fun l hl => ?_
  exact ⟨(hg l hl).1, (hg l hl).2⟩

namespace Sample

def modes : Json := .object [("server", .object [("mode", .string "a")])]

def logs : Json := .object [("ports", .array [.null]), ("server", .object [("logs", .array [])])]

def changes : Json :=
  .object [("server", .object [("logs", .array [.bool true]), ("mode", .null)])]

def documented (v : Json) : List Extension := [⟨"settings", .optional, .json ⟨v, v.text⟩⟩]

theorem holdsJson_documented {v : Json} (hv : v.Distinct) :
    Roster.Distinct (documented v) ∧ ∀ e ∈ documented v, e.HoldsJson := by
  refine ⟨List.nodup_singleton _, fun e he => ?_⟩
  rw [List.mem_singleton.mp he]
  exact ⟨_, rfl, hv⟩

def grouped : Bracketing Coordinate (List Extension) :=
  .pair (id "all") (.single (documented modes))
    (.pair (id "rest") (.single (documented logs)) (.single (documented changes)))

end Sample

theorem Json.merge_modes_groups_freely : ∃ v,
    (merge? Sample.modes Sample.logs).bind (merge? · Sample.changes) = some v ∧
    (merge? Sample.logs Sample.changes).bind (merge? Sample.modes) = some v ∧
    Sample.grouped.value? (Extensions.merge? []) = some (Sample.documented v) := by
  have hmodes : Sample.modes.Distinct := distinct_distinct Sample.modes
  have hlogs : Sample.logs.Distinct := distinct_distinct Sample.logs
  have hchanges : Sample.changes.Distinct := distinct_distinct Sample.changes
  obtain ⟨hassoc, -, -, hgroups⟩ := merge_groups_freely
  refine ⟨_, rfl, (hassoc _ _ _ hmodes hlogs hchanges).symm, ?_⟩
  refine (hgroups [] (Sample.id "all") Sample.grouped ?_).trans rfl
  refine List.forall_mem_cons.mpr ⟨Sample.holdsJson_documented hmodes, ?_⟩
  refine List.forall_mem_cons.mpr ⟨Sample.holdsJson_documented hlogs, ?_⟩
  exact List.forall_mem_singleton.mpr (Sample.holdsJson_documented hchanges)

end FeatureAssembly
