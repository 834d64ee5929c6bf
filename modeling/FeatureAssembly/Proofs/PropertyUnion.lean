import FeatureAssembly.Proofs.Provenance
import Mathlib.Data.List.Induction

/-! Merging the property tables of independent features one after the other. The merge succeeds
exactly if all tables agree on the keys that no override names, in whatever order they come; it
unites the keys, the values and the origins of all tables. -/

namespace FeatureAssembly.Properties
open Outcome
variable {kind : PropertyKind} {overrides : Table String} {origin : Coordinate} {key : String}
  {t source r : Table Property} {series : List (Coordinate × Table Property)}

theorem value?_isSome_iff : (value? t key).isSome ↔ key ∈ Roster.keys t := by
  rw [value?_eq_find?, Option.isSome_map, Roster.find?_isSome_iff]

@[simp] theorem value_overridden_of_some {v : String} (h : Table.get? overrides key = some v)
    (p : Property) : (overridden overrides key p).value = v := by
  rw [overridden, h]

@[simp] theorem overridden_of_none (h : Table.get? overrides key = none) (p : Property) :
    overridden overrides key p = p := by
  rw [overridden, h]

@[simp] theorem origins_overridden (overrides : Table String) (key : String) (p : Property) :
    (overridden overrides key p).origins = p.origins := by
  unfold overridden
  split <;> rfl

def joined (kind : PropertyKind) (overrides : Table String) (origin : Coordinate)
    (e : String × Property) : Option Property → Outcome MergeError (Option Property)
  | none => done (some (overridden overrides e.1 (e.2.stamped origin)))
  | some p =>
    if Table.get? overrides e.1 = none ∧ p.value ≠ e.2.value then
      failed (some p) (.propertyClash kind e.1 p.value e.2.value origin)
    else done (some ((overridden overrides e.1 p).absorb (e.2.stamped origin)))

theorem isLocalStep_mergeIncoming (kind : PropertyKind) (overrides : Table String)
    (origin : Coordinate) : Roster.IsLocalStep Table.get? (joined kind overrides origin)
      fun t e => mergeIncoming kind overrides origin t e.1 (e.2.stamped origin) where
  fault t e := by
    unfold mergeIncoming joined
    rw [Table.key_eq]
    cases Table.get? t e.1 with
    | none => cases Table.get? overrides e.1 <;> rfl
    | some p =>
      cases Table.get? overrides e.1 with
      | some v => simp
      | none => by_cases h : p.value = e.2.value <;> simp [h]
  view t e k := by
    rw [Table.key_eq]
    by_cases hk : e.1 = k
    · subst hk
      rw [if_pos rfl]
      unfold mergeIncoming
      split
      · next hp ho => simp [hp, ho, joined, Table.get?_set]
      · next hp ho => simp [hp, ho, joined, Table.get?_set, overridden]
      · next hp ho => simp [hp, ho, joined, Table.get?_set, overridden]
      · next p hp ho => by_cases h : p.value = e.2.value <;> simp [h, hp, ho, joined, Table.get?_set]
    · rw [if_neg hk]
      have hset : ∀ p : Property, Table.get? (Table.set t e.1 p) k = Table.get? t k := by
        intro p
        rw [Table.get?_set, if_neg hk]
      unfold mergeIncoming
      split
      · exact hset _
      · exact hset _
      · exact hset _
      · split
        · exact hset _
        · rfl

theorem exists_set_of_mergeIncoming {t' : Table Property} {p : Property}
    (h : mergeIncoming kind overrides origin t key p = done t') : ∃ q, t' = Table.set t key q := by
  unfold mergeIncoming at h
  split at h
  · exact ⟨_, (eq_done_iff.mp h).1.symm⟩
  · exact ⟨_, (eq_done_iff.mp h).1.symm⟩
  · exact ⟨_, (eq_done_iff.mp h).1.symm⟩
  · split at h
    · exact ⟨_, (eq_done_iff.mp h).1.symm⟩
    · cases (eq_done_iff.mp h).2

theorem keys_merge (h : merge kind overrides origin t source = done r) :
    Roster.keys r = addAllNew (Roster.keys t) (Roster.keys source) := by
  refine Roster.keys_each (fun t e t' hstep => ?_) h
  obtain ⟨q, rfl⟩ := exists_set_of_mergeIncoming hstep
  exact Roster.keys_put_eq_addNew t (e.1, q)

theorem fault_joined_eq_none_iff {e : String × Property} {found : Option Property} :
    (joined kind overrides origin e found).fault = none ↔
      (Table.get? overrides e.1 = none → ∀ p, found = some p → p.value = e.2.value) := by
  cases found with
  | none => simp [joined]
  | some p =>
    rw [joined]
    split_ifs with h
    · simp [h]
    · simpa using h

theorem exists_merge_iff (hs : Roster.Distinct source) :
    (∃ r, merge kind overrides origin t source = done r) ↔
      ∀ e ∈ source, Table.get? overrides e.1 = none →
        ∀ p, Table.get? t e.1 = some p → p.value = e.2.value := by
  rw [exists_eq_done_iff, merge, (isLocalStep_mergeIncoming ..).fault_each hs,
    List.findSome?_eq_none_iff]
  exact forall₂_congr fun e _ => fault_joined_eq_none_iff

theorem get?_merge (hs : Roster.Distinct source)
    (h : merge kind overrides origin t source = done r) (key : String) :
    Table.get? r key = (Roster.find? source key).elim (Table.get? t key) fun e =>
      (joined kind overrides origin e (Table.get? t key)).value :=
  (isLocalStep_mergeIncoming kind overrides origin).view_each hs h key

theorem value_joined_of_override {e : String × Property} {v : String}
    (h : Table.get? overrides e.1 = some v) (kind : PropertyKind) (origin : Coordinate)
    (found : Option Property) :
    (joined kind overrides origin e found).value.map Property.value = some v := by
  cases found with
  | none => simp [joined, value_overridden_of_some h]
  | some p => simp [joined, h, Property.absorb]

theorem value_joined_of_agree {e : String × Property} {found : Option Property}
    (hfree : Table.get? overrides e.1 = none)
    (h : (joined kind overrides origin e found).fault = none) :
    (joined kind overrides origin e found).value.map Property.value = some e.2.value := by
  cases found with
  | none => simp [joined, overridden_of_none hfree]
  | some p =>
    have hvalue : p.value = e.2.value := fault_joined_eq_none_iff.mp h hfree p rfl
    simp [joined, hvalue, Property.absorb, overridden_of_none hfree]

theorem origins_joined {e : String × Property} {found : Option Property} {p : Property}
    (he : e.2.origins.Nodup) (h : joined kind overrides origin e found = done (some p)) :
    p.origins = addAllNew (found.elim [] Property.origins) (attributed origin e.2.origins) := by
  cases found with
  | none =>
    obtain rfl := Option.some.inj (eq_done_iff.mp h).1
    rw [origins_overridden, Property.origins_stamped, Option.elim_none, addAllNew_of_nodup,
      List.nil_append]
    exact nodup_attributed he origin
  | some q =>
    rw [joined] at h
    split_ifs at h
    · cases (eq_done_iff.mp h).2
    · obtain rfl := Option.some.inj (eq_done_iff.mp h).1
      rw [Property.absorb, origins_overridden, Property.origins_stamped]
      rfl

/-! Series of tables. -/

def mergeSeries (kind : PropertyKind) (overrides : Table String)
    (series : List (Coordinate × Table Property)) : Outcome MergeError (Table Property) :=
  each (fun t s => merge kind overrides s.1 t s.2) [] series

theorem mergeSeries_concat (kind : PropertyKind) (overrides : Table String)
    (front : List (Coordinate × Table Property)) (s : Coordinate × Table Property) :
    mergeSeries kind overrides (front ++ [s]) =
      (mergeSeries kind overrides front).andThen fun t =>
        (merge kind overrides s.1 t s.2).andThen done :=
  each_append ..

/-- Whether all tables of a series that have a key have one value for it, unless it is overridden. -/
def Agree (overrides : Table String) (series : List (Coordinate × Table Property)) : Prop :=
  ∀ key, Table.get? overrides key = none → ∀ s ∈ series, ∀ s' ∈ series, ∀ v v',
    value? s.2 key = some v → value? s'.2 key = some v' → v = v'

def recorded (key : String) (s : Coordinate × Table Property) : List Coordinate :=
  (Table.get? s.2 key).elim [] fun p => attributed s.1 p.origins

/-- A table of all keys of a series in the order in which they first come, each with the value of
its override or the one that all tables have, and with the origins of all its entries. -/
structure IsUnion (overrides : Table String) (series : List (Coordinate × Table Property))
    (t : Table Property) : Prop where
  keys : Roster.keys t = addAllNew [] (series.flatMap fun s => Roster.keys s.2)
  overridden : ∀ key ∈ Roster.keys t, ∀ v, Table.get? overrides key = some v →
    value? t key = some v
  common : ∀ key, Table.get? overrides key = none → ∀ s ∈ series, ∀ v, value? s.2 key = some v →
    value? t key = some v
  origins : ∀ key p, Table.get? t key = some p →
    p.origins = addAllNew [] (series.flatMap (recorded key))

/-- What makes a series of tables one of feature tables: no key and no origin is there twice. -/
def IsSeries (series : List (Coordinate × Table Property)) : Prop :=
  ∀ s ∈ series, Roster.Distinct s.2 ∧ ∀ e ∈ s.2, e.2.origins.Nodup

theorem isUnion_nil (overrides : Table String) : IsUnion overrides [] [] where
  keys := rfl
  overridden _ h := absurd h List.not_mem_nil
  common _ _ _ h := absurd h List.not_mem_nil
  origins _ _ h := nomatch h

theorem IsUnion.mem_keys_iff (h : IsUnion overrides series t) (key : String) :
    key ∈ Roster.keys t ↔ ∃ s ∈ series, key ∈ Roster.keys s.2 := by
  rw [h.keys, mem_addAllNew, List.mem_flatMap, or_iff_right List.not_mem_nil]

theorem recorded_of_not_mem {s : Coordinate × Table Property} (h : key ∉ Roster.keys s.2) :
    recorded key s = [] := by
  rw [recorded, Table.get?_eq_none_iff.mpr h, Option.elim_none]

theorem IsUnion.origins_found (h : IsUnion overrides series t) (key : String) :
    (Table.get? t key).elim [] Property.origins =
      addAllNew [] (series.flatMap (recorded key)) := by
  cases hfound : Table.get? t key with
  | none =>
    have hnone : ∀ s ∈ series, recorded key s = [] := by
      intro s hs
      refine recorded_of_not_mem fun hmem => ?_
      exact Table.get?_eq_none_iff.mp hfound ((h.mem_keys_iff key).mpr ⟨s, hs, hmem⟩)
    rw [List.flatMap_eq_nil_iff.mpr hnone]
    rfl
  | some p => exact h.origins key p hfound

theorem get?_merge_of_mem (hs : Roster.Distinct source)
    (h : merge kind overrides origin t source = done r) {e : String × Property} (he : e ∈ source) :
    joined kind overrides origin e (Table.get? t e.1) = done (Table.get? r e.1) := by
  have hfault := (isLocalStep_mergeIncoming kind overrides origin).fault_each hs t
  rw [← merge, h, fault_done, eq_comm, List.findSome?_eq_none_iff] at hfault
  have hfound : Roster.find? source e.1 = some e := (Roster.find?_eq_some_iff hs).mpr ⟨he, rfl⟩
  rw [get?_merge hs h, hfound]
  exact eq_done_of_fault (hfault e he)

theorem get?_merge_of_not_mem (hs : Roster.Distinct source)
    (h : merge kind overrides origin t source = done r) (hkey : key ∉ Roster.keys source) :
    Table.get? r key = Table.get? t key := by
  rw [get?_merge hs h, Roster.find?_eq_none_iff.mpr hkey, Option.elim_none]

theorem IsUnion.concat (h : IsUnion overrides series t) {s : Coordinate × Table Property}
    (hs : Roster.Distinct s.2) (horigins : ∀ e ∈ s.2, e.2.origins.Nodup)
    (hr : merge kind overrides s.1 t s.2 = done r) : IsUnion overrides (series ++ [s]) r where
  keys := by
    rw [keys_merge hr, h.keys, List.flatMap_append, List.flatMap_singleton, addAllNew_append]
  overridden key hkey v hv := by
    by_cases hmem : key ∈ Roster.keys s.2
    · obtain ⟨e, he, rfl⟩ := List.mem_map.mp hmem
      have hvalue := value_joined_of_override hv kind s.1 (Table.get? t e.1)
      rwa [get?_merge_of_mem hs hr he] at hvalue
    · rw [keys_merge hr, mem_addAllNew, or_iff_left hmem] at hkey
      rw [value?, get?_merge_of_not_mem hs hr hmem]
      exact h.overridden key hkey v hv
  common key hfree s' hs' v hv := by
    by_cases hmem : key ∈ Roster.keys s.2
    · obtain ⟨e, he, rfl⟩ := List.mem_map.mp hmem
      have hjoined := get?_merge_of_mem hs hr he
      have hnone : (joined kind overrides s.1 e (Table.get? t e.1)).fault = none :=
        (eq_done_iff.mp hjoined).2
      have hvalue := value_joined_of_agree hfree hnone
      rw [hjoined, value_done] at hvalue
      suffices hv : e.2.value = v by rwa [value?, ← hv]
      rcases List.mem_append.mp hs' with hs' | hs'
      · obtain ⟨p, hp, rfl⟩ := Option.map_eq_some_iff.mp (h.common e.1 hfree s' hs' v hv)
        exact (fault_joined_eq_none_iff.mp hnone hfree p hp).symm
      · rw [List.mem_singleton.mp hs', value?, Table.key_eq, Table.get?_of_mem hs he] at hv
        exact Option.some.inj hv
    · rw [value?, get?_merge_of_not_mem hs hr hmem]
      rcases List.mem_append.mp hs' with hs' | hs'
      · exact h.common key hfree s' hs' v hv
      · rw [List.mem_singleton.mp hs', value?, Table.get?_eq_none_iff.mpr hmem] at hv
        cases hv
  origins key p hp := by
    rw [List.flatMap_append, List.flatMap_singleton, addAllNew_append, ← h.origins_found]
    by_cases hmem : key ∈ Roster.keys s.2
    · obtain ⟨e, he, rfl⟩ := List.mem_map.mp hmem
      have hjoined := get?_merge_of_mem hs hr he
      rw [Table.key_eq] at hp
      rw [hp] at hjoined
      rw [origins_joined (horigins e he) hjoined, recorded, Table.key_eq,
        Table.get?_of_mem hs he]
      rfl
    · rw [get?_merge_of_not_mem hs hr hmem] at hp
      rw [hp, recorded_of_not_mem hmem]
      rfl

theorem isUnion_of_mergeSeries (hseries : IsSeries series)
    (h : mergeSeries kind overrides series = done t) : IsUnion overrides series t := by
  induction series using List.reverseRecOn generalizing t with
  | nil =>
    rw [← (eq_done_iff.mp h).1]
    exact isUnion_nil overrides
  | append_singleton front s ih =>
    rw [mergeSeries_concat] at h
    obtain ⟨u, hu, hstep⟩ := andThen_eq_done_iff.mp h
    obtain ⟨r, hr, hrt⟩ := andThen_eq_done_iff.mp hstep
    obtain rfl : r = t := (eq_done_iff.mp hrt).1
    have hfront : IsSeries front := fun x hx => hseries x (List.mem_append_left _ hx)
    obtain ⟨hs, horigins⟩ := hseries s (List.mem_append_right _ (List.mem_singleton_self s))
    exact (ih hfront hu).concat hs horigins hr

theorem IsUnion.agree (h : IsUnion overrides series t) : Agree overrides series := by
  intro key hfree s hs s' hs' v v' hv hv'
  have hvalue := h.common key hfree s hs v hv
  rw [h.common key hfree s' hs' v' hv'] at hvalue
  exact (Option.some.inj hvalue).symm

theorem Agree.of_subset {series' : List (Coordinate × Table Property)} (h : Agree overrides series)
    (hsub : series' ⊆ series) : Agree overrides series' :=
  fun key hfree s hs s' hs' => h key hfree s (hsub hs) s' (hsub hs')

theorem IsUnion.exists_of_value? (h : IsUnion overrides series t)
    (hfree : Table.get? overrides key = none) {v : String} (hv : value? t key = some v) :
    ∃ s ∈ series, value? s.2 key = some v := by
  have hmem : key ∈ Roster.keys t := value?_isSome_iff.mp (hv ▸ rfl)
  obtain ⟨s, hs, hkey⟩ := (h.mem_keys_iff key).mp hmem
  obtain ⟨w, hw⟩ := Option.isSome_iff_exists.mp (value?_isSome_iff.mpr hkey)
  have hcommon := h.common key hfree s hs w hw
  rw [hv] at hcommon
  exact ⟨s, hs, hcommon ▸ hw⟩

theorem Agree.exists_mergeSeries (h : Agree overrides series) (hseries : IsSeries series)
    (kind : PropertyKind) : ∃ t, mergeSeries kind overrides series = done t := by
  induction series using List.reverseRecOn with
  | nil => exact ⟨[], rfl⟩
  | append_singleton front s ih =>
    have hfront : IsSeries front := fun x hx => hseries x (List.mem_append_left _ hx)
    obtain ⟨t, ht⟩ := ih (h.of_subset (List.subset_append_left ..)) hfront
    have hunion := isUnion_of_mergeSeries hfront ht
    obtain ⟨hs, -⟩ := hseries s (List.mem_append_right _ (List.mem_singleton_self s))
    have hmerge : ∃ r, merge kind overrides s.1 t s.2 = done r := by
      refine (exists_merge_iff hs).mpr fun e he hfree p hp => ?_
      have hpresent : value? t e.1 = some p.value := by rw [value?, hp]; rfl
      obtain ⟨s', hs', hv⟩ := hunion.exists_of_value? hfree hpresent
      have hown : value? s.2 e.1 = some e.2.value := by rw [value?, Table.get?_of_mem hs he]; rfl
      exact h e.1 hfree s' (List.mem_append_left _ hs') s
        (List.mem_append_right _ (List.mem_singleton_self s)) _ _ hv hown
    obtain ⟨r, hr⟩ := hmerge
    refine ⟨r, ?_⟩
    rw [mergeSeries_concat, ht, done_andThen, hr, done_andThen]

theorem IsUnion.value?_eq_of_perm {series' : List (Coordinate × Table Property)}
    {t' : Table Property} (h : IsUnion overrides series t) (h' : IsUnion overrides series' t')
    (hperm : series.Perm series') (key : String) : value? t key = value? t' key := by
  have hkeys : key ∈ Roster.keys t ↔ key ∈ Roster.keys t' := by
    simp only [h.mem_keys_iff, h'.mem_keys_iff, hperm.mem_iff]
  by_cases hmem : key ∈ Roster.keys t
  · cases hfree : Table.get? overrides key with
    | some v => rw [h.overridden key hmem v hfree, h'.overridden key (hkeys.mp hmem) v hfree]
    | none =>
      obtain ⟨v, hv⟩ := Option.isSome_iff_exists.mp (value?_isSome_iff.mpr hmem)
      obtain ⟨s, hs, hvalue⟩ := h.exists_of_value? hfree hv
      rw [hv, h'.common key hfree s (hperm.mem_iff.mp hs) v hvalue]
  · rw [value?, value?, Table.get?_eq_none_iff.mpr hmem,
      Table.get?_eq_none_iff.mpr (mt hkeys.mpr hmem)]

/-- Tables can be merged one after the other exactly if they agree on all keys without an override;
what they are merged into is their union; and neither whether it succeeds nor the values depend on
their order. -/
theorem mergeSeries_unites (hseries : IsSeries series) (kind : PropertyKind)
    (overrides : Table String) :
    ((∃ t, mergeSeries kind overrides series = done t) ↔ Agree overrides series) ∧
    (∀ t, mergeSeries kind overrides series = done t → IsUnion overrides series t) ∧
    ∀ series', series.Perm series' →
      ((∃ t, mergeSeries kind overrides series = done t) ↔
        ∃ t', mergeSeries kind overrides series' = done t') ∧
      ∀ t t', mergeSeries kind overrides series = done t →
        mergeSeries kind overrides series' = done t' → ∀ key, value? t key = value? t' key := by
  have succeeds_iff : ∀ {series : List (Coordinate × Table Property)}, IsSeries series →
      ((∃ t, mergeSeries kind overrides series = done t) ↔ Agree overrides series) :=
    fun h => ⟨fun ⟨_, ht⟩ => (isUnion_of_mergeSeries h ht).agree, fun ha => ha.exists_mergeSeries h kind⟩
  refine ⟨succeeds_iff hseries, fun t ht => isUnion_of_mergeSeries hseries ht, fun series' hperm => ?_⟩
  have hseries' : IsSeries series' := fun s hs => hseries s (hperm.mem_iff.mpr hs)
  refine ⟨?_, fun t t' ht ht' => ?_⟩
  · rw [succeeds_iff hseries, succeeds_iff hseries']
    exact ⟨fun h => h.of_subset hperm.symm.subset, fun h => h.of_subset hperm.subset⟩
  · exact (isUnion_of_mergeSeries hseries ht).value?_eq_of_perm
      (isUnion_of_mergeSeries hseries' ht') hperm

end FeatureAssembly.Properties

namespace FeatureAssembly
open Outcome

namespace Sample

def tables : List (Coordinate × Table Property) :=
  [(id "a", [("k", .ofValue "v"), ("o", .ofValue "1")]),
    (id "b", [("m", ⟨"w", [], [id "x", id "y"]⟩), ("o", .ofValue "2")]),
    (id "c", [("k", .ofValue "v"), ("m", .ofValue "w")])]

end Sample

theorem Properties.mergeSeries_tables_unites :
    IsSeries Sample.tables ∧ ∃ t, mergeSeries .variable [("o", "9")] Sample.tables = done t ∧
      Roster.keys t = ["k", "o", "m"] ∧ value? t "o" = some "9" ∧ value? t "k" = some "v" ∧
      ∀ p, Table.get? t "m" = some p → p.origins = [Sample.id "x", Sample.id "y", Sample.id "c"] := by
  have hseries : IsSeries Sample.tables := by
    unfold IsSeries Roster.Distinct
    decide
  obtain ⟨-, hunion, -⟩ := mergeSeries_unites hseries .variable [("o", "9")]
  obtain ⟨t, ht⟩ : ∃ t, mergeSeries .variable [("o", "9")] Sample.tables = done t := ⟨_, rfl⟩
  have hkeys : Roster.keys t = ["k", "o", "m"] := (hunion t ht).keys
  refine ⟨hseries, t, ht, hkeys, ?_, ?_, fun p hp => ?_⟩
  · exact (hunion t ht).overridden "o" (by rw [hkeys]; decide) "9" rfl
  · exact (hunion t ht).common "k" rfl _ (List.mem_cons_self ..) "v" rfl
  · rw [(hunion t ht).origins "m" p hp]
    rfl

end FeatureAssembly
