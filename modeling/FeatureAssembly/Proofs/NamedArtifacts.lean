import FeatureAssembly.Proofs.Delegation

/-! Leaving out artifacts by coordinates. Each coordinate takes the artifact with exactly it from what its
predecessors have left, or else all artifacts of its identity. An artifact stays if the coordinates of its
identity are there, each listed once, and none of them is its own. -/

namespace FeatureAssembly

theorem filter_eq_singleton_of_nodup {α β : Type} [DecidableEq β] {g : α → β} {l : List α} {x : α}
    (hl : (l.map g).Nodup) (hx : x ∈ l) : (l.filter fun y => g y = g x) = [x] := by
  obtain ⟨front, back, rfl⟩ := List.append_of_mem hx
  have hperm : ((front ++ x :: back).map g).Perm (g x :: (front ++ back).map g) :=
    List.perm_middle.map g
  obtain ⟨hbeside, -⟩ := List.nodup_cons.mp (hperm.nodup_iff.mp hl)
  have hnone : ∀ m : List α, m ⊆ front ++ back → (m.filter fun y => g y = g x) = [] := by
    intro m hm
    refine List.filter_eq_nil_iff.mpr fun y hy heq => hbeside ?_
    exact of_decide_eq_true heq ▸ List.mem_map_of_mem (hm hy)
  rw [List.filter_append, hnone front (List.subset_append_left ..),
    List.filter_cons_of_pos (by simp), hnone back (List.subset_append_right ..)]
  rfl

namespace Artifacts

/-- Whether leaving out the coordinate `i` takes an artifact with the coordinate `j` from a list. -/
def Takes (l : List Artifact) (i j : Coordinate) : Prop :=
  if i ∈ Roster.keys l then j = i else j.identity = i.identity

instance instDecidableTakes (l : List Artifact) (i j : Coordinate) : Decidable (Takes l i j) :=
  inferInstanceAs (Decidable (if i ∈ Roster.keys l then j = i else j.identity = i.identity))

def without (l : List Artifact) (ids : List Coordinate) : List Artifact := ids.foldl removeNamed l

variable {l r : List Artifact} {ids : List Coordinate} {i j : Coordinate} {a : Artifact}

theorem takes_of_mem (h : i ∈ Roster.keys l) : Takes l i j ↔ j = i := by
  rw [Takes, if_pos h]

theorem takes_of_not_mem (h : i ∉ Roster.keys l) : Takes l i j ↔ j.identity = i.identity := by
  rw [Takes, if_neg h]

theorem Takes.identity (h : Takes l i j) : j.identity = i.identity := by
  by_cases hi : i ∈ Roster.keys l
  · rw [(takes_of_mem hi).mp h]
  · exact (takes_of_not_mem hi).mp h

theorem takes_self (l : List Artifact) (i : Coordinate) : Takes l i i := by
  by_cases hi : i ∈ Roster.keys l
  · exact (takes_of_mem hi).mpr rfl
  · exact (takes_of_not_mem hi).mpr rfl

/-! One coordinate. -/

theorem named_eq_filter (hl : Roster.Distinct l) (i : Coordinate) :
    named l i = l.filter fun a => Takes l i a.id := by
  rw [named]
  by_cases hi : i ∈ Roster.keys l
  · obtain ⟨a, ha⟩ := Option.isSome_iff_exists.mp (Roster.find?_isSome_iff.mpr hi)
    obtain ⟨hmem, hid⟩ := (Roster.find?_eq_some_iff hl).mp ha
    rw [ha]
    refine (filter_eq_singleton_of_nodup hl hmem).symm.trans (List.filter_congr fun b _ => ?_)
    rw [hid, Artifact.key_eq, decide_eq_decide, takes_of_mem hi]
  · rw [Roster.find?_eq_none_iff.mpr hi]
    refine List.filter_congr fun a _ => ?_
    simp only [takes_of_not_mem hi, ← Coordinate.isSame_iff, Bool.decide_eq_true]

theorem removeNamed_eq_filter (hl : Roster.Distinct l) (i : Coordinate) :
    removeNamed l i = l.filter fun a => ¬ Takes l i a.id := by
  rw [removeNamed]
  by_cases hi : i ∈ Roster.keys l
  · obtain ⟨a, ha⟩ := Option.isSome_iff_exists.mp (Roster.find?_isSome_iff.mpr hi)
    simp only [ha, Roster.remove_eq_filter hl, takes_of_mem hi, Artifact.key_eq]
  · simp only [Roster.find?_eq_none_iff.mpr hi, removeSame, takes_of_not_mem hi,
      ← Coordinate.isSame_iff, Bool.not_eq_true, Bool.decide_eq_false]

theorem named_ne_nil_iff (hl : Roster.Distinct l) :
    named l i ≠ [] ↔ ∃ a ∈ l, a.id.identity = i.identity := by
  rw [named_eq_filter hl, Ne, List.filter_eq_nil_iff]
  simp only [decide_eq_true_iff, not_forall, not_not, exists_prop]
  constructor
  · rintro ⟨a, ha, htakes⟩
    exact ⟨a, ha, htakes.identity⟩
  · rintro ⟨a, ha, hid⟩
    by_cases hi : i ∈ Roster.keys l
    · obtain ⟨b, hb, rfl⟩ := List.mem_map.mp hi
      exact ⟨b, hb, takes_self l _⟩
    · exact ⟨a, ha, (takes_of_not_mem hi).mpr hid⟩

theorem mem_removeNamed (hl : Roster.Distinct l) :
    a ∈ removeNamed l i ↔ a ∈ l ∧ ¬ Takes l i a.id := by
  rw [removeNamed_eq_filter hl, List.mem_filter, decide_eq_true_iff]

theorem mem_keys_removeNamed (hl : Roster.Distinct l) :
    j ∈ Roster.keys (removeNamed l i) ↔ j ∈ Roster.keys l ∧ ¬ Takes l i j := by
  simp only [Roster.keys, List.mem_map, mem_removeNamed hl, Artifact.key_eq]
  constructor
  · rintro ⟨a, ⟨ha, hnot⟩, rfl⟩
    exact ⟨⟨a, ha, rfl⟩, hnot⟩
  · rintro ⟨⟨a, ha, rfl⟩, hnot⟩
    exact ⟨a, ⟨ha, hnot⟩, rfl⟩

/-! All coordinates. -/

/-- Whether an artifact is left of a list without some coordinates: those of its identity are there, each
is listed once, and none of them is its own. -/
structure Stays (l : List Artifact) (ids : List Coordinate) (j : Coordinate) : Prop where
  unlisted : j ∉ ids
  once : (ids.filter fun i => i.identity = j.identity).Nodup
  present : ∀ i ∈ ids, i.identity = j.identity → i ∈ Roster.keys l

theorem stays_of_unnamed (h : ∀ i ∈ ids, i.identity ≠ j.identity) : Stays l ids j := by
  have hnone : (ids.filter fun i => i.identity = j.identity) = [] :=
    List.filter_eq_nil_iff.mpr fun i hi => by simpa using h i hi
  exact ⟨fun hj => h j hj rfl, hnone ▸ List.nodup_nil, fun i hi hid => absurd hid (h i hi)⟩

theorem stays_nil (l : List Artifact) (j : Coordinate) : Stays l [] j :=
  stays_of_unnamed fun _ h => absurd h List.not_mem_nil

theorem stays_iff_of_single (hone : (ids.filter fun k => k.identity = i.identity) = [i])
    (hid : j.identity = i.identity) : Stays l ids j ↔ ¬ Takes l i j := by
  have hlisted : ∀ k, k ∈ ids ∧ k.identity = i.identity ↔ k = i := by
    intro k
    have hmem : k ∈ ids.filter (fun k => k.identity = i.identity) ↔ k ∈ [i] := by rw [hone]
    rwa [List.mem_filter, decide_eq_true_iff, List.mem_singleton] at hmem
  have hi := ((hlisted i).mpr rfl).1
  constructor
  · rintro ⟨hunlisted, -, hthere⟩ htakes
    rw [takes_of_mem (hthere i hi hid.symm)] at htakes
    exact hunlisted (htakes ▸ hi)
  · intro hnot
    have hthere : i ∈ Roster.keys l := by
      by_contra hgone
      exact hnot ((takes_of_not_mem hgone).mpr hid)
    rw [takes_of_mem hthere] at hnot
    refine ⟨fun h => hnot ((hlisted j).mp ⟨h, hid⟩), ?_, fun k hk hkid => ?_⟩
    · rw [hid, hone]
      exact List.nodup_singleton i
    · exact (hlisted k).mp ⟨hk, hkid.trans hid⟩ ▸ hthere

theorem stays_cons_iff_of_mem (hl : Roster.Distinct l) (hid : i.identity = j.identity)
    (hi : i ∈ Roster.keys l) :
    Stays l (i :: ids) j ↔ j ≠ i ∧ Stays (removeNamed l i) ids j := by
  have hpresent : ∀ k, k ∈ Roster.keys (removeNamed l i) ↔ k ∈ Roster.keys l ∧ k ≠ i := by
    intro k
    rw [mem_keys_removeNamed hl, takes_of_mem hi]
  have honce : ((i :: ids).filter fun k => k.identity = j.identity).Nodup ↔
      i ∉ ids ∧ (ids.filter fun k => k.identity = j.identity).Nodup := by
    have hfilter : (i :: ids).filter (fun k => k.identity = j.identity) =
        i :: ids.filter fun k => k.identity = j.identity :=
      List.filter_cons_of_pos (by simpa using hid)
    rw [hfilter, List.nodup_cons, List.mem_filter, decide_eq_true_iff, and_iff_left hid]
  constructor
  · rintro ⟨hunlisted, hlist, hthere⟩
    rw [List.mem_cons, not_or] at hunlisted
    refine ⟨hunlisted.1, hunlisted.2, (honce.mp hlist).2, fun k hk hkid => ?_⟩
    refine (hpresent k).mpr ⟨hthere k (List.mem_cons_of_mem _ hk) hkid, ?_⟩
    rintro rfl
    exact (honce.mp hlist).1 hk
  · rintro ⟨hother, hunlisted, hlist, hthere⟩
    refine ⟨List.not_mem_cons_of_ne_of_not_mem hother hunlisted,
      honce.mpr ⟨fun hmem => ?_, hlist⟩, fun k hk hkid => ?_⟩
    · exact ((hpresent i).mp (hthere i hmem hid)).2 rfl
    · rcases List.mem_cons.mp hk with rfl | hk
      · exact hi
      · exact ((hpresent k).mp (hthere k hk hkid)).1

theorem stays_cons_iff_of_ne (hl : Roster.Distinct l) (hid : i.identity ≠ j.identity) :
    Stays l (i :: ids) j ↔ Stays (removeNamed l i) ids j := by
  have hpresent : ∀ k, k.identity = j.identity →
      (k ∈ Roster.keys (removeNamed l i) ↔ k ∈ Roster.keys l) := by
    intro k hk
    rw [mem_keys_removeNamed hl, and_iff_left fun htakes => hid (htakes.identity.symm.trans hk)]
  have hne : j ≠ i := fun h => hid (congrArg Coordinate.identity h.symm)
  have hfilter : (i :: ids).filter (fun k => k.identity = j.identity) =
      ids.filter fun k => k.identity = j.identity :=
    List.filter_cons_of_neg (by simpa using hid)
  constructor
  · rintro ⟨hunlisted, honce, hthere⟩
    refine ⟨fun h => hunlisted (List.mem_cons_of_mem _ h), hfilter ▸ honce, fun k hk hkid => ?_⟩
    exact (hpresent k hkid).mpr (hthere k (List.mem_cons_of_mem _ hk) hkid)
  · rintro ⟨hunlisted, honce, hthere⟩
    refine ⟨List.not_mem_cons_of_ne_of_not_mem hne hunlisted, hfilter.symm ▸ honce,
      fun k hk hkid => ?_⟩
    rcases List.mem_cons.mp hk with rfl | hk
    · exact absurd hkid hid
    · exact (hpresent k hkid).mp (hthere k hk hkid)

theorem stays_cons_iff (hl : Roster.Distinct l) :
    Stays l (i :: ids) j ↔ ¬ Takes l i j ∧ Stays (removeNamed l i) ids j := by
  by_cases hid : i.identity = j.identity
  · by_cases hi : i ∈ Roster.keys l
    · rw [takes_of_mem hi]
      exact stays_cons_iff_of_mem hl hid hi
    · refine iff_of_false (fun h => ?_) (fun h => ?_)
      · exact hi (h.present i (List.mem_cons_self ..) hid)
      · exact h.1 ((takes_of_not_mem hi).mpr hid.symm)
  · rw [and_iff_right fun htakes => hid htakes.identity.symm]
    exact stays_cons_iff_of_ne hl hid

theorem sublist_without (hl : Roster.Distinct l) (ids : List Coordinate) :
    (without l ids).Sublist l := by
  induction ids generalizing l with
  | nil => exact List.Sublist.refl l
  | cons i ids ih =>
    refine (ih (distinct_removeNamed hl i)).trans ?_
    rw [removeNamed_eq_filter hl]
    exact List.filter_sublist

theorem mem_without (hl : Roster.Distinct l) :
    a ∈ without l ids ↔ a ∈ l ∧ Stays l ids a.id := by
  induction ids generalizing l with
  | nil => exact (and_iff_left (stays_nil l a.id)).symm
  | cons i ids ih =>
    have hrest : a ∈ without l (i :: ids) ↔ _ := ih (distinct_removeNamed hl i)
    rw [hrest, mem_removeNamed hl, stays_cons_iff hl, and_assoc]

theorem distinct_without (hl : Roster.Distinct l) (ids : List Coordinate) :
    Roster.Distinct (without l ids) :=
  List.Nodup.sublist ((sublist_without hl ids).map Keyed.key) hl

structure LeavesOut (ids : List Coordinate) (l r : List Artifact) : Prop where
  sublist : r.Sublist l
  mem_iff : ∀ a ∈ l, a ∈ r ↔ Stays l ids a.id
  unlisted : ∀ a ∈ r, a.id ∉ ids
  named : ∀ a ∈ l, a ∉ r → ∃ i ∈ ids, i.identity = a.id.identity
  single : ∀ i, (ids.filter fun k => k.identity = i.identity) = [i] →
    ∀ a ∈ l, a.id.identity = i.identity → (a ∉ r ↔ Takes l i a.id)

theorem leavesOut_without (hl : Roster.Distinct l) (ids : List Coordinate) :
    LeavesOut ids l (without l ids) := by
  have hmem : ∀ a ∈ l, a ∈ without l ids ↔ Stays l ids a.id := by
    intro a ha
    rw [mem_without hl, and_iff_right ha]
  refine ⟨sublist_without hl ids, hmem, fun a ha => ((mem_without hl).mp ha).2.unlisted,
    fun a ha hout => ?_, fun i hone a ha hid => ?_⟩
  · rw [hmem a ha] at hout
    by_contra hnone
    push Not at hnone
    exact hout (stays_of_unnamed hnone)
  · rw [hmem a ha, stays_iff_of_single hone hid, not_not]

/-! Coordinates of distinct identities are left out independently. -/

theorem stays_iff_of_nodup (hids : (ids.map Coordinate.identity).Nodup) :
    Stays l ids j ↔ ∀ i ∈ ids, ¬ Takes l i j := by
  by_cases hnamed : ∃ i ∈ ids, i.identity = j.identity
  · obtain ⟨i, hi, hid⟩ := hnamed
    rw [stays_iff_of_single (filter_eq_singleton_of_nodup hids hi) hid.symm]
    constructor
    · intro hnot k hk htakes
      obtain rfl : k = i :=
        List.inj_on_of_nodup_map hids hk hi (htakes.identity.symm.trans hid.symm)
      exact hnot htakes
    · exact fun h => h i hi
  · push Not at hnamed
    refine iff_of_true (stays_of_unnamed hnamed) fun i hi htakes => ?_
    exact hnamed i hi htakes.identity.symm

theorem exists_without_iff (hl : Roster.Distinct l) (h : ∀ k ∈ ids, k.identity ≠ i.identity) :
    (∃ a ∈ without l ids, a.id.identity = i.identity) ↔ ∃ a ∈ l, a.id.identity = i.identity := by
  refine exists_congr fun a => and_congr_left fun hid => ?_
  rw [mem_without hl, and_iff_left (stays_of_unnamed (hid ▸ h))]

end Artifacts
end FeatureAssembly
