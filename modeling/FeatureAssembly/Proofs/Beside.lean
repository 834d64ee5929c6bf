import FeatureAssembly.Proofs.ArtifactMerge
import FeatureAssembly.Proofs.Layering

/-! Where the artifacts of a list stand, and what each of them is, after one more was put beside them.
One with its coordinate unites with it, also if it meets further versions; else the new one follows
the versions that it matches, which stand where the first of them stood. -/

namespace FeatureAssembly
open Outcome

@[simp] theorem minStartOrder_self (n : Nat) : minStartOrder n n = n := by
  simp [minStartOrder]

@[simp] theorem minStartOrder_absorbed (m n : Nat) :
    minStartOrder (minStartOrder m n) n = minStartOrder m n := by
  unfold minStartOrder
  grind

namespace Artifact

@[simp] theorem absorb_self (a : Artifact) : a.absorb a = a := by
  rw [absorb, minStartOrder_self, addAllNew_of_subset fun _ h => h]

@[simp] theorem combine_absorb (e i : Artifact) :
    (e.combine e i).absorb i = e.combine e i := by
  have horigins : i.origins ⊆ addAllNew [] (e.origins ++ i.origins) := by
    intro o ho
    simp [ho]
  rw [absorb, combine, minStartOrder_absorbed, addAllNew_of_subset horigins]

def united (incoming e : Artifact) : Artifact :=
  if e.id = incoming.id then e.combine e incoming else e

@[simp] theorem id_united (incoming e : Artifact) : (united incoming e).id = e.id := by
  unfold united
  split <;> rfl

end Artifact

namespace Artifacts
variable {l matched : List Artifact} {incoming : Artifact}

theorem map_united_of_not_mem (h : incoming.id ∉ Roster.keys l) :
    l.map (Artifact.united incoming) = l := by
  have hfixed : ∀ e ∈ l, Artifact.united incoming e = e := by
    intro e he
    refine if_neg fun heq => h ?_
    rw [← heq]
    exact List.mem_map_of_mem he
  rw [List.map_congr_left hfixed, List.map_id']

theorem gather_of_absorbed {b : Artifact} (h : Roster.find? l incoming.id = some b)
    (hb : b.absorb incoming = b) : gather l incoming = l := by
  rw [gather, h]
  exact Roster.adjust_of_fixed h hb

theorem gatherAll_append (as bs : List Artifact) :
    gatherAll (as ++ bs) = bs.foldl gather (gatherAll as) := List.foldl_append

theorem gatherAll_of_distinct (h : Roster.Distinct l) : gatherAll l = l := by
  have gathered : ∀ acc, Roster.Distinct (acc ++ l) → l.foldl gather acc = acc ++ l := by
    induction l with
    | nil => exact fun acc _ => (List.append_nil acc).symm
    | cons a l ih =>
      intro acc hacc
      have hnew : Roster.find? acc a.id = none :=
        Roster.find?_eq_none_iff.mpr (Roster.not_mem_keys_of_distinct_append hacc)
      have hrest : Roster.Distinct (acc ++ [a] ++ l) := by rwa [List.append_assoc]
      rw [List.foldl_cons, gather, hnew, ih (List.nodup_cons.mp h).2 _ hrest, List.append_assoc]
      rfl
  exact gathered [] h

theorem foldl_gather_replicate (h : gather l incoming = l) (n : Nat) :
    (List.replicate n incoming).foldl gather l = l := by
  induction n with
  | zero => rfl
  | succ n ih => rw [List.replicate_succ, List.foldl_cons, h, ih]

theorem present_abreastAll :
    (abreastAll incoming matched).present = matched.map (Artifact.united incoming) := by
  induction matched with
  | nil => rfl
  | cons e matched ih =>
    rw [abreastAll, ih, List.map_cons, abreast, Artifact.united]
    split <;> rfl

theorem incoming_abreastAll : (abreastAll incoming matched).incoming =
    List.replicate (matched.countP fun e => e.id ≠ incoming.id) incoming := by
  induction matched with
  | nil => rfl
  | cons e matched ih =>
    rw [abreastAll, ih, List.countP_cons, abreast]
    by_cases h : e.id = incoming.id
    · simp [h]
    · simp [h, List.replicate_succ]

/-- Of the meetings with matched versions, each of another coordinate, one incoming artifact remains,
which follows them; one of its own coordinate takes up all that remain. -/
theorem gatherAll_abreastAll (hmatched : Roster.Distinct matched) (hne : matched ≠ []) :
    gatherAll ((abreastAll incoming matched).present ++ (abreastAll incoming matched).incoming) =
      if incoming.id ∈ Roster.keys matched then matched.map (Artifact.united incoming)
      else matched ++ [incoming] := by
  have hpresent : gatherAll (matched.map (Artifact.united incoming)) =
      matched.map (Artifact.united incoming) :=
    gatherAll_of_distinct (hmatched.map fun e => Artifact.id_united incoming e)
  rw [gatherAll_append, present_abreastAll, incoming_abreastAll, hpresent]
  split
  · next hmem =>
    refine foldl_gather_replicate ?_ _
    obtain ⟨e, he⟩ := Option.isSome_iff_exists.mp (Roster.find?_isSome_iff.mpr hmem)
    have hid : e.id = incoming.id := Roster.key_of_find? he
    have hfound : Roster.find? (matched.map (Artifact.united incoming)) incoming.id =
        some (e.combine e incoming) := by
      rw [Roster.find?_map fun e => Artifact.id_united incoming e, he, Option.map_some,
        Artifact.united, if_pos hid]
    exact gather_of_absorbed hfound (Artifact.combine_absorb e incoming)
  · next hnot =>
    have hcount : (matched.countP fun e => e.id ≠ incoming.id) = matched.length := by
      refine List.countP_eq_length.mpr fun e he => ?_
      refine decide_eq_true fun heq => hnot ?_
      rw [← heq]
      exact List.mem_map_of_mem he
    obtain ⟨n, hn⟩ := Nat.exists_eq_succ_of_ne_zero (List.length_eq_zero_iff.not.mpr hne)
    have hnew : gather matched incoming = matched ++ [incoming] := by
      rw [gather, Roster.find?_eq_none_iff.mpr hnot]
    have hfound : Roster.find? (matched ++ [incoming]) incoming.id = some incoming := by
      exact (Roster.find?_append_singleton hnot incoming.id).trans (if_pos rfl)
    rw [map_united_of_not_mem hnot, hcount, hn, List.replicate_succ, List.foldl_cons, hnew]
    exact foldl_gather_replicate (gather_of_absorbed hfound (Artifact.absorb_self incoming)) n

theorem beside_of_unmatched (h : l.filter (fun a => a.isSame incoming) = []) :
    beside l incoming = l ++ [incoming] := by
  have hnew : incoming.id ∉ Roster.keys l := id_not_mem_of_unmatched (p := ⟨l, []⟩) h
  rw [beside, h]
  exact Roster.add_of_not_mem hnew

theorem beside_of_matched (hl : Roster.Distinct l)
    (h : l.filter (fun a => a.isSame incoming) ≠ []) :
    Placed (l.filter fun a => !a.isSame incoming) (l.findIdx fun a => a.isSame incoming)
      (if incoming.id ∈ Roster.keys (l.filter fun a => a.isSame incoming)
        then (l.filter fun a => a.isSame incoming).map (Artifact.united incoming)
        else (l.filter fun a => a.isSame incoming) ++ [incoming])
      (beside l incoming) := by
  have hmeet : meetAll [OverrideRule.catchAll .all]
      (fun a => a.id ∈ ([] : List Coordinate) || incoming.id ∈ a.origins) incoming
      (l.filter fun a => a.isSame incoming) = .ok (abreastAll incoming _) :=
    meetAll_eq_abreastAll fun a _ => meet_catchAll _ a incoming
  have hsettles : Settles [OverrideRule.catchAll .all] incoming.id ⟨l, []⟩ incoming
      (gatherAll ((abreastAll incoming (l.filter fun a => a.isSame incoming)).present ++
        (abreastAll incoming (l.filter fun a => a.isSame incoming)).incoming)) :=
    ⟨h, _, hmeet, rfl⟩
  have hplaced := hsettles.placed hl (l.findIdx fun a => a.isSame incoming)
  have hbeside : beside l incoming = placeAt (l.filter fun a => !a.isSame incoming)
      (l.findIdx fun a => a.isSame incoming)
      (gatherAll ((abreastAll incoming (l.filter fun a => a.isSame incoming)).present ++
        (abreastAll incoming (l.filter fun a => a.isSame incoming)).incoming)) := by
    unfold beside
    split
    · next hnone => exact absurd hnone h
    · rfl
  rw [← gatherAll_abreastAll (hl.filter _) h, hbeside]
  exact hplaced

theorem distinct_beside (hl : Roster.Distinct l) (incoming : Artifact) :
    Roster.Distinct (beside l incoming) := by
  unfold beside
  split
  · exact hl.add incoming
  · exact distinct_placeAt (hl.filter _) ..

theorem isSame_of_id_eq {e : Artifact} (h : e.id = incoming.id) : e.isSame incoming = true :=
  Artifact.isSame_of_identity (congrArg Coordinate.identity h)

theorem mem_beside_of_new (hl : Roster.Distinct l) (hnew : incoming.id ∉ Roster.keys l)
    {a : Artifact} : a ∈ beside l incoming ↔ a ∈ l ∨ a = incoming := by
  by_cases hmatched : l.filter (fun a => a.isSame incoming) = []
  · rw [beside_of_unmatched hmatched, List.mem_append, List.mem_singleton]
  · have hnot : incoming.id ∉ Roster.keys (l.filter fun a => a.isSame incoming) :=
      fun h => hnew (Roster.mem_keys_filter_or.mp (.inr h))
    rw [(beside_of_matched hl hmatched).mem_iff, if_neg hnot]
    simp only [List.mem_append, List.mem_singleton, List.mem_filter]
    grind

theorem mem_beside_of_mem (hl : Roster.Distinct l) {e : Artifact} (he : e ∈ l)
    (hid : e.id = incoming.id) {a : Artifact} : a ∈ beside l incoming ↔
      (a ∈ l ∧ a.id ≠ incoming.id) ∨ a = e.combine e incoming := by
  have hmatch : e ∈ l.filter fun a => a.isSame incoming :=
    List.mem_filter.mpr ⟨he, isSame_of_id_eq hid⟩
  have hmem : incoming.id ∈ Roster.keys (l.filter fun a => a.isSame incoming) := by
    rw [← hid]
    exact List.mem_map_of_mem hmatch
  have hunited : Artifact.united incoming e = e.combine e incoming := if_pos hid
  rw [(beside_of_matched hl (List.ne_nil_of_mem hmatch)).mem_iff, if_pos hmem]
  constructor
  · rintro (ha | ha)
    · obtain ⟨ha, hother⟩ := List.mem_filter.mp ha
      exact .inl ⟨ha, fun heq => by simp [isSame_of_id_eq heq] at hother⟩
    · obtain ⟨b, hb, rfl⟩ := List.mem_map.mp ha
      have hb : b ∈ l := List.mem_of_mem_filter hb
      by_cases hbid : b.id = incoming.id
      · obtain rfl : b = e := hl.eq_of_key hb he (hbid.trans hid.symm)
        exact .inr hunited
      · rw [Artifact.united, if_neg hbid]
        exact .inl ⟨hb, hbid⟩
  · rintro (⟨ha, hne⟩ | rfl)
    · cases hsame : a.isSame incoming with
      | false => exact .inl (List.mem_filter.mpr ⟨ha, by rw [hsame]; rfl⟩)
      | true => exact .inr (List.mem_map.mpr ⟨a, List.mem_filter.mpr ⟨ha, hsame⟩, if_neg hne⟩)
    · exact .inr (List.mem_map.mpr ⟨e, hmatch, hunited⟩)

theorem mem_beside (hl : Roster.Distinct l) {a : Artifact} : a ∈ beside l incoming ↔
    (a ∈ l ∧ a.id ≠ incoming.id) ∨
      a = ((Roster.find? l incoming.id).map fun e => e.combine e incoming).getD incoming := by
  cases hfound : Roster.find? l incoming.id with
  | none =>
    have hnew : incoming.id ∉ Roster.keys l := Roster.find?_eq_none_iff.mp hfound
    have hother : a ∈ l → a.id ≠ incoming.id := fun ha heq => hnew (heq ▸ List.mem_map_of_mem ha)
    rw [mem_beside_of_new hl hnew, and_iff_left_of_imp hother]
    rfl
  | some e =>
    obtain ⟨he, hid⟩ := (Roster.find?_eq_some_iff hl).mp hfound
    exact mem_beside_of_mem hl he hid

theorem find?_beside (hl : Roster.Distinct l) (incoming : Artifact) (id : Coordinate) :
    Roster.find? (beside l incoming) id =
      if incoming.id = id then
        some (((Roster.find? l incoming.id).map fun e => e.combine e incoming).getD incoming)
      else Roster.find? l id := by
  have hid : (((Roster.find? l incoming.id).map fun e => e.combine e incoming).getD incoming).id =
      incoming.id := by
    cases hfound : Roster.find? l incoming.id with
    | none => rfl
    | some e => exact Roster.key_of_find? hfound
  ext a
  rw [Roster.find?_eq_some_iff (distinct_beside hl incoming), mem_beside hl, Artifact.key_eq]
  split
  · next h =>
    subst h
    simp only [Option.some.injEq]
    grind
  · next h =>
    rw [Roster.find?_eq_some_iff hl, Artifact.key_eq]
    grind

end Artifacts
end FeatureAssembly
