import FeatureAssembly.Proofs.Distinct
import Mathlib.Data.List.Basic

/-! Merges of artifacts in which no version gives way to another: under the rule that keeps all, and
whenever the present artifacts come from the same source as the incoming one, as they do in a merge
into an empty list. Such merges do not fail, and do the same under all rules. -/

namespace FeatureAssembly
open Outcome

theorem Roster.mem_keys_add {α κ : Type} [Keyed α κ] [DecidableEq κ] {l : List α} {x : α} {k : κ} :
    k ∈ keys (add l x) ↔ k ∈ keys l ∨ k = Keyed.key x := by
  by_cases h : Keyed.key x ∈ keys l
  · rw [add_of_mem h]
    exact ⟨.inl, fun hk => hk.elim (·) fun heq => heq ▸ h⟩
  · simp [add_of_not_mem h]

theorem Roster.mem_keys_filter_or {α κ : Type} [Keyed α κ] {l : List α} {p : α → Bool} {k : κ} :
    k ∈ keys (l.filter fun x => !p x) ∨ k ∈ keys (l.filter p) ↔ k ∈ keys l := by
  simp only [keys, List.mem_map, List.mem_filter]
  grind

namespace Artifacts

@[simp] theorem mem_keys_gather {l : List Artifact} {a : Artifact} {id : Coordinate} :
    id ∈ Roster.keys (gather l a) ↔ id ∈ Roster.keys l ∨ id = a.id := by
  unfold gather
  split
  · next b h =>
    have hmem : a.id ∈ Roster.keys l := Roster.find?_isSome_iff.mp (Option.isSome_of_eq_some h)
    have hkeys := Roster.keys_adjust l a.id (f := fun b => b.absorb a) fun _ => rfl
    rw [hkeys]
    exact ⟨.inl, fun h => h.elim (·) fun heq => heq ▸ hmem⟩
  · simp

@[simp] theorem mem_keys_gatherAll {l : List Artifact} {id : Coordinate} :
    id ∈ Roster.keys (gatherAll l) ↔ id ∈ Roster.keys l := by
  have gathered : ∀ acc, id ∈ Roster.keys (l.foldl gather acc) ↔
      id ∈ Roster.keys acc ∨ id ∈ Roster.keys l := by
    induction l with
    | nil => simp
    | cons a l ih => intro acc; simp [ih, or_assoc]
  simpa [gatherAll] using gathered []

@[simp] theorem mem_keys_placeAt {l as : List Artifact} {i : Nat} {id : Coordinate} :
    id ∈ Roster.keys (placeAt l i as) ↔ id ∈ Roster.keys l ∨ id ∈ Roster.keys as := by
  induction as generalizing l i with
  | nil => simp [placeAt]
  | cons a as ih =>
    by_cases ha : a.id ∈ Roster.keys l
    · have hrefused : Roster.insertAt? l i a = none := Roster.insertAt?_of_mem ha i
      simp only [placeAt, hrefused, ih, Roster.keys_cons, Artifact.key_eq, List.mem_cons]
      refine ⟨Or.imp_right .inr, ?_⟩
      rintro (h | rfl | h)
      · exact .inl h
      · exact .inl ha
      · exact .inr h
    · have hplaced := Roster.insertAt?_of_not_mem (x := a) ha i
      have hkeys := (Roster.keys_take_drop l i a).mem_iff (a := id)
      simp only [placeAt, hplaced, ih, hkeys, Roster.keys_cons, Artifact.key_eq, List.mem_cons,
        or_assoc, or_left_comm]

def abreast (existing incoming : Artifact) : Survivors :=
  if existing.id = incoming.id then ⟨[existing.combine existing incoming], []⟩
  else ⟨[existing], [incoming]⟩

def abreastAll (incoming : Artifact) : List Artifact → Survivors
  | [] => ⟨[], []⟩
  | existing :: rest =>
    ⟨(abreast existing incoming).present ++ (abreastAll incoming rest).present,
      (abreast existing incoming).incoming ++ (abreastAll incoming rest).incoming⟩

/-- The artifacts with a further one, where no version gives way to another. -/
def beside (l : List Artifact) (incoming : Artifact) : List Artifact :=
  match l.filter fun a => a.isSame incoming with
  | [] => Roster.add l incoming
  | matched =>
    placeAt (l.filter fun a => !a.isSame incoming) (l.findIdx fun a => a.isSame incoming)
      (gatherAll ((abreastAll incoming matched).present ++ (abreastAll incoming matched).incoming))

def allBeside (origin : Coordinate) (target source : List Artifact) : List Artifact :=
  source.foldl (fun l a => beside l (a.stamped origin)) target

theorem mem_keys_abreastAll {incoming : Artifact} {matched : List Artifact} {id : Coordinate} :
    id ∈ Roster.keys ((abreastAll incoming matched).present ++
      (abreastAll incoming matched).incoming) ↔
        id ∈ Roster.keys matched ∨ (matched ≠ [] ∧ id = incoming.id) := by
  induction matched with
  | nil => simp [abreastAll]
  | cons a matched ih =>
    rw [Roster.keys_append, List.mem_append] at ih
    by_cases ha : a.id = incoming.id
    · simp [abreastAll, abreast, ha, Artifact.combine]
      grind
    · simp [abreastAll, abreast, ha]
      grind

@[simp] theorem mem_keys_beside {l : List Artifact} {incoming : Artifact} {id : Coordinate} :
    id ∈ Roster.keys (beside l incoming) ↔ id ∈ Roster.keys l ∨ id = incoming.id := by
  unfold beside
  split
  · exact Roster.mem_keys_add
  · next matched hm =>
    rw [mem_keys_placeAt, mem_keys_gatherAll, mem_keys_abreastAll, ← or_assoc,
      Roster.mem_keys_filter_or]
    exact or_congr_right (and_iff_right hm)

theorem mem_keys_allBeside {origin : Coordinate} {target source : List Artifact}
    {id : Coordinate} :
    id ∈ Roster.keys (allBeside origin target source) ↔
      id ∈ Roster.keys target ∨ id ∈ Roster.keys source := by
  unfold allBeside
  induction source generalizing target with
  | nil => simp
  | cons a source ih => simp [ih, or_assoc]

theorem meet_of_sameSource (rules : List OverrideRule) (existing incoming : Artifact) :
    meet rules true existing incoming = .ok (abreast existing incoming) := by
  unfold meet abreast
  split <;> rfl

theorem isFor_catchAll (policy : OverridePolicy) (a : Coordinate) :
    (OverrideRule.catchAll policy).isFor a = true := by
  have h : ∀ value, OverrideRule.matchesField wildcard value = true := fun _ => rfl
  cases hc : a.classifier <;>
    simp [OverrideRule.isFor, OverrideRule.catchAll, OverrideRule.make, Coordinate.bundleType,
      wildcard, OverrideRule.matchesField, OverrideRule.matchesClassifier, hc]

theorem find?_rule_singleton {rule : OverrideRule} {incoming : Coordinate}
    (h : rule.isFor incoming = true) (existing : Coordinate) :
    OverrideRule.find? [rule] existing incoming = some rule := by
  simp [OverrideRule.find?, h]

theorem meet_of_keepsBoth {rule : OverrideRule} (sameSource : Bool) {existing incoming : Artifact}
    (hfor : rule.isFor incoming.id = true) (hpolicy : rule.policy = .all) :
    meet [rule] sameSource existing incoming = .ok (abreast existing incoming) := by
  have hselect : rule.policy.select existing.id incoming.id = .both := by
    rw [hpolicy]
    rfl
  unfold meet abreast settle
  rw [find?_rule_singleton hfor]
  dsimp only
  rw [hselect]
  cases sameSource <;> split <;> rfl

theorem meet_catchAll (sameSource : Bool) (existing incoming : Artifact) :
    meet [OverrideRule.catchAll .all] sameSource existing incoming =
      .ok (abreast existing incoming) :=
  meet_of_keepsBoth sameSource (isFor_catchAll .all incoming.id) rfl

theorem meetAll_eq_abreastAll {rules : List OverrideRule} {sameSource : Artifact → Bool}
    {incoming : Artifact} {matched : List Artifact}
    (h : ∀ a ∈ matched, meet rules (sameSource a) a incoming = .ok (abreast a incoming)) :
    meetAll rules sameSource incoming matched = .ok (abreastAll incoming matched) := by
  induction matched with
  | nil => rfl
  | cons a matched ih =>
    rw [meetAll, h a (List.mem_cons_self ..), ih fun b hb => h b (List.mem_cons_of_mem _ hb)]
    rfl

theorem mergeIncoming_of_abreast {rules : List OverrideRule} {origin : Coordinate} {p : Progress}
    {incoming : Artifact} (h : ∀ a ∈ p.artifacts,
      meet rules (a.id ∈ p.contributed || origin ∈ a.origins) a incoming = .ok (abreast a incoming)) :
    mergeIncoming rules origin p incoming =
      .ok ⟨beside p.artifacts incoming, incoming.id :: p.contributed⟩ := by
  have hmeet : meetAll rules (fun a => a.id ∈ p.contributed || origin ∈ a.origins) incoming
      (p.artifacts.filter fun a => a.isSame incoming) = .ok (abreastAll incoming _) :=
    meetAll_eq_abreastAll fun a ha => h a (List.mem_of_mem_filter ha)
  unfold mergeIncoming beside
  cases hm : p.artifacts.filter fun a => a.isSame incoming with
  | nil => rfl
  | cons a matched =>
    rw [hm] at hmeet
    have hin : incoming.id ∈ Roster.keys (gatherAll ((abreastAll incoming (a :: matched)).present ++
        (abreastAll incoming (a :: matched)).incoming)) :=
      mem_keys_gatherAll.mpr (mem_keys_abreastAll.mpr (.inr ⟨List.cons_ne_nil _ _, rfl⟩))
    simp only [hmeet]
    rw [if_pos]
    simpa [Roster.keys] using hin

/-- No present artifact gives way to an incoming one, or makes it give way. -/
def Lenient (rules : List OverrideRule) (origin : Coordinate) (p : Progress) : Prop :=
  ∀ incoming, ∀ a ∈ p.artifacts,
    meet rules (a.id ∈ p.contributed || origin ∈ a.origins) a incoming = .ok (abreast a incoming)

theorem lenient_catchAll (origin : Coordinate) (p : Progress) :
    Lenient [OverrideRule.catchAll .all] origin p := fun _ _ _ => meet_catchAll ..

def Progress.IsOwn (p : Progress) : Prop := ∀ id ∈ Roster.keys p.artifacts, id ∈ p.contributed

theorem Progress.IsOwn.lenient {p : Progress} (h : p.IsOwn) (rules : List OverrideRule)
    (origin : Coordinate) : Lenient rules origin p := by
  intro incoming a ha
  have hown : a.id ∈ p.contributed := h _ (List.mem_map_of_mem ha)
  rw [decide_eq_true hown, Bool.true_or]
  exact meet_of_sameSource ..

theorem Progress.IsOwn.beside {p : Progress} (h : p.IsOwn) (incoming : Artifact) :
    Progress.IsOwn ⟨Artifacts.beside p.artifacts incoming, incoming.id :: p.contributed⟩ := by
  intro id hid
  rcases mem_keys_beside.mp hid with hid | rfl
  · exact List.mem_cons_of_mem _ (h id hid)
  · exact List.mem_cons_self ..

theorem each_mergeOne_of_lenient {rules : List OverrideRule} {origin : Coordinate}
    {I : Progress → Prop} (lenient : ∀ p, I p → Lenient rules origin p)
    (step : ∀ p incoming, I p → I ⟨beside p.artifacts incoming, incoming.id :: p.contributed⟩)
    {p : Progress} (hp : I p) (source : List Artifact) :
    (each (mergeOne rules origin) p source).map Progress.artifacts =
      done (allBeside origin p.artifacts source) := by
  -- `I` is what makes every meeting on the way lenient
  induction source generalizing p with
  | nil => rfl
  | cons a source ih =>
    rw [each_cons, mergeOne, mergeIncoming_of_abreast (lenient p hp _)]
    exact ih (step p _ hp)

theorem merge_catchAll (origin : Coordinate) (target source : List Artifact) :
    merge [OverrideRule.catchAll .all] origin target source =
      done (allBeside origin target source) :=
  each_mergeOne_of_lenient (I := fun _ => True) (fun p _ => lenient_catchAll origin p)
    (fun _ _ _ => trivial) trivial source

theorem merge_into_empty (rules : List OverrideRule) (origin : Coordinate)
    (source : List Artifact) :
    merge rules origin [] source = done (allBeside origin [] source) :=
  each_mergeOne_of_lenient (fun _ hp => hp.lenient rules origin)
    (fun _ incoming hp => hp.beside incoming) (I := Progress.IsOwn) (p := ⟨[], []⟩)
    (fun _ h => nomatch h) source

end Artifacts
end FeatureAssembly
