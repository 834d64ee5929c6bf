import FeatureAssembly.Proofs.CopyIntoEmpty

/-! Runs over named entries in which each step reads and changes only what is under the name of its
entry. If no name comes twice, every step finds what was there at the beginning, so that the fault
of a run and what is under a name in the end are told by the beginning alone. -/

namespace FeatureAssembly

theorem findSome?_congr {α β : Type} {f g : α → Option β} {l : List α} (h : ∀ a ∈ l, f a = g a) :
    l.findSome? f = l.findSome? g := by
  rw [← List.head?_filterMap, ← List.head?_filterMap, List.filterMap_congr h]

theorem findSome?_flatMap {α β γ : Type} (f : β → Option γ) (g : α → List β) (l : List α) :
    (l.flatMap g).findSome? f = l.findSome? fun a => (g a).findSome? f := by
  induction l with
  | nil => rfl
  | cons a l ih =>
    rw [List.flatMap_cons, List.findSome?_append, ih, List.findSome?_cons]
    cases (g a).findSome? f <;> rfl

section
variable {α : Type} [DecidableEq α]

theorem addAllNew_eq_append_filter {l xs : List α} (hxs : xs.Nodup) :
    addAllNew l xs = l ++ xs.filter fun x => x ∉ l := by
  induction xs generalizing l with
  | nil => rw [List.filter_nil, List.append_nil]; rfl
  | cons x xs ih =>
    obtain ⟨hx, htail⟩ := List.nodup_cons.mp hxs
    rw [addAllNew, List.foldl_cons, ← addAllNew, ih htail]
    by_cases hmem : x ∈ l
    · simp [addNew, hmem]
    · have hfilter : (xs.filter fun y => y ∉ l ++ [x]) = xs.filter fun y => y ∉ l := by
        refine List.filter_congr fun y hy => ?_
        have hne : y ≠ x := fun h => hx (h ▸ hy)
        simp [hne]
      rw [addNew, if_neg hmem, hfilter]
      simp [hmem]

theorem addAllNew_assoc (l xs ys : List α) :
    addAllNew l (addAllNew xs ys) = addAllNew (addAllNew l xs) ys := by
  induction ys generalizing xs with
  | nil => rfl
  | cons y ys ih =>
    have hstep : addAllNew l (addNew xs y) = addNew (addAllNew l xs) y := by
      by_cases hy : y ∈ xs
      · have hmem : y ∈ addAllNew l xs := mem_addAllNew.mpr (.inr hy)
        rw [addNew, if_pos hy, addNew, if_pos hmem]
      · rw [addNew, if_neg hy, addAllNew_append]
        rfl
    calc addAllNew l (addAllNew xs (y :: ys))
        = addAllNew l (addAllNew (addNew xs y) ys) := rfl
      _ = addAllNew (addAllNew l (addNew xs y)) ys := ih (addNew xs y)
      _ = addAllNew (addNew (addAllNew l xs) y) ys := by rw [hstep]

end

namespace Roster
open Outcome
variable {α β κ σ ε : Type} [Keyed α κ] [DecidableEq κ]

theorem find?_map {f : α → α} (hf : ∀ x, (Keyed.key (f x) : κ) = Keyed.key x) (l : List α)
    (k : κ) : find? (l.map f) k = (find? l k).map f := by
  induction l with
  | nil => rfl
  | cons x l ih =>
    rw [List.map_cons, find?, find?, hf, ih]
    split <;> rfl

theorem find?_append (l m : List α) (k : κ) : find? (l ++ m) k = (find? l k).or (find? m k) := by
  induction l with
  | nil => rfl
  | cons x l ih =>
    rw [List.cons_append, find?, find?, ih]
    split <;> rfl

theorem find?_append_singleton {l : List α} {x : α} (h : Keyed.key x ∉ keys l) (k : κ) :
    find? (l ++ [x]) k = if Keyed.key x = k then some x else find? l k := by
  rw [find?_append, find?, find?]
  split_ifs with hk
  · have hnone : find? l k = none := find?_eq_none_iff.mpr (hk ▸ h)
    rw [hnone, Option.none_or]
  · exact Option.or_none

theorem find?_put (l : List α) (x : α) (k : κ) :
    find? (put l x) k = if Keyed.key x = k then some x else find? l k := by
  induction l with
  | nil => rfl
  | cons y l ih =>
    by_cases hy : Keyed.key y = Keyed.key x
    · rw [put, if_pos hy, find?, find?, hy]
      split_ifs <;> rfl
    · rw [put, if_neg hy, find?, find?, ih]
      split_ifs with h h'
      · exact absurd (h.trans h'.symm) hy
      · rfl
      · rfl
      · rfl

theorem put_of_find? {l : List α} {x : α} (h : find? l (Keyed.key x) = some x) : put l x = l := by
  induction l with
  | nil => cases h
  | cons y l ih =>
    rw [find?] at h
    rw [put]
    split_ifs at h ⊢ with hy
    · rw [Option.some.inj h]
    · rw [ih h]

theorem keys_put_eq_addNew (l : List α) (x : α) : keys (put l x) = addNew (keys l) (Keyed.key x) :=
  keys_put l x

theorem keys_add_eq_addNew (l : List α) (x : α) : keys (add l x) = addNew (keys l) (Keyed.key x) := by
  unfold addNew
  split
  · next h => rw [add_of_mem h]
  · next h => rw [add_of_not_mem h, keys_append, keys_cons, keys_nil]

theorem keys_each {step : List β → α → Outcome ε (List β)} [Keyed β κ]
    (hstep : ∀ t x t', step t x = done t' → keys t' = addNew (keys t) (Keyed.key x))
    {source : List α} {t r : List β} (h : each step t source = done r) :
    keys r = addAllNew (keys t) (keys source) := by
  induction source generalizing t with
  | nil => rw [(eq_done_iff.mp h).1.symm]; rfl
  | cons x source ih =>
    obtain ⟨u, hu, hr⟩ := andThen_eq_done_iff.mp h
    rw [ih hr, hstep t x u hu]
    rfl

/-- `own x found` is what the step for an entry makes of what it finds under the name of the entry;
`view` looks up what is under a name. -/
structure IsLocalStep (view : σ → κ → Option β) (own : α → Option β → Outcome ε (Option β))
    (step : σ → α → Outcome ε σ) : Prop where
  fault : ∀ t x, (step t x).fault = (own x (view t (Keyed.key x))).fault
  view : ∀ t x k, view (step t x).value k =
    if Keyed.key x = k then (own x (view t k)).value else view t k

namespace IsLocalStep
variable {view : σ → κ → Option β} {own : α → Option β → Outcome ε (Option β)}
  {step : σ → α → Outcome ε σ} {source : List α}

theorem fault_each (h : IsLocalStep view own step) (hs : Distinct source) (t : σ) :
    (each step t source).fault =
      source.findSome? fun x => (own x (view t (Keyed.key x))).fault := by
  induction source generalizing t with
  | nil => rfl
  | cons x source ih =>
    obtain ⟨hx, htail⟩ := List.nodup_cons.mp hs
    have hsame : ∀ y ∈ source, (own y (view (step t x).value (Keyed.key y))).fault =
        (own y (view t (Keyed.key y))).fault := by
      intro y hy
      have hne : Keyed.key x ≠ Keyed.key y := fun heq => hx (heq ▸ List.mem_map_of_mem hy)
      rw [h.view, if_neg hne]
    rw [each_cons, fault_andThen, ih htail, findSome?_congr hsame, h.fault, List.findSome?_cons]
    cases (own x (view t (Keyed.key x))).fault <;> rfl

theorem view_each (h : IsLocalStep view own step) (hs : Distinct source) {t r : σ}
    (hdone : each step t source = done r) (k : κ) :
    view r k = (find? source k).elim (view t k) fun x => (own x (view t k)).value := by
  induction source generalizing t with
  | nil => rw [(eq_done_iff.mp hdone).1.symm]; rfl
  | cons x source ih =>
    obtain ⟨hx, htail⟩ := List.nodup_cons.mp hs
    obtain ⟨u, hu, hr⟩ := andThen_eq_done_iff.mp hdone
    have hview := h.view t x k
    rw [(eq_done_iff.mp hu).1] at hview
    rw [ih htail hr, hview, find?]
    split_ifs with hkey
    · have hnot : find? source k = none := find?_eq_none_iff.mpr (hkey ▸ hx)
      rw [hnot]
      rfl
    · rfl

end IsLocalStep

theorem view_foldl {view : σ → κ → Option β} {step : σ → α → σ}
    (own : α → Option β → Option β)
    (h : ∀ t x k, view (step t x) k = if Keyed.key x = k then own x (view t k) else view t k)
    {source : List α} (hs : Distinct source) (t : σ) (k : κ) :
    view (source.foldl step t) k = (find? source k).elim (view t k) fun x => own x (view t k) := by
  have hlocal : IsLocalStep view (fun x found => (done (own x found) : Outcome Empty (Option β)))
      fun t x => done (step t x) := ⟨fun _ _ => rfl, h⟩
  exact hlocal.view_each hs (each_done step t source) k

end Roster

namespace Table
variable {α : Type}

theorem get?_eq_find? (t : Table α) (key : String) :
    get? t key = (Roster.find? t key).map Prod.snd := rfl

theorem get?_set (t : Table α) (key k : String) (v : α) :
    get? (set t key v) k = if key = k then some v else get? t k := by
  rw [get?, set, Roster.find?_put, apply_ite (Option.map Prod.snd)]
  rfl

theorem get?_of_mem {t : Table α} (ht : Roster.Distinct t) {e : String × α} (he : e ∈ t) :
    get? t e.1 = some e.2 := by
  have hfound : Roster.find? t e.1 = some e := (Roster.find?_eq_some_iff ht).mpr ⟨he, rfl⟩
  rw [get?, hfound, Option.map_some]

end Table

end FeatureAssembly
