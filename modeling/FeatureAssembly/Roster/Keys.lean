import FeatureAssembly.Roster

/-! What each operation on a roster does to its names, and that all of them keep the names without
repetition. So do additions of values that a list lacks. -/

namespace FeatureAssembly.Roster
variable {α κ : Type} [Keyed α κ]

@[simp]
theorem keys_nil : keys ([] : List α) = [] := rfl

@[simp]
theorem keys_cons (x : α) (l : List α) : keys (x :: l) = Keyed.key x :: keys l := rfl

@[simp]
theorem keys_append (l m : List α) : keys (l ++ m) = keys l ++ keys m := List.map_append ..

theorem perm_take_drop (l : List α) (i : Nat) (x : α) :
    (l.take i ++ x :: l.drop i).Perm (x :: l) := by
  have h : (l.take i ++ x :: l.drop i).Perm (x :: (l.take i ++ l.drop i)) := List.perm_middle
  rwa [List.take_append_drop] at h

theorem keys_take_drop (l : List α) (i : Nat) (x : α) :
    (keys (l.take i ++ x :: l.drop i)).Perm (Keyed.key x :: keys l) :=
  (perm_take_drop l i x).map Keyed.key

theorem distinct_nil : Distinct ([] : List α) := List.Pairwise.nil

theorem Distinct.append {l : List α} {x : α} (hl : Distinct l) (hx : Keyed.key x ∉ keys l) :
    Distinct (l ++ [x]) := by
  rw [Distinct, keys_append]
  refine List.nodup_append.mpr ⟨hl, List.pairwise_singleton .., ?_⟩
  intro a ha b hb
  rw [List.mem_singleton.mp hb]
  exact fun h => hx (h ▸ ha)

theorem Distinct.filter {l : List α} (hl : Distinct l) (p : α → Bool) : Distinct (l.filter p) :=
  List.Nodup.sublist (List.filter_sublist.map Keyed.key) hl

variable [DecidableEq κ]

theorem find?_isSome_iff {l : List α} {k : κ} : (find? l k).isSome ↔ k ∈ keys l := by
  induction l with
  | nil => simp [find?]
  | cons x l ih =>
    by_cases h : Keyed.key x = k
    · simp [find?, h]
    · simpa [find?, h, Ne.symm h] using ih

theorem contains_iff {l : List α} {k : κ} : contains l k ↔ k ∈ keys l := find?_isSome_iff

theorem position?_isSome_iff {l : List α} {k : κ} : (position? l k).isSome ↔ k ∈ keys l := by
  induction l with
  | nil => simp [position?]
  | cons x l ih =>
    by_cases h : Keyed.key x = k
    · simp [position?, h]
    · simpa [position?, h, Ne.symm h] using ih

theorem key_of_find? {l : List α} {k : κ} {x : α} (h : find? l k = some x) : Keyed.key x = k := by
  induction l with
  | nil => simp [find?] at h
  | cons y l ih =>
    unfold find? at h
    split at h
    · next hy => exact Option.some.inj h ▸ hy
    · exact ih h

theorem mem_of_find? {l : List α} {k : κ} {x : α} (h : find? l k = some x) : x ∈ l := by
  induction l with
  | nil => simp [find?] at h
  | cons y l ih =>
    unfold find? at h
    split at h
    · exact Option.some.inj h ▸ List.mem_cons_self ..
    · exact List.mem_cons_of_mem _ (ih h)

theorem add?_of_mem {l : List α} {x : α} (h : Keyed.key x ∈ keys l) : add? l x = none :=
  if_pos (contains_iff.mpr h)

theorem add?_of_not_mem {l : List α} {x : α} (h : Keyed.key x ∉ keys l) :
    add? l x = some (l ++ [x]) :=
  if_neg (mt contains_iff.mp h)

theorem insertAt?_of_mem {l : List α} {x : α} (h : Keyed.key x ∈ keys l) (i : Nat) :
    insertAt? l i x = none :=
  if_pos (contains_iff.mpr h)

theorem insertAt?_of_not_mem {l : List α} {x : α} (h : Keyed.key x ∉ keys l) (i : Nat) :
    insertAt? l i x = some (l.take i ++ x :: l.drop i) :=
  if_neg (mt contains_iff.mp h)

theorem add_of_mem {l : List α} {x : α} (h : Keyed.key x ∈ keys l) : add l x = l := by
  rw [add, add?_of_mem h, Option.getD_none]

theorem add_of_not_mem {l : List α} {x : α} (h : Keyed.key x ∉ keys l) : add l x = l ++ [x] := by
  rw [add, add?_of_not_mem h, Option.getD_some]

theorem mem_add {l : List α} {x y : α} (h : y ∈ add l x) : y = x ∨ y ∈ l := by
  by_cases hx : Keyed.key x ∈ keys l
  · rw [add_of_mem hx] at h
    exact .inr h
  · rw [add_of_not_mem hx] at h
    exact (List.mem_append.mp h).elim .inr fun h => .inl (List.mem_singleton.mp h)

theorem mem_put {l : List α} {x y : α} (h : y ∈ put l x) : y = x ∨ y ∈ l := by
  induction l with
  | nil => exact .inl (List.mem_singleton.mp h)
  | cons z l ih =>
    rw [put] at h
    split at h
    · exact (List.mem_cons.mp h).imp_right (List.mem_cons_of_mem _)
    · rcases List.mem_cons.mp h with rfl | h
      · exact .inr (List.mem_cons_self ..)
      · exact (ih h).imp_right (List.mem_cons_of_mem _)

theorem remove_sublist (l : List α) (k : κ) : (remove l k).Sublist l := by
  induction l with
  | nil => exact List.Sublist.refl []
  | cons x l ih =>
    rw [remove]
    split
    · exact List.sublist_cons_self x l
    · exact ih.cons_cons x

theorem remove_of_not_mem {l : List α} {k : κ} (h : k ∉ keys l) : remove l k = l := by
  induction l with
  | nil => rfl
  | cons x l ih => grind [remove, keys_cons]

theorem adjust_of_not_mem {l : List α} {k : κ} (h : k ∉ keys l) (f : α → α) :
    adjust l k f = l := by
  induction l with
  | nil => rfl
  | cons x l ih => grind [adjust, keys_cons]

theorem mem_adjust {l : List α} {k : κ} {f : α → α} {y : α} (h : y ∈ adjust l k f) :
    y ∈ l ∨ ∃ x ∈ l, y = f x := by
  induction l with
  | nil => exact .inl h
  | cons x l ih =>
    rw [adjust] at h
    split at h
    · rcases List.mem_cons.mp h with rfl | h
      · exact .inr ⟨x, List.mem_cons_self .., rfl⟩
      · exact .inl (List.mem_cons_of_mem _ h)
    · rcases List.mem_cons.mp h with rfl | h
      · exact .inl (List.mem_cons_self ..)
      · rcases ih h with h | ⟨z, hz, rfl⟩
        · exact .inl (List.mem_cons_of_mem _ h)
        · exact .inr ⟨z, List.mem_cons_of_mem _ hz, rfl⟩

theorem keys_put (l : List α) (x : α) :
    keys (put l x) = if Keyed.key x ∈ keys l then keys l else keys l ++ [Keyed.key x] := by
  induction l with
  | nil => rfl
  | cons y l ih =>
    by_cases h : Keyed.key y = Keyed.key x
    · simp [put, h]
    · by_cases hx : Keyed.key x ∈ keys l <;> simp [put, h, Ne.symm h, hx, ih]

theorem keys_remove (l : List α) (k : κ) : keys (remove l k) = (keys l).erase k := by
  induction l with
  | nil => rfl
  | cons y l ih =>
    by_cases h : Keyed.key y = k
    · simp [remove, h]
    · simpa [remove, h, List.erase_cons] using ih

theorem keys_adjust (l : List α) (k : κ) {f : α → α}
    (hf : ∀ x, (Keyed.key (f x) : κ) = Keyed.key x) : keys (adjust l k f) = keys l := by
  induction l with
  | nil => rfl
  | cons y l ih =>
    by_cases h : Keyed.key y = k
    · simp [adjust, h, hf]
    · simpa [adjust, h] using ih

namespace Distinct

theorem add {l : List α} (hl : Distinct l) (x : α) : Distinct (Roster.add l x) := by
  by_cases h : Keyed.key x ∈ keys l
  · rwa [add_of_mem h]
  · rw [add_of_not_mem h]
    exact hl.append h

theorem put {l : List α} (hl : Distinct l) (x : α) : Distinct (Roster.put l x) := by
  by_cases h : Keyed.key x ∈ keys l
  · rwa [Distinct, keys_put, if_pos h]
  · rw [Distinct, keys_put, if_neg h]
    simpa [Distinct] using hl.append h

theorem remove {l : List α} (hl : Distinct l) (k : κ) : Distinct (Roster.remove l k) := by
  rw [Distinct, keys_remove]
  exact List.Nodup.erase k hl

theorem insertAt {l : List α} (hl : Distinct l) (i : Nat) (x : α) :
    Distinct (Roster.insertAt l i x) := by
  by_cases h : Keyed.key x ∈ keys l
  · rwa [Roster.insertAt, insertAt?_of_mem h, Option.getD_none]
  · rw [Roster.insertAt, insertAt?_of_not_mem h, Option.getD_some]
    exact (keys_take_drop l i x).nodup_iff.mpr (List.nodup_cons.mpr ⟨h, hl⟩)

theorem adjust {l : List α} (hl : Distinct l) (k : κ) {f : α → α}
    (hf : ∀ x, (Keyed.key (f x) : κ) = Keyed.key x) : Distinct (Roster.adjust l k f) := by
  rwa [Distinct, keys_adjust l k hf]

theorem extend {l : List α} (hl : Distinct l) (xs : List α) : Distinct (Roster.extend l xs) := by
  induction xs generalizing l with
  | nil => exact hl
  | cons x xs ih => exact ih (hl.add x)

theorem putAll {l : List α} (hl : Distinct l) (xs : List α) : Distinct (Roster.putAll l xs) := by
  induction xs generalizing l with
  | nil => exact hl
  | cons x xs ih => exact ih (hl.put x)

end Distinct

theorem distinct_ofList (xs : List α) : Distinct (ofList xs) := distinct_nil.extend xs

theorem adjust_of_fixed {l : List α} {x : α} {k : κ} {f : α → α} (h : find? l k = some x)
    (hf : f x = x) : adjust l k f = l := by
  induction l with
  | nil => rfl
  | cons y l ih =>
    rw [find?] at h
    rw [adjust]
    split at h
    · next hy => rw [if_pos hy, Option.some.inj h, hf]
    · next hy => rw [if_neg hy, ih h]

end FeatureAssembly.Roster

namespace FeatureAssembly
variable {α : Type} [DecidableEq α]

theorem mem_addNew {l : List α} {x y : α} : y ∈ addNew l x ↔ y ∈ l ∨ y = x := by
  unfold addNew
  split
  · next h => exact ⟨.inl, fun hy => hy.elim id fun heq => heq ▸ h⟩
  · simp

@[simp] theorem mem_addAllNew {l xs : List α} {y : α} : y ∈ addAllNew l xs ↔ y ∈ l ∨ y ∈ xs := by
  unfold addAllNew
  induction xs generalizing l with
  | nil => simp
  | cons x xs ih => rw [List.foldl_cons, ih, mem_addNew, List.mem_cons, or_assoc]

theorem addAllNew_ne_nil {xs : List α} (h : xs ≠ []) (l : List α) : addAllNew l xs ≠ [] := by
  obtain ⟨x, hx⟩ := List.exists_mem_of_ne_nil xs h
  exact List.ne_nil_of_mem (mem_addAllNew.mpr (.inr hx))

theorem addAllNew_append (l xs ys : List α) :
    addAllNew l (xs ++ ys) = addAllNew (addAllNew l xs) ys := List.foldl_append

theorem addAllNew_of_subset {l xs : List α} (h : xs ⊆ l) : addAllNew l xs = l := by
  induction xs with
  | nil => rfl
  | cons x xs ih =>
    have hx : addNew l x = l := if_pos (h (List.mem_cons_self ..))
    rw [addAllNew, List.foldl_cons, hx]
    exact ih (List.Subset.trans (List.subset_cons_self x xs) h)

theorem addAllNew_of_nodup {l xs : List α} (h : (l ++ xs).Nodup) : addAllNew l xs = l ++ xs := by
  induction xs generalizing l with
  | nil => rw [List.append_nil]; rfl
  | cons x xs ih =>
    have hx : addNew l x = l ++ [x] := by
      refine if_neg fun hx => ?_
      exact (List.nodup_append.mp h).2.2 x hx x (List.mem_cons_self ..) rfl
    rw [addAllNew, List.foldl_cons, hx]
    have hrest : (l ++ [x] ++ xs).Nodup := by rwa [List.append_assoc]
    rw [← addAllNew, ih hrest, List.append_assoc, List.singleton_append]

theorem nodup_addAllNew {l : List α} (hl : l.Nodup) (xs : List α) : (addAllNew l xs).Nodup := by
  induction xs generalizing l with
  | nil => exact hl
  | cons x xs ih =>
    refine ih ?_
    unfold addNew
    split
    · exact hl
    · next hx => exact List.nodup_append.mpr ⟨hl, by simp, by grind⟩

end FeatureAssembly
