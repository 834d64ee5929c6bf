import FeatureAssembly.Proofs.Contributors
import FeatureAssembly.Proofs.Delegation
import FeatureAssembly.Proofs.MergeFrame

/-! Lists of named entries over whole runs of operations. No name ever comes twice, so that looking
up, finding a position and asking whether a name is taken agree on one entry; each operation touches
the entries that it is about and leaves all others in their order, and what no operation of a run is
about is there at its end. -/

namespace FeatureAssembly

namespace Roster

structure Edit (α : Type) {κ : Type} [Keyed α κ] where
  change : α → α
  key_change : ∀ x, (Keyed.key (change x) : κ) = Keyed.key x

/-- What can be done to a list of named entries. Since names tell the entries apart, a predicate can
make any choice of them, and an edit of all can change each in its own way. -/
inductive Operation (α : Type) {κ : Type} [Keyed α κ] where
  | add (x : α)
  | insertAt (i : Nat) (x : α)
  | put (x : α)
  | remove (k : κ)
  | removeAll (p : α → Bool)
  | removeAt (i : Nat)
  | retain (p : α → Bool)
  | extend (xs : List α)
  | collect (xs : List α)
  | edit (k : κ) (e : Edit α)
  | editAll (e : Edit α)

inductive Reply (α : Type) where
  | done
  | accepted (b : Bool)
  | removed (xs : List α)

variable {α κ : Type} [Keyed α κ] [DecidableEq κ]

namespace Operation

/-- The list after an operation and the reply to it. There is none only to taking out what is at a
position past the end. -/
def step? (l : List α) : Operation α → Option (List α × Reply α)
  | .add x => some (Roster.add l x, .accepted (add? l x).isSome)
  | .insertAt i x => some (Roster.insertAt l i x, .accepted (insertAt? l i x).isSome)
  | .put x => some (Roster.put l x, .removed (find? l (Keyed.key x)).toList)
  | .remove k => some (Roster.remove l k, .removed (find? l k).toList)
  | .removeAll p => some (l.filter fun x => !p x, .removed (l.filter p))
  | .removeAt i => l[i]?.map fun x => (l.eraseIdx i, .removed [x])
  | .retain p => some (l.filter p, .done)
  | .extend xs => some (Roster.extend l xs, .done)
  | .collect xs => some (ofList xs, .done)
  | .edit k e => some (adjust l k e.change, .accepted (contains l k))
  | .editAll e => some (l.map e.change, .done)

def run? (l : List α) : List (Operation α) → Option (List α)
  | [] => some l
  | op :: ops => (op.step? l).bind fun r => run? r.1 ops

end Operation

inductive Effect (l : List α) : Operation α → Reply α → List α → Prop where
  | notAdded (x : α) (h : Keyed.key x ∈ keys l) : Effect l (.add x) (.accepted false) l
  | added (x : α) (h : Keyed.key x ∉ keys l) : Effect l (.add x) (.accepted true) (l ++ [x])
  | notInserted (i : Nat) (x : α) (h : Keyed.key x ∈ keys l) :
    Effect l (.insertAt i x) (.accepted false) l
  | inserted (i : Nat) (x : α) (front back : List α) (h : Keyed.key x ∉ keys l)
    (hl : l = front ++ back) (hi : front.length = min i l.length) :
    Effect l (.insertAt i x) (.accepted true) (front ++ x :: back)
  | replaced (x y : α) (front back : List α) (hl : l = front ++ y :: back)
    (hy : (Keyed.key y : κ) = Keyed.key x) :
    Effect l (.put x) (.removed [y]) (front ++ x :: back)
  | appended (x : α) (h : Keyed.key x ∉ keys l) : Effect l (.put x) (.removed []) (l ++ [x])
  | removed (k : κ) : Effect l (.remove k) (.removed (l.filter fun x => Keyed.key x = k))
    (l.filter fun x => Keyed.key x ≠ k)
  | removedAll (p : α → Bool) :
    Effect l (.removeAll p) (.removed (l.filter p)) (l.filter fun x => !p x)
  | removedAt (x : α) (front back : List α) (hl : l = front ++ x :: back) :
    Effect l (.removeAt front.length) (.removed [x]) (front ++ back)
  | retained (p : α → Bool) : Effect l (.retain p) .done (l.filter p)
  | extended (xs new : List α) (hnew : new.Sublist xs) (hdistinct : Distinct (l ++ new))
    (hfirst : ∀ k, find? (l ++ new) k = find? (l ++ xs) k) : Effect l (.extend xs) .done (l ++ new)
  | collected (xs r : List α) (hr : r.Sublist xs) (hdistinct : Distinct r)
    (hfirst : ∀ k, find? r k = find? xs k) : Effect l (.collect xs) .done r
  | notEdited (k : κ) (e : Edit α) (h : k ∉ keys l) : Effect l (.edit k e) (.accepted false) l
  | edited (k : κ) (e : Edit α) (h : k ∈ keys l) :
    Effect l (.edit k e) (.accepted true) (l.map fun x => if Keyed.key x = k then e.change x else x)
  | editedAll (e : Edit α) : Effect l (.editAll e) .done (l.map e.change)

/-! One operation. -/

variable {l l' : List α} {op : Operation α} {reply : Reply α}

theorem exists_extend_eq_append (l xs : List α) :
    ∃ new, extend l xs = l ++ new ∧ new.Sublist xs ∧
      ∀ k, find? (l ++ new) k = find? (l ++ xs) k := by
  induction xs generalizing l with
  | nil => exact ⟨[], (List.append_nil l).symm, List.Sublist.refl [], fun _ => rfl⟩
  | cons x xs ih =>
    by_cases hx : Keyed.key x ∈ keys l
    · obtain ⟨new, hnew, hsub, hfirst⟩ := ih l
      have hstep : extend l (x :: xs) = extend l xs := by
        rw [extend, List.foldl_cons, add_of_mem hx, ← extend]
      refine ⟨new, hstep.trans hnew, hsub.cons x, fun k => ?_⟩
      rw [hfirst, find?_append, find?_append, find?]
      split_ifs with hk
      · obtain ⟨y, hy⟩ := Option.isSome_iff_exists.mp (find?_isSome_iff.mpr (hk ▸ hx))
        rw [hy, Option.some_or, Option.some_or]
      · rfl
    · obtain ⟨new, hnew, hsub, hfirst⟩ := ih (l ++ [x])
      have hstep : extend l (x :: xs) = extend (l ++ [x]) xs := by
        rw [extend, List.foldl_cons, add_of_not_mem hx, ← extend]
      simp only [List.append_assoc, List.singleton_append] at hnew hfirst
      exact ⟨x :: new, hstep.trans hnew, hsub.cons_cons x, hfirst⟩

theorem Distinct.toList_find? (hl : Distinct l) (k : κ) :
    (find? l k).toList = l.filter fun x => Keyed.key x = k := by
  induction l with
  | nil => rfl
  | cons x l ih =>
    obtain ⟨hx, hrest⟩ := List.nodup_cons.mp hl
    rw [find?, List.filter_cons]
    split_ifs with hk hk'
    · have hnone : (l.filter fun y => Keyed.key y = k) = [] := by
        refine List.filter_eq_nil_iff.mpr fun y hy hyk => hx ?_
        rw [hk, ← of_decide_eq_true hyk]
        exact List.mem_map_of_mem hy
      rw [hnone]
      rfl
    · exact absurd (decide_eq_true hk) hk'
    · exact absurd (of_decide_eq_true ‹_›) hk
    · exact ih hrest

theorem exists_split_at {i : Nat} {x : α} (h : l[i]? = some x) :
    ∃ front back, l = front ++ x :: back ∧ front.length = i := by
  obtain ⟨hi, rfl⟩ := List.getElem?_eq_some_iff.mp h
  refine ⟨l.take i, l.drop (i + 1), ?_, List.length_take_of_le (Nat.le_of_lt hi)⟩
  rw [← List.drop_eq_getElem_cons hi, List.take_append_drop]

theorem Distinct.effect (hl : Distinct l) (h : op.step? l = some (l', reply)) :
    Effect l op reply l' := by
  cases op with
  | add x =>
    cases h
    by_cases hx : Keyed.key x ∈ keys l
    · rw [add_of_mem hx, add?_of_mem hx]
      exact .notAdded x hx
    · rw [add_of_not_mem hx, add?_of_not_mem hx]
      exact .added x hx
  | insertAt i x =>
    cases h
    rw [Roster.insertAt]
    by_cases hx : Keyed.key x ∈ keys l
    · rw [insertAt?_of_mem hx]
      exact .notInserted i x hx
    · rw [insertAt?_of_not_mem hx]
      exact .inserted i x _ _ hx (List.take_append_drop i l).symm List.length_take
  | put x =>
    cases h
    by_cases hx : Keyed.key x ∈ keys l
    · obtain ⟨front, y, back, rfl, hy⟩ := exists_split hx
      have hfront : Keyed.key x ∉ keys front := hy ▸ not_mem_keys_front hl
      rw [put_split hy hfront, find?_split hy hfront]
      exact .replaced x y front back rfl hy
    · rw [put_of_not_mem hx, find?_eq_none_iff.mpr hx]
      exact .appended x hx
  | remove k =>
    cases h
    rw [remove_eq_filter hl, hl.toList_find?]
    exact .removed k
  | removeAll p =>
    cases h
    exact .removedAll p
  | removeAt i =>
    obtain ⟨x, hx, heq⟩ := Option.map_eq_some_iff.mp h
    cases heq
    obtain ⟨front, back, rfl, rfl⟩ := exists_split_at hx
    rw [List.eraseIdx_append_of_length_le (Nat.le_refl _), Nat.sub_self, List.eraseIdx_cons_zero]
    exact .removedAt x front back rfl
  | retain p =>
    cases h
    exact .retained p
  | extend xs =>
    cases h
    obtain ⟨new, hnew, hsub, hfirst⟩ := exists_extend_eq_append l xs
    rw [hnew]
    exact .extended xs new hsub (hnew ▸ hl.extend xs) hfirst
  | collect xs =>
    cases h
    obtain ⟨new, hnew, hsub, hfirst⟩ := exists_extend_eq_append [] xs
    have hdistinct : Distinct ([] ++ new) := hnew ▸ distinct_nil.extend xs
    rw [ofList, hnew]
    exact .collected xs new hsub hdistinct hfirst
  | edit k e =>
    cases h
    by_cases hk : k ∈ keys l
    · rw [adjust_eq_map hl, contains_iff.mpr hk]
      exact .edited k e hk
    · rw [adjust_of_not_mem hk, Bool.eq_false_iff.mpr (mt contains_iff.mp hk)]
      exact .notEdited k e hk
  | editAll e =>
    cases h
    exact .editedAll e

theorem Effect.distinct (h : Effect l op reply l') (hl : Distinct l) : Distinct l' := by
  cases h with
  | notAdded | notInserted | notEdited => exact hl
  | added x hx => exact hl.append hx
  | inserted i x front back hx hsplit =>
    subst hsplit
    exact distinct_middle_iff.mpr ⟨hx, hl⟩
  | replaced x y front back hsplit hy =>
    subst hsplit
    rw [distinct_middle_iff, ← hy]
    exact distinct_middle_iff.mp hl
  | appended x hx => exact hl.append hx
  | removed k => exact hl.filter _
  | removedAll p => exact hl.filter _
  | removedAt x front back hsplit =>
    subst hsplit
    exact (distinct_middle_iff.mp hl).2
  | retained p => exact hl.filter p
  | extended _ _ _ hdistinct => exact hdistinct
  | collected _ _ _ hdistinct => exact hdistinct
  | edited k e =>
    refine hl.map fun x => ?_
    split
    · exact e.key_change x
    · rfl
  | editedAll e => exact hl.map e.key_change

theorem Operation.step?_eq_none_iff :
    op.step? l = none ↔ ∃ i, op = .removeAt i ∧ l.length ≤ i := by
  cases op with
  | removeAt i => simp [step?]
  | _ => simp [step?]

/-! The ways to get at an entry. -/

structure Consistent (l : List α) : Prop where
  distinct : Distinct l
  find : ∀ k x, find? l k = some x ↔ x ∈ l ∧ Keyed.key x = k
  contains : ∀ k, contains l k ↔ ∃ x, find? l k = some x
  position : ∀ k i, position? l k = some i ↔ ∃ x, l[i]? = some x ∧ find? l k = some x

theorem Distinct.position?_eq_some_iff (hl : Distinct l) {k : κ} {i : Nat} :
    position? l k = some i ↔ ∃ x, l[i]? = some x ∧ find? l k = some x := by
  constructor
  · intro h
    have hk : k ∈ keys l := position?_isSome_iff.mp (Option.isSome_of_eq_some h)
    obtain ⟨front, x, back, rfl, rfl⟩ := exists_split hk
    have hfront := not_mem_keys_front hl
    rw [position?_split rfl hfront, Option.some.injEq] at h
    subst h
    exact ⟨x, by simp, find?_split rfl hfront⟩
  · rintro ⟨x, hx, hfind⟩
    obtain ⟨front, back, rfl, rfl⟩ := exists_split_at hx
    have hkey : Keyed.key x = k := key_of_find? hfind
    exact position?_split hkey (hkey ▸ not_mem_keys_front hl)

theorem Distinct.consistent (hl : Distinct l) : Consistent l where
  distinct := hl
  find _ _ := find?_eq_some_iff hl
  contains _ := Option.isSome_iff_exists
  position _ _ := hl.position?_eq_some_iff

/-! Whole runs. -/

def Operation.Spares (x : α) : Operation α → Prop
  | .add _ | .insertAt _ _ | .extend _ => True
  | .put y => (Keyed.key y : κ) ≠ Keyed.key x
  | .remove k => Keyed.key x ≠ k
  | .removeAll p => p x = false
  | .retain p => p x = true
  | .edit k e => Keyed.key x = k → e.change x = x
  | .editAll e => e.change x = x
  | .removeAt _ | .collect _ => False

theorem sublist_filter {xs : List α} {p : α → Bool} (h : xs.Sublist l)
    (hp : ∀ x ∈ xs, p x = true) : xs.Sublist (l.filter p) := by
  rw [← List.filter_eq_self.mpr hp]
  exact h.filter p

theorem sublist_map {xs : List α} {f : α → α} (h : xs.Sublist l) (hf : ∀ x ∈ xs, f x = x) :
    xs.Sublist (l.map f) := by
  have hid : xs.map f = xs := (List.map_congr_left hf).trans (List.map_id' xs)
  rw [← hid]
  exact h.map f

theorem Effect.sublist (h : Effect l op reply l') {xs : List α} (hxs : xs.Sublist l)
    (hspares : ∀ x ∈ xs, op.Spares x) : xs.Sublist l' := by
  cases h with
  | notAdded | notInserted | notEdited => exact hxs
  | added | appended => exact hxs.trans (List.sublist_append_left ..)
  | extended => exact hxs.trans (List.sublist_append_left ..)
  | inserted i x front back _ hsplit =>
    subst hsplit
    exact hxs.trans ((List.sublist_cons_self x back).append_left front)
  | replaced x y front back hsplit hy =>
    subst hsplit
    have hothers : ∀ z ∈ xs, decide (Keyed.key z ≠ (Keyed.key x : κ)) = true :=
      fun z hz => decide_eq_true (Ne.symm (hspares z hz))
    have hbeside : xs.Sublist (front ++ back) := by
      refine (sublist_filter hxs hothers).trans ?_
      rw [List.filter_append, List.filter_cons_of_neg (by simpa using hy), ← List.filter_append]
      exact List.filter_sublist
    exact hbeside.trans ((List.sublist_cons_self x back).append_left front)
  | removed k => exact sublist_filter hxs fun x hx => decide_eq_true (hspares x hx)
  | removedAll p => exact sublist_filter hxs fun x hx => by rw [hspares x hx, Bool.not_false]
  | retained p => exact sublist_filter hxs hspares
  | removedAt | collected =>
    cases xs with
    | nil => exact List.nil_sublist _
    | cons x xs => exact (hspares x (List.mem_cons_self ..)).elim
  | edited k e =>
    refine sublist_map hxs fun x hx => ?_
    split
    · exact hspares x hx ‹_›
    · rfl
  | editedAll e => exact sublist_map hxs hspares

/-- What holds of a list that operations have led to. In all further runs the entries that no operation
is about stay and keep their order. -/
structure Kept (l : List α) : Prop where
  consistent : Consistent l
  fails : ∀ op : Operation α, op.step? l = none ↔ ∃ i, op = .removeAt i ∧ l.length ≤ i
  effect : ∀ (op : Operation α) reply l', op.step? l = some (l', reply) → Effect l op reply l'
  rebuilt : ofList l = l
  spared : ∀ (ops : List (Operation α)) l' (xs : List α), Operation.run? l ops = some l' →
    xs.Sublist l → (∀ op ∈ ops, ∀ x ∈ xs, op.Spares x) → xs.Sublist l'

theorem Distinct.run {ops : List (Operation α)} (hl : Distinct l)
    (h : Operation.run? l ops = some l') : Distinct l' := by
  induction ops generalizing l with
  | nil => exact Option.some.inj h ▸ hl
  | cons op ops ih =>
    obtain ⟨⟨m, reply⟩, hstep, hrun⟩ := Option.bind_eq_some_iff.mp h
    exact ih ((hl.effect hstep).distinct hl) hrun

theorem Distinct.sublist_of_run {ops : List (Operation α)} (hl : Distinct l)
    (h : Operation.run? l ops = some l') {xs : List α} (hxs : xs.Sublist l)
    (hspares : ∀ op ∈ ops, ∀ x ∈ xs, op.Spares x) : xs.Sublist l' := by
  induction ops generalizing l with
  | nil => exact Option.some.inj h ▸ hxs
  | cons op ops ih =>
    obtain ⟨⟨m, reply⟩, hstep, hrun⟩ := Option.bind_eq_some_iff.mp h
    obtain ⟨hop, hops⟩ := List.forall_mem_cons.mp hspares
    have heffect := hl.effect hstep
    exact ih (heffect.distinct hl) hrun (heffect.sublist hxs hop) hops

theorem Distinct.kept (hl : Distinct l) : Kept l where
  consistent := hl.consistent
  fails _ := Operation.step?_eq_none_iff
  effect _ _ _ h := hl.effect h
  rebuilt := ofList_of_distinct hl
  spared _ _ _ h hxs hspares := hl.sublist_of_run h hxs hspares

theorem kept_of_run {ops : List (Operation α)} (h : Operation.run? [] ops = some l) : Kept l :=
  (distinct_nil.run h).kept

end Roster

/-! Artifacts, configurations and extensions. -/

theorem Extensions.add_eq_ite (l : List Extension) (e : Extension) :
    add l e = if e.name ∈ Roster.keys l then .error (.duplicateExtension e.name)
      else .ok (l ++ [e]) := by
  unfold add
  split_ifs with he
  · rw [Roster.add?_of_mem he]
  · rw [Roster.add?_of_not_mem he]

namespace Roster

def Operation.removeSame (id : Coordinate) : Operation Artifact := .removeAll fun a => a.id.isSame id

/-- Artifacts are under their coordinates, configurations under their pids and extensions under their
names. -/
theorem collections_keep_entries :
    (∀ (ops : List (Operation Artifact)) l, Operation.run? [] ops = some l → Kept l ∧
      ∀ id, (Operation.removeSame id).step? l =
        some (Artifacts.removeSame l id, .removed (Artifacts.allSame l id))) ∧
    (∀ (ops : List (Operation Configuration)) l, Operation.run? [] ops = some l → Kept l) ∧
    (∀ (ops : List (Operation Extension)) l, Operation.run? [] ops = some l → Kept l ∧
      ∀ e, Extensions.add l e = if e.name ∈ keys l then .error (.duplicateExtension e.name)
        else .ok (l ++ [e])) :=
  ⟨fun _ _ h => ⟨kept_of_run h, fun _ => rfl⟩, fun _ _ h => kept_of_run h,
    fun _ l h => ⟨kept_of_run h, Extensions.add_eq_ite l⟩⟩

end Roster

namespace Sample
open Roster

def shelving : List (Operation Artifact) :=
  [.add (lib "1" []), .add (lib "1" [id "a"]), .insertAt 9 (.ofId (id "book")), .add (lib "2" []),
    .edit (id "book") ⟨fun a => a.addOrigin (id "f"), fun _ => rfl⟩, .removeSame (id "lib")]

def noting : List (Operation Extension) :=
  [.add (note "a" ""), .insertAt 0 (note "b" ""), .put (note "a" "new"), .remove "b"]

end Sample

theorem Roster.collections_keep_samples :
    (∃ l, Operation.run? [] Sample.shelving = some l ∧
      l = [{ Artifact.ofId (Sample.id "book") with origins := [Sample.id "f"] }] ∧ Kept l) ∧
    (∃ l : List Configuration,
      Operation.run? [] [.add ⟨"a", [], [], none⟩, .remove "b"] = some l ∧
      l = [⟨"a", [], [], none⟩] ∧ Kept l) ∧
    (∃ l, Operation.run? [] Sample.noting = some l ∧ l = [Sample.note "a" "new"] ∧ Kept l) := by
  obtain ⟨hartifacts, hconfigurations, hextensions⟩ := collections_keep_entries
  refine ⟨⟨_, rfl, rfl, ?_⟩, ⟨_, rfl, rfl, ?_⟩, ⟨_, rfl, rfl, ?_⟩⟩
  · exact (hartifacts Sample.shelving _ rfl).1
  · exact hconfigurations [.add ⟨"a", [], [], none⟩, .remove "b"] _ rfl
  · exact (hextensions Sample.noting _ rfl).1

end FeatureAssembly
