import FeatureAssembly.Proofs.LocalSteps
import FeatureAssembly.Proofs.Layering

/-! Merge handlers. A handler that keeps to the extension it is given decides what stands at the
place of that extension in the target, if it succeeds; if it fails, the target stays as it was.
Whatever a handler does, the other extensions keep their content and their order. -/

namespace FeatureAssembly
open Outcome

namespace Roster
variable {α κ : Type} [Keyed α κ]

/-- Whether two lists differ at most in what they have under a name: `slot` stands where the entry
of that name stood, or last if there was none. -/
structure Replaces (k : κ) (slot : Option α) (l r : List α) : Prop where
  present : ∀ front y back, l = front ++ y :: back → Keyed.key y = k →
    r = front ++ slot.toList ++ back
  absent : k ∉ keys l → r = l ++ slot.toList

variable {k : κ} {slot : Option α} {l r front back : List α} {x y : α}

theorem exists_split (h : k ∈ keys l) :
    ∃ front y back, l = front ++ y :: back ∧ Keyed.key y = k := by
  obtain ⟨y, hy, hkey⟩ := List.mem_map.mp h
  obtain ⟨front, back, rfl⟩ := List.append_of_mem hy
  exact ⟨front, y, back, rfl, hkey⟩

theorem distinct_middle_iff :
    Distinct (front ++ y :: back) ↔ Keyed.key y ∉ keys (front ++ back) ∧ Distinct (front ++ back) := by
  have hperm : (keys (front ++ y :: back)).Perm (Keyed.key y :: keys (front ++ back)) :=
    List.perm_middle.map Keyed.key
  exact hperm.nodup_iff.trans List.nodup_cons

theorem not_mem_keys_front (h : Distinct (front ++ y :: back)) :
    (Keyed.key y : κ) ∉ keys front := by
  have hbeside := (distinct_middle_iff.mp h).1
  rw [keys_append, List.mem_append, not_or] at hbeside
  exact hbeside.1

namespace Replaces

theorem filter_eq [DecidableEq κ] (h : Replaces k slot l r) (hslot : ∀ x ∈ slot, Keyed.key x = k) :
    (r.filter fun y => Keyed.key y ≠ k) = l.filter fun y => Keyed.key y ≠ k := by
  have hnone : (slot.toList.filter fun y => Keyed.key y ≠ k) = [] := by
    rw [List.filter_eq_nil_iff]
    intro x hx
    simpa using hslot x (Option.mem_toList.mp hx)
  by_cases hk : k ∈ keys l
  · obtain ⟨front, y, back, hl, hy⟩ := exists_split hk
    rw [h.present front y back hl hy, hl]
    rw [List.filter_append, List.filter_append, hnone, List.append_nil, List.filter_append,
      List.filter_cons_of_neg (by simpa using hy)]
  · rw [h.absent hk, List.filter_append, hnone, List.append_nil]

theorem distinct (h : Replaces k slot l r) (hl : Distinct l) (hslot : ∀ x ∈ slot, Keyed.key x = k) :
    Distinct r := by
  by_cases hk : k ∈ keys l
  · obtain ⟨front, y, back, rfl, rfl⟩ := exists_split hk
    rw [h.present front y back rfl rfl]
    cases slot with
    | none =>
      have hbeside : Distinct (front ++ back) := (distinct_middle_iff.mp hl).2
      rwa [Option.toList_none, List.append_nil]
    | some x =>
      have hx : Keyed.key x = Keyed.key y := hslot x rfl
      simpa [Distinct, hx] using hl
  · rw [h.absent hk]
    cases slot with
    | none => rwa [Option.toList_none, List.append_nil]
    | some x =>
      have hx : Keyed.key x = k := hslot x rfl
      exact hl.append (hx.symm ▸ hk)

end Replaces

/-! Entries in the middle of a list. -/

variable [DecidableEq κ]

theorem find?_split (h : Keyed.key y = k) (hfront : k ∉ keys front) :
    find? (front ++ y :: back) k = some y := by
  rw [find?_append, find?_eq_none_iff.mpr hfront, Option.none_or]
  exact if_pos h

theorem position?_split (h : Keyed.key y = k) (hfront : k ∉ keys front) :
    position? (front ++ y :: back) k = some front.length := by
  induction front with
  | nil => exact if_pos h
  | cons z front ih =>
    rw [keys_cons, List.mem_cons, not_or] at hfront
    rw [List.cons_append, position?, if_neg (Ne.symm hfront.1), ih hfront.2]
    rfl

theorem remove_split (h : Keyed.key y = k) (hfront : k ∉ keys front) :
    remove (front ++ y :: back) k = front ++ back := by
  induction front with
  | nil => exact if_pos h
  | cons z front ih =>
    rw [keys_cons, List.mem_cons, not_or] at hfront
    rw [List.cons_append, remove, if_neg (Ne.symm hfront.1), ih hfront.2, List.cons_append]

theorem put_split (h : (Keyed.key y : κ) = Keyed.key x) (hfront : (Keyed.key x : κ) ∉ keys front) :
    put (front ++ y :: back) x = front ++ x :: back := by
  induction front with
  | nil => exact if_pos h
  | cons z front ih =>
    rw [keys_cons, List.mem_cons, not_or] at hfront
    rw [List.cons_append, put, if_neg (Ne.symm hfront.1), ih hfront.2, List.cons_append]

theorem insertAt?_split (h : (Keyed.key x : κ) ∉ keys (front ++ back)) :
    insertAt? (front ++ back) front.length x = some (front ++ x :: back) := by
  rw [insertAt?_of_not_mem h, List.take_left, List.drop_left]

theorem replaces_put (hl : Distinct l) (x : α) :
    Replaces (Keyed.key x : κ) (some x) l (put l x) where
  present front y back h hy := by
    subst h
    have hfront : (Keyed.key x : κ) ∉ keys front := hy ▸ not_mem_keys_front hl
    rw [put_split hy hfront, Option.toList_some, List.append_assoc, List.singleton_append]
  absent h := put_of_not_mem h

theorem replaces_remove (hl : Distinct l) (k : κ) : Replaces k none l (remove l k) where
  present front y back h hy := by
    subst h
    have hfront : k ∉ keys front := hy ▸ not_mem_keys_front hl
    rw [remove_split hy hfront, Option.toList_none, List.append_nil]
  absent h := by rw [remove_of_not_mem h, Option.toList_none, List.append_nil]

theorem remove_eq_filter (hl : Distinct l) (k : κ) :
    remove l k = l.filter fun y => Keyed.key y ≠ k := by
  have hgone : k ∉ keys (remove l k) := by
    rw [keys_remove]
    exact List.Nodup.not_mem_erase hl
  have hall : ∀ y ∈ remove l k, decide (Keyed.key y ≠ k) = true := by
    intro y hy
    exact decide_eq_true fun h => hgone (List.mem_map.mpr ⟨y, hy, h⟩)
  have hothers := (replaces_remove hl k).filter_eq fun _ h => nomatch h
  rw [← hothers, List.filter_eq_self.mpr hall]

end Roster

namespace Extensions

def restored (l : List Extension) (name : String) (kept : Option Extension) : List Extension :=
  match kept with
  | none => Roster.remove l name
  | some x => putBack (Roster.remove l name) (Roster.position? l name) x

variable {l : List Extension} {name : String} {kept : Option Extension}

theorem replaces_restored (hl : Roster.Distinct l) (hkept : ∀ x ∈ kept, x.name = name) :
    Roster.Replaces name kept l (restored l name kept) := by
  cases kept with
  | none => exact Roster.replaces_remove hl name
  | some x =>
    obtain rfl : x.name = name := hkept x rfl
    refine ⟨fun front y back h hy => ?_, fun h => ?_⟩
    · subst h
      have hfront : x.name ∉ Roster.keys front := hy ▸ Roster.not_mem_keys_front hl
      have hbeside : (Keyed.key x : String) ∉ Roster.keys (front ++ back) := by
        rw [Extension.key_eq, ← hy]
        exact (Roster.distinct_middle_iff.mp hl).1
      rw [restored, Roster.remove_split hy hfront, Roster.position?_split hy hfront, putBack,
        Roster.insertAt?_split hbeside, Option.getD_some, Option.toList_some, List.append_assoc,
        List.singleton_append]
    · have hposition : Roster.position? l x.name = none := by
        rwa [← Option.not_isSome_iff_eq_none, Roster.position?_isSome_iff]
      rw [restored, Roster.remove_of_not_mem h, hposition]
      exact Roster.put_of_not_mem h

theorem restored_find? (hl : Roster.Distinct l) (name : String) :
    restored l name (Roster.find? l name) = l := by
  have hreplaces : Roster.Replaces name (Roster.find? l name) l _ :=
    replaces_restored hl fun x hx => Roster.key_of_find? hx
  by_cases hname : name ∈ Roster.keys l
  · obtain ⟨front, y, back, rfl, rfl⟩ := Roster.exists_split hname
    have hfront := Roster.not_mem_keys_front hl
    rw [hreplaces.present front y back rfl rfl, Roster.find?_split rfl hfront]
    simp
  · rw [hreplaces.absent hname, Roster.find?_eq_none_iff.mpr hname]
    exact List.append_nil l

end Extensions

/-- Whether a handler keeps to the extension it is given: it does not change the target itself, and
what it leaves as that extension has its name. -/
structure MergeHandler.IsConfined (h : MergeHandler) : Prop where
  feature : ∀ view source e b, (h.run view source e b).value.draft.feature = b.draft.feature
  name : ∀ view source e b, (∀ y ∈ b.slot, y.name = e.name) →
    (h.run view source e b).fault = none → ∀ x ∈ (h.run view source e b).value.slot, x.name = e.name

namespace Draft

def bench (d : Draft) (name : String) : Bench :=
  ⟨d.mapExtensions fun l => l.filter fun y => y.name ≠ name,
    Roster.find? d.feature.extensions name⟩

/-- What a target makes of the outcome `p` of a handler: the extension that is left takes the place
of its own, and after a fault nothing of it is changed. -/
structure TakesUp (name : String) (p : Outcome MergeError Bench) (d : Draft)
    (o : Outcome MergeError Draft) : Prop where
  fault : o.fault = p.fault
  notes : o.value.notes = p.value.draft.notes
  succeeded : p.fault = none →
    Roster.Replaces name p.value.slot d.feature.extensions o.value.feature.extensions
  failed : p.fault ≠ none → o.value.feature = d.feature

/-- How a source extension is merged when it is its turn: by the first handler that accepts it, if
any, and in every case without touching anything else. -/
structure IsTurn (ctx : MergeContext) (rules : List OverrideRule) (source : Feature) (e : Extension)
    (d : Draft) (o : Outcome MergeError Draft) : Prop where
  handled : ∀ earlier h later, ctx.mergeHandlers = earlier ++ h :: later →
    (∀ g ∈ earlier, g.accepts e = false) → h.accepts e = true →
      TakesUp e.name (h.run (ctx.view h.id) source e (d.bench e.name)) d o
  unhandled : (∀ h ∈ ctx.mergeHandlers, h.accepts e = false) →
    o = d.mergeExtension { ctx with mergeHandlers := [] } rules source e
  others : (o.value.feature.extensions.filter fun y => y.name ≠ e.name) =
    d.feature.extensions.filter fun y => y.name ≠ e.name
  rest : o.value.feature = { d.feature with extensions := o.value.feature.extensions }

variable {ctx : MergeContext} {rules : List OverrideRule} {source : Feature} {d b : Draft}
  {e : Extension} {h : MergeHandler} {name : String} {p : Outcome MergeError Bench}

/-! One handler. -/

def kept (previous : Option Extension) (p : Outcome MergeError Bench) : Option Extension :=
  match p.fault with
  | none => p.value.slot
  | some _ => previous

def settled (d : Draft) (name : String) (p : Outcome MergeError Bench) : Outcome MergeError Draft :=
  let previous := Roster.find? d.feature.extensions name
  ⟨⟨{ d.feature with
      extensions := Extensions.restored d.feature.extensions name (kept previous p) },
    p.value.draft.notes⟩, p.fault⟩

theorem delegate_eq_settled (hh : h.IsConfined) (hd : Roster.Distinct d.feature.extensions)
    (ctx : MergeContext) (source : Feature) (e : Extension) :
    delegate ctx h source d e =
      d.settled e.name (h.run (ctx.view h.id) source e (d.bench e.name)) := by
  have hremove : Roster.remove d.feature.extensions e.name =
      d.feature.extensions.filter fun y => y.name ≠ e.name := Roster.remove_eq_filter hd e.name
  have hbench : (⟨d.mapExtensions fun l => Roster.remove l e.name,
      Roster.find? d.feature.extensions e.name⟩ : Bench) = d.bench e.name := by
    rw [bench, mapExtensions, mapExtensions, hremove]
  have hfeature := hh.feature (ctx.view h.id) source e (d.bench e.name)
  unfold delegate settled
  dsimp only
  rw [hbench]
  generalize h.run (ctx.view h.id) source e (d.bench e.name) = p at hfeature ⊢
  obtain ⟨⟨⟨feature, notes⟩, slot⟩, fault⟩ := p
  obtain rfl : feature = (d.bench e.name).draft.feature := hfeature
  change (match kept _ _ with | none => _ | some x => _) = _
  cases kept (Roster.find? d.feature.extensions e.name) ⟨⟨⟨_, notes⟩, slot⟩, fault⟩ with
  | none =>
    rw [Extensions.restored, hremove]
    rfl
  | some x =>
    rw [Extensions.restored, hremove]
    rfl

theorem name_kept {l : List Extension}
    (hslot : p.fault = none → ∀ x ∈ p.value.slot, x.name = name) :
    ∀ x ∈ kept (Roster.find? l name) p, x.name = name := by
  intro x hx
  unfold kept at hx
  split at hx
  · next hfault => exact hslot hfault x hx
  · exact Roster.key_of_find? hx

theorem name_slot (hh : h.IsConfined) (d : Draft) (view : HandlerView) (source : Feature)
    (e : Extension) : (h.run view source e (d.bench e.name)).fault = none →
      ∀ x ∈ (h.run view source e (d.bench e.name)).value.slot, x.name = e.name :=
  hh.name view source e _ fun _ hy => Roster.key_of_find? hy

theorem takesUp_settled (hd : Roster.Distinct d.feature.extensions)
    (hslot : p.fault = none → ∀ x ∈ p.value.slot, x.name = name) :
    TakesUp name p d (d.settled name p) where
  fault := rfl
  notes := rfl
  succeeded hfault := by
    have hkept : kept (Roster.find? d.feature.extensions name) p = p.value.slot := by
      rw [kept, hfault]
    rw [settled, hkept]
    exact Extensions.replaces_restored hd (hslot hfault)
  failed hfault := by
    have hkept : kept (Roster.find? d.feature.extensions name) p =
        Roster.find? d.feature.extensions name := by
      unfold kept
      split
      · next hnone => exact absurd hnone hfault
      · rfl
    rw [settled, hkept, Extensions.restored_find? hd]

/-! One extension. -/

structure ChangesOnly (name : String) (d r : Draft) : Prop where
  replaces : ∃ slot : Option Extension, (∀ x ∈ slot, x.name = name) ∧
    Roster.Replaces name slot d.feature.extensions r.feature.extensions
  rest : r.feature = { d.feature with extensions := r.feature.extensions }

theorem ChangesOnly.others {r : Draft} (hr : ChangesOnly name d r) :
    (r.feature.extensions.filter fun y => y.name ≠ name) =
      d.feature.extensions.filter fun y => y.name ≠ name := by
  obtain ⟨slot, hslot, hreplaces⟩ := hr.replaces
  exact hreplaces.filter_eq hslot

theorem ChangesOnly.distinct {r : Draft} (hr : ChangesOnly name d r)
    (hd : Roster.Distinct d.feature.extensions) : Roster.Distinct r.feature.extensions := by
  obtain ⟨slot, hslot, hreplaces⟩ := hr.replaces
  exact hreplaces.distinct hd hslot

theorem changesOnly_settled (hd : Roster.Distinct d.feature.extensions)
    (hslot : p.fault = none → ∀ x ∈ p.value.slot, x.name = name) :
    ChangesOnly name d (d.settled name p).value :=
  ⟨⟨_, name_kept hslot, Extensions.replaces_restored hd (name_kept hslot)⟩, rfl⟩

theorem changesOnly_mergeOne (hd : Roster.Distinct d.feature.extensions)
    (rules : List OverrideRule) (origin : Coordinate) (e : Extension) :
    ChangesOnly e.name d
      (d.mapExtensions fun l => (Extensions.mergeOne rules origin l e).value) := by
  have hname := Extensions.name_joined rules origin d.feature.extensions e
  have hput := Roster.replaces_put hd
    (Extensions.joined rules origin (Roster.find? d.feature.extensions e.name) e).value
  rw [Extension.key_eq, hname] at hput
  refine ⟨⟨_, fun x hx => Option.some.inj hx ▸ hname, ?_⟩, rfl⟩
  rw [mapExtensions, Extensions.mergeOne_eq]
  exact hput

theorem find?_accepting {earlier later : List MergeHandler}
    (hctx : ctx.mergeHandlers = earlier ++ h :: later)
    (hearlier : ∀ g ∈ earlier, g.accepts e = false) (hh : h.accepts e = true) :
    (ctx.mergeHandlers.find? fun g => g.accepts e) = some h := by
  rw [List.find?_eq_some_iff_append]
  exact ⟨hh, earlier, later, hctx, fun g hg => by rw [hearlier g hg, Bool.not_false]⟩

section
variable (hhandlers : ∀ h ∈ ctx.mergeHandlers, h.IsConfined)
  (hd : Roster.Distinct d.feature.extensions)
include hhandlers hd

theorem changesOnly_mergeExtension (rules : List OverrideRule) (source : Feature) (e : Extension) :
    ChangesOnly e.name d (d.mergeExtension ctx rules source e).value := by
  unfold mergeExtension
  split
  · next h hfound =>
    have hh := hhandlers h (List.mem_of_find?_eq_some hfound)
    rw [delegate_eq_settled hh hd]
    exact changesOnly_settled hd (name_slot hh d _ source e)
  · exact changesOnly_mergeOne hd rules source.id e

theorem isTurn_mergeExtension (rules : List OverrideRule) (source : Feature) (e : Extension) :
    IsTurn ctx rules source e d (d.mergeExtension ctx rules source e) where
  handled earlier h later hctx hearlier haccepts := by
    have hh : h.IsConfined := hhandlers h (by simp [hctx])
    rw [mergeExtension, find?_accepting hctx hearlier haccepts]
    dsimp only
    rw [delegate_eq_settled hh hd]
    exact takesUp_settled hd (name_slot hh d _ source e)
  unhandled hnone := by
    have hfound : (ctx.mergeHandlers.find? fun g => g.accepts e) = none := by
      rw [List.find?_eq_none]
      exact fun g hg => Bool.eq_false_iff.mp (hnone g hg)
    rw [mergeExtension, mergeExtension, hfound]
    rfl
  others := (changesOnly_mergeExtension hhandlers hd rules source e).others
  rest := (changesOnly_mergeExtension hhandlers hd rules source e).rest

end

/-! All extensions of a source. -/

structure KeepsBeside (names : List String) (d r : Draft) : Prop where
  distinct : Roster.Distinct r.feature.extensions
  others : (r.feature.extensions.filter fun y => y.name ∉ names) =
    d.feature.extensions.filter fun y => y.name ∉ names
  rest : r.feature = { d.feature with extensions := r.feature.extensions }

theorem KeepsBeside.step {names : List String} {r : Draft} (hb : KeepsBeside names d b)
    (hr : ChangesOnly name b r) (hname : name ∈ names) : KeepsBeside names d r where
  distinct := hr.distinct hb.distinct
  others := by
    have hfilter : ∀ l : List Extension, (l.filter fun y => y.name ∉ names) =
        (l.filter fun y => y.name ≠ name).filter fun y => y.name ∉ names := by
      intro l
      rw [List.filter_filter]
      refine List.filter_congr fun y _ => ?_
      by_cases hy : y.name = name
      · simp [hy, hname]
      · simp [hy]
    rw [← hb.others, hfilter, hr.others, ← hfilter]
  rest := by rw [hr.rest, hb.rest]

section
variable (hhandlers : ∀ h ∈ ctx.mergeHandlers, h.IsConfined)
  (hd : Roster.Distinct d.feature.extensions)
include hhandlers hd

theorem keepsBeside_each (rules : List OverrideRule) (source : Feature) {es : List Extension}
    (hes : es ⊆ source.extensions) :
    KeepsBeside (Roster.keys source.extensions) d
      (each (mergeExtension ctx rules source) d es).value := by
  refine each_keeps (fun b e he hb => ?_) ⟨hd, rfl, rfl⟩
  have hname : e.name ∈ Roster.keys source.extensions := List.mem_map_of_mem (hes he)
  exact hb.step (changesOnly_mergeExtension hhandlers hb.distinct rules source e) hname

/-- Each extension of a source has its turn once those before it have been merged, and a fault there
ends the merge. What the target has under other names, and all else of it, stays in any case. -/
theorem mergeExtensions_delegates (rules : List OverrideRule) (source : Feature) :
    (∀ before e after b, source.extensions = before ++ e :: after →
      each (mergeExtension ctx rules source) d before = done b →
        IsTurn ctx rules source e b (b.mergeExtension ctx rules source e) ∧
        ∀ fault, (b.mergeExtension ctx rules source e).fault = some fault →
          d.mergeExtensions ctx rules source = b.mergeExtension ctx rules source e) ∧
    KeepsBeside (Roster.keys source.extensions) d (d.mergeExtensions ctx rules source).value := by
  refine ⟨fun before e after b hsource hbefore => ?_, ?_⟩
  · have hsubset : before ⊆ source.extensions := by
      rw [hsource]
      exact List.subset_append_left before (e :: after)
    have hkept := keepsBeside_each hhandlers hd rules source hsubset
    rw [hbefore] at hkept
    refine ⟨isTurn_mergeExtension hhandlers hkept.distinct rules source e, fun fault hfault => ?_⟩
    rw [mergeExtensions, hsource, each_append, hbefore, done_andThen, each_cons,
      andThen_of_fault hfault]
  · exact keepsBeside_each hhandlers hd rules source (List.Subset.refl _)

end

end Draft

namespace Sample

def dropping : MergeHandler where
  id := "dropping"
  accepts e := e.name = "a"
  run _ _ _ b := done { b with slot := none }

def replacing : MergeHandler where
  id := "replacing"
  accepts e := e.name ≠ "c"
  run _ _ e b := done { b with slot := some e }

def failing : MergeHandler where
  id := "failing"
  accepts _ := true
  run _ _ _ b := failed { b with slot := none } (.handler "failing" "refused")

def handled : MergeContext :=
  { MergeContext.empty with mergeHandlers := [dropping, replacing, failing] }

def note (name text : String) : Extension := ⟨name, .optional, .text text⟩

def target : Draft :=
  ⟨{ Feature.ofId (id "f") with extensions := [note "a" "", note "b" "", note "c" ""] }, []⟩

def source : Feature :=
  { Feature.ofId (id "g") with
    extensions := [note "d" "new", note "b" "new", note "a" "new", note "c" "new", note "e" "new"] }

end Sample

/-- One extension is appended, one replaced where it stands and one dropped; the next one stays, as
its handler fails, and the last one has no turn. -/
theorem Draft.mergeExtensions_handled_delegates :
    (∀ h ∈ Sample.handled.mergeHandlers, h.IsConfined) ∧
    Roster.Distinct Sample.target.feature.extensions ∧
    (∃ b, each (mergeExtension Sample.handled [] Sample.source) Sample.target
        [Sample.note "d" "new", Sample.note "b" "new", Sample.note "a" "new"] = done b ∧
      IsTurn Sample.handled [] Sample.source (Sample.note "c" "new") b
        (b.mergeExtension Sample.handled [] Sample.source (Sample.note "c" "new"))) ∧
    ∃ r, Sample.target.mergeExtensions Sample.handled [] Sample.source =
        failed r (.handler "failing" "refused") ∧
      r.feature.extensions = [Sample.note "b" "new", Sample.note "c" "", Sample.note "d" "new"] ∧
      KeepsBeside ["d", "b", "a", "c", "e"] Sample.target r := by
  have hconfined : ∀ h ∈ Sample.handled.mergeHandlers, h.IsConfined := by
    intro h hh
    simp only [Sample.handled, List.mem_cons, List.not_mem_nil, or_false] at hh
    rcases hh with rfl | rfl | rfl
    · exact ⟨fun _ _ _ _ => rfl, fun _ _ _ _ _ _ _ hx => nomatch hx⟩
    · exact ⟨fun _ _ _ _ => rfl, fun _ _ _ _ _ _ _ hx => Option.some.inj hx ▸ rfl⟩
    · exact ⟨fun _ _ _ _ => rfl, fun _ _ _ _ _ _ _ hx => nomatch hx⟩
  have hdistinct : Roster.Distinct Sample.target.feature.extensions := by
    unfold Roster.Distinct
    decide
  have hfault : (Sample.target.mergeExtensions Sample.handled [] Sample.source).fault =
      some (.handler "failing" "refused") := rfl
  obtain ⟨hturns, hkeeps⟩ := mergeExtensions_delegates hconfined hdistinct [] Sample.source
  have hturn := hturns [Sample.note "d" "new", Sample.note "b" "new", Sample.note "a" "new"]
    (Sample.note "c" "new") [Sample.note "e" "new"] _ rfl (eq_done_of_fault rfl)
  exact ⟨hconfined, hdistinct, ⟨_, eq_done_of_fault rfl, hturn.1⟩,
    ⟨_, eq_failed_of_fault hfault, rfl, hkeeps⟩⟩

end FeatureAssembly
