import FeatureAssembly.Proofs.LocalSteps

/-! Partial operations for which brackets do not matter: whichever neighbours are joined first, all
fails, or all comes to the same. Where this holds of values, it holds of tables of them, which are
joined name by name, and then of any number of tables. -/

namespace FeatureAssembly
open Outcome

section
variable {α : Type} {op : α → α → Option α} {a b c : α}

/-- Whether it does not matter which two of three neighbours are joined first. -/
def Regroups (op : α → α → Option α) (a b c : α) : Prop :=
  (op a b).bind (op · c) = (op b c).bind (op a)

theorem regroups_iff : Regroups op a b c ↔
    ∀ d, (∃ ab, op a b = some ab ∧ op ab c = some d) ↔
      ∃ bc, op b c = some bc ∧ op a bc = some d := by
  rw [Regroups, Option.ext_iff]
  simp only [Option.bind_eq_some_iff]

def optionally (op : α → α → Option α) : Option α → Option α → Option (Option α)
  | none, y => some y
  | some a, none => some (some a)
  | some a, some b => (op a b).map some

@[simp] theorem optionally_none_left (y : Option α) : optionally op none y = some y := rfl

@[simp] theorem optionally_none_right (x : Option α) : optionally op x none = some x := by
  cases x <;> rfl

@[simp] theorem optionally_some_some : optionally op (some a) (some b) = (op a b).map some := rfl

theorem Regroups.map {β : Type} {f : α → β} {op' : β → β → Option β}
    (hf : ∀ a b, op' (f a) (f b) = (op a b).map f) (h : Regroups op a b c) :
    Regroups op' (f a) (f b) (f c) := by
  have hleft : (op' (f a) (f b)).bind (op' · (f c)) = ((op a b).bind (op · c)).map f := by
    rw [hf, Option.bind_map, Option.map_bind]
    exact Option.bind_congr fun x _ => hf x c
  have hright : (op' (f b) (f c)).bind (op' (f a)) = ((op b c).bind (op a)).map f := by
    rw [hf, Option.bind_map, Option.map_bind]
    exact Option.bind_congr fun x _ => hf a x
  exact hleft.trans ((congrArg (Option.map f) h).trans hright.symm)

theorem regroups_optionally {x y z : Option α}
    (h : ∀ a ∈ x, ∀ b ∈ y, ∀ c ∈ z, Regroups op a b c) : Regroups (optionally op) x y z := by
  cases x with
  | none => exact (Option.bind_fun_some _).symm
  | some a =>
    cases y with
    | none => simp [Regroups]
    | some b =>
      cases z with
      | none => simp [Regroups]
      | some c => exact (h a rfl b rfl c rfl).map fun _ _ => rfl

end

/-! Tables. -/

namespace Roster
variable {α β κ ε : Type} [Keyed α κ] [DecidableEq κ] {value : α → β} {op : β → β → Option β}
  {l m n r : List α}

def valueAt? (value : α → β) (l : List α) (k : κ) : Option β :=
  (find? l k).map value

@[simp] theorem valueAt?_id (l : List α) (k : κ) : valueAt? id l k = find? l k :=
  congrFun Option.map_id _

theorem exists_of_valueAt? {k : κ} {a : β} (h : valueAt? value l k = some a) :
    ∃ x ∈ l, Keyed.key x = k ∧ value x = a := by
  obtain ⟨x, hx, ha⟩ := Option.map_eq_some_iff.mp h
  exact ⟨x, mem_of_find? hx, key_of_find? hx, ha⟩

theorem valueAt?_of_mem (hl : Distinct l) {x : α} (hx : x ∈ l) :
    valueAt? value l (Keyed.key x) = some (value x) := by
  rw [valueAt?, (find?_eq_some_iff hl).mpr ⟨hx, rfl⟩, Option.map_some]

theorem filterMap_find? (hl : Distinct l) : (keys l).filterMap (find? l) = l := by
  have hfound : ∀ x ∈ l, find? l (Keyed.key x) = some x :=
    fun x hx => (find?_eq_some_iff hl).mpr ⟨hx, rfl⟩
  rw [keys, List.filterMap_map]
  exact (List.filterMap_congr hfound).trans List.filterMap_some

def Determines (value : α → β) : Prop :=
  ∀ x y : α, Keyed.key x = Keyed.key y → value x = value y → x = y

theorem eq_of_valueAt? (hvalue : Determines value) (hl : Distinct l) (hkeys : keys l = keys m)
    (h : ∀ k, valueAt? value l k = valueAt? value m k) : l = m := by
  have hm : Distinct m := by rwa [Distinct, ← hkeys]
  have hfind : ∀ k, find? l k = find? m k := by
    intro k
    have hk := h k
    unfold valueAt? at hk
    cases hx : find? l k with
    | none =>
      rw [hx] at hk
      exact (Option.map_eq_none_iff.mp hk.symm).symm
    | some x =>
      rw [hx] at hk
      obtain ⟨y, hy, hxy⟩ := Option.map_eq_some_iff.mp hk.symm
      have hkey := (key_of_find? hx).trans (key_of_find? hy).symm
      rw [hy, hvalue x y hkey hxy.symm]
  rw [← filterMap_find? hl, ← filterMap_find? hm, hkeys]
  exact List.filterMap_congr fun k _ => hfind k

structure Holds (T : β → Prop) (value : α → β) (l : List α) : Prop where
  distinct : Distinct l
  values : ∀ x ∈ l, T (value x)

theorem Holds.of_valueAt? {T : β → Prop} (h : Holds T value l) {k : κ} {a : β}
    (ha : valueAt? value l k = some a) : T a := by
  obtain ⟨x, hx, -, rfl⟩ := exists_of_valueAt? ha
  exact h.values x hx

structure IsJoin (value : α → β) (op : β → β → Option β) (l m r : List α) : Prop where
  keys : keys r = addAllNew (keys l) (keys m)
  entries : ∀ k, optionally op (valueAt? value l k) (valueAt? value m k) =
    some (valueAt? value r k)

theorem IsJoin.distinct (h : IsJoin value op l m r) (hl : Distinct l) : Distinct r := by
  rw [Distinct, h.keys]
  exact nodup_addAllNew hl _

theorem IsJoin.unique {r' : List α} (h : IsJoin value op l m r) (h' : IsJoin value op l m r')
    (hvalue : Determines value) (hl : Distinct l) : r = r' := by
  refine eq_of_valueAt? hvalue (h.distinct hl) (h.keys.trans h'.keys.symm) fun k => ?_
  exact Option.some.inj ((h.entries k).symm.trans (h'.entries k))

theorem IsJoin.holds {T : β → Prop} (h : IsJoin value op l m r) (hl : Holds T value l)
    (hm : Holds T value m)
    (hop : ∀ y ∈ m, ∀ a c, T a → op a (value y) = some c → T c) : Holds T value r := by
  refine ⟨h.distinct hl.distinct, fun x hx => ?_⟩
  have hjoined := h.entries (Keyed.key x)
  rw [valueAt?_of_mem (h.distinct hl.distinct) hx] at hjoined
  cases hb : valueAt? value m (Keyed.key x) with
  | none =>
    rw [hb, optionally_none_right] at hjoined
    exact hl.of_valueAt? (Option.some.inj hjoined)
  | some b =>
    cases ha : valueAt? value l (Keyed.key x) with
    | none =>
      rw [hb, ha] at hjoined
      exact hm.of_valueAt? (hb.trans (Option.some.inj hjoined))
    | some a =>
      rw [hb, ha] at hjoined
      obtain ⟨c, hc, hcx⟩ := Option.map_eq_some_iff.mp hjoined
      obtain ⟨y, hy, -, rfl⟩ := exists_of_valueAt? hb
      exact Option.some.inj hcx ▸ hop y hy a c (hl.of_valueAt? ha) hc

theorem IsJoin.congr {T : β → Prop} {op' : β → β → Option β} (h : IsJoin value op l m r)
    (hl : Holds T value l) (hm : Holds T value m)
    (hop : ∀ a b, T a → T b → op a b = op' a b) : IsJoin value op' l m r where
  keys := h.keys
  entries k := by
    rw [← h.entries k]
    cases ha : valueAt? value l k with
    | none => rfl
    | some a =>
      cases hb : valueAt? value m k with
      | none => rfl
      | some b =>
        have hab := hop a b (hl.of_valueAt? ha) (hm.of_valueAt? hb)
        exact congrArg (Option.map some) hab.symm

/-- A step per entry of `m`, each of which joins the value that comes with the entry and the one
that `l` has under its name. -/
structure JoinsEntries (value : α → β) (op : β → β → Option β)
    (own : α → Option β → Outcome ε (Option β)) (step : List α → α → Outcome ε (List α))
    (l m : List α) : Prop where
  isLocal : IsLocalStep (valueAt? value) own step
  keys : ∀ t x t', step t x = done t' → keys t' = addNew (keys t) (Keyed.key x)
  joins : ∀ x ∈ m, (own x (valueAt? value l (Keyed.key x))).toOption =
    optionally op (valueAt? value l (Keyed.key x)) (some (value x))

namespace JoinsEntries
variable {own : α → Option β → Outcome ε (Option β)} {step : List α → α → Outcome ε (List α)}
  (h : JoinsEntries value op own step l m) (hm : Distinct m)
include h hm

theorem fault_eq_none (hr : each step l m = done r) :
    ∀ x ∈ m, (own x (valueAt? value l (Keyed.key x))).fault = none := by
  have hfault := h.isLocal.fault_each hm l
  rw [hr, fault_done, eq_comm] at hfault
  exact List.findSome?_eq_none_iff.mp hfault

theorem exists_each (hall : ∀ k, ∃ x,
    optionally op (valueAt? value l k) (valueAt? value m k) = some x) :
    ∃ r, each step l m = done r := by
  rw [exists_eq_done_iff, h.isLocal.fault_each hm, List.findSome?_eq_none_iff]
  intro x hx
  obtain ⟨u, hu⟩ := hall (Keyed.key x)
  rw [valueAt?_of_mem hm hx, ← h.joins x hx, toOption_eq_some_iff] at hu
  rw [hu, fault_done]

theorem isJoin (hr : each step l m = done r) : IsJoin value op l m r where
  keys := keys_each h.keys hr
  entries k := by
    rw [h.isLocal.view_each hm hr k]
    cases hx : find? m k with
    | none =>
      have hnone : valueAt? value m k = none := Option.map_eq_none_iff.mpr hx
      rw [hnone]
      exact optionally_none_right _
    | some x =>
      have hmem := mem_of_find? hx
      obtain rfl : Keyed.key x = k := key_of_find? hx
      rw [valueAt?_of_mem hm hmem, ← h.joins x hmem, toOption_eq_some_iff]
      exact eq_done_of_fault (h.fault_eq_none hm hr x hmem)

theorem each_eq_done_iff (hvalue : Determines value) (hl : Distinct l) :
    each step l m = done r ↔ IsJoin value op l m r := by
  refine ⟨h.isJoin hm, fun hjoin => ?_⟩
  obtain ⟨r', hr'⟩ := h.exists_each hm fun k => ⟨_, hjoin.entries k⟩
  rw [hr', hjoin.unique (h.isJoin hm hr') hvalue hl]

end JoinsEntries

/-- Tables of values that satisfy `T` are joined entry by entry; `step l` is the step when they are
joined with `l`. -/
structure JoinsTables (T : β → Prop) (value : α → β) (op : β → β → Option β)
    (own : List α → α → Option β → Outcome ε (Option β))
    (step : List α → List α → α → Outcome ε (List α)) : Prop where
  determines : Determines value
  entries : ∀ {l m}, Holds T value l → Holds T value m → JoinsEntries value op (own l) (step l) l m
  closed : ∀ {a b c}, T a → T b → op a b = some c → T c

namespace JoinsTables
variable {T : β → Prop} {own : List α → α → Option β → Outcome ε (Option β)}
  {step : List α → List α → α → Outcome ε (List α)}
  (h : JoinsTables T value op own step)
include h

theorem eq_some_iff (hl : Holds T value l) (hm : Holds T value m) :
    (each (step l) l m).toOption = some r ↔ IsJoin value op l m r :=
  toOption_eq_some_iff.trans
    ((h.entries hl hm).each_eq_done_iff hm.distinct h.determines hl.distinct)

theorem exists_join (hl : Holds T value l) (hm : Holds T value m)
    (hall : ∀ k, ∃ x, optionally op (valueAt? value l k) (valueAt? value m k) = some x) :
    ∃ r, (each (step l) l m).toOption = some r := by
  obtain ⟨r, hr⟩ := (h.entries hl hm).exists_each hm.distinct hall
  exact ⟨r, toOption_eq_some_iff.mpr hr⟩

theorem holds (hl : Holds T value l) (hm : Holds T value m)
    (hr : (each (step l) l m).toOption = some r) : Holds T value r :=
  ((h.eq_some_iff hl hm).mp hr).holds hl hm fun y hy _ _ ha hc => h.closed ha (hm.values y hy) hc

theorem regroups (hl : Holds T value l) (hm : Holds T value m) (hn : Holds T value n)
    (hop : ∀ z ∈ n, ∀ a b, T a → T b → Regroups op a b (value z)) :
    Regroups (fun l m => (each (step l) l m).toOption) l m n := by
  have hname : ∀ k, Regroups (optionally op) (valueAt? value l k) (valueAt? value m k)
      (valueAt? value n k) := by
    intro k
    refine regroups_optionally fun a ha b hb c hc => ?_
    obtain ⟨z, hz, -, rfl⟩ := exists_of_valueAt? hc
    exact hop z hz a b (hl.of_valueAt? ha) (hm.of_valueAt? hb)
  refine regroups_iff.mpr fun r => ⟨?_, ?_⟩
  · rintro ⟨lm, hlm, hr⟩
    have hfirst := (h.eq_some_iff hl hm).mp hlm
    have hthen := (h.eq_some_iff (h.holds hl hm hlm) hn).mp hr
    have hentry := fun k =>
      (regroups_iff.mp (hname k) _).mp ⟨_, hfirst.entries k, hthen.entries k⟩
    obtain ⟨mn, hmn⟩ := h.exists_join hm hn fun k => (hentry k).imp fun _ hy => hy.1
    have hlast := (h.eq_some_iff hm hn).mp hmn
    refine ⟨mn, hmn, (h.eq_some_iff hl (h.holds hm hn hmn)).mpr ⟨?_, fun k => ?_⟩⟩
    · rw [hthen.keys, hfirst.keys, hlast.keys, addAllNew_assoc]
    · obtain ⟨y, hy, hwhole⟩ := hentry k
      rw [hlast.entries k] at hy
      rwa [Option.some.inj hy]
  · rintro ⟨mn, hmn, hr⟩
    have hlast := (h.eq_some_iff hm hn).mp hmn
    have hthen := (h.eq_some_iff hl (h.holds hm hn hmn)).mp hr
    have hentry := fun k =>
      (regroups_iff.mp (hname k) _).mpr ⟨_, hlast.entries k, hthen.entries k⟩
    obtain ⟨lm, hlm⟩ := h.exists_join hl hm fun k => (hentry k).imp fun _ hx => hx.1
    have hfirst := (h.eq_some_iff hl hm).mp hlm
    refine ⟨lm, hlm, (h.eq_some_iff (h.holds hl hm hlm) hn).mpr ⟨?_, fun k => ?_⟩⟩
    · rw [hthen.keys, hfirst.keys, hlast.keys, addAllNew_assoc]
    · obtain ⟨x, hx, hwhole⟩ := hentry k
      rw [hfirst.entries k] at hx
      rwa [Option.some.inj hx]

end JoinsTables
end Roster

/-! Any number of operands. -/

/-- A way to put brackets around a series of operands; `ι` is what each pair of brackets is marked
with. -/
inductive Bracketing (ι α : Type)
  | single (a : α)
  | pair (mark : ι) (left right : Bracketing ι α)

namespace Bracketing
variable {ι α : Type}

def operands : Bracketing ι α → List α
  | single a => [a]
  | pair _ left right => left.operands ++ right.operands

def value? (op : ι → α → α → Option α) : Bracketing ι α → Option α
  | single a => some a
  | pair mark left right => (left.value? op).bind fun a => (right.value? op).bind (op mark a)

end Bracketing

structure IsMonoidOn {α : Type} (S : α → Prop) (op : α → α → Option α) (unit : α) : Prop where
  unit_mem : S unit
  closed : ∀ {a b c}, S a → S b → op a b = some c → S c
  regroups : ∀ {a b c}, S a → S b → S c → Regroups op a b c
  unit_op : ∀ {a}, S a → op unit a = some a
  op_unit : ∀ {a}, S a → op a unit = some a

namespace IsMonoidOn
variable {ι α : Type} {S : α → Prop} {op : α → α → Option α} {unit : α} (h : IsMonoidOn S op unit)
include h

theorem closed_foldlM {as : List α} (has : ∀ a ∈ as, S a) {a b : α} (ha : S a)
    (hb : as.foldlM op a = some b) : S b := by
  induction as generalizing a with
  | nil => exact Option.some.inj hb ▸ ha
  | cons c as ih =>
    obtain ⟨d, hd, hrest⟩ := Option.bind_eq_some_iff.mp hb
    exact ih (fun x hx => has x (List.mem_cons_of_mem _ hx))
      (h.closed ha (has c (List.mem_cons_self ..)) hd) hrest

theorem bind_foldlM {a b : α} {as : List α} (ha : S a) (hb : S b) (has : ∀ c ∈ as, S c) :
    (op a b).bind (as.foldlM op) = (as.foldlM op b).bind (op a) := by
  induction as generalizing b with
  | nil => exact Option.bind_fun_some (op a b)
  | cons c as ih =>
    have hc : S c := has c (List.mem_cons_self ..)
    have hrest : ∀ x ∈ as, S x := fun x hx => has x (List.mem_cons_of_mem _ hx)
    calc (op a b).bind (fun ab => (op ab c).bind (as.foldlM op))
        = ((op a b).bind (op · c)).bind (as.foldlM op) := (Option.bind_assoc ..).symm
      _ = ((op b c).bind (op a)).bind (as.foldlM op) := by rw [h.regroups ha hb hc]
      _ = (op b c).bind fun bc => (op a bc).bind (as.foldlM op) := Option.bind_assoc ..
      _ = (op b c).bind fun bc => (as.foldlM op bc).bind (op a) :=
        Option.bind_congr fun bc hbc => ih (h.closed hb hc hbc) hrest
      _ = ((op b c).bind (as.foldlM op)).bind (op a) := (Option.bind_assoc ..).symm

theorem foldlM_append {as bs : List α} (has : ∀ a ∈ as, S a) (hbs : ∀ b ∈ bs, S b) :
    (as ++ bs).foldlM op unit =
      (as.foldlM op unit).bind fun a => (bs.foldlM op unit).bind (op a) := by
  rw [List.foldlM_append]
  refine Option.bind_congr fun a hfold => ?_
  have ha : S a := h.closed_foldlM has h.unit_mem hfold
  rw [← h.bind_foldlM ha h.unit_mem hbs, h.op_unit ha]
  rfl

theorem value?_eq_foldlM {ops : ι → α → α → Option α}
    (hops : ∀ i a b, S a → S b → ops i a b = op a b) {g : Bracketing ι α}
    (hg : ∀ a ∈ g.operands, S a) : g.value? ops = g.operands.foldlM op unit := by
  induction g with
  | single a =>
    have hsingle : [a].foldlM op unit = op unit a := Option.bind_fun_some (op unit a)
    rw [Bracketing.operands, hsingle, h.unit_op (hg a (List.mem_singleton_self a))]
    rfl
  | pair mark left right ihl ihr =>
    have hleft : ∀ a ∈ left.operands, S a := fun a ha => hg a (List.mem_append_left _ ha)
    have hright : ∀ a ∈ right.operands, S a := fun a ha => hg a (List.mem_append_right _ ha)
    rw [Bracketing.value?, ihl hleft, ihr hright, Bracketing.operands, h.foldlM_append hleft hright]
    refine Option.bind_congr fun a ha => Option.bind_congr fun b hb => ?_
    exact hops mark a b (h.closed_foldlM hleft h.unit_mem ha) (h.closed_foldlM hright h.unit_mem hb)

end IsMonoidOn
end FeatureAssembly
