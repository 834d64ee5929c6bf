import FeatureAssembly.Proofs.ExtensionRemoval
import FeatureAssembly.Proofs.JsonEntries
import Mathlib.Data.List.Perm.Subperm

/-! Equality of JSON values and of descriptors. Doubles that are no numbers are not even equal to themselves,
and a list that has a name twice may equal one that does not equal it; but two values that a third one
without repeated names equals are equal. So descriptors that are not equal are left out independently. -/

namespace FeatureAssembly

namespace Table
variable {α : Type} {eq : α → α → Bool} {t u w : Table α}

theorem same_iff : same eq t u ↔
    t.length = u.length ∧ ∀ e ∈ t, ∃ v, get? u e.1 = some v ∧ eq e.2 v := by
  rw [same, Bool.and_eq_true, beq_iff_eq, List.all_eq_true]
  refine and_congr_right fun _ => forall₂_congr fun e _ => ?_
  cases get? u e.1 <;> simp

theorem keys_perm_of_same (ht : Roster.Distinct t) (h : same eq t u) :
    (Roster.keys t).Perm (Roster.keys u) := by
  obtain ⟨hlength, hfound⟩ := same_iff.mp h
  have hsubset : Roster.keys t ⊆ Roster.keys u := by
    intro k hk
    obtain ⟨e, he, rfl⟩ := List.mem_map.mp hk
    obtain ⟨v, hv, -⟩ := hfound e he
    obtain ⟨x, hx, -⟩ := Option.map_eq_some_iff.mp hv
    exact Roster.find?_isSome_iff.mp (Option.isSome_of_eq_some hx)
  refine (List.subperm_of_subset ht hsubset).perm_of_length_le ?_
  simp only [Roster.keys, List.length_map, hlength, Nat.le_refl]

theorem same_of_same (ht : Roster.Distinct t)
    (heq : ∀ e ∈ t, ∀ v w, eq e.2 v → eq e.2 w → eq v w) (h : same eq t u) (h' : same eq t w) :
    same eq u w := by
  have hkeys := keys_perm_of_same ht h
  have hu : Roster.Distinct u := hkeys.nodup_iff.mp ht
  obtain ⟨hlength, hfound⟩ := same_iff.mp h
  obtain ⟨hlength', hfound'⟩ := same_iff.mp h'
  refine same_iff.mpr ⟨hlength.symm.trans hlength', fun x hx => ?_⟩
  obtain ⟨e, he, hname⟩ := List.mem_map.mp (hkeys.mem_iff.mpr (List.mem_map_of_mem hx))
  replace hname : e.1 = x.1 := hname
  obtain ⟨v, hv, hev⟩ := hfound e he
  obtain ⟨v', hv', hev'⟩ := hfound' e he
  have hx : get? u e.1 = some x.2 :=
    congrArg (Option.map Prod.snd) ((Roster.find?_eq_some_iff hu).mpr ⟨hx, hname.symm⟩)
  obtain rfl : v = x.2 := Option.some.inj (hv.symm.trans hx)
  exact ⟨v', hname ▸ hv', heq e he _ _ hev hev'⟩

end Table

/-! Doubles that are equal are the same or zeros, and a sign of zero does not tell against others. -/

section
open Float.Model (UnpackedFloat)

theorem eq_and_eq_of_compare {e f : Int} {m n : Nat}
    (h : (compare e f).then (compare m n) = .eq) : e = f ∧ m = n := by
  obtain ⟨he, hm⟩ := Ordering.then_eq_eq.mp h
  exact ⟨Std.LawfulEqOrd.eq_of_compare he, Std.LawfulEqOrd.eq_of_compare hm⟩

theorem eq_or_zeros_of_compare {x y : UnpackedFloat} (h : x.compare y = some .eq) :
    x = y ∨ ∃ s t, x = .zero s ∧ y = .zero t := by
  cases x with
  | notANumber => cases h
  | infinity s =>
    cases y with
    | infinity t => cases s <;> cases t <;> first | exact .inl rfl | cases h
    | _ => cases s <;> cases h
  | zero s =>
    cases y with
    | zero t => exact .inr ⟨s, t, rfl, rfl⟩
    | infinity t | finite t => cases t <;> cases h
    | notANumber => cases h
  | finite s m e =>
    cases y with
    | finite t n f =>
      cases s <;> cases t
      · obtain ⟨rfl, rfl⟩ := eq_and_eq_of_compare (Ordering.swap_eq_eq.mp (Option.some.inj h))
        exact .inl rfl
      · cases h
      · cases h
      · obtain ⟨rfl, rfl⟩ := eq_and_eq_of_compare (Option.some.inj h)
        exact .inl rfl
    | infinity t => cases s <;> cases t <;> cases h
    | zero t => cases s <;> cases h
    | notANumber => cases s <;> cases h

theorem compare_zero_congr (s t : UnpackedFloat.Sign) (z : UnpackedFloat) :
    (UnpackedFloat.zero s).compare z = (UnpackedFloat.zero t).compare z := by
  cases z with
  | infinity sign => cases sign <;> rfl
  | finite sign => cases sign <;> rfl
  | _ => rfl

theorem double_beq_congr {x y : Float} (h : x == y) (z : Float) : (x == z) = (y == z) := by
  have hcompare : x.toModel.unpack.compare y.toModel.unpack = some .eq := eq_of_beq h
  suffices hcongr : x.toModel.unpack.compare z.toModel.unpack =
      y.toModel.unpack.compare z.toModel.unpack from congrArg (· == some Ordering.eq) hcongr
  rcases eq_or_zeros_of_compare hcompare with heq | ⟨s, t, hx, hy⟩
  · rw [heq]
  · rw [hx, hy]
    exact compare_zero_congr s t _

end

theorem Number.same_of_same {m n k : Number} (h : m.same n) (h' : m.same k) : n.same k := by
  cases m with
  | integer i =>
    cases n with
    | integer j =>
      obtain rfl := eq_of_beq h
      exact h'
    | real _ => cases h
  | real x =>
    cases n with
    | integer _ => cases h
    | real y =>
      cases k with
      | integer _ => cases h'
      | real z =>
        have hcongr : (x == z) = (y == z) := double_beq_congr h z
        exact hcongr.symm.trans h'

namespace Json

theorem sameFields_iff {fields gs : Table Json} : sameFields fields gs ↔
    ∀ e ∈ fields, ∃ v, Table.get? gs e.1 = some v ∧ same e.2 v := by
  induction fields with
  | nil => simp [sameFields]
  | cons e fields ih =>
    rw [sameFields, Bool.and_eq_true, ih, List.forall_mem_cons]
    refine and_congr_left fun _ => ?_
    cases Table.get? gs e.1 <;> simp

theorem same_array_iff {items : List Json} {v : Json} :
    same (.array items) v ↔ ∃ as, v = .array as ∧ sameItems items as := by
  cases v <;> simp [same]

theorem same_object_iff {fields : Table Json} {v : Json} :
    same (.object fields) v ↔ ∃ gs, v = .object gs ∧ Table.same same fields gs := by
  cases v <;> simp [same, Table.same_iff, sameFields_iff]

theorem sameItems_of_sameItems {items as bs : List Json}
    (hitems : ∀ v ∈ items, ∀ x y, same v x → same v y → same x y)
    (h : sameItems items as) (h' : sameItems items bs) : sameItems as bs := by
  induction items generalizing as bs with
  | nil =>
    cases as with
    | nil => exact h'
    | cons _ _ => cases h
  | cons v items ih =>
    cases as with
    | nil => cases h
    | cons a as =>
      cases bs with
      | nil => cases h'
      | cons b bs =>
        obtain ⟨hva, has⟩ := (Bool.and_eq_true ..).mp h
        obtain ⟨hvb, hbs⟩ := (Bool.and_eq_true ..).mp h'
        rw [List.forall_mem_cons] at hitems
        exact (Bool.and_eq_true ..).mpr ⟨hitems.1 a b hva hvb, ih hitems.2 has hbs⟩

theorem same_of_same_plain {v x y : Json} (hv : v.isContainer = false) (h : same v x)
    (h' : same v y) : same x y := by
  cases v with
  | null =>
    cases x with
    | null => exact h'
    | _ => cases h
  | bool b =>
    cases x with
    | bool c =>
      obtain rfl := eq_of_beq h
      exact h'
    | _ => cases h
  | number m =>
    cases x with
    | number n =>
      cases y with
      | number k => exact Number.same_of_same h h'
      | _ => cases h'
    | _ => cases h
  | string s =>
    cases x with
    | string t =>
      obtain rfl := eq_of_beq h
      exact h'
    | _ => cases h
  | array _ => cases hv
  | object _ => cases hv

theorem same_of_same {v x y : Json} (hv : v.Distinct) (h : same v x) (h' : same v y) : same x y := by
  induction hv generalizing x y with
  | @plain v hplain => exact same_of_same_plain hplain h h'
  | array _ ih =>
    obtain ⟨as, rfl, has⟩ := same_array_iff.mp h
    obtain ⟨bs, rfl, hbs⟩ := same_array_iff.mp h'
    exact same_array_iff.mpr ⟨bs, rfl, sameItems_of_sameItems (fun v hv x y => ih v hv) has hbs⟩
  | object names _ ih =>
    obtain ⟨fs, rfl, hfs⟩ := same_object_iff.mp h
    obtain ⟨gs, rfl, hgs⟩ := same_object_iff.mp h'
    exact same_object_iff.mpr ⟨gs, rfl, Table.same_of_same names (fun e he v w => ih e he) hfs hgs⟩

end Json

structure Descriptor.Unambiguous (d : Descriptor) : Prop where
  attributes : Roster.Distinct d.attributes
  values : ∀ e ∈ d.attributes, e.2.Distinct
  directives : Roster.Distinct d.directives

theorem Descriptor.same_of_same {e c d : Descriptor} (he : e.Unambiguous) (h : e.same c)
    (h' : e.same d) : c.same d := by
  simp only [same, Bool.and_eq_true, beq_iff_eq] at h h' ⊢
  obtain ⟨⟨hname, hattributes⟩, hdirectives⟩ := h
  obtain ⟨⟨hname', hattributes'⟩, hdirectives'⟩ := h'
  refine ⟨⟨hname.symm.trans hname', ?_⟩, ?_⟩
  · exact Table.same_of_same he.attributes (fun x hx _ _ => Json.same_of_same (he.values x hx))
      hattributes hattributes'
  · refine Table.same_of_same he.directives (fun x _ v w hv hw => ?_) hdirectives hdirectives'
    exact beq_of_eq ((eq_of_beq hv).symm.trans (eq_of_beq hw))

namespace Descriptors
variable {l ds : List Descriptor} {d : Descriptor}

theorem contains_iff : contains l d ↔ ∃ e ∈ l, e.same d := List.any_eq_true

theorem contains_without_iff (hl : ∀ e ∈ l, e.Unambiguous) (hd : ∀ c ∈ ds, c.same d = false) :
    contains (without l ds) d ↔ contains l d := by
  simp only [contains_iff, without_eq_filter, List.mem_filter, decide_eq_true_iff]
  constructor
  · rintro ⟨e, ⟨he, -⟩, hsame⟩
    exact ⟨e, he, hsame⟩
  · rintro ⟨e, he, hsame⟩
    refine ⟨e, ⟨he, fun c hc => Bool.eq_false_iff.mpr fun hec => ?_⟩, hsame⟩
    exact Bool.eq_false_iff.mp (hd c hc) (Descriptor.same_of_same (hl e he) hec hsame)

theorem forall_contains_without_iff (hl : ∀ e ∈ l, e.Unambiguous) (hds : Distinct ds) :
    (∀ before d after, ds = before ++ d :: after → contains (without l before) d) ↔
      ∀ d ∈ ds, contains l d := by
  rw [← Outcome.forall_split_iff_forall_mem]
  refine forall_congr' fun before => forall_congr' fun d => forall₂_congr fun after hsplit => ?_
  subst hsplit
  refine contains_without_iff hl fun c hc => ?_
  exact (List.pairwise_append.mp hds).2.2 c hc d (List.mem_cons_self ..)

end Descriptors
end FeatureAssembly
