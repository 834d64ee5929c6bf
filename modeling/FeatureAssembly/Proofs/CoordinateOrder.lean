import FeatureAssembly.Coordinate.Order
import FeatureAssembly.Proofs.StructuralErrors

/-! How far the comparison of coordinates is an order. It is total, and only equal coordinates compare
as equal. Version strings that can be read as versions compare as such and all others as texts, so
that a text between two versions can close a circle; no other three coordinates do. -/

namespace FeatureAssembly
open Std

namespace Version

instance instOrdVersion : Ord Version := ⟨Version.compare⟩

instance instTransOrdVersion : TransOrd Version :=
  inferInstanceAs (TransCmp (compareLex (compareOn major) (compareLex (compareOn minor)
    (compareLex (compareOn micro) (compareOn qualifier)))))

theorem compareTexts_of_read {a b : String} {v w : Version} (ha : ofText? a = some v)
    (hb : ofText? b = some w) : compareTexts a b = Ord.compare v w := by
  rw [compareTexts, ha, hb]
  rfl

theorem compareTexts_of_unread {a b : String} (h : ofText? a = none ∨ ofText? b = none) :
    compareTexts a b = Ord.compare a b := by
  unfold compareTexts
  rcases h with h | h
  · rw [h]
  · rw [h]
    cases ofText? a <;> rfl

instance instOrientedCmpCompareTexts : OrientedCmp compareTexts where
  eq_swap {a b} := by
    cases ha : ofText? a with
    | none =>
      rw [compareTexts_of_unread (.inl ha), compareTexts_of_unread (.inr ha)]
      exact OrientedCmp.eq_swap
    | some v =>
      cases hb : ofText? b with
      | none =>
        rw [compareTexts_of_unread (.inr hb), compareTexts_of_unread (.inl hb)]
        exact OrientedCmp.eq_swap
      | some w =>
        rw [compareTexts_of_read ha hb, compareTexts_of_read hb ha]
        exact OrientedCmp.eq_swap

/-- Compares version strings as coordinates do: as far as possible as versions, and then as texts. -/
def compareStrings (a b : String) : Ordering := (compareTexts a b).then (Ord.compare a b)

instance instOrientedCmpCompareStrings : OrientedCmp compareStrings :=
  inferInstanceAs (OrientedCmp (compareLex compareTexts Ord.compare))

instance instLawfulEqCmpCompareStrings : LawfulEqCmp compareStrings where
  eq_of_compare h := LawfulEqCmp.eq_of_compare (Ordering.then_eq_eq.mp h).2

variable {a b c : String}

theorem compareStrings_of_read {v w : Version} (ha : ofText? a = some v) (hb : ofText? b = some w) :
    compareStrings a b = compareLex (compareOn Prod.fst) (compareOn Prod.snd) (v, a) (w, b) := by
  rw [compareStrings, compareTexts_of_read ha hb]
  rfl

theorem compareStrings_of_unread (h : ofText? a = none ∨ ofText? b = none) :
    compareStrings a b = Ord.compare a b := by
  rw [compareStrings, compareTexts_of_unread h]
  cases Ord.compare a b <;> rfl

/-- A text that cannot be read as a version stands between two that can, in their order as texts, while
their order as versions is the other one. -/
structure Straddles (x y z : String) : Prop where
  unread : ofText? x = none
  after : Ord.compare y x = .lt
  before : Ord.compare x z = .lt
  reversed : ∃ v w, ofText? y = some v ∧ ofText? z = some w ∧ Version.compare w v = .lt

def Circle (a b c : String) : Prop := Straddles a c b ∨ Straddles b a c ∨ Straddles c b a

namespace Straddles
variable {x y z : String}

theorem below (h : Straddles x y z) : compareStrings y x = .lt := by
  rw [compareStrings_of_unread (.inr h.unread)]
  exact h.after

theorem above (h : Straddles x y z) : compareStrings x z = .lt := by
  rw [compareStrings_of_unread (.inl h.unread)]
  exact h.before

theorem back (h : Straddles x y z) : compareStrings z y = .lt := by
  obtain ⟨v, w, hv, hw, hlt⟩ := h.reversed
  rw [compareStrings, Ordering.then_eq_lt, compareTexts_of_read hw hv]
  exact .inl hlt

end Straddles

theorem Circle.lt (h : Circle a b c) :
    compareStrings a b = .lt ∧ compareStrings b c = .lt ∧ compareStrings c a = .lt := by
  rcases h with h | h | h
  · exact ⟨h.above, h.back, h.below⟩
  · exact ⟨h.below, h.above, h.back⟩
  · exact ⟨h.back, h.below, h.above⟩

theorem compare_lt_of_read {v w : Version} (ha : ofText? a = some v) (hb : ofText? b = some w)
    (hab : compareStrings a b = .lt) (htexts : Ord.compare b a = .lt) :
    Version.compare v w = .lt := by
  rw [compareStrings, compareTexts_of_read ha hb, Ordering.then_eq_lt] at hab
  rcases hab with hlt | ⟨-, hlt⟩
  · exact hlt
  · exact absurd htexts (OrientedCmp.not_lt_of_lt hlt)

/-- A circle has exactly one text that cannot be read, and it is the one that stands between the
others. -/
theorem circle_of_lt (hab : compareStrings a b = .lt) (hbc : compareStrings b c = .lt)
    (hca : compareStrings c a = .lt) : Circle a b c := by
  have unread : ∀ {x y : String}, ofText? x = none ∨ ofText? y = none →
      compareStrings x y = .lt → Ord.compare x y = .lt :=
    fun h hlt => compareStrings_of_unread h ▸ hlt
  have asymm : ∀ {x y : String}, compareStrings x y = .lt → compareStrings y x ≠ .lt :=
    OrientedCmp.not_lt_of_lt
  cases ha : ofText? a with
  | none =>
    have htab := unread (.inl ha) hab
    have htca := unread (.inr ha) hca
    have htcb : Ord.compare c b = .lt := TransCmp.lt_trans htca htab
    cases hb : ofText? b with
    | none =>
      exact absurd (compareStrings_of_unread (.inr hb) ▸ htcb) (asymm hbc)
    | some w =>
      cases hc : ofText? c with
      | none => exact absurd (compareStrings_of_unread (.inl hc) ▸ htcb) (asymm hbc)
      | some u => exact .inl ⟨ha, htca, htab, u, w, hc, hb, compare_lt_of_read hb hc hbc htcb⟩
  | some v =>
    cases hb : ofText? b with
    | none =>
      have htab := unread (.inr hb) hab
      have htbc := unread (.inl hb) hbc
      have htac : Ord.compare a c = .lt := TransCmp.lt_trans htab htbc
      cases hc : ofText? c with
      | none => exact absurd (compareStrings_of_unread (.inr hc) ▸ htac) (asymm hca)
      | some u => exact .inr (.inl ⟨hb, htab, htbc, v, u, ha, hc, compare_lt_of_read hc ha hca htac⟩)
    | some w =>
      cases hc : ofText? c with
      | none =>
        have htbc := unread (.inr hc) hbc
        have htca := unread (.inl hc) hca
        have htba : Ord.compare b a = .lt := TransCmp.lt_trans htbc htca
        exact .inr (.inr ⟨hc, htbc, htca, w, v, hb, ha, compare_lt_of_read ha hb hab htba⟩)
      | some u =>
        rw [compareStrings_of_read ha hb] at hab
        rw [compareStrings_of_read hb hc] at hbc
        have hac := TransCmp.lt_trans hab hbc
        rw [← compareStrings_of_read ha hc] at hac
        exact absurd hac (asymm hca)

end Version

namespace Coordinate

theorem compareClassifiers_eq : compareClassifiers = (Ord.compare : Option String → _ → _) := by
  funext c d
  cases c <;> cases d <;> rfl

def comparePlaces (a b : Coordinate) : Ordering :=
  (Ord.compare a.group b.group).then (Ord.compare a.artifact b.artifact)

def compareVariants (a b : Coordinate) : Ordering :=
  (Ord.compare a.type b.type).then (Ord.compare a.classifier b.classifier)

instance instTransCmpComparePlaces : TransCmp comparePlaces :=
  inferInstanceAs (TransCmp (compareLex (compareOn group) (compareOn artifact)))

instance instTransCmpCompareVariants : TransCmp compareVariants :=
  inferInstanceAs (TransCmp (compareLex (compareOn type) (compareOn classifier)))

theorem comparePlaces_eq_iff {a b : Coordinate} :
    comparePlaces a b = .eq ↔ a.group = b.group ∧ a.artifact = b.artifact := by
  simp [comparePlaces, Ordering.then_eq_eq]

theorem compareVariants_eq_iff {a b : Coordinate} :
    compareVariants a b = .eq ↔ a.type = b.type ∧ a.classifier = b.classifier := by
  simp [compareVariants, Ordering.then_eq_eq]

theorem compare_eq (a b : Coordinate) : compare a b = (comparePlaces a b).then
    ((Version.compareStrings a.version b.version).then (compareVariants a b)) := by
  simp only [compare, compareClassifiers_eq, comparePlaces, Version.compareStrings,
    compareVariants, Ordering.then_assoc]

instance instOrientedCmpCompare : OrientedCmp compare where
  eq_swap {a b} := by
    have hplaces : comparePlaces a b = (comparePlaces b a).swap := OrientedCmp.eq_swap
    have hversions : Version.compareStrings a.version b.version =
        (Version.compareStrings b.version a.version).swap := OrientedCmp.eq_swap
    have hvariants : compareVariants a b = (compareVariants b a).swap := OrientedCmp.eq_swap
    rw [compare_eq, compare_eq, Ordering.swap_then, Ordering.swap_then, hplaces, hversions, hvariants]

theorem compare_eq_iff {a b : Coordinate} : compare a b = .eq ↔ a = b := by
  rw [compare_eq, Ordering.then_eq_eq, Ordering.then_eq_eq, comparePlaces_eq_iff,
    compareVariants_eq_iff, LawfulEqCmp.compare_eq_iff_eq]
  obtain ⟨g, n, v, c, t⟩ := a
  obtain ⟨g', n', v', c', t'⟩ := b
  simp only [mk.injEq]
  grind

structure Circle (a b c : Coordinate) : Prop where
  group : a.group = b.group ∧ b.group = c.group
  artifact : a.artifact = b.artifact ∧ b.artifact = c.artifact
  versions : Version.Circle a.version b.version c.version

variable {a b c : Coordinate}

theorem compare_lt_of_versions (hgroup : a.group = b.group) (hartifact : a.artifact = b.artifact)
    (h : Version.compareStrings a.version b.version = .lt) : compare a b = .lt := by
  rw [compare_eq, comparePlaces_eq_iff.mpr ⟨hgroup, hartifact⟩, h]
  rfl

theorem Circle.back (h : Circle a b c) : compare c a = .lt := by
  obtain ⟨-, -, hca⟩ := h.versions.lt
  exact compare_lt_of_versions (h.group.1.trans h.group.2).symm
    (h.artifact.1.trans h.artifact.2).symm hca

theorem isLE_places_of_lt (h : compare a b = .lt) : (comparePlaces a b).isLE := by
  rw [compare_eq, Ordering.then_eq_lt] at h
  rcases h with h | ⟨h, -⟩
  · exact Ordering.isLE_of_eq_lt h
  · exact Ordering.isLE_of_eq_eq h

theorem comparePlaces_eq_of_lt (hab : compare a b = .lt) (hbc : compare b c = .lt)
    (hca : compare c a = .lt) : comparePlaces a b = .eq := by
  have hba := TransCmp.isLE_trans (isLE_places_of_lt hbc) (isLE_places_of_lt hca)
  exact OrientedCmp.isLE_antisymm (isLE_places_of_lt hab) hba

theorem versions_of_lt (hplaces : comparePlaces a b = .eq) (h : compare a b = .lt) :
    Version.compareStrings a.version b.version = .lt ∨
      a.version = b.version ∧ compareVariants a b = .lt := by
  rwa [compare_eq, hplaces, Ordering.eq_then, Ordering.then_eq_lt,
    LawfulEqCmp.compare_eq_iff_eq] at h

theorem circle_of_lt (hab : compare a b = .lt) (hbc : compare b c = .lt)
    (hca : compare c a = .lt) : Circle a b c := by
  have hpab := comparePlaces_eq_of_lt hab hbc hca
  have hpbc := comparePlaces_eq_of_lt hbc hca hab
  have hpca := comparePlaces_eq_of_lt hca hab hbc
  have asymm : ∀ v w, Version.compareStrings v w = .lt → Version.compareStrings w v ≠ .lt :=
    fun _ _ => OrientedCmp.not_lt_of_lt
  obtain ⟨hgab, haab⟩ := comparePlaces_eq_iff.mp hpab
  obtain ⟨hgbc, habc⟩ := comparePlaces_eq_iff.mp hpbc
  rcases versions_of_lt hpab hab with hvab | ⟨hvab, htab⟩
  · rcases versions_of_lt hpbc hbc with hvbc | ⟨hvbc, -⟩
    · rcases versions_of_lt hpca hca with hvca | ⟨hvca, -⟩
      · exact ⟨⟨hgab, hgbc⟩, ⟨haab, habc⟩, Version.circle_of_lt hvab hvbc hvca⟩
      · exact absurd (hvca ▸ hvbc) (asymm _ _ hvab)
    · rcases versions_of_lt hpca hca with hvca | ⟨hvca, -⟩
      · exact absurd (hvbc ▸ hvca) (asymm _ _ hvab)
      · rw [hvbc, hvca] at hvab
        exact absurd hvab (asymm _ _ hvab)
  · rcases versions_of_lt hpbc hbc with hvbc | ⟨hvbc, htbc⟩
    · rcases versions_of_lt hpca hca with hvca | ⟨hvca, -⟩
      · exact absurd (hvab ▸ hvca) (asymm _ _ hvbc)
      · rw [hvca, hvab] at hvbc
        exact absurd hvbc (asymm _ _ hvbc)
    · rcases versions_of_lt hpca hca with hvca | ⟨-, htca⟩
      · rw [hvab, hvbc] at hvca
        exact absurd hvca (asymm _ _ hvca)
      · -- without a version between them, types and classifiers would have to go round
        have htac := TransCmp.lt_trans htab htbc
        exact absurd htca (OrientedCmp.not_lt_of_lt htac)

/-- The comparison is total, and only equal coordinates compare as equal. Of three coordinates that
follow one another the first is below the last, unless a text that cannot be read as a version stands
between two versions of the same artifact whose order is not that of their texts. -/
theorem compare_is_order (a b c : Coordinate) :
    compare b a = (compare a b).swap ∧ (compare a b = .eq ↔ a = b) ∧
      (compare a b = .lt → compare b c = .lt → (compare a c = .lt ↔ ¬ Circle a b c)) := by
  refine ⟨OrientedCmp.eq_swap, compare_eq_iff, fun hab hbc => ⟨fun hac hcircle => ?_, fun hnone => ?_⟩⟩
  · exact OrientedCmp.not_lt_of_lt hac hcircle.back
  · cases hac : compare a c with
    | lt => rfl
    | eq =>
      obtain rfl := compare_eq_iff.mp hac
      exact absurd hbc (OrientedCmp.not_lt_of_lt hab)
    | gt => exact absurd (circle_of_lt hab hbc (OrientedCmp.gt_iff_lt.mp hac)) hnone

end Coordinate

namespace Sample

def edition (version : String) : Coordinate := { id "lib" with version }

theorem wellFormed_edition {version : String} (h : version ≠ "")
    (hplain : Coordinate.isPlain version) : (edition version).WellFormed where
  group := (by decide : "g" ≠ "" ∧ Coordinate.isPlain "g")
  artifact := (by decide : "lib" ≠ "" ∧ Coordinate.isPlain "lib")
  version := ⟨h, hplain⟩
  classifier _ hc := nomatch hc
  type := (by decide : "jar" ≠ "" ∧ Coordinate.isPlain "jar" ∧ "jar" ≠ Coordinate.bundleType)

end Sample

theorem Coordinate.compare_editions :
    compare (Sample.edition "1") (Sample.edition "2") = .lt ∧
      compare (Sample.edition "2") (Sample.edition "2x") = .lt ∧
      compare (Sample.edition "1") (Sample.edition "2x") = .lt := by
  have hab : compare (Sample.edition "1") (Sample.edition "2") = .lt := by decide
  have hbc : compare (Sample.edition "2") (Sample.edition "2x") = .lt := by decide
  obtain ⟨-, -, hac⟩ :=
    compare_is_order (Sample.edition "1") (Sample.edition "2") (Sample.edition "2x")
  refine ⟨hab, hbc, (hac hab hbc).mpr fun hcircle => ?_⟩
  rcases hcircle.versions with h | h | h
  · exact absurd h.unread (by decide)
  · exact absurd h.unread (by decide)
  · exact absurd h.before (by decide)

/-- 9 is below 10 as a version, and 10 below 1x and 1x below 9 as texts. -/
theorem Coordinate.compare_not_transitive : ¬ ∀ a b c : Coordinate, a.WellFormed → b.WellFormed →
    c.WellFormed → compare a b = .lt → compare b c = .lt → compare a c = .lt := by
  intro h
  have hac := h (Sample.edition "9") (Sample.edition "10") (Sample.edition "1x")
    (Sample.wellFormed_edition (by decide) (by decide))
    (Sample.wellFormed_edition (by decide) (by decide))
    (Sample.wellFormed_edition (by decide) (by decide)) (by decide) (by decide)
  exact absurd hac (by decide)

end FeatureAssembly
