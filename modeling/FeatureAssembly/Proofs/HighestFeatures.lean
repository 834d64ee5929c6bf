import FeatureAssembly.Proofs.PolicyOutcome
import FeatureAssembly.Proofs.WellFormed

/-! What deduplication leaves of a list of features: of each identity one feature, in the order in which
the identities first came. Where all versions of an identity can be read, it is the first of the highest
version. -/

namespace FeatureAssembly
namespace Features
variable {kept fs front gs : List Feature} {f g x : Feature}
  {i : String × String × String × Option String}

/-! Identities. -/

theorem keepHighest_of_new (h : f.id.identity ∉ identities kept) :
    keepHighest kept f = kept ++ [f] := by
  induction kept with
  | nil => rfl
  | cons k kept ih =>
    rw [identities, List.map_cons, List.mem_cons, not_or] at h
    have hother : ¬ k.id.isSame f.id := fun hsame => h.1 (Coordinate.isSame_iff.mp hsame).symm
    rw [keepHighest, if_neg hother, ih h.2, List.cons_append]

theorem identities_deduplicate (fs : List Feature) :
    identities (deduplicate fs) = addAllNew [] (identities fs) := by
  have hfold : ∀ kept, identities (fs.foldl keepHighest kept) =
      addAllNew (identities kept) (identities fs) := by
    induction fs with
    | nil => exact fun _ => rfl
    | cons f fs ih =>
      intro kept
      have hstep : identities (keepHighest kept f) = addNew (identities kept) f.id.identity := by
        rw [identities_keepHighest, addNew]
        congr
      rw [List.foldl_cons, ih, hstep]
      rfl
  exact hfold []

theorem deduplicate_of_nodup (h : (identities fs).Nodup) : deduplicate fs = fs := by
  have hfold : ∀ kept, (identities (kept ++ fs)).Nodup → fs.foldl keepHighest kept = kept ++ fs := by
    clear h
    induction fs with
    | nil => exact fun kept _ => (List.append_nil kept).symm
    | cons f fs ih =>
      intro kept h
      have hnew : f.id.identity ∉ identities kept := by
        rw [identities, List.map_append, List.map_cons] at h
        exact fun hmem => (List.nodup_append.mp h).2.2 _ hmem _ (List.mem_cons_self ..) rfl
      rw [List.foldl_cons, keepHighest_of_new hnew, ih (kept ++ [f]) (by simpa using h),
        List.append_assoc, List.singleton_append]
  exact hfold [] h

/-! One identity alone. -/

def ofIdentity (i : String × String × String × Option String) (fs : List Feature) : List Feature :=
  fs.filter fun f => f.id.identity = i

theorem ofIdentity_cons_of_eq (h : f.id.identity = i) (fs : List Feature) :
    ofIdentity i (f :: fs) = f :: ofIdentity i fs := List.filter_cons_of_pos (decide_eq_true h)

theorem ofIdentity_cons_of_ne (h : f.id.identity ≠ i) (fs : List Feature) :
    ofIdentity i (f :: fs) = ofIdentity i fs := List.filter_cons_of_neg (by simpa using h)

theorem ofIdentity_keepHighest (kept : List Feature) (f : Feature) :
    ofIdentity i (keepHighest kept f) =
      if f.id.identity = i then keepHighest (ofIdentity i kept) f else ofIdentity i kept := by
  induction kept with
  | nil =>
    by_cases hf : f.id.identity = i
    · rw [if_pos hf]
      exact ofIdentity_cons_of_eq hf []
    · rw [if_neg hf]
      exact ofIdentity_cons_of_ne hf []
  | cons k kept ih =>
    by_cases hsame : k.id.isSame f.id
    · have hid : k.id.identity = f.id.identity := Coordinate.isSame_iff.mp hsame
      by_cases hf : f.id.identity = i
      · have hk := hid.trans hf
        rw [keepHighest, if_pos hsame, if_pos hf, ofIdentity_cons_of_eq hk, keepHighest,
          if_pos hsame, ofIdentity_cons_of_eq (by split <;> assumption)]
      · have hk : k.id.identity ≠ i := hid ▸ hf
        rw [keepHighest, if_pos hsame, if_neg hf, ofIdentity_cons_of_ne hk,
          ofIdentity_cons_of_ne (by split <;> assumption)]
    · rw [keepHighest, if_neg hsame]
      by_cases hk : k.id.identity = i
      · rw [ofIdentity_cons_of_eq hk, ofIdentity_cons_of_eq hk, ih, keepHighest, if_neg hsame]
        split <;> rfl
      · rw [ofIdentity_cons_of_ne hk, ofIdentity_cons_of_ne hk, ih]

theorem ofIdentity_deduplicate (fs : List Feature) :
    ofIdentity i (deduplicate fs) = deduplicate (ofIdentity i fs) := by
  have hfold : ∀ kept, ofIdentity i (fs.foldl keepHighest kept) =
      (ofIdentity i fs).foldl keepHighest (ofIdentity i kept) := by
    induction fs with
    | nil => exact fun _ => rfl
    | cons f fs ih =>
      intro kept
      rw [List.foldl_cons, ih, ofIdentity_keepHighest]
      by_cases hf : f.id.identity = i
      · rw [if_pos hf, ofIdentity_cons_of_eq hf, List.foldl_cons]
      · rw [if_neg hf, ofIdentity_cons_of_ne hf]
  exact hfold []

/-! The highest version. -/

def IsReadable (i : String × String × String × Option String) (fs : List Feature) : Prop :=
  ∀ f ∈ fs, f.id.identity = i → (Version.ofText? f.id.version).isSome

def IsFirstHighest (fs : List Feature) (g : Feature) : Prop :=
  ∃ before after, fs = before ++ g :: after ∧
    (∀ f ∈ before, f.id.identity = g.id.identity →
      Version.compareTexts f.id.version g.id.version = .lt) ∧
    ∀ f ∈ after, f.id.identity = g.id.identity →
      Version.compareTexts g.id.version f.id.version ≠ .lt

theorem IsFirstHighest.of_ofIdentity (h : IsFirstHighest (ofIdentity g.id.identity fs) g) :
    IsFirstHighest fs g := by
  obtain ⟨before, after, hfs, hbefore, hafter⟩ := h
  obtain ⟨front, rest, rfl, rfl, hrest⟩ := List.filter_eq_append_iff.mp hfs
  obtain ⟨middle, back, rfl, hmiddle, -, rfl⟩ := List.filter_eq_cons_iff.mp hrest
  refine ⟨front ++ middle, back, by simp, fun f hf hid => ?_, fun f hf hid => ?_⟩
  · rcases List.mem_append.mp hf with hf | hf
    · exact hbefore f (List.mem_filter.mpr ⟨hf, decide_eq_true hid⟩) hid
    · exact absurd (decide_eq_true hid) (hmiddle f hf)
  · exact hafter f (List.mem_filter.mpr ⟨hf, decide_eq_true hid⟩) hid

theorem IsFirstHighest.mem (h : IsFirstHighest fs g) : g ∈ fs := by
  obtain ⟨before, after, rfl, -, -⟩ := h
  simp

theorem IsFirstHighest.not_lt (h : IsFirstHighest fs g) (hf : f ∈ fs)
    (hid : f.id.identity = g.id.identity) :
    Version.compareTexts g.id.version f.id.version ≠ .lt := by
  obtain ⟨before, after, rfl, hbefore, hafter⟩ := h
  rcases List.mem_append.mp hf with hf | hf
  · exact Std.OrientedCmp.not_lt_of_lt (hbefore f hf hid)
  · rcases List.mem_cons.mp hf with rfl | hf
    · exact Version.compareTexts_self _
    · exact hafter f hf hid

theorem IsFirstHighest.concat (h : IsFirstHighest front g)
    (hone : ∀ f ∈ front ++ [x], f.id.identity = i) (hread : IsReadable i (front ++ [x])) :
    IsFirstHighest (front ++ [x])
      (if Version.compareTexts x.id.version g.id.version = .gt then x else g) := by
  obtain ⟨before, after, rfl, hbefore, hafter⟩ := h
  have hx : x.id.identity = i := hone x (by simp)
  have hg : g.id.identity = i := hone g (by simp)
  split
  · next hgt =>
    have hbelow := Version.lt_of_first_greatest (fun f : Feature => f.id.version)
      (fun f hf => hread f hf (hone f hf))
      (fun f hf => hbefore f hf ((hone f (by simp [hf])).trans hg.symm))
      (fun f hf => hafter f hf ((hone f (by simp [hf])).trans hg.symm))
      (Std.OrientedCmp.gt_iff_lt.mp hgt)
    exact ⟨before ++ g :: after, [], rfl, fun f hf _ => hbelow f hf,
      fun f hf => absurd hf List.not_mem_nil⟩
  · next hgt =>
    refine ⟨before, after ++ [x], by simp, hbefore, fun f hf hid => ?_⟩
    rcases List.mem_append.mp hf with hf | hf
    · exact hafter f hf hid
    · rw [List.mem_singleton.mp hf]
      exact fun hlt => hgt (Std.OrientedCmp.gt_iff_lt.mpr hlt)

theorem exists_deduplicate_of_one (hone : ∀ f ∈ fs, f.id.identity = i) (hread : IsReadable i fs)
    (hne : fs ≠ []) : ∃ g, deduplicate fs = [g] ∧ IsFirstHighest fs g := by
  induction fs using List.reverseRecOn with
  | nil => exact absurd rfl hne
  | append_singleton front x ih =>
    have hconcat : deduplicate (front ++ [x]) = keepHighest (deduplicate front) x := List.foldl_append
    by_cases hfront : front = []
    · subst hfront
      exact ⟨x, rfl, [], [], rfl, by simp, by simp⟩
    · obtain ⟨g, hg, hhighest⟩ := ih (fun f hf => hone f (List.mem_append_left _ hf))
        (fun f hf => hread f (List.mem_append_left _ hf)) hfront
      have hsame : g.id.isSame x.id := by
        have hgone := hone g (List.mem_append_left _ hhighest.mem)
        exact Coordinate.isSame_iff.mpr (hgone.trans (hone x (by simp)).symm)
      refine ⟨_, ?_, hhighest.concat hone hread⟩
      rw [hconcat, hg, keepHighest, if_pos hsame]

theorem isFirstHighest_of_mem (hg : g ∈ deduplicate fs) (hread : IsReadable g.id.identity fs) :
    IsFirstHighest fs g := by
  have hmem : g ∈ deduplicate (ofIdentity g.id.identity fs) := by
    rw [← ofIdentity_deduplicate]
    exact List.mem_filter.mpr ⟨hg, decide_eq_true rfl⟩
  have hone : ∀ f ∈ ofIdentity g.id.identity fs, f.id.identity = g.id.identity :=
    fun f hf => of_decide_eq_true (List.mem_filter.mp hf).2
  have hne : ofIdentity g.id.identity fs ≠ [] := by
    intro hnil
    rw [hnil] at hmem
    cases hmem
  obtain ⟨k, hk, hhighest⟩ := exists_deduplicate_of_one hone
    (fun f hf => hread f (List.mem_of_mem_filter hf)) hne
  rw [hk, List.mem_singleton] at hmem
  subst hmem
  exact hhighest.of_ofIdentity

theorem IsFirstHighest.compare_eq (hg : IsFirstHighest fs g) (hf : IsFirstHighest gs f)
    (hperm : fs.Perm gs) (hid : f.id.identity = g.id.identity) :
    Version.compareTexts f.id.version g.id.version = .eq := by
  have hbelow := hg.not_lt (hperm.mem_iff.mpr hf.mem) hid
  have habove := hf.not_lt (hperm.mem_iff.mp hg.mem) hid.symm
  cases hcompare : Version.compareTexts f.id.version g.id.version with
  | lt => exact absurd hcompare habove
  | eq => rfl
  | gt => exact absurd (Std.OrientedCmp.gt_iff_lt.mp hcompare) hbelow

theorem exists_of_perm (hg : g ∈ deduplicate fs) (hread : IsReadable g.id.identity fs)
    (hperm : fs.Perm gs) : ∃ f ∈ deduplicate gs, f.id.identity = g.id.identity ∧
      Version.compareTexts f.id.version g.id.version = .eq := by
  have hidentity : g.id.identity ∈ identities (deduplicate gs) := by
    rw [identities_deduplicate, mem_addAllNew]
    have hmem := hperm.mem_iff.mp (deduplicate_subset fs hg)
    exact .inr (List.mem_map_of_mem hmem)
  obtain ⟨f, hf, hid⟩ := List.mem_map.mp hidentity
  have hreadf : IsReadable f.id.identity gs := by
    intro k hk hkid
    exact hread k (hperm.mem_iff.mpr hk) (hkid.trans hid)
  have hhighest := isFirstHighest_of_mem hf hreadf
  exact ⟨f, hf, hid, (isFirstHighest_of_mem hg hread).compare_eq hhighest hperm hid⟩

/-- Deduplication takes one feature of each identity from a list, in the order in which the identities
first came, and once is enough. If all versions of an identity can be read, it takes the first of the
highest version; in another order of the list that version is an equal one. -/
theorem deduplicate_keeps_highest (fs : List Feature) :
    deduplicate fs ⊆ fs ∧ (identities (deduplicate fs)).Nodup ∧
      identities (deduplicate fs) = addAllNew [] (identities fs) ∧
      deduplicate (deduplicate fs) = deduplicate fs ∧
      ∀ g ∈ deduplicate fs, IsReadable g.id.identity fs → IsFirstHighest fs g ∧
        ∀ gs, fs.Perm gs → ∃ f ∈ deduplicate gs, f.id.identity = g.id.identity ∧
          Version.compareTexts f.id.version g.id.version = .eq := by
  have honce := nodup_identities_deduplicate fs
  refine ⟨deduplicate_subset fs, honce, identities_deduplicate fs, deduplicate_of_nodup honce,
    fun g hg hread => ⟨isFirstHighest_of_mem hg hread, fun gs => exists_of_perm hg hread⟩⟩

end Features

namespace Sample

def ofVersion (name version : String) : Feature := Feature.ofId { id name with version }

def dated : List Feature :=
  [ofVersion "a" "1.0", ofVersion "b" "x", ofVersion "a" "2.0", ofVersion "a" "2",
    ofVersion "b" "y"]

end Sample

theorem Features.deduplicate_dated :
    Sample.ofVersion "a" "2.0" ∈ deduplicate Sample.dated ∧
      IsReadable (Sample.ofVersion "a" "2.0").id.identity Sample.dated ∧
      IsFirstHighest Sample.dated (Sample.ofVersion "a" "2.0") ∧
      ∃ f ∈ deduplicate Sample.dated.reverse, f.id.version = "2" ∧
        Version.compareTexts f.id.version "2.0" = .eq := by
  have hkept : deduplicate Sample.dated = [Sample.ofVersion "a" "2.0", Sample.ofVersion "b" "y"] :=
    rfl
  have hkept' : deduplicate Sample.dated.reverse =
      [Sample.ofVersion "b" "y", Sample.ofVersion "a" "2"] := rfl
  have hmem : Sample.ofVersion "a" "2.0" ∈ deduplicate Sample.dated := by
    rw [hkept]
    exact List.mem_cons_self ..
  have hread : IsReadable (Sample.ofVersion "a" "2.0").id.identity Sample.dated := by
    unfold IsReadable
    decide
  obtain ⟨-, -, -, -, hhighest⟩ := deduplicate_keeps_highest Sample.dated
  obtain ⟨hfirst, hperm⟩ := hhighest _ hmem hread
  obtain ⟨f, hf, hid, hequal⟩ := hperm _ (List.reverse_perm _).symm
  refine ⟨hmem, hread, hfirst, f, hf, ?_, hequal⟩
  rw [hkept'] at hf
  rcases List.mem_cons.mp hf with rfl | hf
  · exact absurd hid (by decide)
  · rw [List.mem_singleton.mp hf]
    rfl

end FeatureAssembly
