import FeatureAssembly.Prototype.Lineage
import Mathlib.Data.List.Nodup

/-! The walk from a feature along its prototypes, as a relation: which features it comes to, and
which defect of the line ends it, if any. The lineage of a feature is what a walk without defect has
passed through, and its fault is the defect of the walk. -/

namespace FeatureAssembly

/-- A walk that comes to `x` after features with the ids `path` passes through `xs`, which begin with
`x`, and ends with the given defect or without one. -/
inductive Walk (c : Catalogue) :
    List Coordinate → Feature → List Feature → Option BuildError → Prop where
  | assembled {path x} (hx : x.isAssembled = true) : Walk c path x [x] none
  | cycle {path x} (hx : x.isAssembled = false) (seen : x.id ∈ path) :
      Walk c path x [x] (some (.cycle (path ++ [x.id])))
  | root {path x} (hx : x.isAssembled = false) (new : x.id ∉ path) (hp : x.prototype = none) :
      Walk c path x [x] none
  | missing {path x p} (hx : x.isAssembled = false) (new : x.id ∉ path)
      (hp : x.prototype = some p) (hg : c.find? p.id = none) :
      Walk c path x [x] (some (.missingFeature p.id))
  | final {path x p g} (hx : x.isAssembled = false) (new : x.id ∉ path)
      (hp : x.prototype = some p) (hg : c.find? p.id = some g) (closed : g.isFinal = true) :
      Walk c path x [x] (some (.finalPrototype p.id x.id))
  | step {path x p g xs defect} (hx : x.isAssembled = false) (new : x.id ∉ path)
      (hp : x.prototype = some p) (hg : c.find? p.id = some g) (free : g.isFinal = false)
      (rest : Walk c (path ++ [x.id]) g xs defect) : Walk c path x (x :: xs) defect

/-- A coordinate under which a prototype is looked up on the way from a feature. -/
inductive Dereferences (c : Catalogue) : Feature → Coordinate → Prop where
  | own {f p} (hf : f.isAssembled = false) (hp : f.prototype = some p) : Dereferences c f p.id
  | inherited {f p g id} (hf : f.isAssembled = false) (hp : f.prototype = some p)
      (hg : c.find? p.id = some g) (further : Dereferences c g id) : Dereferences c f id

namespace Lineage

def features : Lineage → List Feature
  | .assembled f => [f]
  | .root f => [f]
  | .heir f _ base => f :: base.features

inductive Follows (c : Catalogue) : Feature → Lineage → Prop where
  | assembled {f} (hf : f.isAssembled = true) : Follows c f (.assembled f)
  | root {f} (hf : f.isAssembled = false) (hp : f.prototype = none) : Follows c f (.root f)
  | heir {f p g base} (hf : f.isAssembled = false) (hp : f.prototype = some p)
      (hg : c.find? p.id = some g) (further : Follows c g base) : Follows c f (.heir f p base)

theorem Follows.mem_catalogue {c : Catalogue} {f g : Feature} {l : Lineage} (h : Follows c f l)
    (hg : g ∈ l.features) : g = f ∨ ∃ e ∈ c, e.2 = g := by
  induction h with
  | assembled => exact .inl (List.mem_singleton.mp hg)
  | root => exact .inl (List.mem_singleton.mp hg)
  | heir _ _ hfound _ ih =>
    rcases List.mem_cons.mp hg with rfl | hg
    · exact .inl rfl
    · rcases ih hg with rfl | hcat
      · exact .inr (Catalogue.mem_of_find? hfound)
      · exact .inr hcat

theorem Follows.unique {c : Catalogue} {f : Feature} {l l' : Lineage} (h : Follows c f l)
    (h' : Follows c f l') : l = l' := by
  induction h generalizing l' with
  | assembled => cases h' <;> simp_all
  | root => cases h' <;> simp_all
  | heir hf hp hg _ ih =>
    cases h' with
    | heir _ hp' hg' further =>
      obtain rfl := Option.some.inj (hp.symm.trans hp')
      obtain rfl := Option.some.inj (hg.symm.trans hg')
      rw [ih further]
    | _ => simp_all

theorem Follows.mem_references_iff {c : Catalogue} {f : Feature} {l : Lineage}
    (h : Follows c f l) (id : Coordinate) : id ∈ l.references ↔ Dereferences c f id := by
  induction h with
  | assembled hf =>
    refine ⟨(nomatch ·), fun h => ?_⟩
    cases h <;> simp_all
  | root hf hp =>
    refine ⟨(nomatch ·), fun h => ?_⟩
    cases h <;> simp_all
  | @heir f p g base hf hp hg further ih =>
    rw [references, List.mem_cons, ih]
    constructor
    · rintro (rfl | h)
      · exact .own hf hp
      · exact .inherited hf hp hg h
    · intro h
      cases h with
      | own _ hp' => exact .inl (congrArg Prototype.id (Option.some.inj (hp'.symm.trans hp)))
      | inherited _ hp' hg' h =>
        obtain rfl := Option.some.inj (hp'.symm.trans hp)
        obtain rfl := Option.some.inj (hg'.symm.trans hg)
        exact .inr h

end Lineage

namespace Walk
variable {c : Catalogue} {path : List Coordinate} {x : Feature} {xs ys : List Feature}
  {v w : Option BuildError}

theorem unique (h : Walk c path x xs v) (h' : Walk c path x ys w) : ys = xs ∧ w = v := by
  induction h generalizing ys with
  | step hx new hp hg free _ ih =>
    cases h' with
    | step _ _ hp' hg' _ rest' =>
      obtain rfl := Option.some.inj (hp.symm.trans hp')
      obtain rfl := Option.some.inj (hg.symm.trans hg')
      obtain ⟨rfl, rfl⟩ := ih rest'
      exact ⟨rfl, rfl⟩
    | _ => simp_all
  | _ => cases h' <;> simp_all

theorem eq_singleton_of_mem (h : Walk c path x xs v) (seen : x.id ∈ path) : xs = [x] := by
  cases h with
  | step _ new => exact absurd seen new
  | _ => rfl

theorem length_le (h : Walk c path x xs v) :
    xs.length ≤ (c.unvisited (path ++ [x.id])).length + 2 := by
  induction h with
  | @step path x p g xs v hx new hp hg free rest ih =>
    -- a walk ends where it comes back to; else `g` is one more feature that it has visited
    by_cases seen : g.id ∈ path ++ [x.id]
    · rw [rest.eq_singleton_of_mem seen]
      simp
    · have hlt := Catalogue.length_unvisited_append_lt hg seen
      simp only [List.length_cons]
      omega
  | _ => simp

theorem path_eq_of_cycle {ids : List Coordinate} (h : Walk c path x xs (some (.cycle ids))) :
    ids = path ++ xs.map Feature.id := by
  generalize hv : some (BuildError.cycle ids) = v at h
  induction h with
  | cycle => simpa using hv
  | step _ _ _ _ _ _ ih => simpa using ih hv
  | _ => simp at hv

end Walk

namespace Lineage
variable {c : Catalogue} {path : List Coordinate} {f : Feature}

def Tells (c : Catalogue) (path : List Coordinate) (f : Feature) : Except BuildError Lineage → Prop
  | .ok l => Walk c path f l.features none ∧ Follows c f l
  | .error e => ∃ xs, Walk c path f xs (some e)

theorem Tells.map_heir {p : Prototype} {g : Feature} {o : Except BuildError Lineage}
    (hf : f.isAssembled = false) (new : f.id ∉ path) (hp : f.prototype = some p)
    (hg : c.find? p.id = some g) (free : g.isFinal = false)
    (h : Tells c (path ++ [f.id]) g o) : Tells c path f (o.map (.heir f p)) := by
  cases o with
  | ok l => exact ⟨.step hf new hp hg free h.1, .heir hf hp hg h.2⟩
  | error e =>
    obtain ⟨xs, hxs⟩ := h
    exact ⟨f :: xs, .step hf new hp hg free hxs⟩

theorem climb_root (hp : f.prototype = none) : climb c path f = .ok (.root f) := by
  rw [climb, hp]

theorem climb_missing {p : Prototype} (hp : f.prototype = some p) (hg : c.find? p.id = none) :
    climb c path f = .error (.missingFeature p.id) := by
  rw [climb, hp]
  grind

theorem climb_found {p : Prototype} {g : Feature} (hp : f.prototype = some p)
    (hg : c.find? p.id = some g) :
    climb c path f =
      if g.isFinal then .error (.finalPrototype p.id f.id)
      else if g.isAssembled then .ok (.heir f p (.assembled g))
      else if g.id ∈ path then .error (.cycle (path ++ [g.id]))
      else (climb c (path ++ [g.id]) g).map (.heir f p) := by
  rw [climb, hp]
  grind

theorem climb_tells (hf : f.isAssembled = false) (new : f.id ∉ path) :
    Tells c path f (climb c (path ++ [f.id]) f) := by
  generalize hq : path ++ [f.id] = q
  induction q, f using climb.induct c generalizing path with
  | case1 q f hp =>
    rw [climb_root hp]
    exact ⟨.root hf new hp, .root hf hp⟩
  | case2 q f p hp hg =>
    rw [climb_missing hp hg]
    exact ⟨[f], .missing hf new hp hg⟩
  | case3 q f p hp g hg closed =>
    rw [climb_found hp hg, if_pos closed]
    exact ⟨[f], .final hf new hp hg closed⟩
  | case4 q f p hp g hg free hga =>
    rw [climb_found hp hg, if_neg free, if_pos hga]
    exact ⟨.step hf new hp hg (Bool.eq_false_iff.mpr free) (.assembled hga),
      .heir hf hp hg (.assembled hga)⟩
  | case5 q f p hp g hg free hga seen =>
    rw [climb_found hp hg, if_neg free, if_neg hga, if_pos seen]
    subst hq
    exact ⟨[f, g], .step hf new hp hg (Bool.eq_false_iff.mpr free)
      (.cycle (Bool.eq_false_iff.mpr hga) seen)⟩
  | case6 q f p hp g hg free hga newg ih =>
    rw [climb_found hp hg, if_neg free, if_neg hga, if_neg newg]
    subst hq
    exact .map_heir hf new hp hg (Bool.eq_false_iff.mpr free)
      (ih (Bool.eq_false_iff.mpr hga) newg rfl)

theorem ofFeature_tells (c : Catalogue) (f : Feature) : Tells c [] f (ofFeature c f) := by
  unfold ofFeature
  split
  · next hf => exact ⟨.assembled hf, .assembled hf⟩
  · next hf => exact climb_tells (Bool.eq_false_iff.mpr hf) (List.not_mem_nil)

theorem ofFeature_eq_error_iff {e : BuildError} :
    ofFeature c f = .error e ↔ ∃ xs, Walk c [] f xs (some e) := by
  have h := ofFeature_tells c f
  constructor
  · intro he
    rwa [he] at h
  · rintro ⟨xs, hxs⟩
    cases ho : ofFeature c f with
    | ok l =>
      rw [ho] at h
      cases (hxs.unique h.1).2
    | error e' =>
      rw [ho] at h
      obtain ⟨ys, hys⟩ := h
      rw [Option.some.inj (hxs.unique hys).2]

theorem exists_walk (c : Catalogue) (f : Feature) : ∃ xs defect, Walk c [] f xs defect := by
  have h := ofFeature_tells c f
  cases ho : ofFeature c f with
  | ok l =>
    rw [ho] at h
    exact ⟨_, _, h.1⟩
  | error e =>
    rw [ho] at h
    exact ⟨_, _, h.choose_spec⟩

theorem walk_of_ofFeature {l : Lineage} (h : ofFeature c f = .ok l) :
    Walk c [] f l.features none := by
  have hl := ofFeature_tells c f
  rw [h] at hl
  exact hl.1

theorem follows_of_ofFeature {l : Lineage} (h : ofFeature c f = .ok l) : Follows c f l := by
  have hl := ofFeature_tells c f
  rw [h] at hl
  exact hl.2

theorem exists_ofFeature {xs : List Feature} (h : Walk c [] f xs none) :
    ∃ l, ofFeature c f = .ok l ∧ l.features = xs := by
  cases hl : ofFeature c f with
  | ok l => exact ⟨l, rfl, (h.unique (walk_of_ofFeature hl)).1⟩
  | error e =>
    obtain ⟨ys, hys⟩ := ofFeature_eq_error_iff.mp hl
    cases (h.unique hys).2

theorem ofFeature_eq_ok {xs : List Feature} {l : Lineage} (h : Walk c [] f xs none)
    (hl : Follows c f l) : ofFeature c f = .ok l := by
  obtain ⟨l', hfound, -⟩ := exists_ofFeature h
  rw [hfound, hl.unique (follows_of_ofFeature hfound)]

/-! Only what a feature refers to, directly or through its prototypes, matters in a catalogue. -/

section
variable {c' : Catalogue} {path : List Coordinate} {xs : List Feature} {defect : Option BuildError}

theorem walk_congr (h : Walk c path f xs defect)
    (hc : ∀ id, Dereferences c f id → c'.find? id = c.find? id) : Walk c' path f xs defect := by
  induction h with
  | assembled hx => exact .assembled hx
  | cycle hx seen => exact .cycle hx seen
  | root hx new hp => exact .root hx new hp
  | missing hx new hp hg => exact .missing hx new hp ((hc _ (.own hx hp)).trans hg)
  | final hx new hp hg closed => exact .final hx new hp ((hc _ (.own hx hp)).trans hg) closed
  | step hx new hp hg free _ ih =>
    exact .step hx new hp ((hc _ (.own hx hp)).trans hg) free
      (ih fun id hid => hc id (.inherited hx hp hg hid))

theorem follows_congr {l : Lineage} (h : Follows c f l)
    (hc : ∀ id, Dereferences c f id → c'.find? id = c.find? id) : Follows c' f l := by
  induction h with
  | assembled hf => exact .assembled hf
  | root hf hp => exact .root hf hp
  | heir hf hp hg _ ih =>
    exact .heir hf hp ((hc _ (.own hf hp)).trans hg)
      (ih fun id hid => hc id (.inherited hf hp hg hid))

theorem ofFeature_congr (hc : ∀ id, Dereferences c f id → c'.find? id = c.find? id) :
    ofFeature c' f = ofFeature c f := by
  cases hl : ofFeature c f with
  | ok l =>
    exact ofFeature_eq_ok (walk_congr (walk_of_ofFeature hl) hc)
      (follows_congr (follows_of_ofFeature hl) hc)
  | error e =>
    obtain ⟨xs, hxs⟩ := ofFeature_eq_error_iff.mp hl
    exact ofFeature_eq_error_iff.mpr ⟨xs, walk_congr hxs hc⟩

end
end Lineage
end FeatureAssembly
