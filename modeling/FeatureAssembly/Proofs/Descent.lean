import FeatureAssembly.Assembly.Trail
import FeatureAssembly.Proofs.Outcome
import FeatureAssembly.Proofs.Walk

/-! One recursion that builds each feature after its prototype, against the walk along all prototypes
that builds nothing before its end. Both report the same, for a feature and for an aggregate, where
the features share the trail. -/

namespace FeatureAssembly
open Outcome

namespace Outcome
variable {ε α β γ δ ι : Type}

/-- Two sequences that end with the same fault or both without one; how their values are related
depends on that. -/
structure Matches (whole partially : α → β → Prop) (o : Outcome ε α) (q : Outcome ε β) : Prop where
  fault : o.fault = q.fault
  whole : o.fault = none → whole o.value q.value
  partially : ∀ e, o.fault = some e → partially o.value q.value

variable {whole partially : α → β → Prop} {whole' partially' : γ → δ → Prop}
  {o : Outcome ε α} {q : Outcome ε β}

theorem matches_done {a : α} {b : β} (h : whole a b) :
    Matches whole partially (done a : Outcome ε α) (done b) := ⟨rfl, fun _ => h, nofun⟩

theorem matches_failed {a : α} {b : β} (e : ε) (h : partially a b) :
    Matches whole partially (failed a e) (failed b e) := ⟨rfl, nofun, fun _ _ => h⟩

namespace Matches

theorem of_chain {f left : β → α} (hwhole : ∀ b, whole (f b) b)
    (hleft : ∀ b, partially (left b) b) :
    (q.chain left fun b => done (f b)).Matches whole partially q := by
  obtain ⟨b, _ | e⟩ := q
  · exact matches_done (hwhole b)
  · exact matches_failed e (hleft b)

theorem map_left {f : γ → α} {r : Outcome ε γ}
    (h : r.Matches (fun c b => whole (f c) b) (fun c b => partially (f c) b) q) :
    (r.map f).Matches whole partially q := ⟨h.fault, h.whole, h.partially⟩

theorem refl {whole partially : α → α → Prop} (o : Outcome ε α) (hwhole : ∀ a, whole a a)
    (hpartially : ∀ a, partially a a) : o.Matches whole partially o :=
  ⟨rfl, fun _ => hwhole o.value, fun _ _ => hpartially o.value⟩

theorem mono {further : α → β → Prop} (h : Matches whole partially o q)
    (himp : ∀ a b, whole a b → further a b) : Matches further partially o q :=
  ⟨h.fault, fun hnone => himp _ _ (h.whole hnone), h.partially⟩

theorem chain {f : α → Outcome ε γ} {g : β → Outcome ε δ} {left : α → γ} {left' : β → δ}
    (h : Matches whole partially o q)
    (hnext : ∀ a b, whole a b → Matches whole' partially' (f a) (g b))
    (hleft : ∀ a b, partially a b → partially' (left a) (left' b)) :
    Matches whole' partially' (o.chain left f) (q.chain left' g) := by
  obtain ⟨a, fault⟩ := o
  obtain ⟨b, fault'⟩ := q
  obtain rfl : fault = fault' := h.fault
  cases fault with
  | none => exact hnext a b (h.whole rfl)
  | some e => exact matches_failed e (hleft a b (h.partially e rfl))

theorem andThen {further : α → β → Prop} {f : α → Outcome ε α} {g : β → Outcome ε β}
    (h : Matches whole partially o q)
    (hnext : ∀ a b, whole a b → Matches further partially (f a) (g b)) :
    Matches further partially (o.andThen f) (q.andThen g) := by
  rw [andThen_eq_chain, andThen_eq_chain]
  exact h.chain hnext fun _ _ h => h

theorem each {step : α → ι → Outcome ε α} {step' : β → ι → Outcome ε β}
    (hstep : ∀ a b i, whole a b → Matches whole partially (step a i) (step' b i)) {a : α} {b : β}
    (h : whole a b) (is : List ι) :
    Matches whole partially (Outcome.each step a is) (Outcome.each step' b is) := by
  induction is generalizing a b with
  | nil => exact matches_done h
  | cons i is ih => exact (hstep a b i h).andThen fun _ _ h => ih h

end Matches
end Outcome

theorem Report.ofOutcome_congr {o q : Outcome BuildError Draft}
    (h : o.Matches Eq (fun d d' => d.notes = d'.notes) q) : ofOutcome o = ofOutcome q := by
  obtain ⟨d, fault⟩ := o
  obtain ⟨d', fault'⟩ := q
  obtain rfl : fault = fault' := h.fault
  cases fault with
  | none =>
    obtain rfl : d = d' := h.whole rfl
    rfl
  | some e => exact congrArg (Report.mk (.error e)) (h.partially e rfl)

namespace Trail
variable {ctx : MergeContext} {c : Catalogue} {notes : List String} {t : Trail}
  {f : Feature} {p : Prototype} {path : List Coordinate} {xs : List Feature}

/-! One level of the recursion. -/

theorem build_of_isAssembled (hf : f.isAssembled = true) :
    build ctx c notes t f = done (⟨f, notes⟩, t) := by
  rw [build, if_pos hf]

theorem build_of_enter_error {e : BuildError} (hf : f.isAssembled = false)
    (h : t.enter f.id = .error e) :
    build ctx c notes t f = failed (⟨Feature.ofId f.id, notes⟩, t) e := by
  rw [build, if_neg (Bool.eq_false_iff.mp hf)]
  grind

theorem build_root {entered : Trail} (hf : f.isAssembled = false) (h : t.enter f.id = .ok entered)
    (hp : f.prototype = none) :
    build ctx c notes t f = conclude ctx f (⟨Feature.ofId f.id, notes⟩, entered) := by
  rw [build, if_neg (Bool.eq_false_iff.mp hf)]
  grind

theorem build_heir {entered : Trail} (hf : f.isAssembled = false) (h : t.enter f.id = .ok entered)
    (hp : f.prototype = some p) :
    build ctx c notes t f =
      match provide c f p with
      | .error e => failed (⟨Feature.ofId f.id, notes⟩, entered.refer p.id) e
      | .ok g => ((build ctx c notes (entered.refer p.id) g).andThen (inherit ctx f p)).andThen
          (conclude ctx f) := by
  rw [build, if_neg (Bool.eq_false_iff.mp hf)]
  grind

/-! The whole recursion. -/

def Built (t : Trail) (s : Draft × Trail) (d : Draft) : Prop := s.1 = d ∧ s.2 = t

def SameNotes (s : Draft × Trail) (d : Draft) : Prop := s.1.notes = d.notes

theorem Built.inherit {s : Draft × Trail} {d : Draft} (h : Built t s d) (ctx : MergeContext)
    (f : Feature) (p : Prototype) :
    (inherit ctx f p s).Matches (Built t) SameNotes (Draft.inherit ctx f p d) := by
  obtain ⟨rfl, rfl⟩ := h
  rw [Trail.inherit, map_eq_chain]
  exact .of_chain (fun _ => ⟨rfl, rfl⟩) fun _ => rfl

theorem Built.conclude {s : Draft × Trail} {d : Draft} (h : Built t s d) (ctx : MergeContext)
    (f : Feature) :
    (conclude ctx f s).Matches (Built t.leave) SameNotes (Draft.layer ctx f d) := by
  obtain ⟨rfl, rfl⟩ := h
  exact .of_chain (fun _ => ⟨rfl, rfl⟩) fun _ => rfl

def after (t : Trail) (l : Lineage) : Trail :=
  { t with references := addAllNew t.references l.references }

theorem leave_entered (t : Trail) (id : Coordinate) :
    leave { t with path := t.path ++ [id] } = t := by
  rw [leave, List.dropLast_concat]

theorem leave_after_refer (t : Trail) (f : Feature) (p : Prototype) (l : Lineage) :
    ((refer { t with path := t.path ++ [f.id] } p.id).after l).leave = t.after (.heir f p l) :=
  leave_entered (t.after (.heir f p l)) f.id

theorem build_of_defect {e : BuildError} (h : Walk c path f xs (some e)) (ht : t.path = path)
    (ctx : MergeContext) (notes : List String) :
    ∃ s, build ctx c notes t f = failed s e ∧ s.1.notes = notes := by
  generalize hdefect : some e = defect at h
  induction h generalizing t with
  | assembled | root => cases hdefect
  | cycle hf seen =>
    subst ht
    obtain rfl := Option.some.inj hdefect
    exact ⟨_, build_of_enter_error hf (enter_of_mem seen), rfl⟩
  | missing hf new hp hg =>
    subst ht
    obtain rfl := Option.some.inj hdefect
    rw [build_heir hf (enter_of_not_mem new) hp, provide, hg]
    exact ⟨_, rfl, rfl⟩
  | final hf new hp hg closed =>
    subst ht
    obtain rfl := Option.some.inj hdefect
    rw [build_heir hf (enter_of_not_mem new) hp, provide, hg]
    simp only [closed, if_true]
    exact ⟨_, rfl, rfl⟩
  | @step path f p g xs _ hf new hp hg free _ ih =>
    subst ht
    have hprovide : provide c f p = .ok g := provide_eq_ok_iff.mpr ⟨hg, free⟩
    obtain ⟨s, hs, hnotes⟩ :=
      ih (t := refer { t with path := t.path ++ [f.id] } p.id) rfl hdefect
    refine ⟨s, ?_, hnotes⟩
    rw [build_heir hf (enter_of_not_mem new) hp, hprovide]
    simp only [hs, failed_andThen]

theorem build_matches {l : Lineage} (h : Walk c path f xs none) (hl : Lineage.Follows c f l)
    (ht : t.path = path) (ctx : MergeContext) (notes : List String) :
    (build ctx c notes t f).Matches (Built (t.after l)) SameNotes (l.build ctx notes) := by
  generalize hdefect : none = defect at h
  induction h generalizing t l with
  | cycle | missing | final => cases hdefect
  | assembled hf =>
    cases hl with
    | assembled =>
      rw [build_of_isAssembled hf]
      exact matches_done ⟨rfl, rfl⟩
    | root hf' | heir hf' => exact absurd (hf.symm.trans hf') nofun
  | @root path f hf new hp =>
    subst ht
    cases hl with
    | assembled hf' => exact absurd (hf'.symm.trans hf) nofun
    | heir _ hp' => exact absurd (hp.symm.trans hp') nofun
    | root =>
      have hstart : Built { t with path := t.path ++ [f.id] }
          (⟨Feature.ofId f.id, notes⟩, { t with path := t.path ++ [f.id] })
          ⟨Feature.ofId f.id, notes⟩ := ⟨rfl, rfl⟩
      rw [build_root hf (enter_of_not_mem new) hp]
      have hconclude := hstart.conclude ctx f
      rw [leave_entered] at hconclude
      exact hconclude
  | @step path f p g xs _ hf new hp hg free _ ih =>
    subst ht
    cases hl with
    | assembled hf' => exact absurd (hf'.symm.trans hf) nofun
    | root _ hp' => exact absurd (hp.symm.trans hp') nofun
    | heir _ hp' hg' further =>
      obtain rfl := Option.some.inj (hp.symm.trans hp')
      obtain rfl := Option.some.inj (hg.symm.trans hg')
      rw [build_heir hf (enter_of_not_mem new) hp, provide_eq_ok_iff.mpr ⟨hg, free⟩,
        ← leave_after_refer]
      have hbase := ih further (t := refer { t with path := t.path ++ [f.id] } p.id) rfl hdefect
      have hinherited := hbase.andThen fun _ _ h => h.inherit ctx f p
      exact hinherited.andThen fun _ _ h => h.conclude ctx f

end Trail

theorem assemble_onTrail (ctx : AssemblyContext) (f : Feature) :
    Trail.assemble ctx f = assemble ctx f := by
  cases hf : f.isAssembled with
  | true => rw [assemble, Trail.assemble, if_pos hf, if_pos hf]
  | false =>
    rw [assemble, Trail.assemble, if_neg (Bool.eq_false_iff.mp hf), if_neg (Bool.eq_false_iff.mp hf)]
    cases hl : Lineage.ofFeature ctx.catalogue f with
    | error e =>
      obtain ⟨xs, hxs⟩ := Lineage.ofFeature_eq_error_iff.mp hl
      obtain ⟨s, hs, hnotes⟩ := Trail.build_of_defect (t := .empty) hxs rfl ctx.merge []
      rw [hs]
      exact congrArg (Report.mk (.error e)) hnotes
    | ok l =>
      have hbuild := Trail.build_matches (t := .empty) (Lineage.walk_of_ofFeature hl)
        (Lineage.follows_of_ofFeature hl) rfl ctx.merge []
      have hdraft : ((Trail.build ctx.merge ctx.catalogue [] .empty f).map Prod.fst).Matches Eq
          (fun d d' => d.notes = d'.notes) (l.build ctx.merge []) :=
        .map_left (hbuild.mono fun _ _ h => h.1)
      refine Report.ofOutcome_congr (hdraft.andThen ?_)
      rintro d _ rfl
      exact .refl _ (fun _ => rfl) fun _ => rfl

namespace Trail
variable {t : Trail}

/-! Aggregates. -/

/-- Between two participants nothing is being assembled. -/
structure Convoy.Agrees (s : Convoy) (b : Aggregate.Batch) : Prop where
  assembled : s.assembled = b.assembled
  path : s.trail.path = []
  references : ∀ id, id ∈ s.trail.references ↔ id ∈ b.references
  notes : s.notes = b.notes

theorem Convoy.build_matches {s : Convoy} {b : Aggregate.Batch} (h : s.Agrees b) (ctx : MergeContext)
    (c : Catalogue) (f : Feature) :
    (s.build ctx c f).Matches Agrees (fun s b => s.notes = b.notes) (b.build ctx c f) := by
  unfold build Aggregate.Batch.build
  cases hl : Lineage.ofFeature c f with
  | error e =>
    obtain ⟨xs, hxs⟩ := Lineage.ofFeature_eq_error_iff.mp hl
    obtain ⟨r, hr, hnotes⟩ := Trail.build_of_defect hxs h.path ctx s.notes
    rw [hr]
    exact matches_failed e (hnotes.trans h.notes)
  | ok l =>
    have hbuild := Trail.build_matches (Lineage.walk_of_ofFeature hl)
      (Lineage.follows_of_ofFeature hl) h.path ctx s.notes
    rw [h.notes] at hbuild ⊢
    simp only [map_eq_chain]
    refine hbuild.chain ?_ fun _ _ h => h
    rintro r d ⟨rfl, hr⟩
    refine matches_done ⟨?_, ?_, fun id => ?_, rfl⟩
    · rw [h.assembled]
    · rw [hr]
      exact h.path
    · rw [hr, after, mem_addAllNew, h.references, List.mem_append]

def remaining (t : Trail) (fs : List Feature) : List Feature :=
  fs.filter fun f => f.id ∉ t.references

theorem remaining_cons_of_mem {f : Feature} (h : f.id ∈ t.references) (fs : List Feature) :
    t.remaining (f :: fs) = t.remaining fs := List.filter_cons_of_neg (by simpa using h)

theorem remaining_cons_of_not_mem {f : Feature} (h : f.id ∉ t.references) (fs : List Feature) :
    t.remaining (f :: fs) = f :: t.remaining fs := List.filter_cons_of_pos (by simpa using h)

def Tally.plus (m : Tally) (fs : List Feature) (d : Draft) : Tally :=
  ⟨d, Roster.extend m.contributors (fs.map fun f => .ofId f.id),
    m.isComplete && fs.all Feature.isComplete⟩

theorem Tally.plus_cons (m : Tally) (f : Feature) (fs : List Feature) (d d' : Draft) :
    (m.plus [f] d).plus fs d' = m.plus (f :: fs) d' := by
  simp only [plus, List.all_cons, List.all_nil, Bool.and_true, Bool.and_assoc]
  rfl

theorem Tally.each_add_matches (ctx : MergeContext) (t : Trail) (m : Tally) (fs : List Feature) :
    (each (add ctx t) m fs).Matches (fun r d => r = m.plus (t.remaining fs) d)
      (fun r d => r.draft.notes = d.notes)
      (Aggregate.mergeContributors ctx (t.remaining fs) m.draft) := by
  induction fs generalizing m with
  | nil => exact matches_done (congrArg (Tally.mk _ _) (Bool.and_true _).symm)
  | cons f fs ih =>
    rw [each_cons]
    by_cases hf : f.id ∈ t.references
    · rw [add, if_pos hf, remaining_cons_of_mem hf]
      exact ih m
    · have hadd : (add ctx t m f).Matches (fun r d => r = m.plus [f] d)
          (fun r d => r.draft.notes = d.notes) (m.draft.mergeOrFail ctx .aggregate f) := by
        rw [add, if_neg hf]
        refine .of_chain (fun d => ?_) fun _ => rfl
        exact congrArg (Tally.mk d _) (congrArg (m.isComplete && ·) (Bool.and_true _).symm)
      rw [remaining_cons_of_not_mem hf, Aggregate.mergeContributors, each_cons]
      refine hadd.andThen ?_
      rintro _ d rfl
      exact (ih (m.plus [f] d)).mono fun r d' h => h.trans (m.plus_cons f _ d d')

end Trail

theorem assembleMany_onTrail (ctx : AssemblyContext) (id : Coordinate) (features : List Feature) :
    Trail.assembleMany ctx id features = assembleMany ctx id features := by
  unfold Trail.assembleMany assembleMany Aggregate.outcome
  refine Report.ofOutcome_congr ?_
  have hagrees : Trail.Convoy.Agrees .empty .empty := ⟨rfl, rfl, fun _ => Iff.rfl, rfl⟩
  let participants := Features.deduplicate features
  let c := Aggregate.localFirst participants ctx.catalogue
  have hbuilt := Matches.each (fun _ _ f h => Trail.Convoy.build_matches h ctx.merge c f) hagrees
    participants
  refine hbuilt.chain ?_ ?_
  · intro s b h
    have hremaining : s.trail.remaining s.assembled = b.contributors := by
      rw [h.assembled, Aggregate.Batch.contributors, Trail.remaining]
      simp only [h.references]
    have hmerged := Trail.Tally.each_add_matches ctx.merge s.trail
      ⟨⟨Feature.ofId id, s.notes⟩, [], true⟩ s.assembled
    rw [hremaining] at hmerged
    simp only [← h.notes, andThen_eq_chain]
    refine hmerged.chain ?_ fun _ _ h => h
    rintro _ d rfl
    exact .refl _ (fun _ => rfl) fun _ => rfl
  · exact fun _ _ h => h

end FeatureAssembly
