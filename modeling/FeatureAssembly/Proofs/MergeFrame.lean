import FeatureAssembly.Proofs.CopyOrder

/-! The frame of a merge. What an incoming artifact matches gives way to one block, at the place of the
first of them: first the matched ones that survive, in their order, and then what is derived from the
incoming one. All others stay as they are. -/

namespace FeatureAssembly
open Outcome

namespace Roster
variable {α κ : Type} [Keyed α κ] [DecidableEq κ]

theorem adjust_eq_map {l : List α} (hl : Distinct l) (k : κ) (f : α → α) :
    adjust l k f = l.map fun x => if Keyed.key x = k then f x else x := by
  induction l with
  | nil => rfl
  | cons x l ih =>
    obtain ⟨hx, hrest⟩ := List.nodup_cons.mp hl
    rw [adjust, List.map_cons]
    split
    · next hk =>
      have hothers : ∀ y ∈ l, (if Keyed.key y = k then f y else y) = y := by
        intro y hy
        apply if_neg
        rintro rfl
        exact hx (hk ▸ List.mem_map_of_mem hy)
      rw [List.map_congr_left hothers, List.map_id']
    · rw [ih hrest]

end Roster

section
variable {α : Type} (p : α → Bool) (l : List α)

theorem take_findIdx_filter :
    (l.filter fun a => !p a).take (l.findIdx p) = l.takeWhile fun a => !p a := by
  induction l with
  | nil => rfl
  | cons a l ih =>
    rw [List.findIdx_cons, List.filter_cons, List.takeWhile_cons]
    cases p a with
    | true => rfl
    | false => exact congrArg (a :: ·) ih

theorem drop_findIdx_filter :
    (l.filter fun a => !p a).drop (l.findIdx p) = (l.dropWhile fun a => !p a).filter fun a => !p a := by
  induction l with
  | nil => rfl
  | cons a l ih =>
    rw [List.findIdx_cons, List.dropWhile_cons]
    cases h : p a with
    | true => rfl
    | false =>
      rw [List.filter_cons, h]
      exact ih

end

theorem OverrideRule.mem_of_find? {rules : List OverrideRule} {existing incoming : Coordinate}
    {rule : OverrideRule} (h : find? rules existing incoming = some rule) : rule ∈ rules := by
  unfold find? at h
  split at h
  · next hfound => exact Option.some.inj h ▸ List.mem_of_find?_eq_some hfound
  · exact List.mem_of_find?_eq_some h

theorem OverridePolicy.eq_version_of_select {policy : OverridePolicy}
    {existing incoming : Coordinate} {v : String}
    (h : policy.select existing incoming = .synthesized v) : policy = .version v := by
  unfold select at h
  cases policy with
  | all => cases h
  | latest => cases h
  | highest =>
    dsimp only at h
    split at h <;> cases h
  | version w =>
    dsimp only at h
    split_ifs at h
    exact congrArg version (Selection.synthesized.inj h)

namespace Artifact

structure Extends (a b : Artifact) : Prop where
  id : b.id = a.id
  aliases : b.aliases = a.aliases
  metadata : b.metadata = a.metadata
  origins : a.origins ⊆ b.origins

namespace Extends
variable {a b c : Artifact}

theorem refl (a : Artifact) : a.Extends a := ⟨rfl, rfl, rfl, fun _ h => h⟩

theorem trans (h : a.Extends b) (h' : b.Extends c) : a.Extends c :=
  ⟨h'.id.trans h.id, h'.aliases.trans h.aliases, h'.metadata.trans h.metadata,
    fun _ ho => h'.origins (h.origins ho)⟩

theorem combine_existing (e i : Artifact) : e.Extends (e.combine e i) :=
  ⟨rfl, rfl, rfl, fun _ ho => mem_origins_combine.mpr (.inl ho)⟩

theorem combine_incoming (e i : Artifact) (id : Coordinate) :
    (i.copy id).Extends ((i.copy id).combine e i) :=
  ⟨rfl, rfl, rfl, fun _ ho => mem_origins_combine.mpr (.inr ho)⟩

theorem stamped (a : Artifact) (origin : Coordinate) : a.Extends (a.stamped origin) := by
  refine ⟨id_stamped a origin, aliases_stamped a origin, ?_, ?_⟩
  · unfold Artifact.stamped
    split <;> rfl
  · unfold Artifact.stamped
    split
    · next h =>
      rw [h]
      exact List.nil_subset _
    · exact fun _ ho => ho

theorem absorb (a b : Artifact) : a.Extends (a.absorb b) :=
  ⟨rfl, rfl, rfl, fun _ ho => mem_origins_absorb.mpr (.inl ho)⟩

theorem isSame (h : a.Extends b) (i : Artifact) : b.isSame i = a.isSame i := by
  rw [Artifact.isSame, Artifact.isSame, ids, ids, h.id, h.aliases]

end Extends

def absorbing (b a : Artifact) : Artifact := if a.id = b.id then a.absorb b else a

theorem extends_absorbing (a b : Artifact) : a.Extends (absorbing b a) := by
  unfold absorbing
  split
  · exact Extends.absorb a b
  · exact Extends.refl a

end Artifact

namespace Artifacts

/-! The block of survivors. -/

section
variable {l base kept added : List Artifact} {P : Artifact → Prop}

theorem gather_of_mem (hl : Roster.Distinct l) {a : Artifact} (h : a.id ∈ Roster.keys l) :
    gather l a = l.map (Artifact.absorbing a) := by
  obtain ⟨b, hb⟩ := Option.isSome_iff_exists.mp (Roster.find?_isSome_iff.mpr h)
  rw [gather, hb]
  exact Roster.adjust_eq_map hl a.id fun b => b.absorb a

theorem gather_of_not_mem {a : Artifact} (h : a.id ∉ Roster.keys l) : gather l a = l ++ [a] := by
  rw [gather, Roster.find?_eq_none_iff.mpr h]

theorem keys_gather (hl : Roster.Distinct l) (a : Artifact) :
    Roster.keys (gather l a) = addNew (Roster.keys l) a.id := by
  by_cases h : a.id ∈ Roster.keys l
  · rw [gather_of_mem hl h, Roster.keys_map fun b => (Artifact.extends_absorbing b a).id, addNew,
      if_pos h]
  · rw [gather_of_not_mem h, addNew, if_neg h, Roster.keys_append]
    rfl

theorem keys_foldl_gather (hl : Roster.Distinct l) (as : List Artifact) :
    Roster.keys (as.foldl gather l) = addAllNew (Roster.keys l) (Roster.keys as) := by
  induction as generalizing l with
  | nil => rfl
  | cons a as ih =>
    rw [List.foldl_cons, ih (distinct_gather hl a), keys_gather hl]
    rfl

theorem foldl_gather_eq_append (hP : ∀ a b, P a → a.Extends b → P b)
    (hdistinct : Roster.Distinct (kept ++ added)) (hkept : List.Forall₂ Artifact.Extends base kept)
    (hadded : ∀ a ∈ added, P a) {as : List Artifact} (has : ∀ a ∈ as, P a) :
    ∃ kept' added', as.foldl gather (kept ++ added) = kept' ++ added' ∧
      List.Forall₂ Artifact.Extends base kept' ∧ ∀ a ∈ added', P a := by
  induction as generalizing kept added with
  | nil => exact ⟨kept, added, rfl, hkept, hadded⟩
  | cons a as ih =>
    obtain ⟨ha, has⟩ := List.forall_mem_cons.mp has
    have hnext := distinct_gather hdistinct a
    rw [List.foldl_cons]
    by_cases hmem : a.id ∈ Roster.keys (kept ++ added)
    · have hgather := gather_of_mem hdistinct hmem
      rw [List.map_append] at hgather
      rw [hgather] at hnext ⊢
      refine ih hnext ?_ ?_ has
      · apply List.forall₂_map_right_iff.mpr
        exact hkept.imp fun _ b h => h.trans (Artifact.extends_absorbing b a)
      · intro b hb
        obtain ⟨c, hc, rfl⟩ := List.mem_map.mp hb
        exact hP c _ (hadded c hc) (Artifact.extends_absorbing c a)
    · rw [gather_of_not_mem hmem, List.append_assoc] at hnext ⊢
      refine ih hnext hkept ?_ has
      intro b hb
      rcases List.mem_append.mp hb with hb | hb
      · exact hadded b hb
      · rw [List.mem_singleton.mp hb]
        exact ha

end

def IsVersionFor (rules : List OverrideRule) (incoming id : Coordinate) : Prop :=
  id = incoming ∨
    ∃ rule ∈ rules, ∃ v, rule.policy = .version v ∧ incoming.changeVersion v = .ok id

def IsDerived (rules : List OverrideRule) (incoming a : Artifact) : Prop :=
  ∃ id, IsVersionFor rules incoming.id id ∧ (incoming.copy id).Extends a

def leavings (rules : List OverrideRule) (sameSource : Artifact → Bool) (incoming e : Artifact) :
    Survivors :=
  match meet rules (sameSource e) e incoming with
  | .ok s => s
  | .error _ => ⟨[], []⟩

section
variable {rules : List OverrideRule} {sameSource : Artifact → Bool} {incoming e : Artifact}
  {matched : List Artifact} {s : Survivors}

theorem leavings_eq (h : meet rules (sameSource e) e incoming = .ok s) :
    leavings rules sameSource incoming e = s := by
  rw [leavings, h]

structure IsOutcome (rules : List OverrideRule) (incoming e : Artifact) (s : Survivors) : Prop where
  present : s.present = [] ∨ ∃ a, s.present = [a] ∧ e.Extends a
  incoming : s.incoming = [] ∨ ∃ a, s.incoming = [a] ∧ IsDerived rules incoming a

theorem meet_isOutcome {same : Bool} (h : meet rules same e incoming = .ok s) :
    IsOutcome rules incoming e s := by
  have hitself : IsDerived rules incoming incoming :=
    ⟨incoming.id, .inl rfl, Artifact.Extends.refl incoming⟩
  have hkept : IsOutcome rules incoming e ⟨[e.combine e incoming], []⟩ :=
    ⟨.inr ⟨_, rfl, Artifact.Extends.combine_existing e incoming⟩, .inl rfl⟩
  have hboth : IsOutcome rules incoming e ⟨[e], [incoming]⟩ :=
    ⟨.inr ⟨_, rfl, Artifact.Extends.refl e⟩, .inr ⟨_, rfl, hitself⟩⟩
  unfold meet at h
  split at h
  · rwa [← Except.ok.inj h]
  · split at h
    · rwa [← Except.ok.inj h]
    · unfold settle at h
      split at h
      · cases h
      · next rule hrule =>
        split at h
        · rwa [← Except.ok.inj h]
        · rwa [← Except.ok.inj h]
        · rw [← Except.ok.inj h]
          exact ⟨.inl rfl, .inr ⟨_, rfl, incoming.id, .inl rfl,
            Artifact.Extends.combine_incoming e incoming incoming.id⟩⟩
        · next v hselect =>
          split at h
          · next id hid =>
            have hpolicy := OverridePolicy.eq_version_of_select hselect
            have hversion : IsVersionFor rules incoming.id id :=
              .inr ⟨rule, OverrideRule.mem_of_find? hrule, v, hpolicy, hid⟩
            rw [← Except.ok.inj h]
            exact ⟨.inl rfl, .inr ⟨_, rfl, id, hversion,
              Artifact.Extends.combine_incoming e incoming id⟩⟩
          · cases h

theorem meetAll_eq_leavings (h : meetAll rules sameSource incoming matched = .ok s) :
    s = ⟨matched.flatMap fun e => (leavings rules sameSource incoming e).present,
      matched.flatMap fun e => (leavings rules sameSource incoming e).incoming⟩ := by
  induction matched generalizing s with
  | nil => exact (Except.ok.inj h).symm
  | cons e rest ih =>
    obtain ⟨t, u, ht, hu, rfl⟩ := meetAll_cons h
    rw [List.flatMap_cons, List.flatMap_cons, leavings_eq ht, ih hu]

theorem forall_isOutcome (h : meetAll rules sameSource incoming matched = .ok s) :
    ∀ e ∈ matched, IsOutcome rules incoming e (leavings rules sameSource incoming e) := by
  induction matched generalizing s with
  | nil => exact fun e he => absurd he List.not_mem_nil
  | cons e rest ih =>
    obtain ⟨t, u, ht, hu, rfl⟩ := meetAll_cons h
    have he : IsOutcome rules incoming e (leavings rules sameSource incoming e) := by
      rw [leavings_eq ht]
      exact meet_isOutcome ht
    exact List.forall_mem_cons.mpr ⟨he, ih hu⟩

def lasting (rules : List OverrideRule) (sameSource : Artifact → Bool) (incoming : Artifact)
    (matched : List Artifact) : List Artifact :=
  matched.filter fun e => !(leavings rules sameSource incoming e).present.isEmpty

theorem forall₂_lasting
    (h : ∀ e ∈ matched, IsOutcome rules incoming e (leavings rules sameSource incoming e)) :
    List.Forall₂ Artifact.Extends (lasting rules sameSource incoming matched)
      (matched.flatMap fun e => (leavings rules sameSource incoming e).present) := by
  induction matched with
  | nil => exact .nil
  | cons e rest ih =>
    obtain ⟨he, hrest⟩ := List.forall_mem_cons.mp h
    rw [lasting, List.filter_cons, List.flatMap_cons]
    rcases he.present with hnone | ⟨a, hone, hextends⟩
    · rw [hnone]
      exact ih hrest
    · rw [hone]
      exact .cons hextends (ih hrest)

/-- What takes the place of the matched artifacts: those of them that last, in their order, and then
artifacts derived from the incoming one, under coordinates that are not there yet. -/
structure IsBlock (rules : List OverrideRule) (sameSource : Artifact → Bool) (incoming : Artifact)
    (matched kept derived : List Artifact) : Prop where
  lasts : List.Forall₂ Artifact.Extends (lasting rules sameSource incoming matched) kept
  derives : ∀ a ∈ derived, IsDerived rules incoming a
  keys_eq : Roster.keys (kept ++ derived) = addAllNew (Roster.keys kept)
    (matched.flatMap fun e => Roster.keys (leavings rules sameSource incoming e).incoming)

theorem keys_of_forall₂ {l m : List Artifact} (h : List.Forall₂ Artifact.Extends l m) :
    Roster.keys m = Roster.keys l := by
  induction h with
  | nil => rfl
  | cons hab _ ih =>
    rw [Roster.keys_cons, Roster.keys_cons, ih, Artifact.key_eq, Artifact.key_eq, hab.id]

theorem exists_of_mem_forall₂ {l m : List Artifact} (h : List.Forall₂ Artifact.Extends l m)
    {b : Artifact} (hb : b ∈ m) : ∃ a ∈ l, a.Extends b := by
  induction h with
  | nil => exact absurd hb List.not_mem_nil
  | @cons a c l m hac _ ih =>
    rcases List.mem_cons.mp hb with rfl | hb
    · exact ⟨a, List.mem_cons_self .., hac⟩
    · obtain ⟨d, hd, hdb⟩ := ih hb
      exact ⟨d, List.mem_cons_of_mem _ hd, hdb⟩

theorem IsDerived.extends {a b : Artifact} (h : IsDerived rules incoming a) (hab : a.Extends b) :
    IsDerived rules incoming b := by
  obtain ⟨id, hid, hextends⟩ := h
  exact ⟨id, hid, hextends.trans hab⟩

theorem gatherAll_isBlock (hmatched : Roster.Distinct matched)
    (h : meetAll rules sameSource incoming matched = .ok s) :
    ∃ kept derived, gatherAll (s.present ++ s.incoming) = kept ++ derived ∧
      IsBlock rules sameSource incoming matched kept derived := by
  have houtcomes := forall_isOutcome h
  have hlasting := forall₂_lasting houtcomes
  have hs := meetAll_eq_leavings h
  have hpresent : Roster.Distinct s.present := by
    rw [hs, Roster.Distinct, keys_of_forall₂ hlasting]
    exact hmatched.filter _
  have hderived : ∀ a ∈ s.incoming, IsDerived rules incoming a := by
    rw [hs]
    intro a ha
    obtain ⟨e, he, ha⟩ := List.mem_flatMap.mp ha
    rcases (houtcomes e he).incoming with hnone | ⟨b, hone, hb⟩
    · rw [hnone] at ha
      exact absurd ha List.not_mem_nil
    · rw [hone] at ha
      rwa [List.mem_singleton.mp ha]
  have hgather : gatherAll (s.present ++ s.incoming) = s.incoming.foldl gather (s.present ++ []) := by
    rw [gatherAll_append, gatherAll_of_distinct hpresent, List.append_nil]
  have hkept : List.Forall₂ Artifact.Extends (lasting rules sameSource incoming matched)
      s.present := by rwa [hs]
  obtain ⟨kept, derived, hblock, hkept', hderived'⟩ := foldl_gather_eq_append
    (fun a b ha hab => ha.extends hab) (by rwa [List.append_nil]) hkept
    (fun a ha => absurd ha List.not_mem_nil) hderived
  refine ⟨kept, derived, hgather.trans hblock, hkept', hderived', ?_⟩
  have hkeys : Roster.keys s.present = Roster.keys kept :=
    (keys_of_forall₂ hkept).trans (keys_of_forall₂ hkept').symm
  rw [← hblock, List.append_nil, keys_foldl_gather hpresent, hkeys, hs]
  exact congrArg _ List.map_flatMap

end

/-! One incoming artifact. -/

section
variable {rules : List OverrideRule} {origin : Coordinate} {p q : Progress} {incoming : Artifact}

def Progress.sameSource (p : Progress) (origin : Coordinate) (a : Artifact) : Bool :=
  a.id ∈ p.contributed || origin ∈ a.origins

theorem mergeIncoming_of_unmatched
    (hm : p.artifacts.filter (fun a => a.isSame incoming) = []) :
    mergeIncoming rules origin p incoming =
      .ok ⟨p.artifacts ++ [incoming], incoming.id :: p.contributed⟩ := by
  have hadd : Roster.add p.artifacts incoming = p.artifacts ++ [incoming] :=
    Roster.add_of_not_mem (id_not_mem_of_unmatched hm)
  rw [mergeIncoming, hm, ← hadd]

theorem mergeIncoming_eq_block (hp : Roster.Distinct p.artifacts)
    (hm : p.artifacts.filter (fun a => a.isSame incoming) ≠ [])
    (h : mergeIncoming rules origin p incoming = .ok q) :
    ∃ kept derived, IsBlock rules (p.sameSource origin) incoming
        (p.artifacts.filter fun a => a.isSame incoming) kept derived ∧
      q.artifacts = p.artifacts.takeWhile (fun a => !a.isSame incoming) ++ (kept ++ derived) ++
        (p.artifacts.dropWhile fun a => !a.isSame incoming).filter fun a => !a.isSame incoming := by
  obtain ⟨hnone, -⟩ | ⟨survivors, hsettles, hq⟩ := mergeIncoming_cases h
  · exact absurd hnone hm
  · have hplaced := (hsettles.placed hp (firstMatch p incoming)).eq_append
    obtain ⟨s, hs, rfl⟩ := hsettles.chosen
    obtain ⟨kept, derived, hgather, hblock⟩ := gatherAll_isBlock (hp.filter _) hs
    refine ⟨kept, derived, hblock, ?_⟩
    rw [hq, hplaced, hgather, others, firstMatch, take_findIdx_filter, drop_findIdx_filter]

theorem IsDerived.isSame {rules : List OverrideRule} {a : Artifact}
    (h : IsDerived rules incoming a) : a.isSame incoming = true := by
  obtain ⟨id, hid, hextends⟩ := h
  apply Artifact.isSame_of_identity
  have ha : a.id = id := hextends.id
  rw [ha]
  rcases hid with rfl | ⟨_, -, _, -, hid⟩
  · rfl
  · exact Coordinate.identity_changeVersion hid

theorem IsBlock.isSame {sameSource : Artifact → Bool} {matched kept derived : List Artifact}
    (h : IsBlock rules sameSource incoming matched kept derived)
    (hmatched : ∀ e ∈ matched, e.isSame incoming = true) :
    ∀ a ∈ kept ++ derived, a.isSame incoming = true := by
  intro a ha
  rcases List.mem_append.mp ha with ha | ha
  · obtain ⟨e, he, hextends⟩ := exists_of_mem_forall₂ h.lasts ha
    rw [hextends.isSame]
    exact hmatched e (List.mem_of_mem_filter he)
  · exact (h.derives a ha).isSame

theorem filter_mergeIncoming {u : Artifact → Bool} (hu : ∀ e, u e = true → e.isSame incoming = false)
    (hp : Roster.Distinct p.artifacts) (h : mergeIncoming rules origin p incoming = .ok q) :
    q.artifacts.filter u = p.artifacts.filter u := by
  have hitself : u incoming = false := by
    apply Bool.eq_false_iff.mpr
    intro h
    have hsame : incoming.isSame incoming = true := Artifact.isSame_of_identity rfl
    rw [hu incoming h] at hsame
    cases hsame
  by_cases hm : p.artifacts.filter (fun a => a.isSame incoming) = []
  · rw [mergeIncoming_of_unmatched hm] at h
    obtain rfl := Except.ok.inj h
    rw [List.filter_append, List.filter_singleton, hitself]
    exact List.append_nil _
  · obtain ⟨kept, derived, hblock, hq⟩ := mergeIncoming_eq_block hp hm h
    have hsame := hblock.isSame fun e he => (List.mem_filter.mp he).2
    have hnone : (kept ++ derived).filter u = [] := by
      apply List.filter_eq_nil_iff.mpr
      intro a ha h
      have hfree := hu a h
      rw [hsame a ha] at hfree
      cases hfree
    have hfiltered : ∀ l : List Artifact,
        (l.filter fun a => !a.isSame incoming).filter u = l.filter u := by
      intro l
      rw [List.filter_filter]
      apply List.filter_congr
      intro a _
      cases h : u a with
      | true => rw [hu a h]; rfl
      | false => rfl
    rw [hq, List.filter_append, List.filter_append, hnone, List.append_nil, hfiltered,
      ← List.filter_append, List.takeWhile_append_dropWhile]

end

/-! Whole merges. -/

section
variable {rules : List OverrideRule} {origin : Coordinate} {target : List Artifact}

theorem filter_merge {u : Artifact → Bool} {source : List Artifact}
    (hu : ∀ e, u e = true → ∀ a ∈ source, e.isSame a = false) (ht : Roster.Distinct target) :
    (merge rules origin target source).value.filter u = target.filter u := by
  have kept : ∀ p : Progress, ∀ a ∈ source,
      Roster.Distinct p.artifacts ∧ p.artifacts.filter u = target.filter u →
        Roster.Distinct (mergeOne rules origin p a).value.artifacts ∧
          (mergeOne rules origin p a).value.artifacts.filter u = target.filter u := by
    rintro p a ha ⟨hp, hfilter⟩
    refine ⟨distinct_mergeOne hp a, ?_⟩
    unfold mergeOne
    cases hm : mergeIncoming rules origin p (a.stamped origin) with
    | error e => exact hfilter
    | ok q =>
      have hfree : ∀ e, u e = true → e.isSame (a.stamped origin) = false := by
        intro e he
        rw [Artifact.isSame_stamped]
        exact hu e he a ha
      exact (filter_mergeIncoming hfree hp hm).trans hfilter
  exact (each_keeps kept ⟨ht, rfl⟩).2

structure IsFramed (rules : List OverrideRule) (origin : Coordinate) (target : List Artifact)
    (a : Artifact) (r : List Artifact) : Prop where
  unmatched : (∀ e ∈ target, e.isSame a = false) → r = target ++ [a.stamped origin]
  matched : (∃ e ∈ target, e.isSame a = true) → ∃ kept derived,
    IsBlock rules (fun e => origin ∈ e.origins) (a.stamped origin)
        (target.filter fun e => e.isSame a) kept derived ∧
      r = target.takeWhile (fun e => !e.isSame a) ++ (kept ++ derived) ++
        (target.dropWhile fun e => !e.isSame a).filter fun e => !e.isSame a

theorem merge_singleton_isFramed (ht : Roster.Distinct target) {a : Artifact} {r : List Artifact}
    (h : merge rules origin target [a] = done r) : IsFramed rules origin target a r := by
  obtain ⟨q, hq, rfl⟩ := map_eq_done_iff.mp h
  obtain ⟨m, hm, hrest⟩ := each_mergeOne_cons hq
  obtain rfl : m = q := (eq_done_iff.mp hrest).1
  refine ⟨fun hnone => ?_, fun hsome => ?_⟩
  · have hunmatched : target.filter (fun e => e.isSame (a.stamped origin)) = [] := by
      apply List.filter_eq_nil_iff.mpr
      intro e he
      rw [Artifact.isSame_stamped, hnone e he]
      exact Bool.false_ne_true
    rw [mergeIncoming_of_unmatched (p := ⟨target, []⟩) hunmatched] at hm
    rw [← Except.ok.inj hm]
  · obtain ⟨e, he, hsame⟩ := hsome
    have hmatched : target.filter (fun e => e.isSame (a.stamped origin)) ≠ [] := by
      apply List.ne_nil_of_mem (List.mem_filter.mpr ⟨he, ?_⟩)
      rwa [Artifact.isSame_stamped]
    have hown : Progress.sameSource ⟨target, []⟩ origin = fun e => decide (origin ∈ e.origins) := by
      funext e
      exact Bool.false_or _
    have hblock := mergeIncoming_eq_block (p := ⟨target, []⟩) ht hmatched hm
    simpa only [hown, Artifact.isSame_stamped] using hblock

/-- A single artifact replaces those that it matches by a block where the first of them stood, or else
comes last; and no merge touches an artifact that matches none of its source. -/
theorem merge_keeps_frame (rules : List OverrideRule) (origin : Coordinate) {target : List Artifact}
    (ht : Roster.Distinct target) :
    (∀ a r, merge rules origin target [a] = done r → IsFramed rules origin target a r) ∧
      ∀ source, (merge rules origin target source).value.filter
          (fun e => source.all fun a => !e.isSame a) =
        target.filter fun e => source.all fun a => !e.isSame a := by
  refine ⟨fun a r h => merge_singleton_isFramed ht h, fun source => filter_merge ?_ ht⟩
  intro e he a ha
  have hfree := List.all_eq_true.mp he a ha
  rwa [Bool.not_eq_true'] at hfree

end
end Artifacts

namespace Sample

def scattered : List Artifact :=
  [lib "1" [id "a"], Artifact.ofId (id "guide"), lib "2" [id "b"], Artifact.ofId (id "book")]

end Sample

theorem Artifacts.merge_scattered_keeps_frame : Roster.Distinct Sample.scattered ∧
    ∃ r, merge [.catchAll (.version "2")] (Sample.id "f") Sample.scattered [Sample.lib "3" []] =
        done r ∧
      ids r = ids [Sample.lib "2" [], Artifact.ofId (Sample.id "guide"),
        Artifact.ofId (Sample.id "book")] ∧
      IsFramed [.catchAll (.version "2")] (Sample.id "f") Sample.scattered (Sample.lib "3" []) r ∧
      r.filter (fun e => !e.isSame (Sample.lib "3" [])) =
        [Artifact.ofId (Sample.id "guide"), Artifact.ofId (Sample.id "book")] := by
  have hdistinct : Roster.Distinct Sample.scattered := by
    unfold Roster.Distinct
    decide
  obtain ⟨hsingle, hwhole⟩ :=
    merge_keeps_frame [.catchAll (.version "2")] (Sample.id "f") hdistinct
  obtain ⟨r, hr, hids⟩ : ∃ r, merge [.catchAll (.version "2")] (Sample.id "f") Sample.scattered
      [Sample.lib "3" []] = done r ∧ ids r = ids [Sample.lib "2" [],
        Artifact.ofId (Sample.id "guide"), Artifact.ofId (Sample.id "book")] := ⟨_, rfl, rfl⟩
  have hrest := hwhole [Sample.lib "3" []]
  rw [hr] at hrest
  simp only [List.all_cons, List.all_nil, Bool.and_true] at hrest
  exact ⟨hdistinct, r, hr, hids, hsingle _ _ hr, hrest⟩

end FeatureAssembly
