import FeatureAssembly.Proofs.PolicyOutcome

/-! Which versions of a source get in where the higher one wins. Each present version of an artifact
meets an incoming one for itself, so that it gets in if a single one of them is lower. Once a version
counts as one of the source, further ones of the source stay beside it, however low they are. -/

namespace FeatureAssembly
open Outcome

namespace Artifacts

section
variable {l : List Artifact} {k : String × String × String × Option String}

theorem mem_keys_versions {id : Coordinate} :
    id ∈ Roster.keys (versions l k) ↔ id ∈ Roster.keys l ∧ id.identity = k := by
  constructor
  · intro h
    obtain ⟨a, ha, rfl⟩ := List.mem_map.mp h
    obtain ⟨ha, hk⟩ := identity_of_mem_versions ha
    exact ⟨List.mem_map_of_mem ha, hk⟩
  · rintro ⟨h, hk⟩
    obtain ⟨a, ha, rfl⟩ := List.mem_map.mp h
    exact List.mem_map_of_mem (List.mem_filter.mpr ⟨ha, decide_eq_true hk⟩)

theorem versions_append (l m : List Artifact) (k : String × String × String × Option String) :
    versions (l ++ m) k = versions l k ++ versions m k := List.filter_append ..

theorem filter_isSame (hplain : ∀ a ∈ l, a.aliases = []) {incoming : Artifact}
    (hi : incoming.aliases = []) :
    l.filter (fun a => a.isSame incoming) = versions l incoming.id.identity := by
  apply List.filter_congr
  intro a ha
  apply Bool.eq_iff_iff.mpr
  rw [Artifact.isSame_iff_of_no_aliases (hplain a ha) hi, decide_eq_true_iff]

end

/-! Meetings. -/

def higher (same : Bool) (e i : Artifact) : Survivors :=
  if same = true ∧ e.id ≠ i.id then ⟨[e], [i]⟩
  else if Version.compareTexts e.id.version i.id.version = .lt then ⟨[], [i.combine e i]⟩
  else ⟨[e.combine e i], []⟩

def remaining (same : Bool) (e i : Artifact) : List Coordinate :=
  Roster.keys ((higher same e i).present ++ (higher same e i).incoming)

def Yields (own : Artifact → Bool) (i e : Artifact) : Prop :=
  e.id = i.id ∨ own e = true ∨ Version.compareTexts e.id.version i.id.version = .lt

section
variable {same : Bool} {own : Artifact → Bool} {e i : Artifact} {matched : List Artifact}

theorem meet_highest (same : Bool) (e i : Artifact) :
    meet [.catchAll .highest] same e i = .ok (higher same e i) := by
  have hfind := find?_rule_singleton (isFor_catchAll .highest i.id) e.id
  unfold meet higher
  by_cases hid : e.id = i.id
  · have hself := Version.compareTexts_self i.id.version
    rw [if_pos hid, if_neg fun h => h.2 hid, hid, if_neg hself]
  · cases same with
    | true => rw [if_neg hid, if_pos rfl, if_pos ⟨rfl, hid⟩]
    | false =>
      rw [if_neg hid, if_neg Bool.false_ne_true, if_neg fun h => Bool.false_ne_true h.1]
      by_cases hlt : Version.compareTexts e.id.version i.id.version = .lt
      · rw [settle_incoming hfind (if_pos hlt), if_pos hlt]
      · rw [settle_existing hfind (if_neg hlt), if_neg hlt]

theorem meetAll_highest (own : Artifact → Bool) (i : Artifact) (matched : List Artifact) :
    meetAll [.catchAll .highest] own i matched =
      .ok ⟨matched.flatMap fun e => (higher (own e) e i).present,
        matched.flatMap fun e => (higher (own e) e i).incoming⟩ := by
  induction matched with
  | nil => rfl
  | cons e rest ih =>
    rw [meetAll, meet_highest, ih]
    rfl

theorem eq_of_mem_remaining {id : Coordinate} (h : id ∈ remaining same e i) :
    id = e.id ∨ id = i.id := by
  obtain ⟨a, ha, rfl⟩ := List.mem_map.mp h
  unfold higher at ha
  split_ifs at ha
  · rcases List.mem_cons.mp ha with rfl | ha
    · exact .inl rfl
    · exact .inr (congrArg _ (List.mem_singleton.mp ha))
  · have hone : a = i.combine e i := List.mem_singleton.mp ha
    rw [hone]
    exact .inr rfl
  · have hone : a = e.combine e i := List.mem_singleton.mp ha
    rw [hone]
    exact .inl rfl

theorem incoming_mem_remaining (h : Yields own i e) : i.id ∈ remaining (own e) e i := by
  unfold remaining higher
  split_ifs with hboth hlt
  · simp
  · simp
  · have hid : e.id = i.id := by
      rcases h with h | h | h
      · exact h
      · by_contra hne
        exact hboth ⟨h, hne⟩
      · exact absurd h hlt
    simp [hid]

theorem existing_mem_remaining (h : own e = true) : e.id ∈ remaining (own e) e i := by
  by_cases hid : e.id = i.id
  · rw [hid]
    exact incoming_mem_remaining (.inl hid)
  · rw [remaining, higher, if_pos ⟨h, hid⟩]
    simp

theorem higher_of_not_yields (h : ¬ Yields own i e) :
    higher (own e) e i = ⟨[e.combine e i], []⟩ := by
  unfold Yields at h
  push Not at h
  rw [higher, if_neg fun hboth => h.2.1 hboth.1, if_neg h.2.2]

end

/-! One incoming artifact. -/

structure Progress.IsPlain (p : Progress) : Prop where
  distinct : Roster.Distinct p.artifacts
  aliases : ∀ a ∈ p.artifacts, a.aliases = []

/-- A step of a merge of artifacts without aliases. -/
structure IsStep (rules : List OverrideRule) (origin : Coordinate) (p : Progress) (i : Artifact)
    (q : Progress) : Prop where
  before : p.IsPlain
  after : q.IsPlain
  aliases : i.aliases = []
  step : mergeIncoming rules origin p i = .ok q

section
variable {rules : List OverrideRule} {origin : Coordinate} {p q : Progress} {i : Artifact}
  {k : String × String × String × Option String}

theorem IsStep.of_stamped (hp : p.IsPlain) {a : Artifact} (ha : a.aliases = [])
    (h : mergeIncoming rules origin p (a.stamped origin) = .ok q) :
    IsStep rules origin p (a.stamped origin) q := by
  have hstamped : (a.stamped origin).aliases = [] := by rwa [Artifact.aliases_stamped]
  refine ⟨hp, ⟨distinct_mergeIncoming hp.distinct h, ?_⟩, hstamped, h⟩
  exact hereditary_mergeIncoming Artifact.hereditary_no_aliases hp.aliases hstamped h

theorem identity_ne_of_mem_others {a : Artifact} (h : a ∈ others p i) :
    a.id.identity ≠ i.id.identity := by
  intro hid
  obtain ⟨-, hother⟩ := List.mem_filter.mp h
  rw [Artifact.isSame_of_identity hid] at hother
  cases hother

theorem not_mem_keys_others (p : Progress) (i : Artifact) : i.id ∉ Roster.keys (others p i) := by
  intro h
  obtain ⟨a, ha, hid⟩ := List.mem_map.mp h
  exact identity_ne_of_mem_others ha (congrArg _ hid)

theorem versions_of_subset_others {l : List Artifact} (h : l ⊆ others p i) :
    versions l i.id.identity = [] := by
  apply List.filter_eq_nil_iff.mpr
  intro a ha hid
  exact identity_ne_of_mem_others (h ha) (of_decide_eq_true hid)

theorem IsStep.contributed (h : IsStep rules origin p i q) : q.contributed =
    if i.id ∈ Roster.keys q.artifacts then i.id :: p.contributed else p.contributed := by
  have h := h.step
  unfold mergeIncoming at h
  split at h
  · obtain rfl := Except.ok.inj h
    exact (if_pos (Roster.mem_keys_add.mpr (.inr rfl))).symm
  · dsimp only at h
    split at h
    · cases h
    · next s hs =>
      obtain rfl := Except.ok.inj h
      have hplaced : (gatherAll (s.present ++ s.incoming)).any (fun a => a.id = i.id) = true ↔
          i.id ∈ Roster.keys (placeAt (others p i) (firstMatch p i)
            (gatherAll (s.present ++ s.incoming))) := by
        rw [mem_keys_placeAt, List.any_eq_true, or_iff_right (not_mem_keys_others p i)]
        simp [Roster.keys]
      exact if_congr hplaced rfl rfl

theorem IsStep.versions_of_ne (h : IsStep rules origin p i q) (hk : i.id.identity ≠ k) :
    versions q.artifacts k = versions p.artifacts k := by
  have hplain : ∀ l : List Artifact, (∀ a ∈ l, a.aliases = []) →
      versions l k = l.filter fun a => a.id.identity = k ∧ a.aliases = [] := by
    intro l hl
    apply List.filter_congr
    intro a ha
    rw [decide_eq_decide]
    exact (and_iff_left (hl a ha)).symm
  rw [hplain _ h.after.aliases, hplain _ h.before.aliases]
  refine filter_mergeIncoming (fun e he => ?_) h.before.distinct h.step
  obtain ⟨he, haliases⟩ := of_decide_eq_true he
  apply Bool.eq_false_iff.mpr
  intro hsame
  rw [Artifact.isSame_iff_of_no_aliases haliases h.aliases, he] at hsame
  exact hk hsame.symm

theorem IsStep.versions_of_none (h : IsStep rules origin p i q)
    (hnone : versions p.artifacts i.id.identity = []) : q.artifacts = p.artifacts ++ [i] := by
  have hstep := h.step
  rw [← filter_isSame h.before.aliases h.aliases] at hnone
  rw [mergeIncoming_of_unmatched hnone] at hstep
  rw [← Except.ok.inj hstep]

theorem IsStep.versions_of_some (h : IsStep rules origin p i q)
    (hsome : versions p.artifacts i.id.identity ≠ []) :
    ∃ s, meetAll rules (p.sameSource origin) i (versions p.artifacts i.id.identity) = .ok s ∧
      versions q.artifacts i.id.identity = gatherAll (s.present ++ s.incoming) := by
  have hmatched := filter_isSame h.before.aliases h.aliases
  obtain ⟨hnone, -⟩ | ⟨survivors, hsettles, hq⟩ := mergeIncoming_cases h.step
  · rw [hmatched] at hnone
    exact absurd hnone hsome
  · have hidentity := hsettles.identity fun a ha => by
      rw [hmatched] at ha
      exact (identity_of_mem_versions ha).2
    have hplaced := (hsettles.placed h.before.distinct (firstMatch p i)).eq_append
    obtain ⟨s, hs, rfl⟩ := hsettles.chosen
    rw [hmatched] at hs
    refine ⟨s, hs, ?_⟩
    have htake := versions_of_subset_others (List.take_subset (firstMatch p i) (others p i))
    have hdrop := versions_of_subset_others (List.drop_subset (firstMatch p i) (others p i))
    have hall : versions (gatherAll (s.present ++ s.incoming)) i.id.identity =
        gatherAll (s.present ++ s.incoming) :=
      List.filter_eq_self.mpr fun a ha => decide_eq_true (hidentity a ha)
    rw [hq, hplaced, versions_append, versions_append, htake, hdrop, hall, List.append_nil,
      List.nil_append]

end

/-! Runs. -/

structure IsRun (rules : List OverrideRule) (origin : Coordinate) (p : Progress)
    (source : List Artifact) (q : Progress) : Prop where
  before : p.IsPlain
  aliases : ∀ a ∈ source, a.aliases = []
  run : each (mergeOne rules origin) p source = done q

section
variable {rules : List OverrideRule} {origin : Coordinate} {p q : Progress} {a : Artifact}
  {source front rest : List Artifact}

theorem IsRun.keeps {P : Progress → Prop} (h : IsRun rules origin p source q)
    (step : ∀ p, ∀ a ∈ source, ∀ q, IsStep rules origin p (a.stamped origin) q → P p → P q)
    (hp : P p) : P q := by
  obtain ⟨hplain, haliases, h⟩ := h
  induction source generalizing p with
  | nil =>
    obtain rfl : p = q := (eq_done_iff.mp h).1
    exact hp
  | cons a source ih =>
    obtain ⟨m, hm, hrest⟩ := each_mergeOne_cons h
    obtain ⟨ha, haliases⟩ := List.forall_mem_cons.mp haliases
    obtain ⟨hfirst, hlater⟩ := List.forall_mem_cons.mp fun a ha p => step p a ha
    have hstep := IsStep.of_stamped hplain ha hm
    exact ih (fun p a ha => hlater a ha p) (hfirst p m hstep hp) hstep.after haliases hrest

theorem IsRun.after (h : IsRun rules origin p source q) : q.IsPlain :=
  h.keeps (fun _ _ _ _ hstep _ => hstep.after) h.before

theorem IsRun.cut (h : IsRun rules origin p (front ++ a :: rest) q) :
    ∃ m n, IsRun rules origin p front m ∧ IsStep rules origin m (a.stamped origin) n ∧
      IsRun rules origin n rest q := by
  obtain ⟨hplain, haliases, h⟩ := h
  obtain ⟨hfront, hrest⟩ := List.forall_mem_append.mp haliases
  obtain ⟨ha, hrest⟩ := List.forall_mem_cons.mp hrest
  rw [each_append] at h
  obtain ⟨m, hm, h⟩ := andThen_eq_done_iff.mp h
  obtain ⟨n, hn, h⟩ := each_mergeOne_cons h
  have hrun : IsRun rules origin p front m := ⟨hplain, hfront, hm⟩
  have hstep := IsStep.of_stamped hrun.after ha hn
  exact ⟨m, n, hrun, hstep, hstep.after, hrest, h⟩

end

/-! Steps where the higher version wins. -/

section
variable {origin : Coordinate} {target : List Artifact} {p q : Progress} {e i : Artifact}
  {k : String × String × String × Option String}

theorem IsStep.mem_keys_versions (h : IsStep [.catchAll .highest] origin p i q)
    (hsome : versions p.artifacts i.id.identity ≠ []) {id : Coordinate} :
    id ∈ Roster.keys (versions q.artifacts i.id.identity) ↔
      ∃ e ∈ versions p.artifacts i.id.identity, id ∈ remaining (p.sameSource origin e) e i := by
  obtain ⟨s, hs, hversions⟩ := h.versions_of_some hsome
  rw [meetAll_highest] at hs
  obtain rfl := Except.ok.inj hs
  rw [hversions, mem_keys_gatherAll]
  simp only [remaining, Roster.keys, List.map_append, List.map_flatMap, List.mem_append,
    List.mem_flatMap]
  grind

theorem IsStep.mem_keys_of_yields (h : IsStep [.catchAll .highest] origin p i q)
    (he : e ∈ versions p.artifacts i.id.identity) (hyields : Yields (p.sameSource origin) i e) :
    i.id ∈ Roster.keys q.artifacts := by
  have hin := (h.mem_keys_versions (List.ne_nil_of_mem he)).mpr
    ⟨e, he, incoming_mem_remaining hyields⟩
  exact (Artifacts.mem_keys_versions.mp hin).1

theorem IsStep.mem_keys_of_own (h : IsStep [.catchAll .highest] origin p i q)
    (he : e ∈ p.artifacts) (hown : p.sameSource origin e = true) :
    e.id ∈ Roster.keys q.artifacts := by
  by_cases hk : i.id.identity = e.id.identity
  · have hversion : e ∈ versions p.artifacts i.id.identity :=
      List.mem_filter.mpr ⟨he, decide_eq_true hk.symm⟩
    have hin := (h.mem_keys_versions (List.ne_nil_of_mem hversion)).mpr
      ⟨e, hversion, existing_mem_remaining hown⟩
    exact (Artifacts.mem_keys_versions.mp hin).1
  · have hversion : e ∈ versions q.artifacts e.id.identity := by
      rw [h.versions_of_ne hk]
      exact List.mem_filter.mpr ⟨he, decide_eq_true rfl⟩
    exact List.mem_map_of_mem (identity_of_mem_versions hversion).1

theorem IsStep.mem_keys (h : IsStep [.catchAll .highest] origin p i q) {id : Coordinate}
    (hid : id ∈ Roster.keys q.artifacts) : id ∈ Roster.keys p.artifacts ∨ id = i.id := by
  by_cases hk : i.id.identity = id.identity
  · by_cases hnone : versions p.artifacts i.id.identity = []
    · rw [h.versions_of_none hnone, Roster.keys_append, List.mem_append] at hid
      exact hid.imp_right List.mem_singleton.mp
    · obtain ⟨e, he, hleft⟩ := (h.mem_keys_versions hnone).mp
        (Artifacts.mem_keys_versions.mpr ⟨hid, hk.symm⟩)
      rcases eq_of_mem_remaining hleft with rfl | rfl
      · exact .inl (List.mem_map_of_mem (identity_of_mem_versions he).1)
      · exact .inr rfl
  · have hin := Artifacts.mem_keys_versions.mpr ⟨hid, rfl⟩
    rw [h.versions_of_ne hk] at hin
    exact .inl (Artifacts.mem_keys_versions.mp hin).1

structure IsRefused (origin : Coordinate) (p : Progress) (i : Artifact) : Prop where
  held : versions p.artifacts i.id.identity ≠ []
  unyielding : ∀ e ∈ versions p.artifacts i.id.identity, ¬ Yields (p.sameSource origin) i e

theorem IsStep.versions_of_refused (h : IsStep [.catchAll .highest] origin p i q)
    (hrefused : IsRefused origin p i) :
    versions q.artifacts i.id.identity =
      (versions p.artifacts i.id.identity).map fun e => e.combine e i := by
  obtain ⟨s, hs, hversions⟩ := h.versions_of_some hrefused.held
  rw [meetAll_highest] at hs
  obtain rfl := Except.ok.inj hs
  have hpresent : (versions p.artifacts i.id.identity).flatMap
      (fun e => (higher (p.sameSource origin e) e i).present) =
        (versions p.artifacts i.id.identity).map fun e => e.combine e i := by
    rw [List.map_eq_flatMap]
    apply List.flatMap_congr
    intro e he
    rw [higher_of_not_yields (hrefused.unyielding e he)]
  have hincoming : (versions p.artifacts i.id.identity).flatMap
      (fun e => (higher (p.sameSource origin e) e i).incoming) = [] := by
    apply List.flatMap_eq_nil_iff.mpr
    intro e he
    rw [higher_of_not_yields (hrefused.unyielding e he)]
  rw [hversions]
  dsimp only
  rw [hpresent, hincoming, List.append_nil]
  apply gatherAll_of_distinct
  have hdistinct : Roster.Distinct (versions p.artifacts i.id.identity) := h.before.distinct.filter _
  exact hdistinct.map fun e => Artifact.id_combine e e i

theorem IsStep.keys_of_refused (h : IsStep [.catchAll .highest] origin p i q)
    (hrefused : IsRefused origin p i) :
    Roster.keys (versions q.artifacts i.id.identity) =
      Roster.keys (versions p.artifacts i.id.identity) := by
  rw [h.versions_of_refused hrefused]
  exact Roster.keys_map (f := fun e : Artifact => e.combine e i) (fun _ => rfl) _

theorem IsStep.not_mem_of_refused (h : IsStep [.catchAll .highest] origin p i q)
    (hrefused : IsRefused origin p i) :
    i.id ∉ Roster.keys q.artifacts := by
  intro hin
  have hversion := Artifacts.mem_keys_versions.mpr ⟨hin, rfl⟩
  rw [h.keys_of_refused hrefused] at hversion
  obtain ⟨e, he, hid⟩ := List.mem_map.mp hversion
  exact hrefused.unyielding e he (.inl hid)

theorem Progress.sameSource_iff :
    p.sameSource origin e = true ↔ e.id ∈ p.contributed ∨ origin ∈ e.origins := by
  rw [sameSource, Bool.or_eq_true, decide_eq_true_iff, decide_eq_true_iff]

theorem IsStep.contributed_subset (h : IsStep [.catchAll .highest] origin p i q) :
    p.contributed ⊆ q.contributed := by
  rw [h.contributed]
  split
  · exact List.subset_cons_self ..
  · exact List.Subset.refl _

theorem IsStep.sameSource_mono (h : IsStep [.catchAll .highest] origin p i q)
    (hown : p.sameSource origin e = true) : q.sameSource origin e = true := by
  rw [Progress.sameSource_iff] at hown ⊢
  exact hown.imp_left fun hid => h.contributed_subset hid

theorem IsStep.sameSource_of_ne (h : IsStep [.catchAll .highest] origin p i q) (hid : e.id ≠ i.id) :
    q.sameSource origin e = true ↔ p.sameSource origin e = true := by
  rw [Progress.sameSource_iff, Progress.sameSource_iff, h.contributed]
  split
  · rw [List.mem_cons, or_iff_right hid]
  · rfl

end

/-! What the source has of an identity so far. -/

def HasLower (target : List Artifact) (a : Artifact) : Prop :=
  ∃ e ∈ target, e.id.identity = a.id.identity ∧
    Version.compareTexts e.id.version a.id.version = .lt

def IsAdmitted (target : List Artifact) (a : Artifact) : Prop :=
  a.id ∈ Roster.keys target ∨ HasLower target a

/-- Some version counts as one of the source. -/
def IsOpened (origin : Coordinate) (k : String × String × String × Option String) (p : Progress) :
    Prop :=
  ∃ e ∈ versions p.artifacts k, p.sameSource origin e = true

structure IsUntouched (origin : Coordinate) (target : List Artifact)
    (k : String × String × String × Option String) (p : Progress) : Prop where
  held : versions target k ≠ []
  keys : Roster.keys (versions p.artifacts k) = Roster.keys (versions target k)
  foreign : ∀ e ∈ versions p.artifacts k, ¬ p.sameSource origin e = true

section
variable {origin : Coordinate} {target : List Artifact} {p q : Progress} {e i : Artifact}
  {k : String × String × String × Option String}

theorem IsStep.isOpened_of_mem (h : IsStep [.catchAll .highest] origin p i q)
    (hin : i.id ∈ Roster.keys q.artifacts) : IsOpened origin i.id.identity q := by
  obtain ⟨e, he, hid⟩ := List.mem_map.mp hin
  have hid : e.id = i.id := hid
  have hcontributed : e.id ∈ q.contributed := by
    rw [h.contributed, if_pos hin, hid]
    exact List.mem_cons_self ..
  exact ⟨e, List.mem_filter.mpr ⟨he, decide_eq_true (congrArg _ hid)⟩,
    Progress.sameSource_iff.mpr (.inl hcontributed)⟩

theorem IsOpened.step (hp : IsOpened origin k p) (h : IsStep [.catchAll .highest] origin p i q) :
    IsOpened origin k q := by
  obtain ⟨e, he, hown⟩ := hp
  by_cases hk : i.id.identity = k
  · subst hk
    exact h.isOpened_of_mem (h.mem_keys_of_yields he (.inr (.inl hown)))
  · refine ⟨e, ?_, h.sameSource_mono hown⟩
    rwa [h.versions_of_ne hk]

theorem IsUntouched.ne_nil (hp : IsUntouched origin target k p) :
    versions p.artifacts k ≠ [] := by
  intro hnil
  have hkeys := hp.keys
  rw [hnil] at hkeys
  exact hp.held (List.map_eq_nil_iff.mp hkeys.symm)

theorem exists_of_keys_eq {l m : List Artifact} (h : Roster.keys l = Roster.keys m) {d : Artifact}
    (hd : d ∈ l) : ∃ e ∈ m, e.id = d.id := by
  have hin : d.id ∈ Roster.keys l := List.mem_map_of_mem hd
  rw [h] at hin
  exact List.mem_map.mp hin

theorem IsUntouched.exists_yields_iff (hp : IsUntouched origin target i.id.identity p) :
    (∃ e ∈ versions p.artifacts i.id.identity, Yields (p.sameSource origin) i e) ↔
      IsAdmitted target i := by
  constructor
  · rintro ⟨e, he, hyields⟩
    obtain ⟨d, hd, hid⟩ := exists_of_keys_eq hp.keys he
    obtain ⟨hd, hk⟩ := identity_of_mem_versions hd
    rcases hyields with hsame | hown | hlt
    · left
      rw [← hsame, ← hid]
      exact List.mem_map_of_mem hd
    · exact absurd hown (hp.foreign e he)
    · rw [← hid] at hlt
      exact .inr ⟨d, hd, hk, hlt⟩
  · have hheld : ∀ d ∈ target, d.id.identity = i.id.identity →
        ∃ e ∈ versions p.artifacts i.id.identity, e.id = d.id :=
      fun d hd hk => exists_of_keys_eq hp.keys.symm (List.mem_filter.mpr ⟨hd, decide_eq_true hk⟩)
    rintro (hin | ⟨d, hd, hk, hlt⟩)
    · obtain ⟨d, hd, hid⟩ := List.mem_map.mp hin
      have hid : d.id = i.id := hid
      obtain ⟨e, he, hed⟩ := hheld d hd (congrArg _ hid)
      exact ⟨e, he, .inl (hed.trans hid)⟩
    · obtain ⟨e, he, hed⟩ := hheld d hd hk
      rw [← hed] at hlt
      exact ⟨e, he, .inr (.inr hlt)⟩

theorem IsUntouched.of_ne (hp : IsUntouched origin target k p)
    (h : IsStep [.catchAll .highest] origin p i q) (hk : i.id.identity ≠ k) :
    IsUntouched origin target k q := by
  have hversions := h.versions_of_ne hk
  refine ⟨hp.held, ?_, fun e he => ?_⟩
  · rw [hversions, hp.keys]
  · rw [hversions] at he
    have hid : e.id ≠ i.id := by
      intro hid
      rw [← hid, (identity_of_mem_versions he).2] at hk
      exact hk rfl
    exact fun hown => hp.foreign e he ((h.sameSource_of_ne hid).mp hown)

theorem IsUntouched.refuses (hp : IsUntouched origin target i.id.identity p)
    (hi : ¬ IsAdmitted target i) : IsRefused origin p i :=
  ⟨hp.ne_nil, fun e he hyields => hi (hp.exists_yields_iff.mp ⟨e, he, hyields⟩)⟩

/-- A version that is turned away leaves nothing but its origin and start order. -/
theorem IsUntouched.of_refused (hp : IsUntouched origin target i.id.identity p)
    (h : IsStep [.catchAll .highest] origin p i q) (hi : ¬ IsAdmitted target i)
    (ho : origin ∉ i.origins) : IsUntouched origin target i.id.identity q := by
  have hrefused := hp.refuses hi
  refine ⟨hp.held, (h.keys_of_refused hrefused).trans hp.keys, fun d hd hown => ?_⟩
  rw [h.versions_of_refused hrefused] at hd
  obtain ⟨e, he, rfl⟩ := List.mem_map.mp hd
  have hid : (e.combine e i).id ≠ i.id := fun hid => hrefused.unyielding e he (.inl hid)
  have hown := (h.sameSource_of_ne hid).mp hown
  rw [Progress.sameSource_iff, Artifact.id_combine, Artifact.mem_origins_combine,
    or_iff_left ho] at hown
  exact hp.foreign e he (Progress.sameSource_iff.mpr hown)

theorem IsUntouched.isOpened_of_refused (hp : IsUntouched origin target i.id.identity p)
    (h : IsStep [.catchAll .highest] origin p i q) (hi : ¬ IsAdmitted target i)
    (ho : origin ∈ i.origins) : IsOpened origin i.id.identity q := by
  obtain ⟨e, he⟩ := List.exists_mem_of_ne_nil _ hp.ne_nil
  refine ⟨e.combine e i, ?_, ?_⟩
  · rw [h.versions_of_refused (hp.refuses hi)]
    exact List.mem_map_of_mem he
  · exact Progress.sameSource_iff.mpr (.inr (Artifact.mem_origins_combine.mpr (.inr ho)))

theorem IsUntouched.mem_keys_iff (hp : IsUntouched origin target i.id.identity p)
    (h : IsStep [.catchAll .highest] origin p i q) :
    i.id ∈ Roster.keys q.artifacts ↔ IsAdmitted target i := by
  constructor
  · intro hin
    by_contra hi
    exact h.not_mem_of_refused (hp.refuses hi) hin
  · intro hi
    obtain ⟨e, he, hyields⟩ := hp.exists_yields_iff.mpr hi
    exact h.mem_keys_of_yields he hyields

end

/-! Whole merges. -/

def Opens (origin : Coordinate) (target : List Artifact) (a : Artifact) : Prop :=
  IsAdmitted target a ∨ origin ∈ (a.stamped origin).origins

section
variable {origin : Coordinate} {target source before after : List Artifact} {p q : Progress}
  {a : Artifact} {k : String × String × String × Option String}

theorem isAdmitted_stamped : IsAdmitted target (a.stamped origin) ↔ IsAdmitted target a := by
  rw [IsAdmitted, IsAdmitted, HasLower, HasLower, Artifact.id_stamped]

theorem IsOpened.run (hp : IsOpened origin k p)
    (h : IsRun [.catchAll .highest] origin p source q) : IsOpened origin k q :=
  h.keeps (fun _ _ _ _ hstep hp => hp.step hstep) hp

theorem IsUntouched.opened (hp : IsUntouched origin target k p)
    (h : IsStep [.catchAll .highest] origin p (a.stamped origin) q) (hk : a.id.identity = k)
    (ha : Opens origin target a) : IsOpened origin k q := by
  have hstamped : (a.stamped origin).id.identity = k := by rwa [Artifact.id_stamped]
  subst hstamped
  by_cases hadmitted : IsAdmitted target (a.stamped origin)
  · exact h.isOpened_of_mem ((hp.mem_keys_iff h).mpr hadmitted)
  · rcases ha with ha | ha
    · exact absurd (isAdmitted_stamped.mpr ha) hadmitted
    · exact hp.isOpened_of_refused h hadmitted ha

theorem IsUntouched.step (hp : IsUntouched origin target k p)
    (h : IsStep [.catchAll .highest] origin p (a.stamped origin) q)
    (ha : a.id.identity = k → ¬ Opens origin target a) : IsUntouched origin target k q := by
  by_cases hk : (a.stamped origin).id.identity = k
  · subst hk
    have hno := ha (by rw [Artifact.id_stamped])
    refine hp.of_refused h (fun hadmitted => ?_) fun ho => hno (.inr ho)
    exact hno (.inl (isAdmitted_stamped.mp hadmitted))
  · exact hp.of_ne h hk

theorem IsUntouched.opened_or_step (hp : IsUntouched origin target k p)
    (h : IsStep [.catchAll .highest] origin p (a.stamped origin) q) :
    IsOpened origin k q ∨ IsUntouched origin target k q := by
  by_cases ha : a.id.identity = k ∧ Opens origin target a
  · exact .inl (hp.opened h ha.1 ha.2)
  · exact .inr (hp.step h fun hk hopens => ha ⟨hk, hopens⟩)

theorem IsUntouched.opened_or_run (hp : IsUntouched origin target k p)
    (h : IsRun [.catchAll .highest] origin p source q) :
    IsOpened origin k q ∨ IsUntouched origin target k q := by
  refine h.keeps (P := fun m => IsOpened origin k m ∨ IsUntouched origin target k m)
    (fun m a _ n hstep hm => ?_) (.inr hp)
  rcases hm with hm | hm
  · exact .inl (hm.step hstep)
  · exact hm.opened_or_step hstep

theorem IsUntouched.run (hp : IsUntouched origin target k p)
    (h : IsRun [.catchAll .highest] origin p source q)
    (hno : ∀ a ∈ source, a.id.identity = k → ¬ Opens origin target a) :
    IsUntouched origin target k q :=
  h.keeps (fun _ a ha _ hstep hp => hp.step hstep (hno a ha)) hp

theorem IsUntouched.run_opened (hp : IsUntouched origin target k p)
    (h : IsRun [.catchAll .highest] origin p source q)
    (hsome : ∃ a ∈ source, a.id.identity = k ∧ Opens origin target a) : IsOpened origin k q := by
  obtain ⟨a, ha, hk, hopens⟩ := hsome
  obtain ⟨before, after, rfl⟩ := List.append_of_mem ha
  obtain ⟨m, n, hbefore, hstep, hafter⟩ := h.cut
  have hn : IsOpened origin k n := by
    rcases hp.opened_or_run hbefore with hm | hm
    · exact hm.step hstep
    · exact hm.opened hstep hk hopens
  exact hn.run hafter

theorem IsRun.mem_keys_of_contributed (h : IsRun [.catchAll .highest] origin p source q)
    {id : Coordinate} (hid : id ∈ p.contributed) (hin : id ∈ Roster.keys p.artifacts) :
    id ∈ Roster.keys q.artifacts := by
  refine (h.keeps (P := fun p => id ∈ p.contributed ∧ id ∈ Roster.keys p.artifacts)
    (fun p a _ m hstep hp => ?_) ⟨hid, hin⟩).2
  obtain ⟨e, he, rfl⟩ := List.mem_map.mp hp.2
  have hown : p.sameSource origin e = true := Progress.sameSource_iff.mpr (.inl hp.1)
  exact ⟨hstep.contributed_subset hp.1, hstep.mem_keys_of_own he hown⟩

theorem IsRun.mem_keys (h : IsRun [.catchAll .highest] origin p source q) {id : Coordinate}
    (hid : id ∈ Roster.keys q.artifacts) :
    id ∈ Roster.keys p.artifacts ∨ id ∈ Roster.keys source := by
  refine h.keeps (P := fun m => id ∈ Roster.keys m.artifacts →
    id ∈ Roster.keys p.artifacts ∨ id ∈ Roster.keys source) (fun m a ha n hstep hm hn => ?_) .inl hid
  rcases hstep.mem_keys hn with hin | rfl
  · exact hm hin
  · rw [Artifact.id_stamped]
    exact .inr (List.mem_map_of_mem ha)

theorem IsStep.mem_keys_run_iff (h : IsStep [.catchAll .highest] origin p (a.stamped origin) q)
    {r : Progress} (hr : IsRun [.catchAll .highest] origin q after r)
    (hnew : a.id ∉ Roster.keys after) :
    a.id ∈ Roster.keys r.artifacts ↔ a.id ∈ Roster.keys q.artifacts := by
  constructor
  · intro hin
    exact (hr.mem_keys hin).resolve_right hnew
  · intro hin
    have hcontributed : a.id ∈ q.contributed := by
      rw [h.contributed, Artifact.id_stamped, if_pos hin]
      exact List.mem_cons_self ..
    exact hr.mem_keys_of_contributed hcontributed hin

/-- Lists of artifacts without aliases, and none from the origin in the target. -/
structure IsForeign (origin : Coordinate) (target source : List Artifact) : Prop where
  distinct_target : Roster.Distinct target
  distinct_source : Roster.Distinct source
  aliases : ∀ a ∈ target ++ source, a.aliases = []
  origins : ∀ e ∈ target, origin ∉ e.origins

theorem IsForeign.isUntouched (h : IsForeign origin target source) (hk : k ∈ identities target) :
    IsUntouched origin target k ⟨target, []⟩ := by
  obtain ⟨d, hd, hdk⟩ := List.mem_map.mp hk
  refine ⟨List.ne_nil_of_mem (List.mem_filter.mpr ⟨hd, decide_eq_true hdk⟩), rfl, fun e he hown => ?_⟩
  rcases Progress.sameSource_iff.mp hown with hid | ho
  · exact absurd hid List.not_mem_nil
  · exact h.origins e (identity_of_mem_versions he).1 ho

theorem IsForeign.mem_keys_iff (h : IsForeign origin target (before ++ a :: after))
    (hnew : a.id ∉ Roster.keys target) (hheld : a.id.identity ∈ identities target)
    (hq : IsRun [.catchAll .highest] origin ⟨target, []⟩ (before ++ a :: after) q) :
    a.id ∈ Roster.keys q.artifacts ↔ HasLower target a ∨
      ∃ b ∈ before, b.id.identity = a.id.identity ∧ Opens origin target b := by
  have hlater : a.id ∉ Roster.keys after := by
    have hdistinct := h.distinct_source
    rw [Roster.Distinct, Roster.keys_append, Roster.keys_cons] at hdistinct
    exact (List.nodup_cons.mp (List.nodup_append.mp hdistinct).2.1).1
  obtain ⟨p, m, hbefore, hstep, hafter⟩ := hq.cut
  have huntouched := h.isUntouched hheld
  rw [hstep.mem_keys_run_iff hafter hlater]
  by_cases hopens : ∃ b ∈ before, b.id.identity = a.id.identity ∧ Opens origin target b
  · obtain ⟨e, he, hown⟩ := huntouched.run_opened hbefore hopens
    rw [← Artifact.id_stamped a origin] at he
    have hin := hstep.mem_keys_of_yields he (.inr (.inl hown))
    rw [Artifact.id_stamped] at hin
    exact iff_of_true hin (.inr hopens)
  · have hno : ∀ b ∈ before, b.id.identity = a.id.identity → ¬ Opens origin target b :=
      fun b hb hk ho => hopens ⟨b, hb, hk, ho⟩
    have hstill := huntouched.run hbefore hno
    rw [← Artifact.id_stamped a origin] at hstill
    have hin := hstill.mem_keys_iff hstep
    rw [Artifact.id_stamped, isAdmitted_stamped, IsAdmitted, or_iff_right hnew] at hin
    rw [hin, or_iff_left hopens]

end
end Artifacts

namespace Sample

def held : List Artifact := [lib "2" [], lib "4" [id "b"]]

end Sample

namespace Sample

def newest : List Artifact := [lib "3" []]

def outdated : List Artifact := [lib "1" [], lib "2" []]

theorem outdated_isForeign : Artifacts.IsForeign (id "f") newest outdated where
  distinct_target := List.nodup_singleton _
  distinct_source := by unfold Roster.Distinct; decide
  aliases := by decide
  origins := by decide

/-- The first version is turned away, and leaves its origin with the held one, so that the next one
stays beside it. -/
theorem merge_outdated : ∃ r, Artifacts.merge [.catchAll .highest] (id "f") newest outdated = done r ∧
    Artifacts.ids r = [edition "3", edition "2"] := ⟨_, rfl, rfl⟩

end Sample

theorem Artifacts.merge_highest_lets_next_in :
    ¬ ∀ (origin : Coordinate) (target source r : List Artifact), IsForeign origin target source →
      merge [.catchAll .highest] origin target source = done r →
        ∀ a ∈ source, a.id ∉ Roster.keys target →
          (∀ e ∈ target, e.id.identity = a.id.identity →
            Version.compareTexts a.id.version e.id.version = .lt) → a.id ∉ Roster.keys r := by
  intro h
  obtain ⟨r, hr, hids⟩ := Sample.merge_outdated
  have hout := h (Sample.id "f") Sample.newest Sample.outdated r Sample.outdated_isForeign hr
    (Sample.lib "2" []) (List.mem_cons_of_mem _ (List.mem_singleton_self _)) (by decide) (by decide)
  have hkeys : Roster.keys r = [Sample.edition "3", Sample.edition "2"] := hids
  rw [hkeys] at hout
  exact hout (by decide)

end FeatureAssembly
