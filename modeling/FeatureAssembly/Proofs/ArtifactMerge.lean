import FeatureAssembly.Proofs.CopyIntoEmpty
import FeatureAssembly.Proofs.StructuralErrors

/-! What a merge of artifacts keeps, whichever rules settle its clashes. Each meeting passes the
origins of both sides on to its survivors, and the survivors of all meetings of one incoming artifact
find their coordinates free when they are put back, so that neither a contributor nor an artifact is
lost on the way. -/

namespace FeatureAssembly
open Outcome

theorem Coordinate.identity_changeVersion {a b : Coordinate} {version : String}
    (h : a.changeVersion version = .ok b) : b.identity = a.identity := by
  unfold changeVersion at h
  cases hv : required .version version with
  | error e => rw [hv] at h; cases h
  | ok v =>
    rw [hv] at h
    obtain rfl := Except.ok.inj h
    rfl

namespace Artifact

@[simp] theorem id_combine (chosen existing incoming : Artifact) :
    (chosen.combine existing incoming).id = chosen.id := rfl

@[simp] theorem id_absorb (a b : Artifact) : (a.absorb b).id = a.id := rfl

@[simp] theorem mem_origins_combine {chosen existing incoming : Artifact} {o : Coordinate} :
    o ∈ (chosen.combine existing incoming).origins ↔ o ∈ existing.origins ∨ o ∈ incoming.origins := by
  simp [combine]

@[simp] theorem mem_origins_absorb {a b : Artifact} {o : Coordinate} :
    o ∈ (a.absorb b).origins ↔ o ∈ a.origins ∨ o ∈ b.origins := by
  simp [absorb]

@[simp] theorem aliases_stamped (a : Artifact) (origin : Coordinate) :
    (a.stamped origin).aliases = a.aliases := by
  unfold stamped
  split <;> rfl

theorem isSame_of_identity {a b : Artifact} (h : a.id.identity = b.id.identity) :
    a.isSame b = true := by
  have hsame : a.id.isSame b.id = true := Coordinate.isSame_iff.mpr h
  simp [isSame, ids, hsame]

theorem isSame_iff_of_no_aliases {a b : Artifact} (ha : a.aliases = []) (hb : b.aliases = []) :
    a.isSame b = true ↔ a.id.identity = b.id.identity := by
  simp [isSame, ids, ha, hb, Coordinate.isSame_iff]

structure Hereditary (Q : Artifact → Prop) : Prop where
  existing : ∀ {e i : Artifact}, Q e → Q i → Q (e.combine e i)
  incoming : ∀ {e i : Artifact} (id : Coordinate), Q e → Q i → Q ((i.copy id).combine e i)
  absorb : ∀ {a b : Artifact}, Q a → Q b → Q (a.absorb b)

theorem hereditary_no_aliases : Hereditary fun a => a.aliases = [] :=
  ⟨fun h _ => h, fun _ _ h => h, fun h _ => h⟩

end Artifact

namespace Artifacts

def origins (l : List Artifact) : List Coordinate := l.flatMap Artifact.origins

def identities (l : List Artifact) : List (String × String × String × Option String) :=
  l.map fun a => a.id.identity

theorem mem_origins {l : List Artifact} {o : Coordinate} :
    o ∈ origins l ↔ ∃ a ∈ l, o ∈ a.origins := List.mem_flatMap

@[simp] theorem mem_origins_append {l m : List Artifact} {o : Coordinate} :
    o ∈ origins (l ++ m) ↔ o ∈ origins l ∨ o ∈ origins m := by
  simp [origins]

@[simp] theorem mem_origins_cons {a : Artifact} {l : List Artifact} {o : Coordinate} :
    o ∈ origins (a :: l) ↔ o ∈ a.origins ∨ o ∈ origins l := by
  simp [origins]

@[simp] theorem not_mem_origins_nil (o : Coordinate) : o ∉ origins [] := List.not_mem_nil

/-! Meetings. -/

/-- What the meetings of an incoming artifact with the matched ones lead to: survivors under the
coordinates of matched artifacts or under the identity of the incoming one, which pass on the origins
of all that met. -/
structure IsMeeting (matched : List Artifact) (incoming : Artifact) (s : Survivors) : Prop where
  id_present : ∀ a ∈ s.present, a.id ∈ Roster.keys matched
  identity_incoming : ∀ a ∈ s.incoming, a.id.identity = incoming.id.identity
  mem_origins : ∀ o, o ∈ origins (s.present ++ s.incoming) ↔
    o ∈ origins matched ∨ (matched ≠ [] ∧ o ∈ incoming.origins)
  nonempty : matched ≠ [] → s.present ++ s.incoming ≠ []

theorem isMeeting_both (e i : Artifact) : IsMeeting [e] i ⟨[e], [i]⟩ :=
  ⟨by simp, by simp, by simp, by simp⟩

theorem isMeeting_existing (e i : Artifact) : IsMeeting [e] i ⟨[e.combine e i], []⟩ :=
  ⟨by simp, by simp, by simp, by simp⟩

theorem isMeeting_incoming (e i : Artifact) {id : Coordinate} (h : id.identity = i.id.identity) :
    IsMeeting [e] i ⟨[], [(i.copy id).combine e i]⟩ :=
  ⟨by simp, by simpa [Artifact.copy] using h, by simp, by simp⟩

theorem meet_cases {rules : List OverrideRule} {sameSource : Bool} {e i : Artifact} {s : Survivors}
    (h : meet rules sameSource e i = .ok s) :
    s = ⟨[e], [i]⟩ ∨ s = ⟨[e.combine e i], []⟩ ∨
      ∃ id : Coordinate, id.identity = i.id.identity ∧ s = ⟨[], [(i.copy id).combine e i]⟩ := by
  unfold meet at h
  split at h
  · exact .inr (.inl (Except.ok.inj h).symm)
  · split at h
    · exact .inl (Except.ok.inj h).symm
    · unfold settle at h
      split at h
      · cases h
      · split at h
        · exact .inl (Except.ok.inj h).symm
        · exact .inr (.inl (Except.ok.inj h).symm)
        · exact .inr (.inr ⟨i.id, rfl, (Except.ok.inj h).symm⟩)
        · split at h
          · next id hid =>
            exact .inr (.inr ⟨id, Coordinate.identity_changeVersion hid, (Except.ok.inj h).symm⟩)
          · cases h

theorem meet_isMeeting {rules : List OverrideRule} {sameSource : Bool} {e i : Artifact}
    {s : Survivors} (h : meet rules sameSource e i = .ok s) : IsMeeting [e] i s := by
  obtain rfl | rfl | ⟨id, hid, rfl⟩ := meet_cases h
  · exact isMeeting_both e i
  · exact isMeeting_existing e i
  · exact isMeeting_incoming e i hid

theorem meetAll_cons {rules : List OverrideRule} {sameSource : Artifact → Bool} {i e : Artifact}
    {rest : List Artifact} {u : Survivors} (h : meetAll rules sameSource i (e :: rest) = .ok u) :
    ∃ s t, meet rules (sameSource e) e i = .ok s ∧ meetAll rules sameSource i rest = .ok t ∧
      u = ⟨s.present ++ t.present, s.incoming ++ t.incoming⟩ := by
  rw [meetAll] at h
  split at h
  · cases h
  · next s hs =>
    split at h
    · cases h
    · next t ht => exact ⟨s, t, hs, ht, (Except.ok.inj h).symm⟩

theorem meetAll_isMeeting {rules : List OverrideRule} {sameSource : Artifact → Bool}
    {i : Artifact} {matched : List Artifact} {s : Survivors}
    (h : meetAll rules sameSource i matched = .ok s) : IsMeeting matched i s := by
  induction matched generalizing s with
  | nil =>
    obtain rfl := Except.ok.inj h
    exact ⟨by simp, by simp, by simp, by simp⟩
  | cons e rest ih =>
    obtain ⟨s, t, hs, ht, rfl⟩ := meetAll_cons h
    have hhead : IsMeeting [e] i s := meet_isMeeting hs
    have htail : IsMeeting rest i t := ih ht
    have horigins : ∀ o, o ∈ origins (s.present ++ s.incoming) ↔
        o ∈ e.origins ∨ o ∈ i.origins := by
      simpa using hhead.mem_origins
    refine ⟨fun a ha => ?_, fun a ha => ?_, fun o => ?_, fun _ hnil => ?_⟩
    · rcases List.mem_append.mp ha with ha | ha
      · exact List.mem_cons.mpr (.inl (by simpa using hhead.id_present a ha))
      · exact List.mem_cons_of_mem _ (htail.id_present a ha)
    · exact (List.mem_append.mp ha).elim (hhead.identity_incoming a) (htail.identity_incoming a)
    · have hs := horigins o
      have ht := htail.mem_origins o
      simp only [mem_origins_append, mem_origins_cons] at hs ht ⊢
      grind
    · refine hhead.nonempty (List.cons_ne_nil _ _) ?_
      simp only [List.append_eq_nil_iff] at hnil ⊢
      exact ⟨hnil.1.1, hnil.2.1⟩

theorem meetAll_hereditary {Q : Artifact → Prop} (hQ : Artifact.Hereditary Q)
    {rules : List OverrideRule} {sameSource : Artifact → Bool} {i : Artifact}
    {matched : List Artifact} {s : Survivors} (h : meetAll rules sameSource i matched = .ok s)
    (hi : Q i) (hmatched : ∀ e ∈ matched, Q e) : ∀ a ∈ s.present ++ s.incoming, Q a := by
  induction matched generalizing s with
  | nil =>
    obtain rfl := Except.ok.inj h
    simp
  | cons e rest ih =>
    obtain ⟨s, t, hs, ht, rfl⟩ := meetAll_cons h
    have he : Q e := hmatched e (List.mem_cons_self ..)
    have hhead : ∀ a ∈ s.present ++ s.incoming, Q a := by
      obtain rfl | rfl | ⟨id, -, rfl⟩ := meet_cases hs
      · simpa using ⟨he, hi⟩
      · simpa using hQ.existing he hi
      · simpa using hQ.incoming id he hi
    have htail := ih ht fun b hb => hmatched b (List.mem_cons_of_mem _ hb)
    simp only [List.mem_append] at hhead htail ⊢
    grind

/-! Gathering. -/

theorem mem_origins_adjust_absorb {l : List Artifact} {a b : Artifact}
    (h : Roster.find? l a.id = some b) {o : Coordinate} :
    o ∈ origins (Roster.adjust l a.id fun b => b.absorb a) ↔ o ∈ origins l ∨ o ∈ a.origins := by
  induction l with
  | nil => cases h
  | cons c l ih =>
    rw [Roster.find?] at h
    rw [Roster.adjust]
    split_ifs at h ⊢
    · simp only [mem_origins_cons, Artifact.mem_origins_absorb]
      exact or_right_comm
    · rw [mem_origins_cons, mem_origins_cons, ih h, or_assoc]

theorem mem_origins_gather {l : List Artifact} {a : Artifact} {o : Coordinate} :
    o ∈ origins (gather l a) ↔ o ∈ origins l ∨ o ∈ a.origins := by
  unfold gather
  split
  · next h => exact mem_origins_adjust_absorb h
  · simp

@[simp] theorem mem_origins_gatherAll {l : List Artifact} {o : Coordinate} :
    o ∈ origins (gatherAll l) ↔ o ∈ origins l := by
  have gathered : ∀ acc, o ∈ origins (l.foldl gather acc) ↔ o ∈ origins acc ∨ o ∈ origins l := by
    induction l with
    | nil => simp
    | cons a l ih => intro acc; rw [List.foldl_cons, ih, mem_origins_gather, mem_origins_cons, or_assoc]
  simpa [gatherAll] using gathered []

theorem distinct_gather {l : List Artifact} (hl : Roster.Distinct l) (a : Artifact) :
    Roster.Distinct (gather l a) := by
  unfold gather
  split
  · exact hl.adjust a.id fun _ => rfl
  · next h => exact hl.append (Roster.find?_eq_none_iff.mp h)

theorem distinct_gatherAll (l : List Artifact) : Roster.Distinct (gatherAll l) := by
  have gathered : ∀ acc, Roster.Distinct acc → Roster.Distinct (l.foldl gather acc) := by
    induction l with
    | nil => exact fun _ h => h
    | cons a l ih => exact fun acc h => ih _ (distinct_gather h a)
  exact gathered [] Roster.distinct_nil

theorem gather_hereditary {Q : Artifact → Prop} (hQ : Artifact.Hereditary Q) {l : List Artifact}
    {a : Artifact} (hl : ∀ b ∈ l, Q b) (ha : Q a) : ∀ b ∈ gather l a, Q b := by
  unfold gather
  split
  · intro b hb
    rcases Roster.mem_adjust hb with hb | ⟨c, hc, rfl⟩
    · exact hl b hb
    · exact hQ.absorb (hl c hc) ha
  · simpa [or_imp, forall_and] using ⟨hl, ha⟩

theorem gatherAll_hereditary {Q : Artifact → Prop} (hQ : Artifact.Hereditary Q) {l : List Artifact}
    (hl : ∀ b ∈ l, Q b) : ∀ b ∈ gatherAll l, Q b := by
  have gathered : ∀ acc, (∀ b ∈ acc, Q b) → ∀ b ∈ l.foldl gather acc, Q b := by
    induction l with
    | nil => exact fun _ h => h
    | cons a l ih =>
      obtain ⟨ha, hl⟩ := List.forall_mem_cons.mp hl
      exact fun acc h => ih hl _ (gather_hereditary hQ h ha)
  exact gathered [] (by simp)

/-! Putting back. -/

inductive Placed : List Artifact → Nat → List Artifact → List Artifact → Prop where
  | nil {l i} : Placed l i [] l
  | cons {l i a l' as m} (accepted : Roster.insertAt? l i a = some l')
      (rest : Placed l' (i + 1) as m) : Placed l i (a :: as) m

theorem placed_placeAt {l as : List Artifact} (i : Nat) (has : Roster.Distinct as)
    (hnew : ∀ a ∈ as, a.id ∉ Roster.keys l) : Placed l i as (placeAt l i as) := by
  induction as generalizing l i with
  | nil => exact .nil
  | cons a as ih =>
    obtain ⟨ha, hrest⟩ := List.forall_mem_cons.mp hnew
    obtain ⟨hfirst, hdistinct⟩ := List.nodup_cons.mp has
    have haccepted : Roster.insertAt? l i a = some (l.take i ++ a :: l.drop i) :=
      Roster.insertAt?_of_not_mem ha i
    rw [placeAt, haccepted]
    refine .cons haccepted (ih (i + 1) hdistinct fun b hb hmem => ?_)
    rcases List.mem_cons.mp ((Roster.keys_take_drop l i a).mem_iff.mp hmem) with hab | hold
    · exact hfirst (hab ▸ List.mem_map_of_mem hb)
    · exact hrest b hb hold

theorem take_drop_insert {α : Type} (l : List α) (i : Nat) (x : α) :
    (l.take i ++ x :: l.drop i).take (i + 1) = l.take i ++ [x] ∧
      (l.take i ++ x :: l.drop i).drop (i + 1) = l.drop i := by
  induction l generalizing i with
  | nil => simp
  | cons y l ih =>
    cases i with
    | zero => simp
    | succ i => simpa using ih i

theorem mem_of_mem_placeAt {l as : List Artifact} {i : Nat} {a : Artifact}
    (h : a ∈ placeAt l i as) : a ∈ l ∨ a ∈ as := by
  induction as generalizing l i with
  | nil => exact .inl h
  | cons b as ih =>
    by_cases hb : b.id ∈ Roster.keys l
    · have hrefused : Roster.insertAt? l i b = none := Roster.insertAt?_of_mem hb i
      rw [placeAt, hrefused] at h
      exact (ih h).imp_right (List.mem_cons_of_mem _)
    · have haccepted := Roster.insertAt?_of_not_mem (x := b) hb i
      rw [placeAt, haccepted] at h
      rcases ih h with h | h
      · rcases List.mem_cons.mp ((Roster.perm_take_drop l i b).mem_iff.mp h) with rfl | h
        · exact .inr (List.mem_cons_self ..)
        · exact .inl h
      · exact .inr (List.mem_cons_of_mem _ h)

theorem Placed.eq_append {l as m : List Artifact} {i : Nat} (h : Placed l i as m) :
    m = l.take i ++ as ++ l.drop i := by
  induction h with
  | nil => simp
  | @cons l i a l' as m accepted rest ih =>
    have hl' : l' = l.take i ++ a :: l.drop i := by
      unfold Roster.insertAt? at accepted
      split at accepted
      · cases accepted
      · exact (Option.some.inj accepted).symm
    obtain ⟨htake, hdrop⟩ := take_drop_insert l i a
    rw [ih, hl', htake, hdrop, List.append_assoc, List.append_assoc, List.append_assoc]
    rfl

theorem Placed.mem_iff {l as m : List Artifact} {i : Nat} (h : Placed l i as m) {a : Artifact} :
    a ∈ m ↔ a ∈ l ∨ a ∈ as := by
  have hl : a ∈ l ↔ a ∈ l.take i ∨ a ∈ l.drop i := by
    rw [← List.mem_append, List.take_append_drop]
  rw [h.eq_append, hl, List.mem_append, List.mem_append]
  exact or_right_comm

/-! One incoming artifact. -/

structure Settles (rules : List OverrideRule) (origin : Coordinate) (p : Progress)
    (incoming : Artifact) (survivors : List Artifact) : Prop where
  matched : p.artifacts.filter (fun a => a.isSame incoming) ≠ []
  chosen : ∃ s, meetAll rules (fun a => a.id ∈ p.contributed || origin ∈ a.origins) incoming
    (p.artifacts.filter fun a => a.isSame incoming) = .ok s ∧
      survivors = gatherAll (s.present ++ s.incoming)

def others (p : Progress) (incoming : Artifact) : List Artifact :=
  p.artifacts.filter fun a => !a.isSame incoming

def firstMatch (p : Progress) (incoming : Artifact) : Nat :=
  p.artifacts.findIdx fun a => a.isSame incoming

section
variable {rules : List OverrideRule} {origin : Coordinate} {p q : Progress} {incoming : Artifact}
  {survivors : List Artifact}

theorem mem_or_others (p : Progress) (incoming : Artifact) {a : Artifact} : a ∈ p.artifacts ↔
    a ∈ others p incoming ∨ a ∈ p.artifacts.filter fun a => a.isSame incoming := by
  simp only [others, List.mem_filter]
  grind

theorem mergeIncoming_cases (h : mergeIncoming rules origin p incoming = .ok q) :
    (p.artifacts.filter (fun a => a.isSame incoming) = [] ∧
      q.artifacts = Roster.add p.artifacts incoming) ∨
    ∃ survivors, Settles rules origin p incoming survivors ∧
      q.artifacts = placeAt (others p incoming) (firstMatch p incoming) survivors := by
  unfold mergeIncoming at h
  split at h
  · next hm => exact .inl ⟨hm, by rw [← Except.ok.inj h]⟩
  · next hm =>
    dsimp only at h
    split at h
    · cases h
    · next s hs => exact .inr ⟨_, ⟨hm, s, hs, rfl⟩, by rw [← Except.ok.inj h]; rfl⟩

theorem Settles.artifacts_eq (hs : Settles rules origin p incoming survivors)
    (h : mergeIncoming rules origin p incoming = .ok q) :
    q.artifacts = placeAt (others p incoming) (firstMatch p incoming) survivors := by
  obtain ⟨s, hmeet, rfl⟩ := hs.chosen
  obtain ⟨hnone, -⟩ | ⟨_, ⟨-, t, hmeet', rfl⟩, hq⟩ := mergeIncoming_cases h
  · exact absurd hnone hs.matched
  · obtain rfl := Except.ok.inj (hmeet.symm.trans hmeet')
    exact hq

theorem id_not_mem_of_unmatched (h : p.artifacts.filter (fun a => a.isSame incoming) = []) :
    incoming.id ∉ Roster.keys p.artifacts := by
  intro hmem
  obtain ⟨a, ha, hid⟩ := List.mem_map.mp hmem
  have hsame : a.isSame incoming = true := Artifact.isSame_of_identity (congrArg _ hid)
  exact List.filter_eq_nil_iff.mp h a ha hsame

/-- The coordinates of survivors are free once the matched artifacts are taken away: they are those of
matched artifacts, or others of the identity of the incoming one, which it would have matched. -/
theorem Settles.id_not_mem_others (h : Settles rules origin p incoming survivors)
    (hp : Roster.Distinct p.artifacts) : ∀ a ∈ survivors, a.id ∉ Roster.keys (others p incoming) := by
  obtain ⟨s, hs, rfl⟩ := h.chosen
  have hmeeting := meetAll_isMeeting hs
  intro a ha hmem
  obtain ⟨b, hb, hid⟩ := List.mem_map.mp hmem
  obtain ⟨hb, hother⟩ := List.mem_filter.mp hb
  have hkey : a.id ∈ Roster.keys (s.present ++ s.incoming) :=
    mem_keys_gatherAll.mp (List.mem_map_of_mem ha)
  rw [Roster.keys_append, List.mem_append] at hkey
  have hsame : b.isSame incoming = true := by
    rcases hkey with hkey | hkey
    · obtain ⟨c, hc, hcid⟩ := List.mem_map.mp hkey
      have hmatched := hmeeting.id_present c hc
      obtain ⟨e, he, heid⟩ := List.mem_map.mp hmatched
      obtain ⟨he, hesame⟩ := List.mem_filter.mp he
      obtain rfl : b = e := hp.eq_of_key hb he (hid.trans (hcid.symm.trans heid.symm))
      exact hesame
    · obtain ⟨c, hc, hcid⟩ := List.mem_map.mp hkey
      have hidentity := hmeeting.identity_incoming c hc
      refine Artifact.isSame_of_identity (Eq.trans ?_ hidentity)
      exact congrArg Coordinate.identity (hid.trans hcid.symm)
  simp [hsame] at hother

theorem Settles.placed (h : Settles rules origin p incoming survivors)
    (hp : Roster.Distinct p.artifacts) (i : Nat) :
    Placed (others p incoming) i survivors (placeAt (others p incoming) i survivors) := by
  have hdistinct : Roster.Distinct survivors := by
    obtain ⟨s, -, rfl⟩ := h.chosen
    exact distinct_gatherAll _
  exact placed_placeAt i hdistinct (h.id_not_mem_others hp)

theorem Settles.mem_origins (h : Settles rules origin p incoming survivors) {o : Coordinate} :
    o ∈ origins survivors ↔
      o ∈ origins (p.artifacts.filter fun a => a.isSame incoming) ∨ o ∈ incoming.origins := by
  obtain ⟨s, hs, rfl⟩ := h.chosen
  rw [mem_origins_gatherAll, (meetAll_isMeeting hs).mem_origins]
  exact or_congr_right (and_iff_right h.matched)

theorem Settles.ne_nil (h : Settles rules origin p incoming survivors) : survivors ≠ [] := by
  obtain ⟨s, hs, rfl⟩ := h.chosen
  obtain ⟨a, ha⟩ := List.exists_mem_of_ne_nil _ ((meetAll_isMeeting hs).nonempty h.matched)
  have hkey : a.id ∈ Roster.keys (gatherAll (s.present ++ s.incoming)) :=
    mem_keys_gatherAll.mpr (List.mem_map_of_mem ha)
  intro hnil
  rw [hnil] at hkey
  exact List.not_mem_nil hkey

theorem Settles.identity (h : Settles rules origin p incoming survivors)
    (hmatched : ∀ a ∈ p.artifacts.filter (fun a => a.isSame incoming),
      a.id.identity = incoming.id.identity) :
    ∀ a ∈ survivors, a.id.identity = incoming.id.identity := by
  obtain ⟨s, hs, rfl⟩ := h.chosen
  have hmeeting := meetAll_isMeeting hs
  intro a ha
  have hkey : a.id ∈ Roster.keys (s.present ++ s.incoming) :=
    mem_keys_gatherAll.mp (List.mem_map_of_mem ha)
  obtain ⟨b, hb, hid⟩ := List.mem_map.mp hkey
  have hid : a.id = b.id := hid.symm
  rw [hid]
  rcases List.mem_append.mp hb with hb | hb
  · obtain ⟨e, he, heid⟩ := List.mem_map.mp (hmeeting.id_present b hb)
    have heid : b.id = e.id := heid.symm
    rw [heid]
    exact hmatched e he
  · exact hmeeting.identity_incoming b hb

theorem mem_origins_mergeIncoming (hp : Roster.Distinct p.artifacts)
    (h : mergeIncoming rules origin p incoming = .ok q) {o : Coordinate} :
    o ∈ origins q.artifacts ↔ o ∈ origins p.artifacts ∨ o ∈ incoming.origins := by
  obtain ⟨hnone, hq⟩ | ⟨survivors, hsettles, hq⟩ := mergeIncoming_cases h
  · rw [hq, Roster.add_of_not_mem (id_not_mem_of_unmatched hnone)]
    simp
  · have hplaced := hsettles.placed hp (firstMatch p incoming)
    have hsurvivors := hsettles.mem_origins (o := o)
    rw [← hq] at hplaced
    simp only [mem_origins, hplaced.mem_iff, mem_or_others p incoming]
      at hsurvivors ⊢
    grind

theorem hereditary_mergeIncoming {Q : Artifact → Prop} (hQ : Artifact.Hereditary Q)
    (hp : ∀ a ∈ p.artifacts, Q a) (hi : Q incoming)
    (h : mergeIncoming rules origin p incoming = .ok q) : ∀ a ∈ q.artifacts, Q a := by
  obtain ⟨hnone, hq⟩ | ⟨survivors, hsettles, hq⟩ := mergeIncoming_cases h
  · rw [hq, Roster.add_of_not_mem (id_not_mem_of_unmatched hnone)]
    simpa [or_imp, forall_and] using ⟨hp, hi⟩
  · obtain ⟨s, hs, rfl⟩ := hsettles.chosen
    have hmatched := meetAll_hereditary hQ hs hi fun e he => hp e (List.mem_of_mem_filter he)
    have hsurvivors := gatherAll_hereditary hQ hmatched
    intro a ha
    rw [hq] at ha
    rcases mem_of_mem_placeAt ha with ha | ha
    · exact hp a (List.mem_of_mem_filter ha)
    · exact hsurvivors a ha

theorem mem_identities_mergeIncoming (hp : Roster.Distinct p.artifacts)
    (hplain : ∀ a ∈ p.artifacts, a.aliases = []) (hi : incoming.aliases = [])
    (h : mergeIncoming rules origin p incoming = .ok q)
    {k : String × String × String × Option String} :
    k ∈ identities q.artifacts ↔ k ∈ identities p.artifacts ∨ k = incoming.id.identity := by
  obtain ⟨hnone, hq⟩ | ⟨survivors, hsettles, hq⟩ := mergeIncoming_cases h
  · rw [hq, Roster.add_of_not_mem (id_not_mem_of_unmatched hnone)]
    simp [identities]
  · have hmatched : ∀ a ∈ p.artifacts.filter (fun a => a.isSame incoming),
        a.id.identity = incoming.id.identity := by
      intro a ha
      obtain ⟨ha, hsame⟩ := List.mem_filter.mp ha
      exact (Artifact.isSame_iff_of_no_aliases (hplain a ha) hi).mp hsame
    have hsurvivors := hsettles.identity hmatched
    obtain ⟨b, hb⟩ := List.exists_mem_of_ne_nil _ hsettles.ne_nil
    obtain ⟨c, hc⟩ := List.exists_mem_of_ne_nil _ hsettles.matched
    have hplaced := hsettles.placed hp (firstMatch p incoming)
    rw [← hq] at hplaced
    simp only [identities, List.mem_map, hplaced.mem_iff,
      mem_or_others p incoming]
    grind

end

/-! A whole merge. -/

section
variable {rules : List OverrideRule} {origin : Coordinate} {p q : Progress} {source : List Artifact}

theorem each_mergeOne_cons {a : Artifact} (h : each (mergeOne rules origin) p (a :: source) = done q) :
    ∃ m, mergeIncoming rules origin p (a.stamped origin) = .ok m ∧
      each (mergeOne rules origin) m source = done q := by
  obtain ⟨m, hm, hrest⟩ := andThen_eq_done_iff.mp h
  refine ⟨m, ?_, hrest⟩
  unfold mergeOne at hm
  cases hi : mergeIncoming rules origin p (a.stamped origin) with
  | ok m' =>
    rw [hi] at hm
    exact congrArg Except.ok (eq_done_iff.mp hm).1
  | error e =>
    rw [hi] at hm
    cases (eq_done_iff.mp hm).2

theorem distinct_mergeIncoming {a : Artifact} (hp : Roster.Distinct p.artifacts)
    (h : mergeIncoming rules origin p (a.stamped origin) = .ok q) : Roster.Distinct q.artifacts := by
  have hvalue : Roster.Distinct (mergeOne rules origin p a).value.artifacts := distinct_mergeOne hp a
  rwa [mergeOne, h] at hvalue

theorem mem_origins_each (hp : Roster.Distinct p.artifacts)
    (h : each (mergeOne rules origin) p source = done q) {o : Coordinate} :
    o ∈ origins q.artifacts ↔
      o ∈ origins p.artifacts ∨ o ∈ origins (source.map fun a => a.stamped origin) := by
  induction source generalizing p with
  | nil =>
    obtain rfl := (eq_done_iff.mp h).1
    simp
  | cons a source ih =>
    obtain ⟨m, hm, hrest⟩ := each_mergeOne_cons h
    have hstep := mem_origins_mergeIncoming hp hm (o := o)
    rw [ih (distinct_mergeIncoming hp hm) hrest, hstep, List.map_cons, mem_origins_cons, or_assoc]

theorem hereditary_each {Q : Artifact → Prop} (hQ : Artifact.Hereditary Q)
    (hp : ∀ a ∈ p.artifacts, Q a) (hsource : ∀ a ∈ source, Q (a.stamped origin)) :
    ∀ a ∈ (each (mergeOne rules origin) p source).value.artifacts, Q a := by
  refine each_keeps (P := fun p : Progress => ∀ a ∈ p.artifacts, Q a) (fun p a ha hp => ?_) hp
  unfold mergeOne
  cases hi : mergeIncoming rules origin p (a.stamped origin) with
  | ok m => exact hereditary_mergeIncoming hQ hp (hsource a ha) hi
  | error e => exact hp

theorem mem_identities_each (hp : Roster.Distinct p.artifacts)
    (hplain : ∀ a ∈ p.artifacts, a.aliases = []) (hsource : ∀ a ∈ source, a.aliases = [])
    (h : each (mergeOne rules origin) p source = done q)
    {k : String × String × String × Option String} :
    k ∈ identities q.artifacts ↔ k ∈ identities p.artifacts ∨ k ∈ identities source := by
  induction source generalizing p with
  | nil =>
    obtain rfl := (eq_done_iff.mp h).1
    simp [identities]
  | cons a source ih =>
    obtain ⟨m, hm, hrest⟩ := each_mergeOne_cons h
    obtain ⟨ha, hsource⟩ := List.forall_mem_cons.mp hsource
    have hstamped : (a.stamped origin).aliases = [] := by rwa [Artifact.aliases_stamped]
    have hstep := mem_identities_mergeIncoming hp hplain hstamped hm (k := k)
    -- no meeting makes aliases, so that the rest of the source meets plain artifacts again
    have hmplain := hereditary_mergeIncoming Artifact.hereditary_no_aliases hplain hstamped hm
    rw [ih (distinct_mergeIncoming hp hm) hmplain hsource hrest, hstep, Artifact.id_stamped]
    simp [identities, or_assoc]

end

/-- What a merge of `source` into `target` that gives `r` does not lose and does not invent. Each
artifact that comes in finds a state `p` of the merge, in which all survivors of its meetings are
accepted where the first matched artifact stood. -/
structure IsLossless (rules : List OverrideRule) (origin : Coordinate)
    (target source r : List Artifact) : Prop where
  origins : ∀ o, o ∈ origins r ↔
    o ∈ origins target ∨ o ∈ origins (source.map fun a => a.stamped origin)
  placed : ∀ before a after, source = before ++ a :: after →
    ∃ p q, each (mergeOne rules origin) ⟨target, []⟩ before = done p ∧
      mergeIncoming rules origin p (a.stamped origin) = .ok q ∧
      ∀ survivors, Settles rules origin p (a.stamped origin) survivors →
        Placed (others p (a.stamped origin)) (firstMatch p (a.stamped origin)) survivors q.artifacts
  identities : (∀ a ∈ target ++ source, a.aliases = []) →
    ∀ k, k ∈ identities r ↔ k ∈ identities target ∨ k ∈ identities source

/-- A merge that succeeds loses and invents neither contributors nor survivors nor identities, with
whatever rules and however many artifacts an incoming one meets at once. -/
theorem merge_isLossless {rules : List OverrideRule} {origin : Coordinate}
    {target source r : List Artifact} (ht : Roster.Distinct target)
    (h : merge rules origin target source = done r) : IsLossless rules origin target source r := by
  obtain ⟨q, hq, rfl⟩ := map_eq_done_iff.mp h
  refine ⟨fun o => mem_origins_each ht hq, ?_, fun hplain k => ?_⟩
  · rintro before a after rfl
    rw [each_append] at hq
    obtain ⟨p, hp, hrest⟩ := andThen_eq_done_iff.mp hq
    obtain ⟨m, hm, -⟩ := each_mergeOne_cons hrest
    have hdistinct : Roster.Distinct p.artifacts := by
      have hkept := distinct_merge ht rules origin before
      rwa [merge, hp] at hkept
    refine ⟨p, m, hp, hm, fun survivors hsettles => ?_⟩
    have hplaced := hsettles.placed hdistinct (firstMatch p (a.stamped origin))
    rwa [← hsettles.artifacts_eq hm] at hplaced
  · simp only [List.forall_mem_append] at hplain
    exact mem_identities_each ht hplain.1 hplain.2 hq

end Artifacts

namespace Sample

def lib (version : String) (origins : List Coordinate) : Artifact :=
  { Artifact.ofId { id "lib" with version } with origins }

end Sample

theorem Artifacts.merge_libs_isLossless :
    Roster.Distinct [Sample.lib "1" [Sample.id "a"], Sample.lib "2" [Sample.id "b"]] ∧
      ∃ r, merge [.catchAll (.version "9")] (Sample.id "f")
          [Sample.lib "1" [Sample.id "a"], Sample.lib "2" [Sample.id "b"]]
          [Sample.lib "3" [], Sample.lib "4" [Sample.id "c"]] = done r ∧
        r.map (fun a => a.id.version) = ["9", "4"] ∧
        ∀ o, o ∈ origins r ↔ o ∈ [Sample.id "a", Sample.id "b", Sample.id "c", Sample.id "f"] := by
  have hdistinct :
      Roster.Distinct [Sample.lib "1" [Sample.id "a"], Sample.lib "2" [Sample.id "b"]] := by
    unfold Roster.Distinct
    decide
  obtain ⟨r, hr, hversions⟩ : ∃ r, merge [.catchAll (.version "9")] (Sample.id "f")
      [Sample.lib "1" [Sample.id "a"], Sample.lib "2" [Sample.id "b"]]
      [Sample.lib "3" [], Sample.lib "4" [Sample.id "c"]] = done r ∧
        r.map (fun a => a.id.version) = ["9", "4"] := ⟨_, rfl, rfl⟩
  refine ⟨hdistinct, r, hr, hversions, fun o => ?_⟩
  rw [(merge_isLossless hdistinct hr).origins]
  simp [Sample.lib, Artifact.stamped, Artifact.ofId]
  grind

end FeatureAssembly
