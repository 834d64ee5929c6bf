import FeatureAssembly.Proofs.Beside

/-! Without aliases, assembling leaves all versions of an artifact next to each other. In lists that are
grouped so, and whose artifacts have origins, nothing moves or changes when they are merged anew into
an empty list. -/

namespace FeatureAssembly
open Outcome

def Grouped {κ : Type} : List κ → Prop
  | [] => True
  | k :: ks => (k ∈ ks → ks.head? = some k) ∧ Grouped ks

section
variable {κ : Type} {ks as bs : List κ} {k : κ}

theorem Grouped.append_new (h : Grouped ks) (hk : k ∉ ks) : Grouped (ks ++ [k]) := by
  induction ks with
  | nil => exact ⟨fun hmem => absurd hmem List.not_mem_nil, trivial⟩
  | cons a ks ih =>
    obtain ⟨hhead, hrest⟩ := h
    rw [List.mem_cons, not_or] at hk
    refine ⟨fun ha => ?_, ih hrest hk.2⟩
    show (ks ++ [k]).head? = some a
    rcases List.mem_append.mp ha with ha | ha
    · rw [List.head?_append, hhead ha, Option.some_or]
    · exact absurd (List.mem_singleton.mp ha).symm hk.1

theorem Grouped.exists_replicate (h : Grouped (as ++ k :: bs)) :
    ∃ cs n, as = cs ++ List.replicate n k ∧ k ∉ cs := by
  induction as with
  | nil => exact ⟨[], 0, rfl, List.not_mem_nil⟩
  | cons a as ih =>
    obtain ⟨hhead, hrest⟩ := h
    obtain ⟨cs, n, rfl, hk⟩ := ih hrest
    by_cases ha : a = k
    · subst ha
      have hnext := hhead (by simp)
      cases cs with
      | nil => exact ⟨[], n + 1, rfl, List.not_mem_nil⟩
      | cons c cs =>
        obtain rfl : c = a := Option.some.inj hnext
        exact absurd (List.mem_cons_self ..) hk
    · refine ⟨a :: cs, n, rfl, fun hmem => ?_⟩
      exact (List.mem_cons.mp hmem).elim (fun heq => ha heq.symm) hk

theorem Grouped.exists_block (h : Grouped ks) (hk : k ∈ ks) :
    ∃ as n bs, ks = as ++ List.replicate (n + 1) k ++ bs ∧ k ∉ as ∧ k ∉ bs := by
  have hreverse : k ∈ ks.reverse := List.mem_reverse.mpr hk
  obtain ⟨bs, as, hsplit, hbs⟩ := List.eq_append_cons_of_mem hreverse
  obtain rfl : ks = as.reverse ++ k :: bs.reverse := by
    have hks := congrArg List.reverse hsplit
    simpa using hks
  obtain ⟨cs, n, hcs, hnot⟩ := h.exists_replicate
  refine ⟨cs, n, bs.reverse, ?_, hnot, fun hmem => hbs (List.mem_reverse.mp hmem)⟩
  simp [hcs, List.replicate_succ']

theorem grouped_append_twice : Grouped (as ++ k :: k :: bs) ↔ Grouped (as ++ k :: bs) := by
  induction as with
  | nil => exact and_iff_right fun _ => rfl
  | cons a as ih =>
    have hmem : a ∈ as ++ k :: k :: bs ↔ a ∈ as ++ k :: bs := by simp
    have hhead : (as ++ k :: k :: bs).head? = (as ++ k :: bs).head? := by
      rw [List.head?_append, List.head?_append, List.head?_cons, List.head?_cons]
    rw [List.cons_append, List.cons_append, Grouped, Grouped, ih, hmem, hhead]

theorem grouped_append_replicate (n : Nat) :
    Grouped (as ++ List.replicate (n + 1) k ++ bs) ↔ Grouped (as ++ k :: bs) := by
  induction n with
  | zero => rw [List.append_assoc]; rfl
  | succ n ih =>
    have hsplit : as ++ List.replicate (n + 1 + 1) k ++ bs =
        as ++ k :: k :: (List.replicate n k ++ bs) := by
      rw [List.append_assoc]
      rfl
    have hshort : as ++ List.replicate (n + 1) k ++ bs =
        as ++ k :: (List.replicate n k ++ bs) := by
      rw [List.append_assoc]
      rfl
    rw [hsplit, grouped_append_twice, ← hshort, ih]

end

theorem filter_block {α : Type} {p : α → Bool} {before block after : List α}
    (hbefore : ∀ a ∈ before, p a = false) (hblock : ∀ a ∈ block, p a = true)
    (hafter : ∀ a ∈ after, p a = false) (hne : block ≠ []) :
    (before ++ block ++ after).filter p = block ∧
      (before ++ block ++ after).filter (fun a => !p a) = before ++ after ∧
      (before ++ block ++ after).findIdx p = before.length := by
  obtain ⟨a, block, rfl⟩ := List.exists_cons_of_ne_nil hne
  refine ⟨?_, ?_, ?_⟩
  · rw [List.filter_append, List.filter_append, List.filter_eq_self.mpr hblock,
      List.filter_eq_nil_iff.mpr fun a ha => Bool.eq_false_iff.mp (hbefore a ha),
      List.filter_eq_nil_iff.mpr fun a ha => Bool.eq_false_iff.mp (hafter a ha), List.nil_append,
      List.append_nil]
  · rw [List.filter_append, List.filter_append,
      List.filter_eq_self.mpr fun a ha => by rw [hbefore a ha]; rfl,
      List.filter_eq_nil_iff.mpr fun a ha => by rw [hblock a ha]; decide,
      List.filter_eq_self.mpr fun a ha => by rw [hafter a ha]; rfl, List.append_nil]
  · rw [List.append_assoc, List.findIdx_append, List.findIdx_eq_length.mpr hbefore,
      if_neg (Nat.lt_irrefl _), List.cons_append, List.findIdx_cons,
      hblock a (List.mem_cons_self ..)]
    exact Nat.zero_add _

namespace Artifacts

/-- A list that merges leave: no coordinate comes twice, and versions of an artifact stand together;
aliases are gone, origins are there. -/
structure Settled (l : List Artifact) : Prop where
  distinct : Roster.Distinct l
  grouped : Grouped (identities l)
  unaliased : ∀ a ∈ l, a.aliases = []
  attributed : ∀ a ∈ l, a.origins ≠ []

theorem settled_nil : Settled [] :=
  ⟨Roster.distinct_nil, trivial, fun _ h => absurd h List.not_mem_nil,
    fun _ h => absurd h List.not_mem_nil⟩

section
variable {before block after : List Artifact} {incoming : Artifact}

/-- Where the versions of the incoming artifact stand together, it takes part in their block, and all
others stay where they are. -/
theorem beside_of_block (hdistinct : Roster.Distinct (before ++ block ++ after))
    (hplain : ∀ a ∈ before ++ block ++ after, a.aliases = []) (hi : incoming.aliases = [])
    (hbefore : incoming.id.identity ∉ identities before)
    (hblock : ∀ a ∈ block, a.id.identity = incoming.id.identity)
    (hafter : incoming.id.identity ∉ identities after) (hne : block ≠ []) :
    beside (before ++ block ++ after) incoming =
      before ++ (if incoming.id ∈ Roster.keys block then block.map (Artifact.united incoming)
        else block ++ [incoming]) ++ after := by
  have hsame : ∀ a ∈ before ++ block ++ after,
      (a.isSame incoming = true ↔ a.id.identity = incoming.id.identity) :=
    fun a ha => Artifact.isSame_iff_of_no_aliases (hplain a ha) hi
  have hothers : ∀ {l : List Artifact}, l ⊆ before ++ block ++ after →
      incoming.id.identity ∉ identities l → ∀ a ∈ l, a.isSame incoming = false := by
    intro l hsub hnot a ha
    refine Bool.eq_false_iff.mpr fun hmatch => hnot ?_
    rw [← (hsame a (hsub ha)).mp hmatch]
    exact List.mem_map_of_mem ha
  have hmiddle : ∀ a ∈ block, a.isSame incoming = true :=
    fun a ha => (hsame a (by simp [ha])).mpr (hblock a ha)
  obtain ⟨hmatched, hkept, hposition⟩ :=
    filter_block (hothers (by simp) hbefore) hmiddle (hothers (by simp) hafter) hne
  have hmatches : (before ++ block ++ after).filter (fun a => a.isSame incoming) ≠ [] := by
    rwa [hmatched]
  have hplaced := beside_of_matched hdistinct hmatches
  rw [hmatched, hkept, hposition] at hplaced
  rw [hplaced.eq_append, List.take_left, List.drop_left]

end

theorem exists_append_of_identities {l : List Artifact}
    {as bs : List (String × String × String × Option String)} (h : identities l = as ++ bs) :
    ∃ l₁ l₂, l = l₁ ++ l₂ ∧ identities l₁ = as ∧ identities l₂ = bs :=
  List.map_eq_append_iff.mp h

theorem identity_of_mem_replicate {l : List Artifact} {n : Nat}
    {k : String × String × String × Option String} (h : identities l = List.replicate n k) :
    ∀ a ∈ l, a.id.identity = k := by
  intro a ha
  have hmem : a.id.identity ∈ identities l := List.mem_map_of_mem ha
  rw [h] at hmem
  exact List.eq_of_mem_replicate hmem

namespace Settled
variable {l : List Artifact} {incoming : Artifact}

theorem grouped_beside (h : Settled l) (hi : incoming.aliases = []) :
    Grouped (identities (Artifacts.beside l incoming)) := by
  by_cases hk : incoming.id.identity ∈ identities l
  · obtain ⟨as, n, bs, hl, has, hbs⟩ := h.grouped.exists_block hk
    obtain ⟨front, after, rfl, hfront, hafter⟩ := exists_append_of_identities hl
    obtain ⟨before, block, rfl, hbefore, hblock⟩ := exists_append_of_identities hfront
    have hne : block ≠ [] := by
      rintro rfl
      cases hblock
    have hbeside := beside_of_block h.distinct h.unaliased hi (hbefore ▸ has)
      (identity_of_mem_replicate hblock) (hafter ▸ hbs) hne
    have hwhole := h.grouped
    rw [hl, grouped_append_replicate] at hwhole
    rw [hbeside]
    split
    · have hidentities : identities (before ++ block.map (Artifact.united incoming) ++ after) =
          as ++ List.replicate (n + 1) incoming.id.identity ++ bs := by
        rw [← hbefore, ← hblock, ← hafter]
        simp [identities]
      rw [hidentities, grouped_append_replicate]
      exact hwhole
    · have hidentities : identities (before ++ (block ++ [incoming]) ++ after) =
          as ++ List.replicate (n + 1 + 1) incoming.id.identity ++ bs := by
        rw [List.replicate_succ', ← hbefore, ← hblock, ← hafter]
        simp [identities]
      rw [hidentities, grouped_append_replicate]
      exact hwhole
  · have hunmatched : l.filter (fun a => a.isSame incoming) = [] := by
      refine List.filter_eq_nil_iff.mpr fun a ha hsame => hk ?_
      rw [← (Artifact.isSame_iff_of_no_aliases (h.unaliased a ha) hi).mp hsame]
      exact List.mem_map_of_mem ha
    have hidentities : identities (l ++ [incoming]) = identities l ++ [incoming.id.identity] := by
      simp [identities]
    rw [beside_of_unmatched hunmatched, hidentities]
    exact h.grouped.append_new hk

theorem beside (h : Settled l) (hi : incoming.aliases = []) (ho : incoming.origins ≠ []) :
    Settled (Artifacts.beside l incoming) := by
  refine ⟨distinct_beside h.distinct incoming, h.grouped_beside hi, fun a ha => ?_, fun a ha => ?_⟩
  · rcases (mem_beside h.distinct).mp ha with ⟨ha, -⟩ | rfl
    · exact h.unaliased a ha
    · cases hfound : Roster.find? l incoming.id with
      | none => exact hi
      | some e => exact h.unaliased e (Roster.mem_of_find? hfound)
  · rcases (mem_beside h.distinct).mp ha with ⟨ha, -⟩ | rfl
    · exact h.attributed a ha
    · cases hfound : Roster.find? l incoming.id with
      | none => exact ho
      | some e =>
        obtain ⟨o, hmem⟩ := List.exists_mem_of_ne_nil _ ho
        exact List.ne_nil_of_mem (Artifact.mem_origins_combine.mpr (.inr hmem))

theorem allBeside (h : Settled l) {source : List Artifact} (hsource : ∀ a ∈ source, a.aliases = [])
    (origin : Coordinate) : Settled (Artifacts.allBeside origin l source) := by
  refine List.foldlRecOn (motive := Settled) source _ h fun l h a ha => ?_
  refine h.beside ?_ ?_
  · rw [Artifact.aliases_stamped]
    exact hsource a ha
  · unfold Artifact.stamped
    split
    · exact List.cons_ne_nil _ _
    · next hne => exact hne

theorem stamped (h : Settled l) (origin : Coordinate) : l.map (fun a => a.stamped origin) = l := by
  have hfixed : ∀ a ∈ l, a.stamped origin = a := fun a ha => if_neg (h.attributed a ha)
  rw [List.map_congr_left hfixed, List.map_id']

theorem beside_eq_append {front rest : List Artifact} (h : Settled (front ++ incoming :: rest)) :
    Artifacts.beside front incoming = front ++ [incoming] := by
  have hplain : ∀ a ∈ front, a.aliases = [] :=
    fun a ha => h.unaliased a (List.mem_append_left _ ha)
  have hi : incoming.aliases = [] := h.unaliased incoming (by simp)
  have hnew : incoming.id ∉ Roster.keys front := Roster.not_mem_keys_of_distinct_append h.distinct
  have hgrouped : Grouped (identities front ++ incoming.id.identity :: identities rest) := by
    have hwhole := h.grouped
    rwa [identities, List.map_append, List.map_cons] at hwhole
  obtain ⟨as, n, hfront, has⟩ := hgrouped.exists_replicate
  obtain ⟨before, block, rfl, hbefore, hblock⟩ := exists_append_of_identities hfront
  have hdistinct : Roster.Distinct (before ++ block ++ []) := by
    have hkeys := h.distinct
    rw [Roster.Distinct, Roster.keys_append] at hkeys
    rw [List.append_nil]
    exact (List.nodup_append.mp hkeys).1
  by_cases hne : block = []
  · subst hne
    refine beside_of_unmatched (List.filter_eq_nil_iff.mpr fun a ha hsame => ?_)
    refine has ?_
    rw [← (Artifact.isSame_iff_of_no_aliases (hplain a ha) hi).mp hsame, ← hbefore]
    exact List.mem_map_of_mem (by simpa using ha)
  · have hbeside := beside_of_block hdistinct (by simpa using hplain) hi (hbefore ▸ has)
      (identity_of_mem_replicate hblock) List.not_mem_nil hne
    have hnot : incoming.id ∉ Roster.keys block := by
      intro hmem
      refine hnew ?_
      rw [Roster.keys_append]
      exact List.mem_append_right _ hmem
    rw [if_neg hnot, List.append_nil, List.append_nil] at hbeside
    rw [hbeside, List.append_assoc]

theorem allBeside_nil (h : Settled l) (origin : Coordinate) :
    Artifacts.allBeside origin [] l = l := by
  have run : ∀ front rest, Settled (front ++ rest) →
      Artifacts.allBeside origin front rest = front ++ rest := by
    intro front rest
    induction rest generalizing front with
    | nil => exact fun _ => (List.append_nil front).symm
    | cons a rest ih =>
      intro h
      have hstamped : a.stamped origin = a := if_neg (h.attributed a (by simp))
      have hnext : Settled (front ++ [a] ++ rest) := by rwa [List.append_assoc]
      have hstep : Artifacts.allBeside origin front (a :: rest) =
          Artifacts.allBeside origin (Artifacts.beside front (a.stamped origin)) rest := rfl
      rw [hstep, hstamped, h.beside_eq_append, ih (front ++ [a]) hnext, List.append_assoc]
      rfl
  exact run [] l h

end Settled
end Artifacts
end FeatureAssembly
