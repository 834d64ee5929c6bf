import FeatureAssembly.Proofs.MergeFaults
import FeatureAssembly.Proofs.WellFormed

/-! Extensions of several features, merged one feature after another. What is there under a name is
made of all that the features have under it, whatever other names come in between; and a merge that
fails stops at one extension, with the later ones as they were. -/

namespace FeatureAssembly
open Outcome

namespace ExtensionState

theorem rank_stronger (s t : ExtensionState) : (s.stronger t).rank = max s.rank t.rank := by
  cases s <;> cases t <;> rfl

theorem stronger_eq (s t : ExtensionState) : s.stronger t = s ∨ s.stronger t = t := by
  cases s <;> cases t <;> simp [stronger, rank]

end ExtensionState

namespace ExtensionContent

inductive Joins (rules : List OverrideRule) (origin : Coordinate) :
    ExtensionContent → ExtensionContent → ExtensionContent → Prop where
  | text (s t) : Joins rules origin (.text s) (.text t) (.text (s ++ "\n" ++ t))
  | json {c d : JsonContent} {v} (merged : Json.merge c.value d.value = .ok v) :
      Joins rules origin (.json c) (.json d) (.json ⟨v, v.text⟩)
  | artifacts {l k m} (merged : Artifacts.merge rules origin l k = done m) :
      Joins rules origin (.artifacts l) (.artifacts k) (.artifacts m)

/-- What the contents that features bring one after another add up to: texts line by line, JSON
values and artifacts by merging each into what came before. -/
inductive AddUp (rules : List OverrideRule) :
    List (Coordinate × ExtensionContent) → ExtensionContent → Prop where
  | text (texts : List (Coordinate × String)) :
      AddUp rules (texts.map fun s => (s.1, .text s.2))
        (.text (String.intercalate "\n" (texts.map Prod.snd)))
  | json {first : Coordinate × JsonContent} {rest c}
      (value : rest.foldlM (fun v s => Json.merge v s.2.value) first.2.value = .ok c.value)
      (text : c.text = c.value.text) :
      AddUp rules ((first :: rest).map fun s => (s.1, .json s.2)) (.json c)
  | artifacts {lists : List (Coordinate × List Artifact)} {l}
      (merged : each (fun l s => Artifacts.merge rules s.1 l s.2) [] lists = done l) :
      AddUp rules (lists.map fun s => (s.1, .artifacts s.2)) (.artifacts l)

variable {rules : List OverrideRule} {origin : Coordinate} {x y z : ExtensionContent}
  {series : List (Coordinate × ExtensionContent)}

theorem Joins.kind (h : Joins rules origin x y z) : y.kind = x.kind ∧ z.kind = x.kind := by
  cases h <;> exact ⟨rfl, rfl⟩

theorem AddUp.concat (h : AddUp rules series x) (hne : series ≠ [])
    (hjoins : Joins rules origin x y z) : AddUp rules (series ++ [(origin, y)]) z := by
  cases hjoins with
  | text s t =>
    cases h with
    | text texts =>
      have hall : AddUp rules _ _ := .text (texts ++ [(origin, t)])
      have htexts : texts.map Prod.snd ≠ [] := by simpa using hne
      rwa [List.map_append, List.map_append, List.map_singleton, List.map_singleton,
        String.intercalate_append_of_ne_nil htexts (List.cons_ne_nil t []),
        String.intercalate_singleton] at hall
  | @json c d v hmerged =>
    cases h with
    | @json first rest _ hvalue _ =>
      have hfold : (rest ++ [(origin, d)]).foldlM (fun v s => Json.merge v s.2.value)
          first.2.value = .ok v := by
        rw [List.foldlM_append, hvalue]
        change [(origin, d)].foldlM (fun v s => Json.merge v s.2.value) c.value = .ok v
        simp only [List.foldlM_cons, List.foldlM_nil, bind_pure, hmerged]
      have hall : AddUp rules _ (.json ⟨v, v.text⟩) := .json hfold rfl
      rwa [← List.cons_append, List.map_append] at hall
  | @artifacts l k m hmerged =>
    cases h with
    | @artifacts lists _ hl =>
      have hlists : each (fun l s => Artifacts.merge rules s.1 l s.2) [] (lists ++ [(origin, k)]) =
          done m := by
        rw [each_append, hl, done_andThen, each_cons, hmerged]
        rfl
      have hall := AddUp.artifacts hlists
      rwa [List.map_append] at hall

end ExtensionContent

namespace Extension

structure IsGathered (rules : List OverrideRule) (series : List (Coordinate × Extension))
    (e : Extension) : Prop where
  kind : ∀ s ∈ series, s.2.kind = e.kind
  state : ∃ s ∈ series, s.2.state = e.state
  strongest : ∀ s ∈ series, s.2.state.rank ≤ e.state.rank
  content : ExtensionContent.AddUp rules (series.map fun s => (s.1, s.2.content)) e.content

variable {rules : List OverrideRule} {origin : Coordinate} {existing incoming x : Extension}
  {series : List (Coordinate × Extension)}

theorem addUp_copy (rules : List OverrideRule) (origin : Coordinate) {e : Extension}
    (hjson : ∀ c, e.content = .json c → c.Valid) :
    ExtensionContent.AddUp rules [(origin, e.content)] (e.copy origin).content := by
  unfold copy
  cases hcontent : e.content with
  | text s =>
    dsimp only
    rw [hcontent]
    have hone : ExtensionContent.AddUp rules _ _ := .text [(origin, s)]
    rwa [List.map_singleton, List.map_singleton, String.intercalate_singleton] at hone
  | json c =>
    dsimp only
    rw [hcontent]
    have hone : ExtensionContent.AddUp rules (([(origin, c)]).map fun s => (s.1, .json s.2))
        (.json c) := .json rfl (hjson c hcontent).text
    exact hone
  | artifacts l =>
    have hmerged : each (fun m s => Artifacts.merge rules s.1 m s.2) [] [(origin, l)] =
        done (Artifacts.allBeside origin [] l) := by
      rw [each_cons, Artifacts.merge_into_empty]
      rfl
    exact .artifacts hmerged

theorem isGathered_copy (rules : List OverrideRule) (origin : Coordinate) {e : Extension}
    (hjson : ∀ c, e.content = .json c → c.Valid) :
    IsGathered rules [(origin, e)] (e.copy origin) := by
  have hstate : (e.copy origin).state = e.state := by
    unfold copy
    split <;> rfl
  have hkind : (e.copy origin).kind = e.kind := by
    unfold copy
    split
    · next l hl =>
      rw [kind, kind, hl]
      rfl
    · rfl
  refine ⟨?_, ⟨_, List.mem_singleton_self _, hstate.symm⟩, ?_, addUp_copy rules origin hjson⟩
  · intro s hs
    rw [List.mem_singleton.mp hs, hkind]
  · intro s hs
    obtain rfl := List.mem_singleton.mp hs
    exact Nat.le_of_eq (congrArg ExtensionState.rank hstate.symm)

theorem exists_joins_of_merge (h : existing.merge rules origin incoming = done x) :
    x.state = existing.state.stronger incoming.state ∧
      ExtensionContent.Joins rules origin existing.content incoming.content x.content := by
  unfold Extension.merge at h
  split at h
  · next s t hs ht =>
    obtain rfl := (eq_done_iff.mp h).1
    rw [hs, ht]
    exact ⟨rfl, .text s t⟩
  · next c d hc hd =>
    split at h
    · cases (eq_done_iff.mp h).2
    · next v hv =>
      unfold JsonContent.ofValue at h
      split_ifs at h
      · obtain rfl := (eq_done_iff.mp h).1
        rw [hc, hd]
        exact ⟨rfl, .json hv⟩
      · cases (eq_done_iff.mp h).2
  · next l k hl hk =>
    obtain ⟨y, hy, hx⟩ := andThen_eq_done_iff.mp h
    obtain ⟨m, hm, rfl⟩ := map_eq_done_iff.mp hy
    obtain rfl := (eq_done_iff.mp hx).1
    rw [hl, hk]
    exact ⟨rfl, .artifacts hm⟩
  · cases (eq_done_iff.mp h).2

theorem IsGathered.concat (h : IsGathered rules series existing)
    (hx : existing.merge rules origin incoming = done x) :
    IsGathered rules (series ++ [(origin, incoming)]) x := by
  obtain ⟨hstate, hjoins⟩ := exists_joins_of_merge hx
  have hrank : x.state.rank = max existing.state.rank incoming.state.rank := by
    rw [hstate, ExtensionState.rank_stronger]
  obtain ⟨s, hs, hsame⟩ := h.state
  refine ⟨fun t ht => ?_, ?_, fun t ht => ?_, ?_⟩
  · have hkind : x.kind = existing.kind := hjoins.kind.2
    rcases List.mem_append.mp ht with ht | ht
    · rw [hkind, h.kind t ht]
    · rw [hkind, List.mem_singleton.mp ht]
      exact hjoins.kind.1
  · rcases ExtensionState.stronger_eq existing.state incoming.state with heq | heq
    · exact ⟨s, List.mem_append_left _ hs, by rw [hsame, hstate, heq]⟩
    · exact ⟨_, List.mem_append_right _ (List.mem_singleton_self _), by rw [hstate, heq]⟩
  · rw [hrank]
    rcases List.mem_append.mp ht with ht | ht
    · exact Nat.le_trans (h.strongest t ht) (Nat.le_max_left ..)
    · rw [List.mem_singleton.mp ht]
      exact Nat.le_max_right ..
  · rw [List.map_append]
    exact h.content.concat (by simpa using List.ne_nil_of_mem hs) hjoins

end Extension

/-- The errors that a merge of extensions ends with before it changes anything. -/
def MergeError.isMismatch : MergeError → Bool
  | .extensionKindMismatch .. => true
  | .jsonMismatch .. => true
  | _ => false

theorem Artifacts.Refuses.isMismatch {rules : List OverrideRule} {a b : Coordinate} {e : MergeError}
    (h : Refuses rules a b e) : e.isMismatch = false := by
  cases h <;> rfl

theorem Extension.merge_of_mismatch {rules : List OverrideRule} {origin : Coordinate}
    {existing incoming : Extension} {e : MergeError}
    (h : (existing.merge rules origin incoming).fault = some e) (he : e.isMismatch) :
    (existing.merge rules origin incoming).value = existing := by
  unfold Extension.merge at h ⊢
  split at h
  · cases h
  · split at h
    · rfl
    · split at h
      · rfl
      · cases h
  · next l k _ _ =>
    -- only here something may have changed, but artifacts are refused for other reasons
    have hfault : (Artifacts.merge rules origin l k).fault = some e := by
      rwa [fault_andThen, fault_map, fault_done, Option.or_none] at h
    obtain ⟨_, _, _, _, _, hstops⟩ := Artifacts.exists_stopsAt hfault
    rw [hstops.refused.isMismatch] at he
    cases he
  · rfl

namespace Extensions

def contributions (fs : List Feature) : List (Coordinate × Extension) :=
  fs.flatMap fun f => f.extensions.map fun e => (f.id, e)

def mergeSeries (rules : List OverrideRule) (t : List Extension)
    (series : List (Coordinate × Extension)) : Outcome MergeError (List Extension) :=
  each (fun t s => mergeOne rules s.1 t s.2) t series

/-- The extensions that a series of contributions leaves: one under each name, in the order in which
the names first come, made of all contributions under it. -/
structure IsMerged (rules : List OverrideRule) (series : List (Coordinate × Extension))
    (t : List Extension) : Prop where
  names : Roster.keys t = addAllNew [] (series.map fun s => s.2.name)
  gathered : ∀ name e, Roster.find? t name = some e →
    e.IsGathered rules (series.filter fun s => s.2.name = name)

variable {rules : List OverrideRule} {series : List (Coordinate × Extension)}
  {origin : Coordinate} {t t' u r source before after : List Extension} {x e : Extension}
  {fault : MergeError}

theorem isMerged_nil (rules : List OverrideRule) : IsMerged rules [] [] :=
  ⟨rfl, fun _ _ h => nomatch h⟩

theorem IsMerged.no_contribution (h : IsMerged rules series t) {name : String}
    (hname : Roster.find? t name = none) : series.filter (fun s => s.2.name = name) = [] := by
  rw [Roster.find?_eq_none_iff, h.names, mem_addAllNew, not_or] at hname
  rw [List.filter_eq_nil_iff]
  intro s hs hsame
  exact hname.2 (List.mem_map.mpr ⟨s, hs, of_decide_eq_true hsame⟩)

theorem IsMerged.isGathered_joined (h : IsMerged rules series t)
    (hjson : ∀ c, e.content = .json c → c.Valid)
    (hx : joined rules origin (Roster.find? t e.name) e = done x) :
    x.IsGathered rules ((series.filter fun s => s.2.name = e.name) ++ [(origin, e)]) := by
  unfold joined at hx
  split at hx
  · next existing hfound => exact (h.gathered e.name existing hfound).concat hx
  · next hnone =>
    obtain rfl := (eq_done_iff.mp hx).1
    rw [h.no_contribution hnone]
    exact Extension.isGathered_copy rules origin hjson

theorem IsMerged.concat (h : IsMerged rules series t) (hjson : ∀ c, e.content = .json c → c.Valid)
    (hmerge : mergeOne rules origin t e = done t') :
    IsMerged rules (series ++ [(origin, e)]) t' where
  names := by
    rw [keys_mergeOne hmerge, h.names, List.map_append, List.map_singleton, addAllNew_append]
    rfl
  gathered name y hy := by
    have hname := name_joined rules origin t e
    rw [mergeOne_eq] at hmerge
    obtain ⟨x, hx, rfl⟩ := map_eq_done_iff.mp hmerge
    rw [hx] at hname
    have hkey : (Keyed.key x : String) = e.name := hname
    rw [Roster.find?_put, hkey] at hy
    rw [List.filter_append]
    split_ifs at hy with hsame
    · subst hsame
      obtain rfl := Option.some.inj hy
      have hlast : [(origin, e)].filter (fun s => s.2.name = e.name) = [(origin, e)] := by simp
      rw [hlast]
      exact h.isGathered_joined hjson hx
    · have hlast : [(origin, e)].filter (fun s => s.2.name = name) = [] := by simp [hsame]
      rw [hlast, List.append_nil]
      exact h.gathered name y hy

theorem isMerged_of_mergeSeries (hjson : ∀ s ∈ series, ∀ c, s.2.content = .json c → c.Valid)
    (h : mergeSeries rules [] series = done t) : IsMerged rules series t := by
  induction series using List.reverseRecOn generalizing t with
  | nil =>
    rw [← (eq_done_iff.mp h).1]
    exact isMerged_nil rules
  | append_singleton front s ih =>
    rw [mergeSeries, each_append] at h
    obtain ⟨u, hu, hlast⟩ := andThen_eq_done_iff.mp h
    obtain ⟨v, hv, hdone⟩ := andThen_eq_done_iff.mp hlast
    obtain rfl : v = t := (eq_done_iff.mp hdone).1
    have hfront : IsMerged rules front u :=
      ih (fun s hs => hjson s (List.mem_append_left _ hs)) hu
    exact hfront.concat (hjson s (List.mem_append_right _ (List.mem_singleton_self s))) hv

/-! Where a merge stops. -/

/-- Where merging the extensions of a feature stops with a fault: `before` has been merged, which
has led to `u`, and merging `x` leaves `r`. -/
structure StopsAt (rules : List OverrideRule) (origin : Coordinate) (t source : List Extension)
    (fault : MergeError) (before : List Extension) (x : Extension) (after u r : List Extension) :
    Prop where
  source_eq : source = before ++ x :: after
  reached : merge rules origin t before = done u
  stopped : mergeOne rules origin u x = failed r fault
  order : Roster.keys r = Roster.keys u
  others : ∀ name, name ≠ x.name → Roster.find? r name = Roster.find? u name
  not_reached : ∀ name, name ∉ Roster.keys before → name ≠ x.name →
    Roster.find? r name = Roster.find? t name
  mismatch : fault.isMismatch → r = u
  concerned : fault.isMismatch → x.name ∉ Roster.keys before →
    Roster.find? r x.name = Roster.find? t x.name

theorem find?_mergeOne_of_ne (rules : List OverrideRule) (origin : Coordinate) (t : List Extension)
    {name : String} (hname : name ≠ e.name) :
    Roster.find? (mergeOne rules origin t e).value name = Roster.find? t name := by
  have hkey : (Keyed.key (joined rules origin (Roster.find? t e.name) e).value : String) = e.name :=
    name_joined rules origin t e
  rw [mergeOne_eq, value_map, Roster.find?_put, hkey, if_neg (Ne.symm hname)]

theorem find?_merge_of_not_mem (rules : List OverrideRule) (origin : Coordinate)
    (t : List Extension) {name : String} (hname : name ∉ Roster.keys source) :
    Roster.find? (merge rules origin t source).value name = Roster.find? t name := by
  refine each_keeps (P := fun u => Roster.find? u name = Roster.find? t name) ?_ rfl
  intro u x hx hu
  have hne : name ≠ x.name := fun h => hname (h ▸ List.mem_map_of_mem hx)
  rw [find?_mergeOne_of_ne rules origin u hne, hu]

theorem exists_of_fault_mergeOne (h : (mergeOne rules origin t e).fault = some fault) :
    ∃ existing, Roster.find? t e.name = some existing ∧
      (existing.merge rules origin e).fault = some fault ∧
      (mergeOne rules origin t e).value = Roster.put t (existing.merge rules origin e).value := by
  rw [mergeOne_eq] at h ⊢
  unfold joined at h ⊢
  cases hfound : Roster.find? t e.name with
  | none =>
    rw [hfound] at h
    cases h
  | some existing =>
    rw [hfound] at h
    exact ⟨existing, rfl, h, rfl⟩

theorem keys_of_fault_mergeOne (h : (mergeOne rules origin t e).fault = some fault) :
    Roster.keys (mergeOne rules origin t e).value = Roster.keys t := by
  obtain ⟨existing, hfound, -, hvalue⟩ := exists_of_fault_mergeOne h
  have hname := (name_merge rules origin existing e).trans (Roster.key_of_find? hfound)
  have hmem : e.name ∈ Roster.keys t := Roster.find?_isSome_iff.mp (Option.isSome_of_eq_some hfound)
  rw [hvalue, Roster.keys_put_eq_addNew, Extension.key_eq, hname, addNew, if_pos hmem]

theorem mergeOne_of_mismatch (h : (mergeOne rules origin t e).fault = some fault)
    (hfault : fault.isMismatch) : (mergeOne rules origin t e).value = t := by
  obtain ⟨existing, hfound, hmerge, hvalue⟩ := exists_of_fault_mergeOne h
  rw [hvalue, Extension.merge_of_mismatch hmerge hfault]
  have hname : existing.name = e.name := Roster.key_of_find? hfound
  rw [← hname] at hfound
  exact Roster.put_of_find? hfound

theorem exists_stopsAt (h : (merge rules origin t source).fault = some fault) :
    ∃ before x after u, StopsAt rules origin t source fault before x after u
      (merge rules origin t source).value := by
  obtain ⟨before, x, after, u, hsource, hu, hfault, hvalue⟩ := exists_of_fault_each h
  have hbefore : ∀ name, name ∉ Roster.keys before →
      Roster.find? u name = Roster.find? t name := by
    intro name hname
    have hkept := find?_merge_of_not_mem rules origin t hname
    rwa [merge, hu] at hkept
  have hstep : (merge rules origin t source).value = (mergeOne rules origin u x).value :=
    congrArg Outcome.value hvalue
  have hothers : ∀ name, name ≠ x.name →
      Roster.find? (mergeOne rules origin u x).value name = Roster.find? u name :=
    fun name => find?_mergeOne_of_ne rules origin u
  rw [hstep]
  refine ⟨before, x, after, u, hsource, hu, eq_failed_of_fault hfault,
    keys_of_fault_mergeOne hfault, hothers, ?_, mergeOne_of_mismatch hfault, ?_⟩
  · exact fun name hname hne => (hothers name hne).trans (hbefore name hname)
  · intro hmismatch hname
    rw [mergeOne_of_mismatch hfault hmismatch, hbefore _ hname]

end Extensions

namespace Draft
variable {ctx : MergeContext} {d : Draft}

def mergeAllExtensions (ctx : MergeContext) (rules : List OverrideRule) (fs : List Feature)
    (d : Draft) : Outcome MergeError Draft :=
  each (fun d f => d.mergeExtensions ctx rules f) d fs

theorem mergeAllExtensions_eq (hctx : ctx.mergeHandlers = []) (rules : List OverrideRule)
    (fs : List Feature) (d : Draft) :
    d.mergeAllExtensions ctx rules fs =
      (Extensions.mergeSeries rules d.feature.extensions (Extensions.contributions fs)).map
        fun t => d.mapExtensions fun _ => t := by
  rw [Extensions.mergeSeries, Extensions.contributions, each_flatMap, mergeAllExtensions]
  induction fs generalizing d with
  | nil => rfl
  | cons f fs ih =>
    have hone : each (fun t s => Extensions.mergeOne rules s.1 t s.2) d.feature.extensions
        (f.extensions.map fun e => (f.id, e)) =
          Extensions.merge rules f.id d.feature.extensions f.extensions := each_map ..
    rw [each_cons, each_cons, mergeExtensions_eq hctx, hone]
    rcases Extensions.merge rules f.id d.feature.extensions f.extensions with ⟨l, _ | fault⟩
    · exact ih (d.mapExtensions fun _ => l)
    · rfl

theorem exists_isMerged (hctx : ctx.mergeHandlers = []) {rules : List OverrideRule}
    {fs : List Feature} (hjson : ∀ f ∈ fs, ∀ e ∈ f.extensions, ∀ c, e.content = .json c → c.Valid)
    (hd : d.feature.extensions = []) {r : Draft} (h : d.mergeAllExtensions ctx rules fs = done r) :
    ∃ t, r = d.mapExtensions (fun _ => t) ∧
      Extensions.IsMerged rules (Extensions.contributions fs) t := by
  rw [mergeAllExtensions_eq hctx, hd] at h
  obtain ⟨t, ht, rfl⟩ := map_eq_done_iff.mp h
  refine ⟨t, rfl, Extensions.isMerged_of_mergeSeries (fun s hs => ?_) ht⟩
  obtain ⟨f, hf, hs⟩ := List.mem_flatMap.mp hs
  obtain ⟨e, he, rfl⟩ := List.mem_map.mp hs
  exact hjson f hf e he

/-- What merges without handlers make of the extensions of features, starting with none: all of them
together, or, after a fault, what the features before one have made, with that one begun. -/
theorem mergeAllExtensions_gathers (hctx : ctx.mergeHandlers = []) (rules : List OverrideRule)
    {fs : List Feature} (hjson : ∀ f ∈ fs, ∀ e ∈ f.extensions, ∀ c, e.content = .json c → c.Valid)
    (hd : d.feature.extensions = []) :
    (∀ r, d.mergeAllExtensions ctx rules fs = done r → ∃ t, r = d.mapExtensions (fun _ => t) ∧
      Extensions.IsMerged rules (Extensions.contributions fs) t) ∧
    ∀ fault, (d.mergeAllExtensions ctx rules fs).fault = some fault →
      ∃ merged f rest t before x after u r, fs = merged ++ f :: rest ∧
        d.mergeAllExtensions ctx rules merged = done (d.mapExtensions fun _ => t) ∧
        Extensions.IsMerged rules (Extensions.contributions merged) t ∧
        Extensions.StopsAt rules f.id t f.extensions fault before x after u r ∧
        (d.mergeAllExtensions ctx rules fs).value = d.mapExtensions fun _ => r := by
  refine ⟨fun r => exists_isMerged hctx hjson hd, fun fault h => ?_⟩
  obtain ⟨merged, f, rest, b, rfl, hmerged, hfault, hvalue⟩ := exists_of_fault_each h
  have hearlier : ∀ g ∈ merged, ∀ e ∈ g.extensions, ∀ c, e.content = .json c → c.Valid :=
    fun g hg => hjson g (List.mem_append_left _ hg)
  obtain ⟨t, rfl, ht⟩ := exists_isMerged hctx hearlier hd hmerged
  rw [mergeExtensions_eq hctx] at hfault hvalue
  obtain ⟨before, x, after, u, hstops⟩ := Extensions.exists_stopsAt hfault
  exact ⟨merged, f, rest, t, before, x, after, u, _, rfl, hmerged, ht, hstops,
    congrArg Outcome.value hvalue⟩

end Draft

namespace Sample

def annotated (name : String) (state : ExtensionState) (notes : String) : Feature :=
  { Feature.ofId (id name) with
    extensions := [⟨"data", .transient, .json ⟨.array [.null], "[null]"⟩⟩,
      ⟨"notes", state, .text notes⟩] }

def misplaced : Feature :=
  { Feature.ofId (id "c") with
    extensions := [⟨"more", .optional, .text ""⟩, ⟨"data", .required, .text ""⟩,
      ⟨"notes", .required, .text "three"⟩] }

def drafted : Draft := ⟨Feature.ofId (id "f"), []⟩

def series : List Feature := [annotated "a" .optional "one", annotated "b" .transient "two"]

def mixed : List Feature := series ++ [misplaced]

def gathered (fs : List Feature) : Outcome MergeError Draft :=
  Draft.mergeAllExtensions .empty [] fs drafted

theorem valid_mixed : ∀ f ∈ mixed, ∀ e ∈ f.extensions, ∀ c, e.content = .json c → c.Valid := by
  intro f hf e he c hc
  simp only [mixed, series, List.cons_append, List.nil_append, List.mem_cons, List.not_mem_nil,
    or_false] at hf
  rcases hf with rfl | rfl | rfl <;>
    simp only [annotated, misplaced, List.mem_cons, List.not_mem_nil, or_false] at he
  · rcases he with rfl | rfl <;> cases hc
    exact ⟨rfl, rfl⟩
  · rcases he with rfl | rfl <;> cases hc
    exact ⟨rfl, rfl⟩
  · rcases he with rfl | rfl | rfl <;> cases hc

theorem valid_series : ∀ f ∈ series, ∀ e ∈ f.extensions, ∀ c, e.content = .json c → c.Valid :=
  fun f hf => valid_mixed f (List.mem_append_left _ hf)

end Sample

theorem Draft.mergeAllExtensions_series_gathers :
    (Sample.gathered Sample.series).fault = none ∧
    Roster.find? (Sample.gathered Sample.series).value.feature.extensions "notes" =
      some ⟨"notes", .optional, .text "one\ntwo"⟩ ∧
    Extensions.IsMerged [] (Extensions.contributions Sample.series)
      (Sample.gathered Sample.series).value.feature.extensions ∧
    (Sample.gathered Sample.mixed).fault = some (.extensionKindMismatch "data" .json .text) ∧
    Roster.keys (Sample.gathered Sample.mixed).value.feature.extensions =
      ["data", "notes", "more"] ∧
    ∃ (f : Feature) (t before after u : List Extension) (x : Extension),
      Extensions.StopsAt [] f.id t f.extensions (.extensionKindMismatch "data" .json .text)
        before x after u (Sample.gathered Sample.mixed).value.feature.extensions := by
  have hdone : (Sample.gathered Sample.series).fault = none := rfl
  have hfault : (Sample.gathered Sample.mixed).fault =
      some (.extensionKindMismatch "data" .json .text) := rfl
  have hempty : MergeContext.empty.mergeHandlers = [] := rfl
  have hnone : Sample.drafted.feature.extensions = [] := rfl
  obtain ⟨hseries, -⟩ := mergeAllExtensions_gathers hempty [] Sample.valid_series hnone
  obtain ⟨-, hmixed⟩ := mergeAllExtensions_gathers hempty [] Sample.valid_mixed hnone
  obtain ⟨t, ht, hmerged⟩ := hseries _ (eq_done_of_fault hdone)
  obtain ⟨_, f, _, t', before, x, after, u, r, -, -, -, hstops, hr⟩ := hmixed _ hfault
  have hextensions : ∀ {r : Draft} {t : List Extension},
      r = Sample.drafted.mapExtensions (fun _ => t) → r.feature.extensions = t :=
    fun h => congrArg (fun d : Draft => d.feature.extensions) h
  refine ⟨hdone, rfl, ?_, hfault, rfl, f, t', before, after, u, x, ?_⟩
  · rwa [Sample.gathered, hextensions ht]
  · rwa [Sample.gathered, hextensions hr]

end FeatureAssembly
