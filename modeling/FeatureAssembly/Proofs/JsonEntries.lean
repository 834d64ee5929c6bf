import FeatureAssembly.Json.Reader
import FeatureAssembly.Proofs.LocalSteps

/-! The deep merge of JSON values, without the paths that it reports: two values are merged if both
are plain, both are arrays or both are objects. Objects are merged by a run over the entries of the
second one, each step of which reads and changes only what is under the name of its entry. -/

namespace FeatureAssembly.Json
open Outcome

theorem induction_on_entries {P : Json → Prop}
    (h : ∀ v, (∀ fields, v = .object fields → ∀ e ∈ fields, P e.2) → P v) (v : Json) : P v := by
  refine h v fun fields hv e he => ?_
  have hsize : sizeOf e.2 < sizeOf v := by
    have hentry : sizeOf e < sizeOf fields := List.sizeOf_lt_of_mem he
    obtain ⟨name, w⟩ := e
    rw [hv]
    simp only [Prod.mk.sizeOf_spec, Json.object.sizeOf_spec] at hentry ⊢
    omega
  exact induction_on_entries h e.2
termination_by sizeOf v

inductive Distinct : Json → Prop
  | plain {v : Json} (h : v.isContainer = false) : Distinct v
  | array {items : List Json} (h : ∀ v ∈ items, Distinct v) : Distinct (.array items)
  | object {fields : List (String × Json)} (names : Roster.Distinct fields)
      (h : ∀ e ∈ fields, Distinct e.2) : Distinct (.object fields)

theorem forall_mem_set {P : Json → Prop} {t : Table Json} (ht : ∀ e ∈ t, P e.2) (name : String)
    {v : Json} (hv : P v) : ∀ e ∈ Table.set t name v, P e.2 := by
  intro e he
  rcases Roster.mem_put he with rfl | he
  · exact hv
  · exact ht e he

mutual

theorem distinct_distinct : ∀ v : Json, (distinct v).Distinct
  | .null => .plain rfl
  | .bool _ => .plain rfl
  | .number _ => .plain rfl
  | .string _ => .plain rfl
  | .array items => .array (distinct_distinctItems items)
  | .object fields =>
    have h := distinct_distinctFields fields Roster.distinct_nil fun _ h => absurd h List.not_mem_nil
    .object h.1 h.2

theorem distinct_distinctItems : ∀ items : List Json, ∀ v ∈ distinctItems items, v.Distinct
  | [], _, h => absurd h List.not_mem_nil
  | v :: items, w, h => by
    rcases List.mem_cons.mp h with rfl | h
    · exact distinct_distinct v
    · exact distinct_distinctItems items w h

theorem distinct_distinctFields : ∀ (fields : Table Json) {seen : Table Json},
    Roster.Distinct seen → (∀ e ∈ seen, e.2.Distinct) →
      Roster.Distinct (distinctFields seen fields) ∧ ∀ e ∈ distinctFields seen fields, e.2.Distinct
  | [], _, hnames, hvalues => ⟨hnames, hvalues⟩
  | (name, v) :: fields, _, hnames, hvalues =>
    distinct_distinctFields fields (hnames.put _) (forall_mem_set hvalues name (distinct_distinct v))

end

theorem distinct_of_read? {s : String} {v : Json} (h : read? s = some v) : v.Distinct := by
  obtain ⟨raw, -, rfl⟩ := Option.map_eq_some_iff.mp h
  exact distinct_distinct raw

def Mismatch.under (path : List String) (m : Mismatch) : Mismatch :=
  { m with path := path ++ m.path }

theorem Mismatch.under_append (path rest : List String) (m : Mismatch) :
    m.under (path ++ rest) = (m.under rest).under path :=
  congrArg (Mismatch.mk · m.existing m.incoming) (List.append_assoc ..)

def joined : Option Json → Json → Except Mismatch Json
  | none, incoming => .ok incoming
  | some existing, incoming => merge existing incoming

def mergeEntry (present merged : Table Json) (e : String × Json) :
    Outcome Mismatch (Table Json) :=
  (ofExcept merged ((joined (Table.get? present e.1) e.2).map (Table.set merged e.1))).mapFault
    (Mismatch.under [e.1])

def mergeTable (present fields : Table Json) : Outcome Mismatch (Table Json) :=
  each (mergeEntry present) present fields

theorem mergeAt_of_plain {source : Json} (h : source.isContainer = false) (path : List String)
    (target : Json) : mergeAt path target source =
      if target.isContainer then .error ⟨path, target.kind, source.kind⟩ else .ok source := by
  cases source with
  | array items => cases h
  | object fields => cases h
  | _ => rfl

theorem mergeFields_eq_each {fields : Table Json} (h : ∀ e ∈ fields, ∀ path target,
    mergeAt path target e.2 = (merge target e.2).mapError (Mismatch.under path))
    (path : List String) (present merged : Table Json) :
    mergeFields path present merged fields =
      ((each (mergeEntry present) merged fields).mapFault (Mismatch.under path)).toExcept := by
  induction fields generalizing merged with
  | nil => rfl
  | cons e fields ih =>
    have hrest := ih fun x hx => h x (List.mem_cons_of_mem _ hx)
    obtain ⟨name, v⟩ := e
    rw [mergeFields, each_cons, mergeEntry]
    cases Table.get? present name with
    | none => exact hrest _
    | some w =>
      dsimp only [joined]
      rw [h _ (List.mem_cons_self ..)]
      cases merge w v with
      | error m => exact congrArg Except.error (Mismatch.under_append path [name] m)
      | ok u => exact hrest _

theorem mergeAt_eq (path : List String) (target source : Json) :
    mergeAt path target source = (merge target source).mapError (Mismatch.under path) := by
  induction source using induction_on_entries generalizing path target with
  | h source ih =>
    cases source with
    | object fields =>
      cases target with
      | object present =>
        rw [merge, mergeAt, mergeAt, mergeFields_eq_each (ih fields rfl),
          mergeFields_eq_each (ih fields rfl)]
        obtain ⟨r, _ | m⟩ := each (mergeEntry present) present fields <;> rfl
      | _ => simp [merge, mergeAt, Except.mapError, Mismatch.under]
    | array items => cases target <;> simp [merge, mergeAt, Except.mapError, Mismatch.under]
    | _ => cases target <;> simp [merge, mergeAt, Except.mapError, Mismatch.under, isContainer]

theorem merge_object (present fields : Table Json) :
    merge (.object present) (.object fields) =
      (mergeTable present fields).toExcept.map .object := by
  have hentries : ∀ e ∈ fields, ∀ path target,
      mergeAt path target e.2 = (merge target e.2).mapError (Mismatch.under path) :=
    fun e _ path target => mergeAt_eq path target e.2
  rw [merge, mergeAt, mergeFields_eq_each hentries, mergeTable]
  obtain ⟨r, _ | m⟩ := each (mergeEntry present) present fields <;> rfl

/-! What values are merged into. -/

section
variable {target source v : Json}

def merge? (target source : Json) : Option Json := (merge target source).toOption

theorem merge?_eq_some_iff : merge? target source = some v ↔ merge target source = .ok v := by
  unfold merge?
  cases merge target source <;> simp [Except.toOption]

theorem merge?_object (present fields : Table Json) :
    merge? (.object present) (.object fields) = (mergeTable present fields).toOption.map .object := by
  rw [merge?, merge_object]
  obtain ⟨r, _ | m⟩ := mergeTable present fields <;> rfl

/-- The value that two values are merged into: of plain values the second, the items of both arrays,
or the merged entries of both objects. -/
inductive Merges : Json → Json → Json → Prop
  | plain {target source : Json} (ht : target.isContainer = false)
      (hs : source.isContainer = false) : Merges target source source
  | array (present items : List Json) :
      Merges (.array present) (.array items) (.array (present ++ items))
  | object {present fields r : Table Json} (h : (mergeTable present fields).toOption = some r) :
      Merges (.object present) (.object fields) (.object r)

theorem merge?_eq_some_iff_merges : merge? target source = some v ↔ Merges target source v := by
  constructor
  · intro h
    cases source with
    | object fields =>
      cases target with
      | object present =>
        rw [merge?_object] at h
        obtain ⟨r, hr, rfl⟩ := Option.map_eq_some_iff.mp h
        exact .object hr
      | _ => cases h
    | array items =>
      cases target with
      | array present =>
        obtain rfl := Option.some.inj h
        exact .array present items
      | _ => cases h
    | _ =>
      cases target with
      | array present => cases h
      | object present => cases h
      | _ =>
        obtain rfl := Option.some.inj h
        exact .plain rfl rfl
  · intro h
    cases h with
    | plain ht hs => rw [merge?_eq_some_iff, merge, mergeAt_of_plain hs, if_neg (by simp [ht])]
    | array present items => rfl
    | object h => rw [merge?_object, h, Option.map_some]

theorem Merges.isContainer (h : Merges target source v) :
    target.isContainer = v.isContainer ∧ source.isContainer = v.isContainer := by
  cases h with
  | plain ht hs => exact ⟨ht.trans hs.symm, rfl⟩
  | array => exact ⟨rfl, rfl⟩
  | object => exact ⟨rfl, rfl⟩

theorem isContainer_of_merge (hs : source.isContainer) (h : merge target source = .ok v) :
    v.isContainer := by
  have hmerges := merge?_eq_some_iff_merges.mp (merge?_eq_some_iff.mpr h)
  rw [← hmerges.isContainer.2, hs]

end

/-! The run over the entries. -/

theorem keys_mergeEntry {present t t' : Table Json} {e : String × Json}
    (h : mergeEntry present t e = done t') : Roster.keys t' = addNew (Roster.keys t) e.1 := by
  rw [mergeEntry, mapFault_eq_done_iff] at h
  cases hjoined : joined (Table.get? present e.1) e.2 with
  | error m =>
    rw [hjoined] at h
    cases (eq_done_iff.mp h).2
  | ok u =>
    rw [hjoined] at h
    obtain rfl : Table.set t e.1 u = t' := (eq_done_iff.mp h).1
    exact Roster.keys_put_eq_addNew t (e.1, u)

def joinedEntry (present : Table Json) (e : String × Json) (found : Option Json) :
    Outcome Mismatch (Option Json) :=
  (ofExcept found ((joined (Table.get? present e.1) e.2).map some)).mapFault (Mismatch.under [e.1])

theorem isLocalStep_mergeEntry (present : Table Json) :
    Roster.IsLocalStep Table.get? (joinedEntry present) (mergeEntry present) where
  fault t e := by
    unfold mergeEntry joinedEntry
    cases joined (Table.get? present e.1) e.2 <;> rfl
  view t e name := by
    rw [mergeEntry, Table.key_eq]
    unfold joinedEntry
    cases joined (Table.get? present e.1) e.2 with
    | error m => exact (ite_self _).symm
    | ok u => exact Table.get?_set t e.1 name u

end FeatureAssembly.Json
