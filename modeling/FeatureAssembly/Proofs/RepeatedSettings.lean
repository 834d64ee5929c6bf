import FeatureAssembly.Proofs.ContextAnswers
import FeatureAssembly.Proofs.LocalSteps
import FeatureAssembly.Settings.Basic

/-! Settings applied twice. The rules and patterns of the settings come twice into the context, where the
second ones are never the first to match, and tables overlaid a second time stay as they are, so that
the context answers as after the first time and assembles the same. -/

namespace FeatureAssembly

namespace Roster
variable {α κ : Type} [Keyed α κ] [DecidableEq κ]

theorem put_put {x y : α} (h : (Keyed.key x : κ) = Keyed.key y) (l : List α) :
    put (put l x) y = put l y := by
  induction l with
  | nil => exact if_pos h
  | cons z l ih =>
    by_cases hz : Keyed.key z = Keyed.key x
    · rw [put, if_pos hz, put, put, if_pos h, if_pos (hz.trans h)]
    · have hy : Keyed.key z ≠ Keyed.key y := fun heq => hz (heq.trans h.symm)
      rw [put, if_neg hz, put, put, if_neg hy, if_neg hy, ih]

theorem put_comm {l : List α} {x y : α} (hx : Keyed.key x ∈ keys l)
    (hne : (Keyed.key x : κ) ≠ Keyed.key y) : put (put l x) y = put (put l y) x := by
  induction l with
  | nil => cases hx
  | cons z l ih =>
    by_cases hz : Keyed.key z = Keyed.key x
    · have hy : Keyed.key z ≠ Keyed.key y := fun heq => hne (hz.symm.trans heq)
      rw [put, if_pos hz, put, if_neg hne, put, if_neg hy, put, if_pos hz]
    · have htail := (List.mem_cons.mp hx).resolve_left (Ne.symm hz)
      by_cases hy : Keyed.key z = Keyed.key y
      · rw [put, if_neg hz, put, if_pos hy, put, if_pos hy, put, if_neg hne.symm]
      · rw [put, if_neg hz, put, if_neg hy, put, if_neg hy, put, if_neg hz, ih htail]

theorem mem_keys_putAll {l xs : List α} {k : κ} :
    k ∈ keys (putAll l xs) ↔ k ∈ keys l ∨ k ∈ keys xs := by
  induction xs generalizing l with
  | nil => simp [putAll]
  | cons x xs ih =>
    rw [putAll, List.foldl_cons, ← putAll, ih, keys_put_eq_addNew, mem_addNew, keys_cons, List.mem_cons,
      or_assoc]

theorem find?_putAll_of_not_mem {l xs : List α} {k : κ} (h : k ∉ keys xs) :
    find? (putAll l xs) k = find? l k := by
  induction xs generalizing l with
  | nil => rfl
  | cons x xs ih =>
    rw [keys_cons, List.mem_cons, not_or] at h
    rw [putAll, List.foldl_cons, ← putAll, ih h.2, find?_put, if_neg (Ne.symm h.1)]

/-- Under a name that is there, a value put first is as good as one put last, if none of the others
replaces it. -/
theorem putAll_put {l : List α} {x : α} (hx : Keyed.key x ∈ keys l) (xs : List α) :
    putAll (put l x) xs =
      if Keyed.key x ∈ keys xs then putAll l xs else put (putAll l xs) x := by
  induction xs generalizing l with
  | nil => rfl
  | cons y xs ih =>
    change putAll (put (put l x) y) xs = _
    by_cases hxy : Keyed.key x = Keyed.key y
    · rw [put_put hxy, keys_cons, if_pos (List.mem_cons.mpr (.inl hxy))]
      rfl
    · have hput : Keyed.key x ∈ keys (put l y) := by
        rw [keys_put_eq_addNew]
        exact mem_addNew.mpr (.inl hx)
      rw [put_comm hx hxy, ih hput, keys_cons]
      simp only [List.mem_cons, hxy, false_or]
      rfl

theorem putAll_putAll (l xs : List α) : putAll (putAll l xs) xs = putAll l xs := by
  induction xs generalizing l with
  | nil => rfl
  | cons x xs ih =>
    change putAll (put (putAll (put l x) xs) x) xs = putAll (put l x) xs
    have hx : Keyed.key x ∈ keys (putAll (put l x) xs) := by
      refine mem_keys_putAll.mpr (.inl ?_)
      rw [keys_put_eq_addNew]
      exact mem_addNew.mpr (.inr rfl)
    rw [putAll_put hx, ih]
    split_ifs with hmem
    · rfl
    · refine put_of_find? ?_
      rw [find?_putAll_of_not_mem hmem, find?_put, if_pos rfl]

end Roster

namespace Table
variable {α : Type}

theorem overlay_append (t u v : Table α) : overlay t (u ++ v) = overlay (overlay t u) v :=
  List.foldl_append

theorem overlay_overlay (t u : Table α) : overlay (overlay t u) u = overlay t u :=
  Roster.putAll_putAll t u

end Table

namespace Settings

def entriesFor (u : Table (Table String)) (id : String) : Table String :=
  (u.filter fun e => e.1 = id).flatMap Prod.snd

theorem entriesFor_cons (e : String × Table String) (u : Table (Table String)) (id : String) :
    entriesFor (e :: u) id = (if e.1 = id then e.2 else []) ++ entriesFor u id := by
  by_cases h : e.1 = id <;> simp [entriesFor, h]

theorem entriesFor_of_not_mem {u : Table (Table String)} {id : String} (h : id ∉ Roster.keys u) :
    entriesFor u id = [] := by
  have hnone : (u.filter fun e => e.1 = id) = [] := by
    refine List.filter_eq_nil_iff.mpr fun e he heq => h ?_
    exact of_decide_eq_true heq ▸ List.mem_map_of_mem he
  rw [entriesFor, hnone, List.flatMap_nil]

theorem get?_overlayHandlers (t u : Table (Table String)) (id : String) :
    Table.get? (u.foldl overlayHandler t) id =
      if id ∈ Roster.keys u then
        some (Table.overlay ((Table.get? t id).getD []) (entriesFor u id))
      else Table.get? t id := by
  induction u generalizing t with
  | nil => rfl
  | cons e u ih =>
    rw [List.foldl_cons, ih, overlayHandler, Table.get?_set, Roster.keys_cons, Table.key_eq,
      entriesFor_cons]
    by_cases he : e.1 = id
    · subst he
      rw [if_pos rfl, if_pos rfl, Option.getD_some, if_pos (List.mem_cons_self ..),
        Table.overlay_append]
      split_ifs with hmem
      · rfl
      · rw [entriesFor_of_not_mem hmem]
        rfl
    · rw [if_neg he, if_neg he, List.nil_append]
      simp only [List.mem_cons, Ne.symm he, false_or]

theorem get?_overlayHandlers_twice (t u : Table (Table String)) (id : String) :
    Table.get? (u.foldl overlayHandler (u.foldl overlayHandler t)) id =
      Table.get? (u.foldl overlayHandler t) id := by
  rw [get?_overlayHandlers, get?_overlayHandlers]
  split_ifs
  · rw [Option.getD_some, Table.overlay_overlay]
  · rfl

end Settings

/-! Rules and patterns that are there already are never the first ones to match. -/

theorem find?_append_append {α : Type} (p : α → Bool) (l m : List α) :
    (l ++ m ++ m).find? p = (l ++ m).find? p := by
  rw [List.find?_append, List.find?_append, Option.or_assoc, Option.or_self]

theorem MergeContext.apply_apply_agrees (ctx : MergeContext) (s : Settings) :
    ((ctx.apply s).apply s).Agree (ctx.apply s) where
  rules existing incoming := by
    have hfirst := fun p => find?_append_append p ctx.rules s.rules
    simp only [OverrideRule.find?, apply, hfirst]
  policies pid := by
    rw [ConfigurationPolicies.policyFor?, ConfigurationPolicies.policyFor?]
    exact congrArg (Option.map Prod.snd) (find?_append_append _ ctx.policies s.policies)
  variableOverrides key :=
    congrArg (Table.get? · key) (Table.overlay_overlay ctx.variableOverrides s.variableOverrides)
  frameworkOverrides key :=
    congrArg (Table.get? · key) (Table.overlay_overlay ctx.frameworkOverrides s.frameworkOverrides)
  view id := by
    have htwice := Settings.get?_overlayHandlers_twice ctx.handlerConfiguration s.handlerConfiguration
    simp only [view, configurationOf, apply, htwice]
  mergeHandlers := rfl
  postHandlers := rfl

theorem AssemblyContext.apply_apply_agrees (ctx : AssemblyContext) (s : Settings) :
    ((ctx.apply s).apply s).Agree (ctx.apply s) where
  catalogue := rfl
  merge := ctx.merge.apply_apply_agrees s
  substitutes := by
    unfold apply
    cases s.substitutes <;> rfl

/-- Applying settings a second time changes no answer of the context, and hence nothing that is
assembled. -/
theorem AssemblyContext.apply_twice_assembles_alike (ctx : AssemblyContext) (s : Settings) :
    ((ctx.apply s).apply s).Agree (ctx.apply s) ∧
      (∀ f, assemble ((ctx.apply s).apply s) f = assemble (ctx.apply s) f) ∧
      ∀ id features,
        assembleMany ((ctx.apply s).apply s) id features = assembleMany (ctx.apply s) id features := by
  have hagree := ctx.apply_apply_agrees s
  refine ⟨hagree, fun f => ?_, fun id features => ?_⟩
  · rw [assemble_congr hagree]
  · rw [assembleMany_congr hagree]

end FeatureAssembly
