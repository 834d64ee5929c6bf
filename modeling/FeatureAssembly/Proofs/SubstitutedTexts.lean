import FeatureAssembly.Feature.Substitution
import FeatureAssembly.Proofs.StructuralErrors
import Mathlib.Data.List.Forall2

/-! What substitution changes in a feature: the values of framework properties, all or none of them,
and the texts of configurations, one after the other up to the first that cannot be substituted. -/

namespace FeatureAssembly
open Outcome

namespace Outcome
variable {ε α β : Type} {f : α → Outcome ε α}

theorem traverse_cons (f : α → Outcome ε α) (a : α) (as : List α) :
    traverse f (a :: as) = (f a).chain (· :: as) fun b => (traverse f as).map (b :: ·) := by
  rw [traverse, chain]

theorem traverse_append (f : α → Outcome ε α) (as bs : List α) :
    traverse f (as ++ bs) =
      (traverse f as).chain (· ++ bs) fun cs => (traverse f bs).map (cs ++ ·) := by
  induction as with
  | nil => rfl
  | cons a as ih =>
    rw [List.cons_append, traverse_cons, traverse_cons, ih]
    obtain ⟨b, _ | e⟩ := f a
    · obtain ⟨cs, _ | e⟩ := traverse f as <;> rfl
    · rfl

/-- What a change makes of its argument if it succeeds, and in any case. -/
structure Rewrites (whole partly : α → α → Prop) (f : α → Outcome ε α) : Prop where
  done : ∀ a b, f a = done b → whole a b
  value : ∀ a, partly a (f a).value

theorem Rewrites.traverse {whole partly : α → α → Prop} (h : Rewrites whole partly f)
    (hsame : ∀ a, partly a a) :
    Rewrites (List.Forall₂ whole) (List.Forall₂ partly) (traverse f) where
  done as bs hdone := by
    induction as generalizing bs with
    | nil => exact (eq_done_iff.mp hdone).1 ▸ .nil
    | cons a as ih =>
      rw [traverse_cons] at hdone
      obtain ⟨b, hb, hrest⟩ := chain_eq_done_iff.mp hdone
      obtain ⟨cs, hcs, rfl⟩ := map_eq_done_iff.mp hrest
      exact .cons (h.done a b hb) (ih cs hcs)
  value as := by
    induction as with
    | nil => exact .nil
    | cons a as ih =>
      have ha := h.value a
      rw [traverse_cons]
      generalize f a = o at ha ⊢
      obtain ⟨b, _ | e⟩ := o
      · exact .cons ha ih
      · exact .cons ha (List.forall₂_same.mpr fun a _ => hsame a)

theorem map_flatMap_traverse {parts : α → List β} {g : β → Outcome ε β}
    (h : ∀ a, (f a).map parts = traverse g (parts a)) (as : List α) :
    (traverse f as).map (List.flatMap parts) = traverse g (as.flatMap parts) := by
  induction as with
  | nil => rfl
  | cons a as ih =>
    rw [List.flatMap_cons, traverse_append, traverse_cons, ← h a, ← ih]
    obtain ⟨b, _ | e⟩ := f a <;> rfl

theorem exists_of_fault_traverse {as : List α} {e : ε} (h : (traverse f as).fault = some e) :
    ∃ before a after before', as = before ++ a :: after ∧
      List.Forall₂ (fun a b => f a = done b) before before' ∧ (f a).fault = some e ∧
      (traverse f as).value = before' ++ (f a).value :: after := by
  induction as with
  | nil => cases h
  | cons a as ih =>
    rw [traverse_cons] at h ⊢
    cases ha : (f a).fault with
    | some e' =>
      have hstop : (f a).chain (· :: as) (fun b => (traverse f as).map (b :: ·)) =
          failed ((f a).value :: as) e' := by rw [chain, ha]
      rw [hstop] at h ⊢
      exact ⟨[], a, as, [], rfl, .nil, ha.trans h, rfl⟩
    | none =>
      have hdone := eq_done_of_fault ha
      rw [hdone, done_chain] at h ⊢
      obtain ⟨before, x, after, before', rfl, hbefore, hx, hvalue⟩ := ih h
      refine ⟨a :: before, x, after, (f a).value :: before', rfl, .cons hdone hbefore, hx, ?_⟩
      rw [value_map, hvalue, List.cons_append]

theorem exists_traverse_iff {as : List α} :
    (∃ bs, traverse f as = done bs) ↔ ∀ a ∈ as, ∃ b, f a = done b := by
  induction as with
  | nil => exact ⟨fun _ _ ha => absurd ha List.not_mem_nil, fun _ => ⟨[], rfl⟩⟩
  | cons a as ih =>
    rw [List.forall_mem_cons, ← ih, traverse_cons]
    simp only [chain_eq_done_iff, map_eq_done_iff]
    constructor
    · rintro ⟨_, b, hb, bs, hbs, -⟩
      exact ⟨⟨b, hb⟩, bs, hbs⟩
    · rintro ⟨⟨b, hb⟩, bs, hbs⟩
      exact ⟨b :: bs, b, hb, bs, hbs, rfl⟩

end Outcome

/-! Texts. -/

namespace ConfigValue

def texts : ConfigValue → List String
  | .string s => [s]
  | .strings ss => ss
  | _ => []

/-- Whether two values differ at most in their texts, of which those in one place are related. -/
inductive Rewritten (R : String → String → Prop) : ConfigValue → ConfigValue → Prop where
  | string {s t} (text : R s t) : Rewritten R (.string s) (.string t)
  | strings {ss ts} (items : List.Forall₂ R ss ts) : Rewritten R (.strings ss) (.strings ts)
  | other {v} (no_string : ∀ s, v ≠ .string s) (no_strings : ∀ ss, v ≠ .strings ss) :
      Rewritten R v v

end ConfigValue

namespace Configuration

def texts (c : Configuration) : List String := c.properties.flatMap fun e => e.2.texts

structure Rewritten (R : String → String → Prop) (c d : Configuration) : Prop where
  properties : List.Forall₂ (fun e e' => e'.1 = e.1 ∧ ConfigValue.Rewritten R e.2 e'.2)
    c.properties d.properties
  others : d = { c with properties := d.properties }

end Configuration

section
variable {whole partly : String → String → Prop} {replace : String → Outcome MergeError String}

theorem ConfigValue.rewrites_replaceTexts (h : Rewrites whole partly replace)
    (hsame : ∀ s, partly s s) :
    Rewrites (Rewritten whole) (Rewritten partly) (replaceTexts replace) where
  done v w hdone := by
    cases v with
    | string s =>
      obtain ⟨t, ht, rfl⟩ := map_eq_done_iff.mp hdone
      exact .string (h.done s t ht)
    | strings ss =>
      obtain ⟨ts, hts, rfl⟩ := map_eq_done_iff.mp hdone
      exact .strings ((h.traverse hsame).done ss ts hts)
    | _ =>
      obtain rfl := (eq_done_iff.mp hdone).1
      exact .other (fun _ => nofun) fun _ => nofun
  value v := by
    cases v with
    | string s => exact .string (h.value s)
    | strings ss => exact .strings ((h.traverse hsame).value ss)
    | _ => exact .other (fun _ => nofun) fun _ => nofun

theorem ConfigValue.Rewritten.refl {R : String → String → Prop} (hR : ∀ s, R s s)
    (v : ConfigValue) : Rewritten R v v := by
  cases v with
  | string s => exact .string (hR s)
  | strings ss => exact .strings (List.forall₂_same.mpr fun s _ => hR s)
  | _ => exact .other (fun _ => nofun) fun _ => nofun

theorem Configuration.rewrites_replaceTexts (h : Rewrites whole partly replace)
    (hsame : ∀ s, partly s s) :
    Rewrites (Rewritten whole) (Rewritten partly) (replaceTexts replace) := by
  have hvalue := ConfigValue.rewrites_replaceTexts h hsame
  have hentry : Rewrites (fun e e' => e'.1 = e.1 ∧ ConfigValue.Rewritten whole e.2 e'.2)
      (fun e e' => e'.1 = e.1 ∧ ConfigValue.Rewritten partly e.2 e'.2)
      fun e : String × ConfigValue => (e.2.replaceTexts replace).map fun v => (e.1, v) := by
    refine ⟨fun e e' hdone => ?_, fun e => ⟨rfl, hvalue.value e.2⟩⟩
    obtain ⟨v, hv, rfl⟩ := map_eq_done_iff.mp hdone
    exact ⟨rfl, hvalue.done e.2 v hv⟩
  have hentries := hentry.traverse fun e => ⟨rfl, .refl hsame e.2⟩
  refine ⟨fun c d hdone => ?_, fun c => ⟨hentries.value c.properties, rfl⟩⟩
  obtain ⟨properties, hproperties, rfl⟩ := map_eq_done_iff.mp hdone
  exact ⟨hentries.done c.properties properties hproperties, rfl⟩

theorem Configuration.Rewritten.refl {R : String → String → Prop} (hR : ∀ s, R s s)
    (c : Configuration) : Rewritten R c c :=
  ⟨List.forall₂_same.mpr fun e _ => ⟨rfl, .refl hR e.2⟩, rfl⟩

theorem ConfigValue.map_texts_replaceTexts (replace : String → Outcome MergeError String)
    (v : ConfigValue) : (v.replaceTexts replace).map texts = Outcome.traverse replace v.texts := by
  cases v with
  | string s =>
    rw [texts, traverse_cons, replaceTexts]
    obtain ⟨t, _ | e⟩ := replace s <;> rfl
  | _ => rfl

theorem Configuration.map_texts_replaceTexts (replace : String → Outcome MergeError String)
    (c : Configuration) :
    (c.replaceTexts replace).map texts = Outcome.traverse replace c.texts := by
  have hentry : ∀ e : String × ConfigValue,
      ((e.2.replaceTexts replace).map fun v => (e.1, v)).map (fun e => e.2.texts) =
        Outcome.traverse replace e.2.texts :=
    fun e => ConfigValue.map_texts_replaceTexts replace e.2
  exact map_flatMap_traverse hentry c.properties

end

/-! Framework properties. -/

namespace Properties

def Rewritten (R : String → String → Prop) (t u : Table Property) : Prop :=
  List.Forall₂ (fun e e' => R e.2.value e'.2.value ∧
    e' = (e.1, { e.2 with value := e'.2.value })) t u

variable {replace : String → Except MergeError String} {t u : Table Property}

theorem rewritten_replaceValues (h : replaceValues replace t = .ok u) :
    Rewritten (fun s s' => replace s = .ok s') t u := by
  induction t generalizing u with
  | nil =>
    obtain rfl := Except.ok.inj h
    exact .nil
  | cons e t ih =>
    rw [replaceValues] at h
    cases hvalue : replace e.2.value with
    | error e' =>
      rw [hvalue] at h
      cases h
    | ok value =>
      cases hrest : replaceValues replace t with
      | error e' =>
        rw [hvalue, hrest] at h
        cases h
      | ok rest =>
        rw [hvalue, hrest] at h
        obtain rfl := Except.ok.inj h
        exact .cons ⟨hvalue, rfl⟩ (ih hrest)

theorem map_values_replaceValues (replace : String → Except MergeError String)
    (t : Table Property) :
    (replaceValues replace t).map (List.map fun e => e.2.value) =
      (Outcome.traverse (fun s => .ofExcept s (replace s))
        (t.map fun e => e.2.value)).toExcept := by
  induction t with
  | nil => rfl
  | cons e t ih =>
    rw [replaceValues, List.map_cons, traverse_cons]
    cases replace e.2.value with
    | error e' => rfl
    | ok value =>
      generalize replaceValues replace t = x at ih ⊢
      generalize Outcome.traverse _ _ = o at ih ⊢
      obtain ⟨values, _ | e'⟩ := o
      · cases x with
        | error e' => cases ih
        | ok u =>
          obtain rfl := Except.ok.inj ih
          rfl
      · cases x with
        | error e'' =>
          obtain rfl := Except.error.inj ih
          rfl
        | ok u => cases ih

end Properties

namespace Feature

def propertyTexts (f : Feature) : List String := f.frameworkProperties.map fun e => e.2.value

def configurationTexts (f : Feature) : List String := f.configurations.flatMap Configuration.texts

structure Rewritten (P C : String → String → Prop) (f r : Feature) : Prop where
  frameworkProperties : Properties.Rewritten P f.frameworkProperties r.frameworkProperties
  configurations : List.Forall₂ (Configuration.Rewritten C) f.configurations r.configurations
  others : r = { f with
    frameworkProperties := r.frameworkProperties
    configurations := r.configurations }

def Becomes (overrides : Table String) (f : Feature) (s t : String) : Prop :=
  Substitution.substitute overrides f.vars s = .ok t

def IsFirstError (overrides : Table String) (f : Feature) (texts : List String) (e : MergeError) :
    Prop :=
  ∃ before s after, texts = before ++ s :: after ∧ (∀ t ∈ before, ∃ t', f.Becomes overrides t t') ∧
    Substitution.substitute overrides f.vars s = .error e

/-- What substitution leaves if it stops at a text of a configuration: all that comes before is
substituted, and that text and the later ones are as they were. -/
structure StopsAmid (overrides : Table String) (f : Feature) (e : MergeError) (r : Feature) :
    Prop where
  rewritten : f.Rewritten (f.Becomes overrides) (fun s t => t = s ∨ f.Becomes overrides s t) r
  in_order : ∃ before s after before', f.configurationTexts = before ++ s :: after ∧
    List.Forall₂ (f.Becomes overrides) before before' ∧
    Substitution.substitute overrides f.vars s = .error e ∧
    r.configurationTexts = before' ++ s :: after

variable {overrides : Table String} {f : Feature} {s t : String} {e : MergeError}

def replacing (overrides : Table String) (f : Feature) (s : String) : Outcome MergeError String :=
  .ofExcept s (Substitution.substitute overrides f.vars s)

theorem replacing_eq_done_iff : f.replacing overrides s = done t ↔ f.Becomes overrides s t :=
  ofExcept_eq_done_iff

theorem rewrites_replacing (overrides : Table String) (f : Feature) :
    Rewrites (f.Becomes overrides) (fun s t => t = s ∨ f.Becomes overrides s t)
      (f.replacing overrides) where
  done _ _ h := replacing_eq_done_iff.mp h
  value s := by
    unfold replacing Becomes
    cases Substitution.substitute overrides f.vars s with
    | ok t => exact .inr rfl
    | error e => exact .inl rfl

theorem exists_of_fault_traverse_replacing {texts : List String}
    (h : (Outcome.traverse (f.replacing overrides) texts).fault = some e) :
    ∃ before s after before', texts = before ++ s :: after ∧
      List.Forall₂ (f.Becomes overrides) before before' ∧
      Substitution.substitute overrides f.vars s = .error e ∧
      (Outcome.traverse (f.replacing overrides) texts).value = before' ++ s :: after := by
  obtain ⟨before, s, after, before', htexts, hbefore, hs, hvalue⟩ := exists_of_fault_traverse h
  obtain ⟨hsame, herror⟩ := ofExcept_eq_failed hs
  rw [replacing, hsame] at hvalue
  exact ⟨before, s, after, before', htexts, hbefore.imp fun _ _ => replacing_eq_done_iff.mp, herror,
    hvalue⟩

theorem IsFirstError.of_traverse {texts : List String}
    (h : (Outcome.traverse (f.replacing overrides) texts).fault = some e) :
    f.IsFirstError overrides texts e := by
  obtain ⟨before, s, after, before', htexts, hbefore, hs, -⟩ := exists_of_fault_traverse_replacing h
  refine ⟨before, s, after, htexts, fun t ht => ?_, hs⟩
  obtain ⟨i, hi, rfl⟩ := List.getElem_of_mem ht
  exact ⟨_, List.forall₂_iff_get.mp hbefore |>.2 i hi (hbefore.length_eq ▸ hi)⟩

theorem exists_traverse_replacing_iff {texts : List String} :
    (∃ texts', Outcome.traverse (f.replacing overrides) texts = done texts') ↔
      ∀ s ∈ texts, ∃ t, f.Becomes overrides s t := by
  simp only [exists_traverse_iff, replacing_eq_done_iff]

/-! Whole features. -/

def replaceConfigurations (overrides : Table String) (f : Feature) :
    Outcome MergeError (List Configuration) :=
  Outcome.traverse (fun c => c.replaceTexts (f.replacing overrides)) f.configurations

theorem map_texts_replaceConfigurations (overrides : Table String) (f : Feature) :
    (f.replaceConfigurations overrides).map (List.flatMap Configuration.texts) =
      Outcome.traverse (f.replacing overrides) f.configurationTexts :=
  map_flatMap_traverse (Configuration.map_texts_replaceTexts (f.replacing overrides))
    f.configurations

theorem rewrites_configurations (overrides : Table String) (f : Feature) :
    Rewrites (List.Forall₂ (Configuration.Rewritten (f.Becomes overrides)))
      (List.Forall₂ (Configuration.Rewritten fun s t => t = s ∨ f.Becomes overrides s t))
      (Outcome.traverse fun c => c.replaceTexts (f.replacing overrides)) :=
  (Configuration.rewrites_replaceTexts (f.rewrites_replacing overrides) fun _ => .inl rfl).traverse
    fun c => .refl (fun _ => .inl rfl) c

theorem substitute_cases (overrides : Table String) (f : Feature) :
    (∃ e, (Outcome.traverse (f.replacing overrides) f.propertyTexts).fault = some e ∧
      f.substitute overrides = failed f e) ∨
    ∃ table, Properties.Rewritten (f.Becomes overrides) f.frameworkProperties table ∧
      (∀ s ∈ f.propertyTexts, ∃ t, f.Becomes overrides s t) ∧
      f.substitute overrides = (f.replaceConfigurations overrides).map fun configurations =>
        { f with frameworkProperties := table, configurations } := by
  have hvalues := Properties.map_values_replaceValues (Substitution.substitute overrides f.vars)
    f.frameworkProperties
  unfold Feature.substitute
  dsimp only
  cases htable : Properties.replaceValues (Substitution.substitute overrides f.vars)
      f.frameworkProperties with
  | error e =>
    rw [htable] at hvalues
    exact .inl ⟨e, toExcept_eq_error_iff.mp hvalues.symm, rfl⟩
  | ok table =>
    rw [htable] at hvalues
    have hall := exists_traverse_replacing_iff.mp ⟨_, toExcept_eq_ok_iff.mp hvalues.symm⟩
    exact .inr ⟨table, Properties.rewritten_replaceValues htable, hall, rfl⟩

theorem exists_substitute_iff : (∃ r, f.substitute overrides = done r) ↔
    ∀ s ∈ f.propertyTexts ++ f.configurationTexts, ∃ t, f.Becomes overrides s t := by
  rw [List.forall_mem_append]
  rcases f.substitute_cases overrides with ⟨e, hfault, hfailed⟩ | ⟨table, -, hall, hrest⟩
  · rw [← exists_traverse_replacing_iff, exists_eq_done_iff, exists_eq_done_iff, hfailed, hfault]
    simp
  · rw [and_iff_right hall, ← exists_traverse_replacing_iff, ← map_texts_replaceConfigurations,
      exists_eq_done_iff, exists_eq_done_iff, hrest]
    rfl

theorem rewritten_of_substitute {r : Feature} (h : f.substitute overrides = done r) :
    f.Rewritten (f.Becomes overrides) (f.Becomes overrides) r := by
  rcases f.substitute_cases overrides with ⟨e, -, hfailed⟩ | ⟨table, htable, -, hrest⟩
  · rw [hfailed] at h
    cases (eq_done_iff.mp h).2
  · rw [hrest] at h
    obtain ⟨configurations, hdone, rfl⟩ := map_eq_done_iff.mp h
    exact ⟨htable, (f.rewrites_configurations overrides).done _ _ hdone, rfl⟩

theorem substitute_eq_failed (h : ∃ s ∈ f.propertyTexts, ∀ t, ¬ f.Becomes overrides s t) :
    ∃ e, f.IsFirstError overrides f.propertyTexts e ∧ f.substitute overrides = failed f e := by
  rcases f.substitute_cases overrides with ⟨e, hfault, hfailed⟩ | ⟨-, -, hall, -⟩
  · exact ⟨e, .of_traverse hfault, hfailed⟩
  · obtain ⟨s, hs, hnone⟩ := h
    obtain ⟨t, ht⟩ := hall s hs
    exact absurd ht (hnone t)

theorem stopsAmid_of_substitute (hall : ∀ s ∈ f.propertyTexts, ∃ t, f.Becomes overrides s t)
    (h : (f.substitute overrides).fault = some e) :
    f.StopsAmid overrides e (f.substitute overrides).value := by
  rcases f.substitute_cases overrides with ⟨e', hfault, -⟩ | ⟨table, htable, -, hrest⟩
  · obtain ⟨texts, htexts⟩ := exists_traverse_replacing_iff.mpr hall
    rw [htexts] at hfault
    cases hfault
  · have hcommutes := f.map_texts_replaceConfigurations overrides
    have hfault : (Outcome.traverse (f.replacing overrides) f.configurationTexts).fault =
        some e := by
      rw [← hcommutes, fault_map, ← h, hrest, fault_map]
    rw [hrest]
    refine ⟨⟨htable, (f.rewrites_configurations overrides).value _, rfl⟩, ?_⟩
    obtain ⟨before, s, after, before', htexts, hbefore, hs, hvalue⟩ :=
      exists_of_fault_traverse_replacing hfault
    rw [← hcommutes] at hvalue
    exact ⟨before, s, after, before', htexts, hbefore, hs, hvalue⟩

/-- Substitution succeeds exactly if every text of a feature can be substituted, and changes nothing
but these texts. If the text of a framework property cannot be, nothing is changed; and if one of a
configuration cannot be, the texts before it are substituted and the later ones stay. -/
theorem substitute_changes_texts (overrides : Table String) (f : Feature) :
    ((∃ r, f.substitute overrides = done r) ↔
      ∀ s ∈ f.propertyTexts ++ f.configurationTexts, ∃ t, f.Becomes overrides s t) ∧
    (∀ r, f.substitute overrides = done r →
      f.Rewritten (f.Becomes overrides) (f.Becomes overrides) r) ∧
    ((∃ s ∈ f.propertyTexts, ∀ t, ¬ f.Becomes overrides s t) →
      ∃ e, f.IsFirstError overrides f.propertyTexts e ∧ f.substitute overrides = failed f e) ∧
    ∀ e, (∀ s ∈ f.propertyTexts, ∃ t, f.Becomes overrides s t) →
      (f.substitute overrides).fault = some e →
        f.StopsAmid overrides e (f.substitute overrides).value :=
  ⟨exists_substitute_iff, fun _ => rewritten_of_substitute, substitute_eq_failed,
    fun _ => stopsAmid_of_substitute⟩

end Feature

namespace Sample

def templated : Feature :=
  { Feature.ofId (id "f") with
    vars := [("x", .ofValue "1")]
    frameworkProperties := [("port", .ofValue "8$\x7bx\x7d")]
    configurations := [⟨"pid", [("hosts", .strings ["$\x7bx\x7d", "$\x7by\x7d", "$\x7bx\x7d"]),
      ("count", .long 2)], [], none⟩] }

def untemplated : Feature := { templated with vars := [] }

end Sample

theorem Feature.templated_changes_texts :
    (∃ r, Sample.templated.substitute [("y", "$\x7bx\x7d")] = done r ∧
      r.configurationTexts = ["1", "$\x7bx\x7d", "1"] ∧
      Sample.templated.Rewritten (Sample.templated.Becomes [("y", "$\x7bx\x7d")])
        (Sample.templated.Becomes [("y", "$\x7bx\x7d")]) r) ∧
    (∃ r, Sample.templated.substitute [] = failed r (.undefinedVariable "y" "$\x7by\x7d") ∧
      r.configurationTexts = ["1", "$\x7by\x7d", "$\x7bx\x7d"] ∧
      Sample.templated.StopsAmid [] (.undefinedVariable "y" "$\x7by\x7d") r) ∧
    ∃ e, Sample.untemplated.substitute [] = failed Sample.untemplated e ∧
      Sample.untemplated.IsFirstError [] ["8$\x7bx\x7d"] e := by
  have hport : Sample.templated.Becomes [] "8$\x7bx\x7d" "81" := rfl
  have hmissing : Substitution.substitute [] Sample.untemplated.vars "8$\x7bx\x7d" =
      .error (.undefinedVariable "x" "8$\x7bx\x7d") := rfl
  obtain ⟨-, hdone, -, -⟩ := substitute_changes_texts [("y", "$\x7bx\x7d")] Sample.templated
  obtain ⟨-, -, -, hamid⟩ := substitute_changes_texts [] Sample.templated
  obtain ⟨-, -, hnone, -⟩ := substitute_changes_texts [] Sample.untemplated
  refine ⟨⟨_, rfl, rfl, hdone _ rfl⟩, ⟨_, rfl, rfl, hamid _ ?_ rfl⟩, ?_⟩
  · exact fun s hs => ⟨"81", List.mem_singleton.mp hs ▸ hport⟩
  · obtain ⟨e, hfirst, hfailed⟩ := hnone ⟨_, .head _, fun t ht => nomatch hmissing.symm.trans ht⟩
    exact ⟨e, hfailed, hfirst⟩

end FeatureAssembly
