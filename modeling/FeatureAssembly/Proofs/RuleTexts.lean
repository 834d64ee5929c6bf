import FeatureAssembly.Settings.Forms
import FeatureAssembly.Proofs.AcceptedRules

/-! The texts of rules. The reader leaves all parts of a rule filled in and without colons, no blank
before the first one and none around the policy, so that a rule comes back from its text: what the
short forms leave out is written, and means the same where it is read again. -/

namespace FeatureAssembly
open Text

namespace OverrideRule

def parts (r : OverrideRule) : List String :=
  r.group :: r.artifact :: r.type :: (r.classifier.toList ++ [r.policy.text])

theorem text_eq (r : OverrideRule) : r.text = String.intercalate ":" r.parts := by
  obtain ⟨g, a, t, c, p⟩ := r
  cases c with
  | none => simp [text, parts, String.intercalate_cons_cons, String.append_assoc]
  | some c => simp [text, parts, String.intercalate_cons_cons, String.append_assoc]

def IsPart (s : String) : Prop := trim s ≠ "" ∧ ':' ∉ s.toList

theorem isPart_of_mem_pieces {s p : String} (h : ((pieces ':' s).any fun p => trim p = "") = false)
    (hp : p ∈ pieces ':' s) : IsPart p :=
  ⟨fun hblank => List.any_eq_false.mp h p hp (decide_eq_true hblank), not_mem_of_mem_pieces hp⟩

theorem IsPart.trim {s : String} (h : IsPart s) : IsPart (trim s) := by
  refine ⟨?_, fun hmem => h.2 (mem_of_mem_trim hmem)⟩
  rw [trim_trim]
  exact h.1

theorem IsPart.toList_ne_nil {s : String} (h : IsPart s) : s.toList ≠ [] := by
  intro hnil
  rw [String.toList_eq_nil_iff.mp hnil] at h
  exact h.1 rfl

structure IsReadable (r : OverrideRule) : Prop where
  filled : ∀ s ∈ r.parts, IsPart s
  group : trimStart r.group.toList = r.group.toList
  type : r.type ≠ Coordinate.bundleType
  policy : OverridePolicy.ofText? r.policy.text = some r.policy
  policyText : trim r.policy.text = r.policy.text

namespace IsReadable
variable {r : OverrideRule}

theorem trim_text (h : r.IsReadable) : Text.trim r.text = r.text := by
  have hgroup : IsPart r.group := h.filled _ (by simp [parts])
  have hpolicy : IsPart r.policy.text := h.filled _ (by simp [parts])
  obtain ⟨back, hback⟩ : ∃ back, r.text.toList = r.group.toList ++ back := by
    rw [text_eq, parts, String.intercalate_cons_cons, String.toList_append, String.toList_append,
      List.append_assoc]
    exact ⟨_, rfl⟩
  obtain ⟨front, hfront⟩ : ∃ front, r.text.toList = front ++ r.policy.text.toList := by
    rw [text]
    cases r.classifier with
    | none => exact ⟨_, String.toList_append⟩
    | some c => exact ⟨_, String.toList_append⟩
  refine trim_of_ends ?_ ?_
  · rw [hback]
    exact trimStart_append hgroup.toList_ne_nil h.group back
  · rw [hfront]
    exact trimEnd_append hpolicy.toList_ne_nil (trimEnd_of_trim h.policyText) front

theorem ofText?_text (h : r.IsReadable) : ofText? r.text = some r := by
  have hpieces : pieces ':' r.text = r.parts := by
    rw [text_eq]
    exact pieces_intercalate (List.cons_ne_nil _ _) fun s hs => (h.filled s hs).2
  have hfilled : (r.parts.any fun s => decide (Text.trim s = "")) = false := by
    rw [List.any_eq_false]
    exact fun s hs hblank => (h.filled s hs).1 (of_decide_eq_true hblank)
  rw [ofText?, h.trim_text, hpieces, hfilled, if_neg Bool.false_ne_true]
  obtain ⟨g, a, t, c, p⟩ := r
  have hpolicy : OverridePolicy.ofText? p.text = some p := h.policy
  have htype : t ≠ Coordinate.bundleType := h.type
  cases c with
  | none => simp [parts, ofParts?, hpolicy, make, htype]
  | some c => simp [parts, ofParts?, hpolicy, make, htype]

end IsReadable

theorem isReadable_make {g a t p : String} {c : Option String} {policy : OverridePolicy}
    (hg : IsPart g) (hstart : trimStart g.toList = g.toList) (ha : IsPart a) (ht : IsPart t)
    (hc : ∀ s ∈ c, IsPart s) (hp : IsPart p) (hpolicy : OverridePolicy.ofText? p = some policy) :
    (make g a t c policy).IsReadable := by
  have htext := OverridePolicy.text_of_ofText? hpolicy
  have htype : IsPart (make g a t c policy).type ∧
      (make g a t c policy).type ≠ Coordinate.bundleType := by
    simp only [make]
    split
    · have hdefault : trim Coordinate.defaultType ≠ "" ∧ ':' ∉ Coordinate.defaultType.toList ∧
          Coordinate.defaultType ≠ Coordinate.bundleType := by decide
      exact ⟨⟨hdefault.1, hdefault.2.1⟩, hdefault.2.2⟩
    · next hbundle => exact ⟨ht, hbundle⟩
  constructor
  · simp only [parts, List.forall_mem_cons, List.forall_mem_append, Option.mem_toList]
    refine ⟨hg, ha, htype.1, hc, ?_, by simp⟩
    exact htext ▸ hp.trim
  · exact hstart
  · exact htype.2
  · rw [make, htext, OverridePolicy.ofText?_trim, hpolicy]
  · rw [make, htext, trim_trim]

theorem isReadable_of_ofText? {s : String} {r : OverrideRule} (h : ofText? s = some r) :
    r.IsReadable := by
  have hdefault : IsPart Coordinate.defaultType := ⟨by decide, by decide⟩
  have hnone : ∀ c ∈ (none : Option String), IsPart c := nofun
  have hstart : ∀ {g : String} {rest}, pieces ':' (Text.trim s) = g :: rest →
      trimStart g.toList = g.toList := by
    intro g rest hpieces
    obtain ⟨q, qs, hcut, rfl, -⟩ := List.map_eq_cons_iff.mp hpieces
    rw [String.toList_ofList]
    exact dropWhile_of_isPrefix (isPrefix_of_piecesOf hcut) (trimStart_trim s)
  unfold ofText? at h
  dsimp only at h
  split at h
  · cases h
  · next hfilled =>
    have hpart := fun p => isPart_of_mem_pieces (p := p) (Bool.eq_false_iff.mpr hfilled)
    generalize pieces ':' (Text.trim s) = l at h hstart hpart
    unfold ofParts? at h
    split at h
    · obtain ⟨policy, hpolicy, rfl⟩ := Option.map_eq_some_iff.mp h
      exact isReadable_make (hpart _ (by simp)) (hstart rfl) (hpart _ (by simp)) hdefault hnone
        (hpart _ (by simp)) hpolicy
    · obtain ⟨policy, hpolicy, rfl⟩ := Option.map_eq_some_iff.mp h
      exact isReadable_make (hpart _ (by simp)) (hstart rfl) (hpart _ (by simp)) (hpart _ (by simp))
        hnone (hpart _ (by simp)) hpolicy
    · obtain ⟨policy, hpolicy, rfl⟩ := Option.map_eq_some_iff.mp h
      refine isReadable_make (hpart _ (by simp)) (hstart rfl) (hpart _ (by simp)) (hpart _ (by simp))
        ?_ (hpart _ (by simp)) hpolicy
      rintro c ⟨⟩
      exact hpart _ (by simp)
    · cases h

def IsRuleParts (parts : List String) : Prop :=
  3 ≤ parts.length ∧ parts.length ≤ 5 ∧ (∀ s ∈ parts, trim s ≠ "") ∧
    ∀ s ∈ parts.getLast?, trim s ≠ wildcard

theorem exists_ofParts?_iff {parts : List String} (h : ∀ s ∈ parts, trim s ≠ "") :
    (∃ r, ofParts? parts = some r) ↔ IsRuleParts parts := by
  have hpolicy : ∀ s, (∃ p, OverridePolicy.ofText? s = some p) ↔ trim s ≠ "" ∧ trim s ≠ wildcard := by
    intro s
    rw [← Option.isSome_iff_exists, Option.isSome_iff_ne_none, Ne, OverridePolicy.ofText?_eq_none_iff,
      not_or]
  match parts with
  | [] => simp [ofParts?, IsRuleParts]
  | [_] => simp [ofParts?, IsRuleParts]
  | [_, _] => simp [ofParts?, IsRuleParts]
  | [g, a, p] => simp_all [ofParts?, IsRuleParts]
  | [g, a, t, p] => simp_all [ofParts?, IsRuleParts]
  | [g, a, t, c, p] => simp_all [ofParts?, IsRuleParts]
  | _ :: _ :: _ :: _ :: _ :: _ :: rest => simp [ofParts?, IsRuleParts]

theorem exists_ofText?_iff (s : String) :
    (∃ r, ofText? s = some r) ↔ IsRuleParts (pieces ':' (trim s)) := by
  unfold ofText?
  dsimp only
  split
  · next hblank =>
    refine ⟨nofun, fun hparts => ?_⟩
    obtain ⟨p, hp, hempty⟩ := List.any_eq_true.mp hblank
    exact absurd (of_decide_eq_true hempty) (hparts.2.2.1 p hp)
  · next hfilled =>
    exact exists_ofParts?_iff fun p hp => (isPart_of_mem_pieces (Bool.eq_false_iff.mpr hfilled) hp).1

theorem IsAccepted.parse_text {r : OverrideRule} (h : r.IsAccepted) : parse r.text = .ok r := by
  obtain ⟨s, hs⟩ := h
  exact parse_eq_ok_iff.mpr (isReadable_of_ofText? (parse_eq_ok_iff.mp hs)).ofText?_text

end OverrideRule

namespace Document

theorem ofItems_eq_map (l : List Json) : ofItems l = l.map ofJson := by
  induction l with
  | nil => rfl
  | cons v l ih => rw [ofItems, ih, List.map_cons]

theorem ofFields_eq_map (l : List (String × Json)) :
    ofFields l = l.map fun e => (e.1, ofJson e.2) := by
  induction l with
  | nil => rfl
  | cons e l ih => rw [ofFields, ih, List.map_cons]

end Document

namespace Settings
variable {α β : Type}

theorem readTable_object {read : Document → Option β} {write : α → Json} {value : α → β}
    (h : ∀ v, read (.ofJson (write v)) = some (value v)) (t : Table α) :
    readTable read (.ofJson (.object (t.map fun e => (e.1, write e.2)))) =
      some (Roster.putAll [] (t.map fun e => (e.1, value e.2))) := by
  have hentries : (t.map fun e => (e.1, Document.ofJson (write e.2))).mapM
      (fun e => (read e.2).map fun v => (e.1, v)) = some (t.map fun e => (e.1, value e.2)) :=
    mapM_map_eq_some fun e _ => by rw [h, Option.map_some]
  rw [readTable, Document.ofJson, Document.ofFields_eq_map, List.map_map, Document.entries?]
  simp only [Option.bind_eq_bind, Option.bind_some, Function.comp_def, hentries]
  rfl

theorem readTable_textTable (t : Table String) :
    ∃ u, readTable Document.text? (.ofJson (textTable t)) = some u := by
  have hread : ∀ s : String, Document.text? (.ofJson (.string s)) = some (id s) := fun _ => rfl
  exact ⟨_, readTable_object hread t⟩

theorem readPolicy_keyword (p : ConfigurationPolicy) :
    readPolicy (.ofJson (.string p.keyword)) = some p := by
  cases p <;> rfl

theorem readRules_texts {rules : List OverrideRule} (h : ∀ r ∈ rules, r.IsAccepted) :
    readRules (.ofJson (.array (rules.map fun r => .string r.text))) = some rules := by
  have hread : ∀ r ∈ rules,
      (Document.ofJson (.string r.text)).text?.bind OverrideRule.ofText? = some (id r) := by
    intro r hr
    rw [Document.ofJson, Document.text?, Option.bind_some]
    exact OverrideRule.parse_eq_ok_iff.mp (h r hr).parse_text
  have hrules : (rules.map fun r => Document.ofJson (.string r.text)).mapM
      (fun e => e.text?.bind OverrideRule.ofText?) = some (rules.map id) := mapM_map_eq_some hread
  rw [List.map_id] at hrules
  rw [readRules, Document.ofJson, Document.ofItems_eq_map, List.map_map, Document.items?,
    Option.bind_eq_bind, Option.bind_some]
  exact hrules

theorem Field.ofName?_name (f : Field) : ofName? f.name = some f := by
  cases f <;> decide

theorem readFields_cons {seen : List Field} {s t : Settings} {d : Document} {f : Field}
    (hf : f ∉ seen) (hread : readField s d f = some t) (rest : List (String × Document)) :
    readFields seen s ((f.name, d) :: rest) = readFields (f :: seen) t rest := by
  simp [readFields, Field.ofName?_name, hf, hread]

theorem ofDocument?_toJson {s : Settings} (h : ∀ r ∈ s.rules, r.IsAccepted) :
    ∃ t, ofDocument? (.ofJson s.toJson) = some t ∧ t.rules = s.rules := by
  have hrules := readRules_texts h
  obtain ⟨policies, hpolicies⟩ : ∃ u, readTable readPolicy
      (.ofJson (textTable (s.policies.map fun e => (e.1, e.2.keyword)))) = some u := by
    rw [textTable, List.map_map]
    exact ⟨_, readTable_object readPolicy_keyword s.policies⟩
  obtain ⟨variableOverrides, hvariables⟩ := readTable_textTable s.variableOverrides
  obtain ⟨frameworkOverrides, hframework⟩ := readTable_textTable s.frameworkOverrides
  obtain ⟨handlerConfiguration, hhandlers⟩ : ∃ u, readTable (readTable Document.text?)
      (.ofJson (.object (s.handlerConfiguration.map fun e => (e.1, textTable e.2)))) = some u := by
    choose value hvalue using readTable_textTable
    exact ⟨_, readTable_object hvalue s.handlerConfiguration⟩
  -- the sixth field may be missing, so that the others are read with any rest behind them
  have hread : ∀ rest : List (String × Document), readFields [] .default
      ((Field.rules.name, .ofJson (.array (s.rules.map fun r => .string r.text))) ::
        (Field.policies.name,
          .ofJson (textTable (s.policies.map fun e => (e.1, e.2.keyword)))) ::
        (Field.variableOverrides.name, .ofJson (textTable s.variableOverrides)) ::
        (Field.frameworkOverrides.name, .ofJson (textTable s.frameworkOverrides)) ::
        (Field.handlers.name, .ofJson (.object
          (s.handlerConfiguration.map fun e => (e.1, textTable e.2)))) :: rest) =
      readFields [.handlers, .frameworkOverrides, .variableOverrides, .policies, .rules]
        ⟨s.rules, policies, variableOverrides, frameworkOverrides, handlerConfiguration, none⟩
        rest := by
    intro rest
    rw [readFields_cons (f := .rules) (by decide) (congrArg (Option.map _) hrules),
      readFields_cons (f := .policies) (by decide) (congrArg (Option.map _) hpolicies),
      readFields_cons (f := .variableOverrides) (by decide) (congrArg (Option.map _) hvariables),
      readFields_cons (f := .frameworkOverrides) (by decide) (congrArg (Option.map _) hframework),
      readFields_cons (f := .handlers) (by decide) (congrArg (Option.map _) hhandlers)]
    rfl
  rw [toJson, Document.ofJson, Document.ofFields_eq_map, ofDocument?, Document.entries?,
    Option.bind_some, List.map_append]
  cases s.substitutes with
  | none => exact ⟨_, hread [], rfl⟩
  | some b =>
    have hsubstitutes := (hread [(Field.substitutes.name, .switch b)]).trans
      (readFields_cons (f := .substitutes) (by decide) rfl [])
    exact ⟨_, hsubstitutes, rfl⟩

end Settings

/-- A rule read from a text is read again from its own text, alone or in written settings. The texts
of rules are those with three to five filled parts between colons, the last of which is no wildcard. -/
theorem OverrideRule.texts_read_back :
    (∀ s r, parse s = .ok r → parse r.text = .ok r) ∧
      (∀ s : Settings, (∀ r ∈ s.rules, r.IsAccepted) →
        ∃ t, Settings.ofDocument? (.ofJson s.toJson) = some t ∧ t.rules = s.rules) ∧
      ∀ s, (∃ r, parse s = .ok r) ↔ IsRuleParts (pieces ':' (trim s)) := by
  refine ⟨fun s r h => IsAccepted.parse_text ⟨s, h⟩, fun _ h => Settings.ofDocument?_toJson h, ?_⟩
  intro s
  simp only [parse_eq_ok_iff, exists_ofText?_iff]

def Sample.spaced : OverrideRule := ⟨"g ", " a", "jar", none, .version "3 beta"⟩

theorem OverrideRule.texts_read_back_spaced :
    parse " g : a:3 beta " = .ok Sample.spaced ∧ Sample.spaced.text = "g : a:jar:3 beta" ∧
      parse Sample.spaced.text = .ok Sample.spaced ∧
      ∃ t, Settings.ofDocument? (.ofJson (⟨[Sample.spaced], [], [], [], [], none⟩ : Settings).toJson) =
        some t ∧ t.rules = [Sample.spaced] := by
  have hread : parse " g : a:3 beta " = .ok Sample.spaced := parse_eq_ok_iff.mpr (by decide)
  obtain ⟨htext, hsettings, -⟩ := texts_read_back
  refine ⟨hread, by decide, htext _ _ hread, hsettings ⟨[Sample.spaced], [], [], [], [], none⟩ ?_⟩
  intro r hr
  rw [List.mem_singleton.mp hr]
  exact ⟨_, hread⟩

end FeatureAssembly
