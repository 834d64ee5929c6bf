import FeatureAssembly.Proofs.Outcome
import FeatureAssembly.Proofs.RepeatedSettings

/-! Settings with patterns that a compiler may refuse. The first such pattern stops them, after all of
their rules and the patterns before it; where none is refused they come as a whole. -/

namespace FeatureAssembly
open Outcome

variable {refusal : String → Option String}

namespace ConfigurationPolicies
variable {l r : ConfigurationPolicies} {es : List (String × ConfigurationPolicy)} {e : InvalidPattern}

theorem add_of_accepted {e : String × ConfigurationPolicy} (h : refusal e.1 = none) :
    add refusal l e = done (l ++ [e]) := by rw [add, h]

theorem add_of_refused {e : String × ConfigurationPolicy} {reason : String}
    (h : refusal e.1 = some reason) : add refusal l e = failed l ⟨e.1, reason⟩ := by rw [add, h]

theorem add_eq_done_iff {e : String × ConfigurationPolicy} :
    add refusal l e = done r ↔ refusal e.1 = none ∧ r = l ++ [e] := by
  cases h : refusal e.1 with
  | none => rw [add_of_accepted h, done_eq_done_iff, and_iff_right rfl]
  | some reason =>
    rw [add_of_refused h]
    exact iff_of_false failed_ne_done nofun

theorem amountsTo_add : AmountsTo (fun _ => True) (fun _ e => refusal e.1 = none) (add refusal)
    (fun l es => l ++ es) where
  nil := List.append_nil
  cons l e es _ := by rw [List.append_assoc, List.singleton_append]
  keeps _ _ _ := trivial
  step_iff _ _ _ _ := add_eq_done_iff

theorem each_add_eq_done_iff :
    each (add refusal) l es = done r ↔ (∀ e ∈ es, refusal e.1 = none) ∧ r = l ++ es := by
  rw [amountsTo_add.each_eq_done_iff trivial]
  exact and_congr_left fun _ => forall_split_iff_forall_mem

theorem each_add_eq_failed_iff : each (add refusal) l es = failed r e ↔
    ∃ before policy after, es = before ++ (e.pattern, policy) :: after ∧
      (∀ b ∈ before, refusal b.1 = none) ∧ refusal e.pattern = some e.reason ∧ r = l ++ before := by
  constructor
  · intro h
    have hfault : (each (add refusal) l es).fault = some e := by rw [h, fault_failed]
    obtain ⟨before, ⟨pattern, policy⟩, after, b, hes, hbefore, hi, heach⟩ := exists_of_fault_each hfault
    obtain ⟨haccepted, rfl⟩ := each_add_eq_done_iff.mp hbefore
    cases hrefusal : refusal pattern with
    | none =>
      rw [add_of_accepted hrefusal] at hi
      cases hi
    | some reason =>
      rw [add_of_refused hrefusal] at hi heach
      obtain rfl := Option.some.inj hi
      refine ⟨before, policy, after, hes, haccepted, hrefusal, ?_⟩
      exact congrArg Outcome.value (h.symm.trans heach)
  · rintro ⟨before, policy, after, rfl, haccepted, hrefused, rfl⟩
    have hbefore := (each_add_eq_done_iff (l := l)).mpr ⟨haccepted, rfl⟩
    rw [each_append, hbefore, done_andThen, each_cons, add_of_refused hrefused, failed_andThen]

end ConfigurationPolicies

namespace AssemblyContext
variable {ctx r : AssemblyContext} {s : Settings} {e : InvalidPattern}

theorem applyCompiling_eq_done_iff :
    ctx.applyCompiling refusal s = done r ↔
      (∀ e ∈ s.policies, refusal e.1 = none) ∧ r = ctx.apply s := by
  simp only [applyCompiling, andThen_eq_done_iff, map_eq_done_iff,
    ConfigurationPolicies.each_add_eq_done_iff, done_eq_done_iff]
  constructor
  · rintro ⟨_, ⟨_, ⟨haccepted, rfl⟩, rfl⟩, rfl⟩
    refine ⟨haccepted, ?_⟩
    simp only [apply, MergeContext.apply, List.append_nil]
  · rintro ⟨haccepted, rfl⟩
    refine ⟨_, ⟨_, ⟨haccepted, rfl⟩, rfl⟩, ?_⟩
    simp only [apply, MergeContext.apply, List.append_nil]

/-- Settings that are stopped leave all of their rules in the context, their patterns up to the
refused one, and nothing else. -/
theorem applyCompiling_eq_failed_iff : ctx.applyCompiling refusal s = failed r e ↔
    ∃ before policy after, s.policies = before ++ (e.pattern, policy) :: after ∧
      (∀ b ∈ before, refusal b.1 = none) ∧ refusal e.pattern = some e.reason ∧
      r = ctx.apply { Settings.default with rules := s.rules, policies := before } := by
  simp only [applyCompiling, map_andThen_done_eq_failed_iff,
    ConfigurationPolicies.each_add_eq_failed_iff]
  constructor
  · rintro ⟨_, ⟨before, policy, after, hs, haccepted, hrefused, rfl⟩, rfl⟩
    exact ⟨before, policy, after, hs, haccepted, hrefused, rfl⟩
  · rintro ⟨before, policy, after, hs, haccepted, hrefused, rfl⟩
    exact ⟨_, ⟨before, policy, after, hs, haccepted, hrefused, rfl⟩, rfl⟩

theorem applyCompiling_twice (h : ctx.applyCompiling refusal s = done r) :
    ∃ again, r.applyCompiling refusal s = done again ∧ again.Agree r := by
  obtain ⟨haccepted, rfl⟩ := applyCompiling_eq_done_iff.mp h
  exact ⟨_, applyCompiling_eq_done_iff.mpr ⟨haccepted, rfl⟩, ctx.apply_apply_agrees s⟩

end AssemblyContext
end FeatureAssembly
