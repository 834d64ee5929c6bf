import FeatureAssembly.Assembly.Assemble

/-! Settings adjust the context of an assembly: rules and policies are added after those in place,
and tables are overlaid entry by entry. -/

namespace FeatureAssembly

structure Settings where
  rules : List OverrideRule
  policies : Table ConfigurationPolicy
  variableOverrides : Table String
  frameworkOverrides : Table String
  handlerConfiguration : Table (Table String)
  substitutes : Option Bool
deriving DecidableEq

namespace Settings

def default : Settings := ⟨[], [], [], [], [], none⟩

def same (s t : Settings) : Bool :=
  s.rules == t.rules && Table.same (· == ·) s.policies t.policies &&
    Table.same (· == ·) s.variableOverrides t.variableOverrides &&
    Table.same (· == ·) s.frameworkOverrides t.frameworkOverrides &&
    Table.same (Table.same (· == ·)) s.handlerConfiguration t.handlerConfiguration &&
    s.substitutes == t.substitutes

def overlayHandler (t : Table (Table String)) (e : String × Table String) : Table (Table String) :=
  Table.set t e.1 (Table.overlay ((Table.get? t e.1).getD []) e.2)

end Settings

def MergeContext.apply (ctx : MergeContext) (s : Settings) : MergeContext :=
  { ctx with
    rules := ctx.rules ++ s.rules
    policies := ctx.policies ++ s.policies
    variableOverrides := Table.overlay ctx.variableOverrides s.variableOverrides
    frameworkOverrides := Table.overlay ctx.frameworkOverrides s.frameworkOverrides
    handlerConfiguration :=
      s.handlerConfiguration.foldl Settings.overlayHandler ctx.handlerConfiguration }

/-- Settings on top of a context, if none of their patterns is refused; substitution changes only if
the settings tell so. -/
def AssemblyContext.apply (ctx : AssemblyContext) (s : Settings) : AssemblyContext :=
  { ctx with merge := ctx.merge.apply s, substitutes := s.substitutes.getD ctx.substitutes }

/-! Patterns are compiled when they are added. What the compiler has against a pattern, such as its
length, is its own affair and is given as `refusal`. -/

structure InvalidPattern where
  pattern : String
  reason : String
deriving DecidableEq

def InvalidPattern.message (e : InvalidPattern) : String :=
  "invalid configuration pattern " ++ MergeError.quote e.pattern ++ ": " ++ e.reason

def ConfigurationPolicies.add (refusal : String → Option String) (l : ConfigurationPolicies)
    (e : String × ConfigurationPolicy) : Outcome InvalidPattern ConfigurationPolicies :=
  match refusal e.1 with
  | none => .done (l ++ [e])
  | some reason => .failed l ⟨e.1, reason⟩

/-- All rules of the settings are added before their first pattern, and what is overlaid comes after
the last one. -/
def AssemblyContext.applyCompiling (refusal : String → Option String) (ctx : AssemblyContext)
    (s : Settings) : Outcome InvalidPattern AssemblyContext :=
  let patterns := Outcome.each (ConfigurationPolicies.add refusal) ctx.merge.policies s.policies
  let added := patterns.map fun policies =>
    let rules := ctx.merge.rules ++ s.rules
    { ctx with merge := { ctx.merge with rules := rules, policies := policies } }
  added.andThen fun ctx => .done (ctx.apply { s with rules := [], policies := [] })

end FeatureAssembly
