import FeatureAssembly.Feature.Basic
import FeatureAssembly.Outcome
import FeatureAssembly.Property.Substitution

/-! Variables throughout a feature: in the values of framework properties and in the texts of
configurations. -/

namespace FeatureAssembly

/-- Replaces every value or, if one cannot be resolved, none. -/
def Properties.replaceValues (replace : String → Except MergeError String) :
    Table Property → Except MergeError (Table Property)
  | [] => .ok []
  | (key, p) :: rest => do
    let value ← replace p.value
    return (key, { p with value }) :: (← replaceValues replace rest)

def ConfigValue.replaceTexts (replace : String → Outcome MergeError String) :
    ConfigValue → Outcome MergeError ConfigValue
  | .string s => (replace s).map .string
  | .strings items => (Outcome.traverse replace items).map .strings
  | v => .done v

def Configuration.replaceTexts (replace : String → Outcome MergeError String) (c : Configuration) :
    Outcome MergeError Configuration :=
  (Outcome.traverse (fun e => (e.2.replaceTexts replace).map fun v => (e.1, v)) c.properties).map
    fun properties => { c with properties }

namespace Feature

def substitute (overrides : Table String) (f : Feature) : Outcome MergeError Feature :=
  let replace := Substitution.substitute overrides f.vars
  match Properties.replaceValues replace f.frameworkProperties with
  | .error e => .failed f e
  | .ok frameworkProperties =>
    (Outcome.traverse (fun c => c.replaceTexts fun s => .ofExcept s (replace s))
      f.configurations).map fun configurations => { f with frameworkProperties, configurations }

end Feature
end FeatureAssembly
