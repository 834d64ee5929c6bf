import FeatureAssembly.Text.Blank

/-! Policies for configurations that share a pid, chosen by patterns of pids. -/

namespace FeatureAssembly

inductive ConfigurationPolicy where
  | failOnClash | failOnPropertyClash | useLatest | useFirst | mergeLatest | mergeFirst
deriving DecidableEq

namespace ConfigurationPolicy

def keyword : ConfigurationPolicy → String
  | .failOnClash => "FAIL_ON_CLASH"
  | .failOnPropertyClash => "FAIL_ON_PROPERTY_CLASH"
  | .useLatest => "USE_LATEST"
  | .useFirst => "USE_FIRST"
  | .mergeLatest => "MERGE_LATEST"
  | .mergeFirst => "MERGE_FIRST"

def ofKeyword? (s : String) : Option ConfigurationPolicy :=
  [failOnClash, failOnPropertyClash, useLatest, useFirst, mergeLatest, mergeFirst].find?
    fun p => p.keyword = s

end ConfigurationPolicy

namespace Pattern

/-- Marks the tails of a text from which skipping characters of the first line leads to a tail that
`marks` has; marks stand for the tails of the text, the longest first. -/
def skipping : List Char → List Bool → List Bool
  | c :: cs, b :: marks =>
    let rest := skipping cs marks
    (b || (c != '\n' && rest.headD false)) :: rest
  | _, marks => marks

def following (p : Char) : List Char → List Bool → List Bool
  | c :: cs, _ :: marks => (c == p && marks.headD false) :: following p cs marks
  | _, _ => [false]

/-- Marks the tails of a text that a pattern matches. All tails at once are as cheap as one, since
two stars may share the characters between them in many ways. -/
def marks : List Char → List Char → List Bool
  | [], cs => cs.map (fun _ => false) ++ [true]
  | p :: ps, cs => if p = '*' then skipping cs (marks ps cs) else following p cs (marks ps cs)

/-- Whether a pattern matches a whole text; `*` stands for any run of characters within a line. -/
def accepts (ps cs : List Char) : Bool := (marks ps cs).headD false

theorem marks_cons (ps : List Char) (c : Char) (cs : List Char) :
    marks ps (c :: cs) = accepts ps (c :: cs) :: marks ps cs := by
  induction ps with
  | nil => rfl
  | cons p ps ih =>
    unfold accepts
    unfold marks
    rw [ih]
    split <;> rfl

theorem accepts_nil (cs : List Char) : accepts [] cs = cs.isEmpty := by
  cases cs <;> rfl

theorem accepts_star_nil (ps : List Char) : accepts ('*' :: ps) [] = accepts ps [] := rfl

theorem accepts_star_cons (ps : List Char) (c : Char) (cs : List Char) :
    accepts ('*' :: ps) (c :: cs) =
      (accepts ps (c :: cs) || (c != '\n' && accepts ('*' :: ps) cs)) := by
  change (skipping (c :: cs) (marks ps (c :: cs))).headD false = _
  rw [marks_cons]
  rfl

theorem accepts_char_nil {p : Char} (ps : List Char) (h : p ≠ '*') :
    accepts (p :: ps) [] = false := by
  rw [accepts, marks, if_neg h]
  rfl

theorem accepts_char_cons {p : Char} (ps : List Char) (c : Char) (cs : List Char) (h : p ≠ '*') :
    accepts (p :: ps) (c :: cs) = (c == p && accepts ps cs) := by
  rw [accepts, marks, if_neg h, marks_cons]
  rfl

end Pattern

abbrev ConfigurationPolicies := List (String × ConfigurationPolicy)

namespace ConfigurationPolicies

def uniform (policy : ConfigurationPolicy) : ConfigurationPolicies := [("*", policy)]

def policyFor? (l : ConfigurationPolicies) (pid : String) : Option ConfigurationPolicy :=
  (l.find? fun e => Pattern.accepts e.1.toList pid.toList).map Prod.snd

end ConfigurationPolicies
end FeatureAssembly
