import FeatureAssembly.Number.Text

/-! JSON as text without spaces. -/

namespace FeatureAssembly.Json

def hexDigit (n : Nat) : Char := Nat.digitChar n

def escaped (c : Char) : List Char :=
  if c = '"' then ['\\', '"']
  else if c = '\\' then ['\\', '\\']
  else if c = '\n' then ['\\', 'n']
  else if c = '\r' then ['\\', 'r']
  else if c = '\t' then ['\\', 't']
  else if c.toNat = 8 then ['\\', 'b']
  else if c.toNat = 12 then ['\\', 'f']
  else if c.toNat < 32 then ['\\', 'u', '0', '0', hexDigit (c.toNat / 16), hexDigit (c.toNat % 16)]
  else [c]

def quoted (s : String) : String := String.ofList ('"' :: (s.toList.flatMap escaped ++ ['"']))

mutual
def text : Json → String
  | .null => "null"
  | .bool true => "true"
  | .bool false => "false"
  | .number n => n.text
  | .string s => quoted s
  | .array items => "[" ++ String.intercalate "," (itemTexts items) ++ "]"
  | .object fields => "\x7b" ++ String.intercalate "," (fieldTexts fields) ++ "\x7d"
termination_by structural x => x

def itemTexts : List Json → List String
  | [] => []
  | v :: items => text v :: itemTexts items
termination_by structural x => x

def fieldTexts : List (String × Json) → List String
  | [] => []
  | (k, v) :: fields => (quoted k ++ ":" ++ text v) :: fieldTexts fields
termination_by structural x => x
end

end FeatureAssembly.Json
