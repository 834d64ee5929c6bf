/-! Lists whose entries carry a name, kept in insertion order. A roster answers the first entry
under a name, and every operation below keeps the names of a roster without repetition
(`Roster.Distinct`) if they were so before. -/

namespace FeatureAssembly

class Keyed (α : Type) (κ : outParam Type) where
  key : α → κ

namespace Roster
variable {α κ : Type} [Keyed α κ]

def keys (l : List α) : List κ := l.map Keyed.key

def Distinct (l : List α) : Prop := (keys l).Nodup

variable [DecidableEq κ]

def find? : List α → κ → Option α
  | [], _ => none
  | x :: l, k => if Keyed.key x = k then some x else find? l k

def contains (l : List α) (k : κ) : Bool := (find? l k).isSome

def position? : List α → κ → Option Nat
  | [], _ => none
  | x :: l, k => if Keyed.key x = k then some 0 else (position? l k).map (· + 1)

def add? (l : List α) (x : α) : Option (List α) :=
  if contains l (Keyed.key x) then none else some (l ++ [x])

def add (l : List α) (x : α) : List α := (add? l x).getD l

/-- Places an entry before position `i`, or last when `i` is past the end; refuses when its name
is taken. -/
def insertAt? (l : List α) (i : Nat) (x : α) : Option (List α) :=
  if contains l (Keyed.key x) then none else some (l.take i ++ x :: l.drop i)

def insertAt (l : List α) (i : Nat) (x : α) : List α := (insertAt? l i x).getD l

def put : List α → α → List α
  | [], x => [x]
  | y :: l, x => if Keyed.key y = Keyed.key x then x :: l else y :: put l x

def remove : List α → κ → List α
  | [], _ => []
  | x :: l, k => if Keyed.key x = k then l else x :: remove l k

/-- Changes the entry under a name; the change is expected to keep the name. -/
def adjust : List α → κ → (α → α) → List α
  | [], _, _ => []
  | x :: l, k, f => if Keyed.key x = k then f x :: l else x :: adjust l k f

/-- Adds entries one by one; of those sharing a name the first one stays. -/
def extend (l xs : List α) : List α := xs.foldl add l

def ofList (xs : List α) : List α := extend [] xs

/-- Puts entries one by one; of those sharing a name the last one stays, where the first stood. -/
def putAll (l xs : List α) : List α := xs.foldl put l

end Roster

abbrev Table (α : Type) := List (String × α)

instance instKeyedEntry {α : Type} : Keyed (String × α) String := ⟨Prod.fst⟩

namespace Table
variable {α β : Type}

def get? (t : Table α) (k : String) : Option α := (Roster.find? t k).map Prod.snd

def set (t : Table α) (k : String) (v : α) : Table α := Roster.put t (k, v)

def overlay (t u : Table α) : Table α := Roster.putAll t u

def same (eq : α → α → Bool) (t u : Table α) : Bool :=
  t.length == u.length && t.all fun e => ((get? u e.1).map (eq e.2)).getD false

end Table

def addNew {α : Type} [DecidableEq α] (l : List α) (x : α) : List α :=
  if x ∈ l then l else l ++ [x]

def addAllNew {α : Type} [DecidableEq α] (l xs : List α) : List α := xs.foldl addNew l

end FeatureAssembly
