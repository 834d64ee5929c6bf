/-! What a sequence of changes has built when it ends, and the fault that ended it early, if any.
A fault does not take back the changes made before it. -/

namespace FeatureAssembly

structure Outcome (ε α : Type) where
  value : α
  fault : Option ε

namespace Outcome
variable {ε δ α β ι : Type}

def done (a : α) : Outcome ε α := ⟨a, none⟩

def failed (a : α) (e : ε) : Outcome ε α := ⟨a, some e⟩

def map (f : α → β) (o : Outcome ε α) : Outcome ε β := ⟨f o.value, o.fault⟩

def mapFault (f : ε → δ) (o : Outcome ε α) : Outcome δ α := ⟨o.value, o.fault.map f⟩

def andThen (o : Outcome ε α) (f : α → Outcome ε α) : Outcome ε α :=
  match o.fault with
  | none => f o.value
  | some _ => o

/-- Continues with `f` into another kind of value; after a fault only what `partially` keeps of the
first value remains. -/
def chain (o : Outcome ε α) (partially : α → β) (f : α → Outcome ε β) : Outcome ε β :=
  match o.fault with
  | none => f o.value
  | some e => failed (partially o.value) e

def toExcept (o : Outcome ε α) : Except ε α :=
  match o.fault with
  | none => .ok o.value
  | some e => .error e

def ofExcept (old : α) : Except ε α → Outcome ε α
  | .ok a => done a
  | .error e => failed old e

def each (step : α → ι → Outcome ε α) : α → List ι → Outcome ε α
  | a, [] => done a
  | a, i :: is => (step a i).andThen fun b => each step b is

/-- Changes the items of a list in order, up to the first fault; the later ones stay. -/
def traverse (f : α → Outcome ε α) : List α → Outcome ε (List α)
  | [] => done []
  | x :: xs =>
    match (f x).fault with
    | none => (traverse f xs).map ((f x).value :: ·)
    | some e => failed ((f x).value :: xs) e

end Outcome
end FeatureAssembly
