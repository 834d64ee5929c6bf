import FeatureAssembly.Assembly.Assemble

/-! Assembling in one recursion. A feature is built as soon as its prototype is, and a trail that is
carried through knows which features have been entered and which prototypes were looked up. -/

namespace FeatureAssembly
open Outcome

theorem Catalogue.length_unvisited_append_le (c : Catalogue) (path : List Coordinate)
    (id : Coordinate) : (c.unvisited (path ++ [id])).length ≤ (c.unvisited path).length := by
  rw [unvisited, unvisited, ← List.countP_eq_length_filter, ← List.countP_eq_length_filter]
  refine List.countP_mono_left fun e _ he => ?_
  simp only [List.mem_append, not_or, decide_eq_true_eq] at he ⊢
  exact he.1

structure Trail where
  path : List Coordinate
  references : List Coordinate

namespace Trail

def empty : Trail := ⟨[], []⟩

def enter (t : Trail) (id : Coordinate) : Except BuildError Trail :=
  if id ∈ t.path then .error (.cycle (t.path ++ [id])) else .ok { t with path := t.path ++ [id] }

def leave (t : Trail) : Trail := { t with path := t.path.dropLast }

def refer (t : Trail) (id : Coordinate) : Trail := { t with references := addNew t.references id }

/-- Bounds the recursion: where a feature is entered again it ends. -/
def rank (c : Catalogue) (t : Trail) (f : Feature) : Nat :=
  (c.unvisited (t.path ++ [f.id])).length + if f.id ∈ t.path then 0 else 1

theorem enter_of_mem {t : Trail} {id : Coordinate} (h : id ∈ t.path) :
    t.enter id = .error (.cycle (t.path ++ [id])) := if_pos h

theorem enter_of_not_mem {t : Trail} {id : Coordinate} (h : id ∉ t.path) :
    t.enter id = .ok { t with path := t.path ++ [id] } := if_neg h

theorem rank_of_mem {c : Catalogue} {t : Trail} {f : Feature} (h : f.id ∈ t.path) :
    rank c t f = (c.unvisited (t.path ++ [f.id])).length := by rw [rank, if_pos h, Nat.add_zero]

theorem rank_of_not_mem {c : Catalogue} {t : Trail} {f : Feature} (h : f.id ∉ t.path) :
    rank c t f = (c.unvisited (t.path ++ [f.id])).length + 1 := by rw [rank, if_neg h]

def provide (c : Catalogue) (f : Feature) (p : Prototype) : Except BuildError Feature :=
  match c.find? p.id with
  | none => .error (.missingFeature p.id)
  | some g => if g.isFinal then .error (.finalPrototype p.id f.id) else .ok g

theorem provide_eq_ok_iff {c : Catalogue} {f g : Feature} {p : Prototype} :
    provide c f p = .ok g ↔ c.find? p.id = some g ∧ g.isFinal = false := by
  unfold provide
  grind

theorem rank_refer_lt {c : Catalogue} {t entered : Trail} {f g : Feature} {p : Prototype}
    (henter : t.enter f.id = .ok entered) (hg : provide c f p = .ok g) :
    rank c (entered.refer p.id) g < rank c t f := by
  by_cases hf : f.id ∈ t.path
  · rw [enter_of_mem hf] at henter
    cases henter
  · rw [enter_of_not_mem hf] at henter
    cases henter
    rw [rank_of_not_mem hf]
    by_cases hg' : g.id ∈ t.path ++ [f.id]
    · rw [rank_of_mem hg']
      exact Nat.lt_succ_of_le (Catalogue.length_unvisited_append_le ..)
    · rw [rank_of_not_mem hg']
      have hfound := (provide_eq_ok_iff.mp hg).1
      exact Nat.succ_lt_succ (Catalogue.length_unvisited_append_lt hfound hg')

def inherit (ctx : MergeContext) (f : Feature) (p : Prototype) (base : Draft × Trail) :
    Outcome BuildError (Draft × Trail) :=
  (Draft.inherit ctx f p base.1).map fun d => (d, base.2)

def conclude (ctx : MergeContext) (f : Feature) (inherited : Draft × Trail) :
    Outcome BuildError (Draft × Trail) :=
  (Draft.layer ctx f inherited.1).chain (fun d => (d, inherited.2)) fun d =>
    done (d, inherited.2.leave)

def build (ctx : MergeContext) (c : Catalogue) (notes : List String) (t : Trail) (f : Feature) :
    Outcome BuildError (Draft × Trail) :=
  if f.isAssembled then done (⟨f, notes⟩, t)
  else
    let start : Draft := ⟨Feature.ofId f.id, notes⟩
    match _entered : t.enter f.id with
    | .error e => failed (start, t) e
    | .ok entered =>
      match f.prototype with
      | none => conclude ctx f (start, entered)
      | some p =>
        match _found : provide c f p with
        | .error e => failed (start, entered.refer p.id) e
        | .ok g =>
          ((build ctx c notes (entered.refer p.id) g).andThen (inherit ctx f p)).andThen
            (conclude ctx f)
termination_by t.rank c f
decreasing_by exact rank_refer_lt _entered _found

def assemble (ctx : AssemblyContext) (f : Feature) : Report :=
  if f.isAssembled then ⟨.ok f, []⟩
  else
    let built := build ctx.merge ctx.catalogue [] empty f
    .ofOutcome ((built.map Prod.fst).andThen (Draft.finish ctx))

structure Convoy where
  assembled : List Feature
  trail : Trail
  notes : List String

def Convoy.empty : Convoy := ⟨[], .empty, []⟩

def Convoy.build (ctx : MergeContext) (c : Catalogue) (s : Convoy) (f : Feature) :
    Outcome BuildError Convoy :=
  (Trail.build ctx c s.notes s.trail f).chain
    (fun b => { s with trail := b.2, notes := b.1.notes })
    fun b => done ⟨s.assembled ++ [b.1.feature], b.2, b.1.notes⟩

structure Tally where
  draft : Draft
  contributors : List Artifact
  isComplete : Bool

def Tally.add (ctx : MergeContext) (t : Trail) (m : Tally) (f : Feature) :
    Outcome BuildError Tally :=
  if f.id ∈ t.references then done m
  else
    (m.draft.mergeOrFail ctx .aggregate f).chain (fun d => { m with draft := d }) fun d =>
      done ⟨d, Roster.add m.contributors (.ofId f.id), m.isComplete && f.isComplete⟩

def Tally.sealed (m : Tally) : Draft :=
  m.draft.mapFeature fun f =>
    { f with
      extensions := Roster.put f.extensions
        ⟨Aggregate.recordName, .transient, .artifacts m.contributors⟩
      isComplete := m.isComplete
      isFinal := false
      isAssembled := true }

def assembleMany (ctx : AssemblyContext) (id : Coordinate) (features : List Feature) : Report :=
  let participants := Features.deduplicate features
  let catalogue := Aggregate.localFirst participants ctx.catalogue
  let start (s : Convoy) : Draft := ⟨Feature.ofId id, s.notes⟩
  .ofOutcome <|
    (each (Convoy.build ctx.merge catalogue) .empty participants).chain start fun s =>
      (each (Tally.add ctx.merge s.trail) ⟨start s, [], true⟩ s.assembled).chain Tally.draft
        fun m => m.sealed.finish ctx

end Trail
end FeatureAssembly
