import FeatureAssembly.Outcome

/-! How properties pass through sequences of changes: what every value keeps, whether or not a fault
ended the sequence, which faults can occur, and what is known of a sequence that ended without. -/

namespace FeatureAssembly.Outcome
variable {ε δ α β ι : Type}

@[simp] theorem value_done (a : α) : (done a : Outcome ε α).value = a := rfl

@[simp] theorem fault_done (a : α) : (done a : Outcome ε α).fault = none := rfl

@[simp] theorem value_failed (a : α) (e : ε) : (failed a e).value = a := rfl

@[simp] theorem fault_failed (a : α) (e : ε) : (failed a e).fault = some e := rfl

@[simp] theorem value_map (f : α → β) (o : Outcome ε α) : (o.map f).value = f o.value := rfl

@[simp] theorem fault_map (f : α → β) (o : Outcome ε α) : (o.map f).fault = o.fault := rfl

@[simp] theorem value_mapFault (f : ε → δ) (o : Outcome ε α) : (o.mapFault f).value = o.value := rfl

@[simp] theorem fault_mapFault (f : ε → δ) (o : Outcome ε α) :
    (o.mapFault f).fault = o.fault.map f := rfl

@[simp] theorem done_andThen (a : α) (f : α → Outcome ε α) : (done a).andThen f = f a := rfl

@[simp] theorem failed_andThen (a : α) (e : ε) (f : α → Outcome ε α) :
    (failed a e).andThen f = failed a e := rfl

@[simp] theorem done_chain (a : α) (partially : α → β) (f : α → Outcome ε β) :
    (done a).chain partially f = f a := rfl

@[simp] theorem map_done (f : α → β) (a : α) : (done a : Outcome ε α).map f = done (f a) := rfl

@[simp] theorem mapFault_done (f : ε → δ) (a : α) :
    (done a : Outcome ε α).mapFault f = done a := rfl

@[simp] theorem each_nil (step : α → ι → Outcome ε α) (a : α) : each step a [] = done a := rfl

theorem each_cons (step : α → ι → Outcome ε α) (a : α) (i : ι) (is : List ι) :
    each step a (i :: is) = (step a i).andThen fun b => each step b is := rfl

theorem each_append (step : α → ι → Outcome ε α) (a : α) (is js : List ι) :
    each step a (is ++ js) = (each step a is).andThen fun b => each step b js := by
  induction is generalizing a with
  | nil => rfl
  | cons i is ih =>
    rw [List.cons_append, each_cons, each_cons]
    obtain ⟨v, _ | e⟩ := step a i
    · exact ih v
    · rfl

theorem eq_done_iff {o : Outcome ε α} {a : α} : o = done a ↔ o.value = a ∧ o.fault = none := by
  obtain ⟨v, e⟩ := o
  simp only [done, mk.injEq]

theorem done_eq_done_iff {a b : α} : (done a : Outcome ε α) = done b ↔ b = a := by
  rw [eq_done_iff, fault_done, and_iff_left rfl, value_done, eq_comm]

theorem failed_ne_done {a b : α} {e : ε} : failed a e ≠ done b :=
  fun h => nomatch (eq_done_iff.mp h).2

theorem eq_done_of_fault {o : Outcome ε α} (h : o.fault = none) : o = done o.value :=
  eq_done_iff.mpr ⟨rfl, h⟩

theorem eq_failed_of_fault {o : Outcome ε α} {e : ε} (h : o.fault = some e) :
    o = failed o.value e := by
  rw [failed, ← h]

theorem exists_eq_done_iff {o : Outcome ε α} : (∃ a, o = done a) ↔ o.fault = none :=
  ⟨fun ⟨_, h⟩ => (eq_done_iff.mp h).2, fun h => ⟨o.value, eq_done_of_fault h⟩⟩

theorem toExcept_eq_ok_iff {o : Outcome ε α} {a : α} : o.toExcept = .ok a ↔ o = done a := by
  obtain ⟨v, _ | e⟩ := o <;> simp [toExcept, done]

theorem toExcept_eq_error_iff {o : Outcome ε α} {e : ε} :
    o.toExcept = .error e ↔ o.fault = some e := by
  obtain ⟨v, _ | e'⟩ := o <;> simp [toExcept]

def toOption (o : Outcome ε α) : Option α := o.toExcept.toOption

theorem toOption_eq_some_iff {o : Outcome ε α} {a : α} : o.toOption = some a ↔ o = done a := by
  obtain ⟨v, _ | e⟩ := o <;> simp [toOption, toExcept, done, Except.toOption]

theorem map_eq_done_iff {f : α → β} {o : Outcome ε α} {b : β} :
    o.map f = done b ↔ ∃ a, o = done a ∧ f a = b := by
  constructor
  · intro h
    obtain ⟨hv, hf⟩ := eq_done_iff.mp h
    exact ⟨o.value, eq_done_of_fault hf, hv⟩
  · rintro ⟨a, rfl, rfl⟩
    rfl

theorem mapFault_eq_done_iff {f : ε → δ} {o : Outcome ε α} {a : α} :
    o.mapFault f = done a ↔ o = done a := by
  simp only [eq_done_iff, value_mapFault, fault_mapFault, Option.map_eq_none_iff]

theorem andThen_eq_done_iff {o : Outcome ε α} {f : α → Outcome ε α} {b : α} :
    o.andThen f = done b ↔ ∃ a, o = done a ∧ f a = done b := by
  obtain ⟨v, _ | e⟩ := o
  · constructor
    · exact fun h => ⟨v, rfl, h⟩
    · rintro ⟨a, h, hb⟩
      rw [h]
      exact hb
  · simp [andThen, done]

theorem chain_eq_done_iff {o : Outcome ε α} {partially : α → β} {f : α → Outcome ε β} {b : β} :
    o.chain partially f = done b ↔ ∃ a, o = done a ∧ f a = done b := by
  obtain ⟨v, _ | e⟩ := o
  · constructor
    · exact fun h => ⟨v, rfl, h⟩
    · rintro ⟨a, h, hb⟩
      rw [h]
      exact hb
  · simp [chain, done, failed]

theorem map_eq_chain (f : α → β) (o : Outcome ε α) : o.map f = o.chain f fun a => done (f a) := by
  obtain ⟨a, _ | e⟩ := o <;> rfl

theorem andThen_eq_chain (o : Outcome ε α) (f : α → Outcome ε α) :
    o.andThen f = o.chain id f := by
  obtain ⟨a, _ | e⟩ := o <;> rfl

theorem map_andThen_done_eq_failed_iff {f : α → β} {g : β → β} {o : Outcome ε α} {b : β} {e : ε} :
    ((o.map f).andThen fun b => done (g b)) = failed b e ↔ ∃ a, o = failed a e ∧ b = f a := by
  obtain ⟨a, _ | e'⟩ := o
  · simp [map, andThen, done, failed]
  · simp only [map, andThen, failed, mk.injEq, Option.some.injEq, and_assoc, exists_eq_left']
    exact ⟨fun h => ⟨h.2, h.1.symm⟩, fun h => ⟨h.2.symm, h.1⟩⟩

theorem andThen_congr {o : Outcome ε α} {f g : α → Outcome ε α} (h : f o.value = g o.value) :
    o.andThen f = o.andThen g := by
  obtain ⟨v, _ | e⟩ := o
  · exact h
  · rfl

theorem fault_andThen (o : Outcome ε α) (f : α → Outcome ε α) :
    (o.andThen f).fault = o.fault.or (f o.value).fault := by
  obtain ⟨v, _ | e⟩ := o
  · rfl
  · rfl

theorem andThen_of_fault {o : Outcome ε α} {e : ε} (h : o.fault = some e) (f : α → Outcome ε α) :
    o.andThen f = o := by
  obtain ⟨v, _ | e'⟩ := o
  · cases h
  · rfl

theorem mapFault_andThen (g : ε → δ) (o : Outcome ε α) (f : α → Outcome ε α) :
    (o.andThen f).mapFault g = (o.mapFault g).andThen fun a => (f a).mapFault g := by
  obtain ⟨v, _ | e⟩ := o <;> rfl

theorem each_mapFault (g : ε → δ) (step : α → ι → Outcome ε α) (a : α) (is : List ι) :
    each (fun a i => (step a i).mapFault g) a is = (each step a is).mapFault g := by
  induction is generalizing a with
  | nil => rfl
  | cons i is ih => simp only [each_cons, mapFault_andThen, ih]

theorem each_map (step : α → ι → Outcome ε α) (g : β → ι) (a : α) (is : List β) :
    each step a (is.map g) = each (fun a i => step a (g i)) a is := by
  induction is generalizing a with
  | nil => rfl
  | cons i is ih => simp only [List.map_cons, each_cons, ih]

theorem each_flatMap (step : α → ι → Outcome ε α) (g : β → List ι) (a : α) (is : List β) :
    each step a (is.flatMap g) = each (fun a i => each step a (g i)) a is := by
  induction is generalizing a with
  | nil => rfl
  | cons i is ih => simp only [List.flatMap_cons, each_append, each_cons, ih]

theorem each_done (g : α → ι → α) (a : α) (is : List ι) :
    each (fun a i => (done (g a i) : Outcome ε α)) a is = done (is.foldl g a) := by
  induction is generalizing a with
  | nil => rfl
  | cons i is ih => exact ih (g a i)

/-- A sequence that ends with a fault ends at one item: the changes before it are done, and the
fault and the value are those of its own change. -/
theorem exists_of_fault_each {step : α → ι → Outcome ε α} {a : α} {is : List ι} {e : ε}
    (h : (each step a is).fault = some e) : ∃ before i after b, is = before ++ i :: after ∧
      each step a before = done b ∧ (step b i).fault = some e ∧ each step a is = step b i := by
  induction is generalizing a with
  | nil => cases h
  | cons i is ih =>
    rw [each_cons] at h ⊢
    cases hi : (step a i).fault with
    | some e' =>
      have hstop := andThen_of_fault hi fun b => each step b is
      rw [hstop] at h
      exact ⟨[], i, is, a, rfl, rfl, h, hstop⟩
    | none =>
      have hdone := eq_done_of_fault hi
      rw [hdone, done_andThen] at h ⊢
      obtain ⟨before, j, after, b, his, hbefore, hj, hrest⟩ := ih h
      refine ⟨i :: before, j, after, b, congrArg (i :: ·) his, ?_, hj, hrest⟩
      rw [each_cons, hdone, done_andThen, hbefore]

theorem ofExcept_eq_done_iff {a b : α} {x : Except ε α} : ofExcept a x = done b ↔ x = .ok b := by
  cases x <;> simp [ofExcept, done, failed]

theorem ofExcept_eq_failed {a : α} {x : Except ε α} {e : ε} (h : (ofExcept a x).fault = some e) :
    ofExcept a x = failed a e ∧ x = .error e := by
  cases x with
  | ok b => cases h
  | error e' =>
    obtain rfl := Option.some.inj h
    exact ⟨rfl, rfl⟩

theorem map_value_traverse {f : α → Outcome ε α} {g : α → β} (hf : ∀ a, g (f a).value = g a)
    (as : List α) : (traverse f as).value.map g = as.map g := by
  induction as with
  | nil => rfl
  | cons a as ih =>
    unfold traverse
    split
    · rw [value_map, List.map_cons, List.map_cons, hf, ih]
    · rw [value_failed, List.map_cons, List.map_cons, hf]

/-! What values keep. -/

theorem andThen_keeps {P : α → Prop} {o : Outcome ε α} {f : α → Outcome ε α}
    (ho : P o.value) (hf : ∀ a, P a → P (f a).value) : P (o.andThen f).value := by
  obtain ⟨v, _ | e⟩ := o
  · exact hf v ho
  · exact ho

theorem each_keeps {P : α → Prop} {step : α → ι → Outcome ε α} {is : List ι}
    (hs : ∀ a, ∀ i ∈ is, P a → P (step a i).value) {a : α} (ha : P a) :
    P (each step a is).value := by
  induction is generalizing a with
  | nil => exact ha
  | cons i is ih =>
    refine andThen_keeps (hs a i (List.mem_cons_self ..) ha) fun b hb => ?_
    exact ih (fun c j hj => hs c j (List.mem_cons_of_mem _ hj)) hb

/-! What a whole sequence amounts to. -/

/-- Where `P` holds, a change by one item succeeds if it `can`, and changes by several items amount to
`total`. -/
structure AmountsTo (P : α → Prop) (can : α → ι → Prop) (step : α → ι → Outcome ε α)
    (total : α → List ι → α) : Prop where
  nil : ∀ a, total a [] = a
  cons : ∀ a i is, P a → total a (i :: is) = total (total a [i]) is
  keeps : ∀ a i, P a → P (total a [i])
  step_iff : ∀ a i b, P a → (step a i = done b ↔ can a i ∧ b = total a [i])

theorem forall_split_cons_iff {C : List ι → ι → Prop} {i : ι} {is : List ι} :
    (∀ before j after, i :: is = before ++ j :: after → C before j) ↔
      C [] i ∧ ∀ before j after, is = before ++ j :: after → C (i :: before) j := by
  constructor
  · intro h
    exact ⟨h [] i is rfl, fun before j after his => h (i :: before) j after (congrArg (i :: ·) his)⟩
  · rintro ⟨hfirst, hrest⟩ before j after hsplit
    cases before with
    | nil =>
      obtain ⟨rfl, -⟩ := List.cons.inj hsplit
      exact hfirst
    | cons k before =>
      obtain ⟨rfl, his⟩ := List.cons.inj hsplit
      exact hrest before j after his

theorem forall_split_map_iff {C : List β → β → Prop} {g : ι → β} {is : List ι} :
    (∀ before i after, is = before ++ i :: after → C (before.map g) (g i)) ↔
      ∀ before b after, is.map g = before ++ b :: after → C before b := by
  constructor
  · intro h before b after hsplit
    obtain ⟨front, rest, rfl, rfl, hrest⟩ := List.map_eq_append_iff.mp hsplit
    obtain ⟨i, back, rfl, rfl, -⟩ := List.map_eq_cons_iff.mp hrest
    exact h front i back rfl
  · rintro h before i after rfl
    exact h (before.map g) (g i) (after.map g) (by simp)

theorem forall_split_iff_forall_mem {C : ι → Prop} {is : List ι} :
    (∀ before i after, is = before ++ i :: after → C i) ↔ ∀ i ∈ is, C i := by
  constructor
  · intro h i hi
    obtain ⟨before, after, hsplit⟩ := List.append_of_mem hi
    exact h before i after hsplit
  · rintro h before i after rfl
    exact h i (List.mem_append_right _ (List.mem_cons_self ..))

namespace AmountsTo
variable {P : α → Prop} {can : α → ι → Prop} {step : α → ι → Outcome ε α}
  {total : α → List ι → α} {a b : α} {is : List ι}

theorem each_eq_done_iff (h : AmountsTo P can step total) (ha : P a) : each step a is = done b ↔
    (∀ before i after, is = before ++ i :: after → can (total a before) i) ∧ b = total a is := by
  induction is generalizing a with
  | nil =>
    rw [each_nil, done_eq_done_iff, h.nil]
    exact (and_iff_right fun before i after hsplit => by simp at hsplit).symm
  | cons i is ih =>
    have hrest := ih (h.keeps a i ha)
    simp only [← h.cons a i _ ha] at hrest
    rw [forall_split_cons_iff (C := fun before j => can (total a before) j), h.nil, each_cons,
      Outcome.andThen_eq_done_iff, and_assoc, ← hrest]
    simp only [h.step_iff a i _ ha, and_assoc, exists_and_left, exists_eq_left]

theorem andThen_eq_done_iff (h : AmountsTo P can step total) (ha : P a) {next : α → Outcome ε α} :
    (each step a is).andThen next = done b ↔
      (∀ before i after, is = before ++ i :: after → can (total a before) i) ∧
        next (total a is) = done b := by
  simp only [Outcome.andThen_eq_done_iff, h.each_eq_done_iff ha, and_assoc, exists_and_left,
    exists_eq_left]

end AmountsTo

/-! Which faults can occur. -/

structure FaultsIn (P : ε → Prop) (o : Outcome ε α) : Prop where
  of_fault : ∀ e, o.fault = some e → P e

section
variable {P : ε → Prop} {o : Outcome ε α}

theorem faultsIn_done (a : α) : FaultsIn P (done a) := ⟨fun _ h => nomatch h⟩

theorem faultsIn_failed {a : α} {e : ε} (h : P e) : FaultsIn P (failed a e) := by
  refine ⟨fun e' he => ?_⟩
  exact Option.some.inj he ▸ h

theorem FaultsIn.map (h : FaultsIn P o) (f : α → β) : FaultsIn P (o.map f) := ⟨h.of_fault⟩

theorem faultsIn_mapFault {Q : δ → Prop} {f : ε → δ} (h : ∀ e, Q (f e)) :
    FaultsIn Q (o.mapFault f) := by
  refine ⟨fun e he => ?_⟩
  obtain ⟨e', _, rfl⟩ := Option.map_eq_some_iff.mp he
  exact h e'

theorem FaultsIn.andThen {f : α → Outcome ε α} (ho : FaultsIn P o)
    (hf : ∀ a, FaultsIn P (f a)) : FaultsIn P (o.andThen f) := by
  obtain ⟨v, _ | e⟩ := o
  · exact hf v
  · exact ho

theorem FaultsIn.chain {partially : α → β} {f : α → Outcome ε β} (ho : FaultsIn P o)
    (hf : ∀ a, FaultsIn P (f a)) : FaultsIn P (o.chain partially f) := by
  obtain ⟨v, _ | e⟩ := o
  · exact hf v
  · exact ⟨ho.of_fault⟩

theorem FaultsIn.each {step : α → ι → Outcome ε α} {is : List ι}
    (hs : ∀ a, ∀ i ∈ is, FaultsIn P (step a i)) (a : α) :
    FaultsIn P (Outcome.each step a is) := by
  induction is generalizing a with
  | nil => exact faultsIn_done a
  | cons i is ih =>
    refine (hs a i (List.mem_cons_self ..)).andThen fun b => ?_
    exact ih (fun c j hj => hs c j (List.mem_cons_of_mem _ hj)) b

theorem FaultsIn.mono {Q : ε → Prop} (h : FaultsIn P o) (hPQ : ∀ e, P e → Q e) : FaultsIn Q o :=
  ⟨fun e he => hPQ e (h.of_fault e he)⟩

end
end FeatureAssembly.Outcome

/-! Readers, which give a result or tell a defect. -/

namespace FeatureAssembly

theorem bind_eq_ok_iff {ε α β : Type} {x : Except ε α} {f : α → Except ε β} {b : β} :
    (x >>= f) = .ok b ↔ ∃ a, x = .ok a ∧ f a = .ok b := by
  cases x with
  | error e => exact ⟨nofun, nofun⟩
  | ok a => simp [bind, Except.bind]

theorem mapM_eq_ok_iff {ε α β : Type} {f : α → Except ε β} {l : List α} {r : List β} :
    l.mapM f = .ok r ↔ l.map f = r.map .ok := by
  induction l generalizing r with
  | nil =>
    constructor
    · intro h
      rw [← Except.ok.inj h]
      rfl
    · intro h
      rw [List.map_eq_nil_iff.mp h.symm]
      rfl
  | cons x l ih =>
    simp only [List.mapM_cons, bind_eq_ok_iff, ih, List.map_cons]
    constructor
    · rintro ⟨y, hy, ys, hys, heq⟩
      rw [hy, hys, ← Except.ok.inj heq, List.map_cons]
    · intro h
      obtain ⟨y, ys, rfl, hy, hys⟩ := List.map_eq_cons_iff.mp h.symm
      exact ⟨y, hy.symm, ys, hys.symm, rfl⟩

theorem mapM_map_eq_some {α β γ : Type} {read : β → Option γ} {write : α → β} {value : α → γ}
    {l : List α} (h : ∀ x ∈ l, read (write x) = some (value x)) :
    (l.map write).mapM read = some (l.map value) := by
  induction l with
  | nil => rfl
  | cons x l ih =>
    obtain ⟨hx, hl⟩ := List.forall_mem_cons.mp h
    rw [List.map_cons, List.mapM_cons, hx, ih hl]
    rfl

end FeatureAssembly
