import FeatureAssembly.Assembly.Assemble
import FeatureAssembly.Proofs.Outcome
import FeatureAssembly.Proofs.Walk

/-! Errors that tell of the line of prototypes alone. Neither leaving out content nor merging ever
reports one, so assembling a feature fails with such an error exactly if the walk along its
prototypes ends with it. -/

namespace FeatureAssembly
open Outcome

def BuildError.isStructural : BuildError → Bool
  | .missingFeature _ => true
  | .finalPrototype _ _ => true
  | .cycle _ => true
  | _ => false

theorem Walk.isStructural {c : Catalogue} {path : List Coordinate} {x : Feature}
    {xs : List Feature} {e : BuildError} (h : Walk c path x xs (some e)) :
    e.isStructural = true := by
  generalize hv : some e = v at h
  induction h with
  | step _ _ _ _ _ _ ih => exact ih hv
  | cycle => cases hv; rfl
  | missing => cases hv; rfl
  | final => cases hv; rfl
  | _ => simp at hv

namespace Feature

def IsMissing (heir : Coordinate) (e : BuildError) : Prop :=
  ∃ missing, e = .missingRemoval missing heir

variable (heir : Coordinate) (f : Feature)

theorem faultsIn_orMissing (m : Missing) : FaultsIn (IsMissing heir) (orMissing heir f m) :=
  faultsIn_failed ⟨m, rfl⟩

theorem faultsIn_removeBundle (id : Coordinate) :
    FaultsIn (IsMissing heir) (removeBundle heir f id) := by
  unfold removeBundle
  split
  · exact faultsIn_orMissing ..
  · exact faultsIn_done _

theorem faultsIn_removeConfiguration (entry : String) :
    FaultsIn (IsMissing heir) (removeConfiguration heir f entry) := by
  unfold removeConfiguration
  split
  · split
    · exact faultsIn_done _
    · exact faultsIn_orMissing ..
  · split
    · exact faultsIn_orMissing ..
    · split
      · exact faultsIn_done _
      · exact faultsIn_orMissing ..

theorem faultsIn_removeArtifacts (name : String) (l : List Artifact) (ids : List Coordinate) :
    FaultsIn (IsMissing heir) (removeArtifacts heir name l ids) := by
  refine FaultsIn.each (fun l id _ => ?_) l
  split
  · exact faultsIn_failed ⟨_, rfl⟩
  · exact faultsIn_done _

theorem faultsIn_removeExtensionArtifacts (entry : String × List Coordinate) :
    FaultsIn (IsMissing heir) (removeExtensionArtifacts heir f entry) := by
  unfold removeExtensionArtifacts
  split
  · exact faultsIn_orMissing ..
  · exact (faultsIn_removeArtifacts ..).map _

theorem faultsIn_removeRequirement (d : Descriptor) :
    FaultsIn (IsMissing heir) (removeRequirement heir f d) := by
  unfold removeRequirement
  split
  · exact faultsIn_done _
  · exact faultsIn_orMissing ..

theorem faultsIn_removeCapability (d : Descriptor) :
    FaultsIn (IsMissing heir) (removeCapability heir f d) := by
  unfold removeCapability
  split
  · exact faultsIn_done _
  · exact faultsIn_orMissing ..

theorem faultsIn_withoutRemovals (p : Prototype) :
    FaultsIn (IsMissing heir) (withoutRemovals heir p f) := by
  refine (FaultsIn.each (fun f id _ => faultsIn_removeBundle heir f id) f).andThen fun f => ?_
  refine (FaultsIn.each (fun f e _ => faultsIn_removeConfiguration heir f e) f).andThen fun f => ?_
  refine (FaultsIn.each (fun f e _ => faultsIn_removeExtensionArtifacts heir f e) _).andThen
    fun f => ?_
  refine (FaultsIn.each (fun f d _ => faultsIn_removeRequirement heir f d) f).andThen fun f => ?_
  exact FaultsIn.each (fun f d _ => faultsIn_removeCapability heir f d) f

end Feature

def BuildError.IsOfContent (e : BuildError) : Prop := e.isStructural = false

theorem Feature.IsMissing.isOfContent {heir : Coordinate} {e : BuildError}
    (h : Feature.IsMissing heir e) : e.IsOfContent := by
  obtain ⟨m, rfl⟩ := h
  rfl

section
variable (ctx : MergeContext)

theorem Draft.faultsIn_mergeOrFail (mode : MergeMode) (source : Feature) (d : Draft) :
    FaultsIn BuildError.IsOfContent (d.mergeOrFail ctx mode source) :=
  faultsIn_mapFault fun _ => rfl

theorem Draft.faultsIn_layer (f : Feature) (d : Draft) :
    FaultsIn BuildError.IsOfContent (layer ctx f d) :=
  (faultsIn_mergeOrFail ..).andThen fun _ => faultsIn_done _

theorem Draft.faultsIn_inherit (heir : Feature) (p : Prototype) (base : Draft) :
    FaultsIn BuildError.IsOfContent (inherit ctx heir p base) := by
  refine FaultsIn.andThen (FaultsIn.map ?_ _) fun base => ?_
  · exact (Feature.faultsIn_withoutRemovals ..).mono fun _ => Feature.IsMissing.isOfContent
  · exact (faultsIn_mergeOrFail ..).andThen fun _ => faultsIn_done _

theorem Lineage.faultsIn_build (notes : List String) (l : Lineage) :
    FaultsIn BuildError.IsOfContent (l.build ctx notes) := by
  induction l with
  | assembled f => exact faultsIn_done _
  | root f => exact Draft.faultsIn_layer ..
  | heir f p base ih =>
    exact (ih.andThen fun d => Draft.faultsIn_inherit ctx f p d).andThen fun d =>
      Draft.faultsIn_layer ctx f d

end

theorem Draft.faultsIn_finish (ctx : AssemblyContext) (d : Draft) :
    FaultsIn BuildError.IsOfContent (d.finish ctx) := by
  refine FaultsIn.andThen (faultsIn_mapFault fun _ => rfl) fun d => ?_
  unfold Draft.substitute
  split
  · exact faultsIn_mapFault fun _ => rfl
  · exact faultsIn_done _

theorem Report.result_ofOutcome_eq_error_iff {o : Outcome BuildError Draft} {e : BuildError} :
    (ofOutcome o).result = .error e ↔ o.fault = some e := toExcept_eq_error_iff

theorem Report.result_ofOutcome_eq_ok_iff {o : Outcome BuildError Draft} {f : Feature} :
    (ofOutcome o).result = .ok f ↔ ∃ notes, o = done ⟨f, notes⟩ := by
  refine toExcept_eq_ok_iff.trans (map_eq_done_iff.trans ⟨?_, ?_⟩)
  · rintro ⟨⟨_, notes⟩, rfl, rfl⟩
    exact ⟨notes, rfl⟩
  · rintro ⟨notes, rfl⟩
    exact ⟨_, rfl, rfl⟩

section
variable {ctx : AssemblyContext} {f : Feature}

theorem assemble_of_lineage {l : Lineage} (hf : f.isAssembled = false)
    (hl : Lineage.ofFeature ctx.catalogue f = .ok l) :
    assemble ctx f = .ofOutcome ((l.build ctx.merge []).andThen (Draft.finish ctx)) := by
  rw [assemble, if_neg (Bool.eq_false_iff.mp hf), hl]

theorem assemble_of_defect {e : BuildError} (hf : f.isAssembled = false)
    (hl : Lineage.ofFeature ctx.catalogue f = .error e) : assemble ctx f = ⟨.error e, []⟩ := by
  rw [assemble, if_neg (Bool.eq_false_iff.mp hf), hl]

theorem result_assemble_eq_error_iff {e : BuildError} (he : e.isStructural = true)
    (hf : f.isAssembled = false) :
    (assemble ctx f).result = .error e ↔ Lineage.ofFeature ctx.catalogue f = .error e := by
  cases hl : Lineage.ofFeature ctx.catalogue f with
  | error e' => rw [assemble_of_defect hf hl, Except.error.injEq, Except.error.injEq]
  | ok l =>
    rw [assemble_of_lineage hf hl, Report.result_ofOutcome_eq_error_iff]
    refine ⟨fun h => ?_, (nomatch ·)⟩
    have hfaults := (l.faultsIn_build ctx.merge []).andThen (Draft.faultsIn_finish ctx)
    have hfault : e.IsOfContent := hfaults.of_fault e h
    rw [BuildError.IsOfContent, he] at hfault
    cases hfault

end

theorem Aggregate.faultsIn_outcome (ctx : AssemblyContext) (id : Coordinate)
    (features : List Feature) :
    FaultsIn (fun e => e.isStructural = true → ∃ g ∈ Features.deduplicate features, ∃ xs,
      Walk (localFirst (Features.deduplicate features) ctx.catalogue) [] g xs (some e))
      (outcome ctx id features) := by
  have content : ∀ {e : BuildError} {q : Prop}, e.IsOfContent → e.isStructural = true → q :=
    fun h h' => absurd (h.symm.trans h') Bool.false_ne_true
  unfold outcome
  refine FaultsIn.chain (FaultsIn.each (fun b g hg => ?_) _) fun b => ?_
  · unfold Batch.build
    cases hl : Lineage.ofFeature _ g with
    | error e =>
      exact faultsIn_failed fun _ => ⟨g, hg, Lineage.ofFeature_eq_error_iff.mp hl⟩
    | ok l => exact ((l.faultsIn_build ..).map _).mono fun _ h => content h
  · refine FaultsIn.mono (FaultsIn.andThen ?_ fun d => Draft.faultsIn_finish ..) fun _ h => content h
    exact FaultsIn.each (fun d g _ => Draft.faultsIn_mergeOrFail ..) _

/-- Exactly one walk leads from a feature to an end, and assembling the feature reports its defect,
whatever the features hold and the context says; other errors need a walk without defect. Within an
aggregate each participant walks for itself, so that sharing a prototype is no cycle. -/
theorem assemble_error_iff_walk (ctx : AssemblyContext) (f : Feature)
    (hf : f.isAssembled = false) :
    ∃ xs defect, Walk ctx.catalogue [] f xs defect ∧
      (∀ ys defect', Walk ctx.catalogue [] f ys defect' → ys = xs ∧ defect' = defect) ∧
      xs.length ≤ ctx.catalogue.length + 2 ∧
      (∀ ids, defect = some (.cycle ids) → ids = xs.map Feature.id) ∧
      (∀ e, defect = some e → (assemble ctx f).result = .error e) ∧
      (∀ e, (assemble ctx f).result = .error e →
        defect = if e.isStructural then some e else none) ∧
      ∀ id features e, (assembleMany ctx id features).result = .error e → e.isStructural = true →
        ∃ g ∈ Features.deduplicate features, ∃ ys,
          Walk (Aggregate.localFirst (Features.deduplicate features) ctx.catalogue) [] g ys
            (some e) := by
  obtain ⟨xs, defect, hw⟩ := Lineage.exists_walk ctx.catalogue f
  have reported : ∀ e, defect = some e → (assemble ctx f).result = .error e := by
    rintro e rfl
    rw [result_assemble_eq_error_iff hw.isStructural hf, Lineage.ofFeature_eq_error_iff]
    exact ⟨xs, hw⟩
  refine ⟨xs, defect, hw, fun ys d h => hw.unique h, Nat.le_trans hw.length_le ?_, ?_, reported,
    ?_, ?_⟩
  · exact Nat.add_le_add_right (List.length_filter_le ..) 2
  · rintro ids rfl
    exact hw.path_eq_of_cycle
  · intro e he
    split
    · next hs =>
      obtain ⟨ys, hys⟩ := Lineage.ofFeature_eq_error_iff.mp
        ((result_assemble_eq_error_iff hs hf).mp he)
      exact (hys.unique hw).2
    · next hs =>
      cases defect with
      | none => rfl
      | some e' =>
        obtain rfl := Except.error.inj (he.symm.trans (reported e' rfl))
        exact absurd hw.isStructural hs
  · intro id features e he
    exact (Aggregate.faultsIn_outcome ctx id features).of_fault e
      (Report.result_ofOutcome_eq_error_iff.mp he)

/-! Features without content and a context that knows them. -/

namespace Sample

def id (name : String) : Coordinate := ⟨"g", name, "1", none, Coordinate.defaultType⟩

def heir (name prototype : String) : Feature :=
  { Feature.ofId (id name) with prototype := some (.ofId (id prototype)) }

def context (known : List Feature) : AssemblyContext :=
  ⟨known.map Catalogue.entry, .empty, false⟩

end Sample

theorem assemble_reports_loop :
    (Sample.heir "a" "b").isAssembled = false ∧
      (assemble (Sample.context [Sample.heir "b" "c", Sample.heir "c" "b"])
        (Sample.heir "a" "b")).result =
        .error (.cycle (["a", "b", "c", "b"].map Sample.id)) := by
  obtain ⟨xs, defect, -, unique, -, -, reported, -⟩ := assemble_error_iff_walk
    (Sample.context [Sample.heir "b" "c", Sample.heir "c" "b"]) (Sample.heir "a" "b") rfl
  have loop : Walk (Sample.context [Sample.heir "b" "c", Sample.heir "c" "b"]).catalogue []
      (Sample.heir "a" "b")
      [Sample.heir "a" "b", Sample.heir "b" "c", Sample.heir "c" "b", Sample.heir "b" "c"]
      (some (.cycle (["a", "b", "c", "b"].map Sample.id))) :=
    .step rfl (by decide) rfl rfl rfl <| .step rfl (by decide) rfl rfl rfl <|
      .step rfl (by decide) rfl rfl rfl <| .cycle rfl (by decide)
  obtain ⟨rfl, rfl⟩ := unique _ _ loop
  exact ⟨rfl, reported _ rfl⟩

end FeatureAssembly
