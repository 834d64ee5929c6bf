import FeatureAssembly.Artifact.Metadata
import FeatureAssembly.Proofs.CoordinateForms
import FeatureAssembly.Proofs.CopyIntoEmpty
import FeatureAssembly.Proofs.VersionReaders

/-! Artifacts and their tables of texts. An artifact that was read from entries is read back from its
own table, unless one of its coordinates is written as something else: an id whose group is the name of
the scheme looks like a url, and a comma in an alias, which the version of the artifact can bring in,
ends the alias where the list is cut. -/

namespace FeatureAssembly

namespace Coordinate
open Text

theorem exists_toList_id_eq (a : Coordinate) : ∃ front : List Char,
    a.id.toList = front ++ a.version.toList ∧ 2 ≤ front.count ':' ∧
      ∀ x ∈ front, x = ':' ∨ ∃ p ∈ a.stem, x ∈ p.toList := by
  unfold id stem
  cases a.classifier with
  | none =>
    dsimp only
    split
    · refine ⟨(a.group ++ ":" ++ a.artifact ++ ":").toList, String.toList_append, ?_, ?_⟩
      · simp
        omega
      · simp
        grind
    · refine ⟨(a.group ++ ":" ++ a.artifact ++ ":" ++ a.type ++ ":").toList,
        String.toList_append, ?_, ?_⟩
      · simp
        omega
      · simp
        grind
  | some c =>
    refine ⟨(a.group ++ ":" ++ a.artifact ++ ":" ++ a.type ++ ":" ++ c ++ ":").toList,
      String.toList_append, ?_, ?_⟩
    · simp
      omega
    · simp
      grind

theorem id_ne_empty (a : Coordinate) : a.id ≠ "" := by
  obtain ⟨rest, hid⟩ := exists_toList_id a
  intro hempty
  rw [hempty] at hid
  simp at hid

theorem version_and_stem_of_ofId {x : Char} (hx : x ∉ defaultType.toList) {s v : String}
    {a : Coordinate} (hs : trim s = s) (hne : s ≠ "") (hmem : x ∉ s.toList) (hv : v ≠ "")
    (hplain : isPlain v) (h : ofId (s ++ ":" ++ v) = .ok a) :
    a.version = v ∧ ∀ p ∈ a.stem, x ∉ p.toList := by
  have htrim : trim (s ++ ":" ++ v) = s ++ ":" ++ v := by
    refine trim_of_ends ?_ ?_
    · rw [String.append_assoc, String.toList_append]
      exact trimStart_append (String.toList_eq_nil_iff.not.mpr hne) (trimStart_of_trim hs) _
    · have hend := trimEnd_of_trim (trim_of_isPlain hplain)
      rw [String.toList_append]
      exact trimEnd_append (String.toList_eq_nil_iff.not.mpr hv) hend _
  have hversion : pieces ':' v = [v] := pieces_of_not_mem (separators_of_isPlain hplain).1
  obtain ⟨g, n, w, c, t, hmake, hpieces⟩ := exists_make_of_ofId h
  have hcut : pieces ':' s ++ [v] = (g :: n :: (t.toList ++ c.toList)) ++ [w] := by
    rw [← hversion, ← pieces_append]
    rw [htrim] at hpieces
    exact hpieces
  obtain ⟨hparts, hlast⟩ := List.append_inj' hcut rfl
  obtain rfl := List.singleton_inj.mp hlast
  obtain ⟨-, -, hread, -, -⟩ := make_eq_ok hmake
  refine ⟨(required_eq_ok hread).1.trans (trim_of_isPlain hplain), ?_⟩
  refine not_mem_stem_of_make hx hmake fun p hp hchar => hmem ?_
  rw [← hparts] at hp
  obtain ⟨q, hq, rfl⟩ := List.mem_map.mp hp
  rw [String.toList_ofList] at hchar
  exact mem_of_mem_piecesOf hq x hchar

/-- Of the parts into which commas cut an id, the first one has at least two colons, and all others
belong to the version, if no other component holds a comma. -/
theorem WellFormed.count_ne_one {a : Coordinate} (ha : a.WellFormed) (hstem : ∀ p ∈ a.stem, ',' ∉ p.toList)
    {q : List Char} (hq : q ∈ piecesOf ',' a.id.toList) : q.count ':' ≠ 1 := by
  obtain ⟨front, hid, hcount, hfront⟩ := a.exists_toList_id_eq
  have hcomma : ',' ∉ front := by
    intro hmem
    rcases hfront _ hmem with hcolon | ⟨p, hp, hmem⟩
    · exact absurd hcolon (by decide)
    · exact hstem p hp hmem
  have hversion : ∀ r ∈ piecesOf ',' a.version.toList, r.count ':' = 0 := by
    intro r hr
    refine List.count_eq_zero.mpr fun hmem => ?_
    exact (separators_of_isPlain ha.version.2).1 (mem_of_mem_piecesOf hr _ hmem)
  rw [hid, piecesOf_append_left hcomma] at hq
  cases hcut : piecesOf ',' a.version.toList with
  | nil =>
    rw [hcut] at hq
    cases hq
  | cons r rs =>
    rw [hcut] at hq hversion
    rcases List.mem_cons.mp hq with rfl | hq
    · rw [List.count_append]
      omega
    · rw [hversion q (List.mem_cons_of_mem r hq)]
      decide

structure IsListable (a : Coordinate) : Prop where
  wellFormed : a.WellFormed
  comma : ∀ p ∈ a.components, ',' ∉ p.toList

end Coordinate

namespace Artifact
open Text
variable {a b : Artifact} {id : Coordinate}

/-! Reading entries. -/

def typedKeys : List String := [startOrderKey, aliasKey, originsKey]

inductive Enters (a : Artifact) : String → String → Artifact → Prop where
  | startOrder {value n} (read : readStartOrder? value = some n) :
      Enters a startOrderKey value { a with startOrder := n }
  | aliases {value ids} (read : (listItems trim value).map a.readAlias = ids.map .ok) :
      Enters a aliasKey value { a with aliases := addAllNew a.aliases ids }
  | origins {value ids} (read : (listItems trim value).map Coordinate.parse = ids.map .ok) :
      Enters a originsKey value { a with origins := addAllNew a.origins ids }
  | metadata {key value} (free : key ∉ typedKeys) :
      Enters a key value { a with metadata := Table.set a.metadata key value }

theorem readAliases_eq (a : Artifact) (l : List String) : a.readAliases l =
    l.mapM a.readAlias >>= fun ids => .ok { a with aliases := addAllNew a.aliases ids } := by
  induction l generalizing a with
  | nil => rfl
  | cons s l ih =>
    rw [readAliases, List.mapM_cons, bind_assoc]
    refine bind_congr fun i => ?_
    rw [ih, bind_assoc]
    rfl

theorem readOrigins_eq (a : Artifact) (l : List String) : a.readOrigins l =
    l.mapM Coordinate.parse >>= fun ids => .ok { a with origins := addAllNew a.origins ids } := by
  induction l generalizing a with
  | nil => rfl
  | cons s l ih =>
    rw [readOrigins, List.mapM_cons, bind_assoc]
    refine bind_congr fun i => ?_
    rw [ih, bind_assoc]
    rfl

theorem invalidIdOf_eq_ok_iff {α : Type} {x : Except CoordinateError α} {r : α} :
    invalidIdOf x = .ok r ↔ x = .ok r := by
  cases x with
  | ok r => simp [invalidIdOf]
  | error e => exact ⟨nofun, nofun⟩

theorem readEntry_startOrderKey {value : String} {n : Nat} (h : readStartOrder? value = some n) :
    a.readEntry startOrderKey value = .ok { a with startOrder := n } := by
  rw [readEntry, if_pos rfl, h]

theorem readEntry_aliasKey_iff {value : String} : a.readEntry aliasKey value = .ok b ↔
    ∃ ids, (listItems trim value).map a.readAlias = ids.map .ok ∧
      b = { a with aliases := addAllNew a.aliases ids } := by
  rw [readEntry, if_neg (by decide), if_pos rfl, invalidIdOf_eq_ok_iff, readAliases_eq, bind_eq_ok_iff]
  simp only [mapM_eq_ok_iff, Except.ok.injEq, eq_comm (b := b)]

theorem readEntry_originsKey_iff {value : String} : a.readEntry originsKey value = .ok b ↔
    ∃ ids, (listItems trim value).map Coordinate.parse = ids.map .ok ∧
      b = { a with origins := addAllNew a.origins ids } := by
  rw [readEntry, if_neg (by decide), if_neg (by decide), if_pos rfl, invalidIdOf_eq_ok_iff,
    readOrigins_eq, bind_eq_ok_iff]
  simp only [mapM_eq_ok_iff, Except.ok.injEq, eq_comm (b := b)]

theorem readEntry_of_free {key : String} (h : key ∉ typedKeys) (value : String) :
    a.readEntry key value = .ok { a with metadata := Table.set a.metadata key value } := by
  simp only [typedKeys, List.mem_cons, List.not_mem_nil, or_false, not_or] at h
  rw [readEntry, if_neg h.1, if_neg h.2.1, if_neg h.2.2]

theorem enters_of_readEntry {key value : String} (h : a.readEntry key value = .ok b) :
    Enters a key value b := by
  by_cases hfree : key ∈ typedKeys
  · simp only [typedKeys, List.mem_cons, List.not_mem_nil, or_false] at hfree
    rcases hfree with rfl | rfl | rfl
    · rw [readEntry, if_pos rfl] at h
      split at h
      · next n hread => exact Except.ok.inj h ▸ .startOrder hread
      · cases h
    · obtain ⟨ids, hread, rfl⟩ := readEntry_aliasKey_iff.mp h
      exact .aliases hread
    · obtain ⟨ids, hread, rfl⟩ := readEntry_originsKey_iff.mp h
      exact .origins hread
  · rw [readEntry_of_free hfree] at h
    exact Except.ok.inj h ▸ .metadata hfree

/-- What an alias that was read is like: only the version of the artifact can bring in a comma. -/
structure IsReadAlias (id i : Coordinate) : Prop where
  wellFormed : i.WellFormed
  stem : ∀ p ∈ i.stem, ',' ∉ p.toList
  version : ',' ∈ i.version.toList → i.version = id.version

theorem IsReadAlias.isListable {i : Coordinate} (hi : IsReadAlias id i) (h : ',' ∉ i.version.toList) :
    i.IsListable := by
  refine ⟨hi.wellFormed, fun p hp => ?_⟩
  rcases Coordinate.mem_components_iff.mp hp with hp | rfl
  · exact hi.stem p hp
  · exact h

structure IsRead (id : Coordinate) (a : Artifact) : Prop where
  named : a.id = id
  startOrder : a.startOrder < startOrderBound
  aliases : a.aliases.Nodup ∧ ∀ i ∈ a.aliases, IsReadAlias id i
  origins : a.origins.Nodup ∧ ∀ i ∈ a.origins, i.IsListable
  metadata : Roster.Distinct a.metadata ∧ ∀ k ∈ Roster.keys a.metadata, k ∉ typedKeys

theorem mem_listItems {s v : String} (h : s ∈ listItems trim v) :
    s ≠ "" ∧ ∃ p ∈ pieces ',' v, trim p = s := by
  obtain ⟨hmem, hne⟩ := List.mem_filter.mp h
  exact ⟨of_decide_eq_true hne, List.mem_map.mp hmem⟩

theorem comma_not_mem_of_mem_listItems {s v : String} (h : s ∈ listItems trim v) : ',' ∉ s.toList := by
  obtain ⟨-, p, hp, rfl⟩ := mem_listItems h
  exact fun hmem => not_mem_of_mem_pieces hp (mem_of_mem_trim hmem)

theorem trim_of_mem_listItems {s v : String} (h : s ∈ listItems trim v) : trim s = s := by
  obtain ⟨-, p, -, rfl⟩ := mem_listItems h
  exact trim_trim p

theorem readStartOrder?_lt {s : String} {n : Nat} (h : readStartOrder? s = some n) :
    n < startOrderBound := by
  unfold readStartOrder? at h
  split at h
  · exact (readNat?_eq_some_iff.mp h).2.2
  · exact (readNat?_eq_some_iff.mp h).2.2

theorem readAlias_cases {s : String} {i : Coordinate} (h : a.readAlias s = .ok i) :
    s.toList.count ':' = 1 ∧ Coordinate.ofId (s ++ ":" ++ a.id.version) = .ok i ∨
      s.toList.count ':' ≠ 1 ∧ Coordinate.parse s = .ok i := by
  unfold readAlias at h
  split at h
  · next hcount => exact .inl ⟨hcount, h⟩
  · next hcount => exact .inr ⟨hcount, h⟩

theorem isListable_of_map_parse {ids : List Coordinate} {v : String}
    (h : (listItems trim v).map Coordinate.parse = ids.map .ok) : ∀ i ∈ ids, i.IsListable := by
  intro i hi
  have hmem : Except.ok i ∈ (listItems trim v).map Coordinate.parse := by
    rw [h]
    exact List.mem_map_of_mem hi
  obtain ⟨s, hs, hparse⟩ := List.mem_map.mp hmem
  exact ⟨(Coordinate.Obtainable.parse hparse).wellFormed,
    Coordinate.not_mem_components_of_parse (by decide) hparse (comma_not_mem_of_mem_listItems hs)⟩

namespace IsRead

theorem ofId (id : Coordinate) : IsRead id (ofId id) where
  named := rfl
  startOrder := (by decide : 0 < startOrderBound)
  aliases := ⟨List.nodup_nil, fun _ h => absurd h List.not_mem_nil⟩
  origins := ⟨List.nodup_nil, fun _ h => absurd h List.not_mem_nil⟩
  metadata := ⟨List.nodup_nil, fun _ h => absurd h List.not_mem_nil⟩

theorem of_readAlias (ha : IsRead id a) (hid : id.WellFormed) {s v : String} {i : Coordinate}
    (hs : s ∈ listItems trim v) (h : a.readAlias s = .ok i) : IsReadAlias id i := by
  have hdefault : ',' ∉ Coordinate.defaultType.toList := by decide
  have hcomma := comma_not_mem_of_mem_listItems hs
  rcases readAlias_cases h with ⟨-, hread⟩ | ⟨-, hread⟩
  · rw [ha.named] at hread
    obtain ⟨hversion, hstem⟩ := Coordinate.version_and_stem_of_ofId hdefault (trim_of_mem_listItems hs)
      (mem_listItems hs).1 hcomma hid.version.1 hid.version.2 hread
    exact ⟨(Coordinate.Obtainable.ofId hread).wellFormed, hstem, fun _ => hversion⟩
  · have hfree := Coordinate.not_mem_components_of_parse hdefault hread hcomma
    refine ⟨(Coordinate.Obtainable.parse hread).wellFormed, fun p hp => ?_, fun hmem => ?_⟩
    · exact hfree p (Coordinate.mem_components_iff.mpr (.inl hp))
    · exact absurd hmem (hfree _ (Coordinate.mem_components_iff.mpr (.inr rfl)))

theorem enters (ha : IsRead id a) (hid : id.WellFormed) {key value : String}
    (h : Enters a key value b) : IsRead id b := by
  cases h with
  | startOrder hread => exact { ha with startOrder := readStartOrder?_lt hread }
  | aliases hread =>
    refine { ha with aliases := ⟨nodup_addAllNew ha.aliases.1 _, fun i hi => ?_⟩ }
    rcases mem_addAllNew.mp hi with hi | hi
    · exact ha.aliases.2 i hi
    · obtain ⟨s, hs, hs'⟩ := List.mem_map.mp (hread ▸ List.mem_map_of_mem hi)
      exact ha.of_readAlias hid hs hs'
  | origins hread =>
    refine { ha with origins := ⟨nodup_addAllNew ha.origins.1 _, fun i hi => ?_⟩ }
    rcases mem_addAllNew.mp hi with hi | hi
    · exact ha.origins.2 i hi
    · exact isListable_of_map_parse hread i hi
  | metadata hfree =>
    refine { ha with metadata := ⟨ha.metadata.1.put _, fun k hk => ?_⟩ }
    rw [Table.set, Roster.keys_put] at hk
    split at hk
    · exact ha.metadata.2 k hk
    · rcases List.mem_append.mp hk with hk | hk
      · exact ha.metadata.2 k hk
      · rwa [List.mem_singleton.mp hk]

theorem readEntries {entries : List (String × String)} (ha : IsRead id a) (hid : id.WellFormed)
    (h : a.readEntries entries = .ok b) : IsRead id b := by
  induction entries generalizing a with
  | nil => exact Except.ok.inj h ▸ ha
  | cons e entries ih =>
    obtain ⟨c, hc, hrest⟩ := bind_eq_ok_iff.mp h
    exact ih (ha.enters hid (enters_of_readEntry hc)) hrest

end IsRead

/-! Reading the table of an artifact. -/

theorem readEntries_append (a : Artifact) (l m : List (String × String)) :
    a.readEntries (l ++ m) = a.readEntries l >>= fun b => b.readEntries m := by
  induction l generalizing a with
  | nil => rfl
  | cons e l ih =>
    rw [List.cons_append, readEntries, readEntries, bind_assoc]
    exact bind_congr fun b => ih b

theorem readEntries_metadata {t : Table String}
    (hdistinct : Roster.Distinct (a.metadata ++ t)) (hfree : ∀ k ∈ Roster.keys t, k ∉ typedKeys) :
    a.readEntries t = .ok { a with metadata := a.metadata ++ t } := by
  induction t generalizing a with
  | nil =>
    rw [List.append_nil]
    rfl
  | cons e t ih =>
    rw [Roster.keys_cons, List.forall_mem_cons] at hfree
    have hset : Table.set a.metadata e.1 e.2 = a.metadata ++ [e] :=
      Roster.put_of_not_mem (Roster.not_mem_keys_of_distinct_append hdistinct)
    have hentry : a.readEntry e.1 e.2 = .ok { a with metadata := a.metadata ++ [e] } := by
      rw [← hset]
      exact readEntry_of_free hfree.1 e.2
    have hrest := ih (a := { a with metadata := a.metadata ++ [e] })
      (by rwa [List.append_assoc]) hfree.2
    rw [List.append_assoc] at hrest
    exact bind_eq_ok_iff.mpr ⟨_, hentry, hrest⟩

theorem readEntries_singleton (a : Artifact) (key value : String) :
    a.readEntries [(key, value)] = a.readEntry key value := by
  rw [readEntries]
  exact bind_pure _

def typedEntries (a : Artifact) : List (String × String) :=
  (if a.startOrder = 0 then [] else [(startOrderKey, a.startOrder.repr)]) ++
    ((if a.aliases = [] then [] else [(aliasKey, joinIds a.aliases)]) ++
      if a.origins = [] then [] else [(originsKey, joinIds a.origins)])

theorem IsRead.metadataView_eq (ha : IsRead id a) : a.metadataView = a.metadata ++ a.typedEntries := by
  have hset : ∀ {p : Prop} [Decidable p] {t : Table String} {k v : String}, k ∉ Roster.keys t →
      (if p then t else Table.set t k v) = t ++ if p then [] else [(k, v)] := by
    intro p _ t k v hk
    split
    · rw [List.append_nil]
    · exact Roster.put_of_not_mem hk
  have hfree : ∀ k ∈ typedKeys, k ∉ Roster.keys a.metadata := fun k hk hmem => ha.metadata.2 k hmem hk
  -- no key is there yet when its turn comes, so that each entry is put at the end
  have hstart := hfree startOrderKey (by decide)
  have halias : aliasKey ∉ Roster.keys (a.metadata ++
      if a.startOrder = 0 then [] else [(startOrderKey, a.startOrder.repr)]) := by
    rw [Roster.keys_append, List.mem_append, not_or]
    refine ⟨hfree aliasKey (by decide), ?_⟩
    split <;> simp [Roster.keys, Keyed.key, aliasKey, startOrderKey]
  have horigins : originsKey ∉ Roster.keys ((a.metadata ++
      if a.startOrder = 0 then [] else [(startOrderKey, a.startOrder.repr)]) ++
      if a.aliases = [] then [] else [(aliasKey, joinIds a.aliases)]) := by
    rw [Roster.keys_append, Roster.keys_append, List.mem_append, List.mem_append, not_or, not_or]
    refine ⟨⟨hfree originsKey (by decide), ?_⟩, ?_⟩
    · split <;> simp [Roster.keys, Keyed.key, originsKey, startOrderKey]
    · split <;> simp [Roster.keys, Keyed.key, originsKey, aliasKey]
  rw [metadataView, typedEntries, hset hstart, hset halias, hset horigins, List.append_assoc,
    List.append_assoc]

theorem readStartOrder?_repr {n : Nat} (h : n < startOrderBound) : readStartOrder? n.repr = some n := by
  have hdigit : ∀ c ∈ n.repr.toList, c.isDigit = true := isDigit_of_readNat? (readNat?_repr h)
  have htrim : trim n.repr = n.repr := by
    refine trim_of_no_blank fun c hc => isBlank_of_isAlphanum ?_
    exact Bool.or_eq_true_iff.mpr (.inr (hdigit c hc))
  unfold readStartOrder?
  rw [htrim]
  split
  · next cs hcs => exact absurd (hdigit '+' (hcs ▸ List.mem_cons_self ..)) (by decide)
  · exact readNat?_repr h

theorem readEntries_startOrder {n : Nat} (hunset : a.startOrder = 0) (hn : n < startOrderBound) :
    a.readEntries (if n = 0 then [] else [(startOrderKey, n.repr)]) =
      .ok { a with startOrder := n } := by
  split
  · next hzero => rw [hzero, ← hunset]; rfl
  · rw [readEntries_singleton, readEntry_startOrderKey (readStartOrder?_repr hn)]

theorem listItems_nil : listItems trim (joinIds []) = [] := by decide

theorem readEntries_joinIds_iff {ids : List Coordinate} {key : String}
    {read : String → Except CoordinateError Coordinate} {change : List Coordinate → Artifact}
    (hnone : change [] = a)
    (hentry : ∀ value, a.readEntry key value = .ok b ↔
      ∃ ids, (listItems trim value).map read = ids.map .ok ∧ b = change ids) :
    a.readEntries (if ids = [] then [] else [(key, joinIds ids)]) = .ok b ↔
      ∃ found, (listItems trim (joinIds ids)).map read = found.map .ok ∧ b = change found := by
  split
  · next hnil =>
    rw [hnil, listItems_nil]
    constructor
    · exact fun h => ⟨[], rfl, (Except.ok.inj h).symm.trans hnone.symm⟩
    · rintro ⟨found, hfound, rfl⟩
      rw [List.map_eq_nil_iff.mp hfound.symm, hnone]
      rfl
  · rw [readEntries_singleton, hentry]

theorem readEntries_aliases_iff {ids : List Coordinate} :
    a.readEntries (if ids = [] then [] else [(aliasKey, joinIds ids)]) = .ok b ↔
      ∃ found, (listItems trim (joinIds ids)).map a.readAlias = found.map .ok ∧
        b = { a with aliases := addAllNew a.aliases found } :=
  readEntries_joinIds_iff rfl fun _ => readEntry_aliasKey_iff

theorem readEntries_origins_iff {ids : List Coordinate} :
    a.readEntries (if ids = [] then [] else [(originsKey, joinIds ids)]) = .ok b ↔
      ∃ found, (listItems trim (joinIds ids)).map Coordinate.parse = found.map .ok ∧
        b = { a with origins := addAllNew a.origins found } :=
  readEntries_joinIds_iff rfl fun _ => readEntry_originsKey_iff

theorem IsRead.ofMetadata_metadataView_iff (ha : IsRead id a) :
    ofMetadata id a.metadataView = .ok b ↔ ∃ aliases origins,
      (listItems trim (joinIds a.aliases)).map a.readAlias = aliases.map .ok ∧
        (listItems trim (joinIds a.origins)).map Coordinate.parse = origins.map .ok ∧
        b = { a with aliases := addAllNew [] aliases, origins := addAllNew [] origins } := by
  obtain rfl := ha.named
  have hmetadata : (Artifact.ofId a.id).readEntries a.metadata =
      .ok { Artifact.ofId a.id with metadata := a.metadata } :=
    readEntries_metadata ha.metadata.1 ha.metadata.2
  have hstart : ({ Artifact.ofId a.id with metadata := a.metadata } : Artifact).readEntries
      (if a.startOrder = 0 then [] else [(startOrderKey, a.startOrder.repr)]) =
      .ok { a with aliases := [], origins := [] } := readEntries_startOrder rfl ha.startOrder
  simp only [ofMetadata, ha.metadataView_eq, typedEntries, readEntries_append, hmetadata, hstart,
    bind_eq_ok_iff, Except.ok.injEq, exists_eq_left', readEntries_aliases_iff, readEntries_origins_iff]
  constructor
  · rintro ⟨c, ⟨aliases, haliases, rfl⟩, origins, horigins, rfl⟩
    exact ⟨aliases, origins, haliases, horigins, rfl⟩
  · rintro ⟨aliases, origins, haliases, horigins, rfl⟩
    exact ⟨_, ⟨aliases, haliases, rfl⟩, origins, horigins, rfl⟩

/-! Lists of coordinates. -/

section
variable {ids read : List Coordinate}

theorem count_ne_one_of_mem_joinIds (h : ∀ i ∈ ids, IsReadAlias id i) {s : String}
    (hs : s ∈ listItems trim (joinIds ids)) : s.toList.count ':' ≠ 1 := by
  obtain ⟨-, p, hp, rfl⟩ := mem_listItems hs
  have hids : ids.map Coordinate.id ≠ [] := by
    intro hnil
    rw [List.map_eq_nil_iff.mp hnil, listItems_nil] at hs
    cases hs
  obtain ⟨t, ht, hpiece⟩ := mem_pieces_intercalate hids hp
  obtain ⟨i, hi, rfl⟩ := List.mem_map.mp ht
  obtain ⟨q, hq, rfl⟩ := List.mem_map.mp hpiece
  have htrim : trim (String.ofList q) = String.ofList q := by
    refine trim_of_no_blank fun c hc => (h i hi).wellFormed.isBlank_id c ?_
    rw [String.toList_ofList] at hc
    exact mem_of_mem_piecesOf hq c hc
  rw [htrim, String.toList_ofList]
  exact (h i hi).wellFormed.count_ne_one (h i hi).stem hq

theorem map_readAlias_joinIds (h : ∀ i ∈ ids, IsReadAlias id i) :
    (listItems trim (joinIds ids)).map a.readAlias =
      (listItems trim (joinIds ids)).map Coordinate.parse :=
  List.map_congr_left fun _ hs => if_neg (count_ne_one_of_mem_joinIds h hs)

theorem listItems_joinIds (h : ∀ i ∈ ids, i.IsListable) :
    listItems trim (joinIds ids) = ids.map Coordinate.id := by
  by_cases hnil : ids = []
  · rw [hnil, listItems_nil]
    rfl
  · have hpieces : pieces ',' (joinIds ids) = ids.map Coordinate.id := by
      refine pieces_intercalate (by simpa using hnil) fun s hs => ?_
      obtain ⟨i, hi, rfl⟩ := List.mem_map.mp hs
      exact Coordinate.not_mem_id (by decide) (h i hi).comma
    have htrim : (ids.map Coordinate.id).map trim = ids.map Coordinate.id := by
      rw [List.map_map]
      exact List.map_congr_left fun i hi => trim_of_no_blank (h i hi).wellFormed.isBlank_id
    rw [listItems, hpieces, htrim, List.filter_eq_self]
    intro s hs
    obtain ⟨i, hi, rfl⟩ := List.mem_map.mp hs
    exact decide_eq_true i.id_ne_empty

theorem map_parse_joinIds (h : ∀ i ∈ ids, i.IsListable) (hgroup : ∀ i ∈ ids, i.group ≠ "mvn") :
    (listItems trim (joinIds ids)).map Coordinate.parse = ids.map .ok := by
  rw [listItems_joinIds h, List.map_map]
  refine List.map_congr_left fun i hi => ?_
  rw [Function.comp_apply, (h i hi).wellFormed.parse_id (hgroup i hi)]

theorem group_ne_of_map_parse (h : ∀ i ∈ ids, i.IsListable)
    (hread : (listItems trim (joinIds ids)).map Coordinate.parse = read.map .ok) :
    ∀ i ∈ ids, i.group ≠ "mvn" := by
  intro i hi hgroup
  have hmem : Coordinate.parse i.id ∈ read.map Except.ok := by
    rw [← hread, listItems_joinIds h]
    exact List.mem_map_of_mem (List.mem_map_of_mem hi)
  obtain ⟨j, -, hj⟩ := List.mem_map.mp hmem
  rw [(h i hi).wellFormed.parse_id_of_scheme hgroup] at hj
  cases hj

end

/-- An artifact that was read from entries is read back from its table exactly if none of its aliases
and origins has the name of the scheme as its group and no alias has a comma in its version. An alias
with a comma has the version of the artifact. -/
theorem metadataView_reads_back_iff {entries : List (String × String)} (hid : id.Obtainable)
    (h : ofMetadata id entries = .ok a) :
    (ofMetadata id a.metadataView = .ok a ↔
      (∀ i ∈ a.aliases ++ a.origins, i.group ≠ "mvn") ∧ ∀ i ∈ a.aliases, ',' ∉ i.version.toList) ∧
    ∀ i ∈ a.aliases, ',' ∈ i.version.toList → i.version = id.version := by
  have ha : IsRead id a := (IsRead.ofId id).readEntries hid.wellFormed h
  have hnew : ∀ {l : List Coordinate}, l.Nodup → addAllNew [] l = l := fun hl => addAllNew_of_nodup hl
  refine ⟨?_, fun i hi => (ha.aliases.2 i hi).version⟩
  rw [ha.ofMetadata_metadataView_iff, map_readAlias_joinIds ha.aliases.2, List.forall_mem_append]
  constructor
  · rintro ⟨aliases, origins, haliases, horigins, heq⟩
    have hread : a.aliases = addAllNew [] aliases := congrArg Artifact.aliases heq
    have hlistable : ∀ i ∈ a.aliases, i.IsListable := by
      intro i hi
      rw [hread, mem_addAllNew] at hi
      exact isListable_of_map_parse haliases i (hi.resolve_left List.not_mem_nil)
    refine ⟨⟨group_ne_of_map_parse hlistable haliases, group_ne_of_map_parse ha.origins.2 horigins⟩,
      fun i hi => ?_⟩
    exact (hlistable i hi).comma _ (Coordinate.mem_components_iff.mpr (.inr rfl))
  · rintro ⟨⟨haliases, horigins⟩, hversions⟩
    have hlistable : ∀ i ∈ a.aliases, i.IsListable :=
      fun i hi => (ha.aliases.2 i hi).isListable (hversions i hi)
    refine ⟨a.aliases, a.origins, map_parse_joinIds hlistable haliases,
      map_parse_joinIds ha.origins.2 horigins, ?_⟩
    rw [hnew ha.aliases.1, hnew ha.origins.1]

end Artifact

def Sample.listed : Coordinate := ⟨"g", "a", "1,2", none, "jar"⟩

theorem Artifact.metadataView_reads_back_listed : ∃ a : Artifact, Sample.listed.Obtainable ∧
    ofMetadata Sample.listed [("alias", "g:old:1, x/y/2"), ("start-order", " +7 "), ("note", ""),
      ("feature-origins", "g:f:zip:1,,g:f:zip:1")] = .ok a ∧
    a.aliases ≠ [] ∧ a.origins ≠ [] ∧ a.startOrder = 7 ∧
    ofMetadata Sample.listed a.metadataView = .ok a := by
  have hid : Coordinate.ofId "g:a:1,2" = .ok Sample.listed := by decide
  have hread : ofMetadata Sample.listed [("alias", "g:old:1, x/y/2"), ("start-order", " +7 "),
      ("note", ""), ("feature-origins", "g:f:zip:1,,g:f:zip:1")] = .ok
        { id := Sample.listed, startOrder := 7, metadata := [("note", "")],
          aliases := [⟨"g", "old", "1", none, "jar"⟩, ⟨"x", "y", "2", none, "jar"⟩],
          origins := [⟨"g", "f", "1", none, "zip"⟩] } := by decide
  obtain ⟨hback, -⟩ := metadataView_reads_back_iff (.ofId hid) hread
  exact ⟨_, .ofId hid, hread, by decide, by decide, rfl, hback.mpr (by decide)⟩

/-- An alias without version takes the comma of this one, and an origin looks like a url: neither table
is read again. -/
theorem Artifact.metadataView_not_read_back : ∃ a b : Artifact,
    ofMetadata Sample.listed [("alias", "g:old")] = .ok a ∧
    ofMetadata Sample.listed a.metadataView = .error (.invalidId (.unrecognized "2")) ∧
    ofMetadata ⟨"g", "a", "1", none, "jar"⟩ [("feature-origins", "mvn/f/1")] = .ok b ∧
    ofMetadata ⟨"g", "a", "1", none, "jar"⟩ b.metadataView =
      .error (.invalidId (.invalidUrl "mvn:f:1")) := by
  refine ⟨⟨Sample.listed, 0, [⟨"g", "old", "1,2", none, "jar"⟩], [], []⟩,
    ⟨⟨"g", "a", "1", none, "jar"⟩, 0, [], [⟨"mvn", "f", "1", none, "jar"⟩], []⟩, ?_, ?_, ?_, ?_⟩
  · decide
  · decide
  · decide
  · decide

end FeatureAssembly
