import FeatureAssembly.Text.Blank
import FeatureAssembly.Text.Split
import Mathlib.Data.List.DropRight
import Mathlib.Data.List.TakeWhile

/-! Cutting and trimming texts. A text put together with separators is cut into the same parts, as long
as none of them holds one, and nothing that is cut off brings in a new character. -/

namespace FeatureAssembly.Text

theorem piecesOf_eq_splitOn (sep : Char) (cs : List Char) : piecesOf sep cs = cs.splitOn sep := by
  induction cs with
  | nil => rfl
  | cons c cs ih =>
    rw [piecesOf, List.splitOn_cons_eq_if_modifyHead, ← ih]
    by_cases h : c = sep
    · rw [if_pos h, if_pos (beq_iff_eq.mpr h)]
    · rw [if_neg h, if_neg (beq_iff_eq.not.mpr h)]
      cases hcs : piecesOf sep cs with
      | nil => exact absurd (ih.symm.trans hcs) (List.splitOn_ne_nil sep cs)
      | cons p ps => rfl

theorem mem_of_mem_piecesOf {sep : Char} {cs p : List Char} (hp : p ∈ piecesOf sep cs) :
    ∀ c ∈ p, c ∈ cs := by
  induction cs generalizing p with
  | nil =>
    rw [List.mem_singleton.mp hp]
    exact fun _ h => h
  | cons d cs ih =>
    rw [piecesOf] at hp
    split at hp
    · rcases List.mem_cons.mp hp with rfl | hp
      · exact fun _ h => absurd h List.not_mem_nil
      · exact fun c hc => List.mem_cons_of_mem d (ih hp c hc)
    · split at hp
      · rw [List.mem_singleton.mp hp]
        intro c hc
        rw [List.mem_singleton.mp hc]
        exact List.mem_cons_self ..
      · next q qs hq =>
        rw [hq] at ih
        rcases List.mem_cons.mp hp with rfl | hp
        · intro c hc
          rcases List.mem_cons.mp hc with rfl | hc
          · exact List.mem_cons_self ..
          · exact List.mem_cons_of_mem d (ih (List.mem_cons_self ..) c hc)
        · exact fun c hc => List.mem_cons_of_mem d (ih (List.mem_cons_of_mem _ hp) c hc)

theorem not_mem_of_mem_piecesOf {sep : Char} {cs p : List Char} (hp : p ∈ piecesOf sep cs) :
    sep ∉ p := by
  induction cs generalizing p with
  | nil =>
    rw [List.mem_singleton.mp hp]
    exact List.not_mem_nil
  | cons d cs ih =>
    rw [piecesOf] at hp
    split at hp
    · rcases List.mem_cons.mp hp with rfl | hp
      · exact List.not_mem_nil
      · exact ih hp
    · next hd =>
      split at hp
      · rw [List.mem_singleton.mp hp, List.mem_singleton]
        exact Ne.symm hd
      · next q qs hq =>
        rw [hq] at ih
        rcases List.mem_cons.mp hp with rfl | hp
        · rw [List.mem_cons, not_or]
          exact ⟨Ne.symm hd, ih (List.mem_cons_self ..)⟩
        · exact ih (List.mem_cons_of_mem _ hp)

theorem not_mem_of_mem_pieces {sep : Char} {s p : String} (hp : p ∈ pieces sep s) :
    sep ∉ p.toList := by
  obtain ⟨q, hq, rfl⟩ := List.mem_map.mp hp
  rw [String.toList_ofList]
  exact not_mem_of_mem_piecesOf hq

theorem pieces_intercalate {sep : Char} {parts : List String} (hne : parts ≠ [])
    (h : ∀ p ∈ parts, sep ∉ p.toList) :
    pieces sep (String.intercalate (String.singleton sep) parts) = parts := by
  have hcut : ([sep].intercalate (parts.map String.toList)).splitOn sep = parts.map String.toList := by
    refine List.splitOn_intercalate sep (fun l hl => ?_) (by simpa using hne)
    obtain ⟨p, hp, rfl⟩ := List.mem_map.mp hl
    exact h p hp
  rw [pieces, piecesOf_eq_splitOn, String.toList_intercalate, String.toList_singleton, hcut,
    List.map_map]
  refine (List.map_congr_left fun p _ => ?_).trans (List.map_id parts)
  exact String.ofList_toList

theorem pieces_of_not_mem {sep : Char} {s : String} (h : sep ∉ s.toList) : pieces sep s = [s] := by
  rw [pieces, piecesOf_eq_splitOn, List.splitOn_eq_singleton h, List.map_singleton, String.ofList_toList]

theorem intercalate_pieces (sep : Char) (s : String) :
    String.intercalate (String.singleton sep) (pieces sep s) = s := by
  have hlists : (pieces sep s).map String.toList = s.toList.splitOn sep := by
    rw [pieces, List.map_map, piecesOf_eq_splitOn]
    exact (List.map_congr_left fun _ _ => String.toList_ofList).trans (List.map_id _)
  rw [← String.toList_inj, String.toList_intercalate, hlists, String.toList_singleton,
    List.intercalate_splitOn]

theorem forall_mem_intercalate {P : Char → Prop} {sep : String} (hsep : ∀ c ∈ sep.toList, P c)
    {parts : List String} (h : ∀ p ∈ parts, ∀ c ∈ p.toList, P c) :
    ∀ c ∈ (String.intercalate sep parts).toList, P c := by
  induction parts with
  | nil => simp
  | cons p parts ih =>
    obtain ⟨hp, hparts⟩ := List.forall_mem_cons.mp h
    cases parts with
    | nil => simpa using hp
    | cons q parts =>
      have hrest := ih hparts
      simp only [String.intercalate_cons_cons, String.toList_append, List.mem_append]
      rintro c ((hc | hc) | hc)
      · exact hp c hc
      · exact hsep c hc
      · exact hrest c hc

theorem forall_mem_of_pieces {P : Char → Prop} {sep : Char} {s : String} (hsep : P sep)
    (h : ∀ p ∈ pieces sep s, ∀ c ∈ p.toList, P c) : ∀ c ∈ s.toList, P c := by
  rw [← intercalate_pieces sep s]
  exact forall_mem_intercalate (by simpa using hsep) h

theorem dropWhile_of_forall {p : Char → Bool} {cs : List Char} (h : ∀ c ∈ cs, p c = false) :
    cs.dropWhile p = cs := by
  refine List.dropWhile_eq_self_iff.mpr fun hpos => ?_
  exact Bool.eq_false_iff.mp (h _ (List.getElem_mem hpos))

theorem trim_of_no_blank {s : String} (h : ∀ c ∈ s.toList, isBlank c = false) : trim s = s := by
  have hreverse : ∀ c ∈ s.toList.reverse, isBlank c = false :=
    fun c hc => h c (List.mem_reverse.mp hc)
  rw [trim, trimStart, dropWhile_of_forall h, trimEnd, dropWhile_of_forall hreverse,
    List.reverse_reverse, String.ofList_toList]

theorem dropWhile_of_isPrefix {p : Char → Bool} {cs ds : List Char} (h : cs <+: ds)
    (hds : ds.dropWhile p = ds) : cs.dropWhile p = cs := by
  cases cs with
  | nil => rfl
  | cons c cs =>
    obtain ⟨t, rfl⟩ := h
    have hc : ¬ p c := List.dropWhile_eq_self_iff.mp hds (Nat.succ_pos _)
    exact List.dropWhile_cons_of_neg hc

theorem trimStart_trim (s : String) : trimStart (trim s).toList = (trim s).toList := by
  have hend : trimEnd (trimStart s.toList) <+: trimStart s.toList := List.rdropWhile_prefix isBlank _
  rw [trim, String.toList_ofList]
  exact dropWhile_of_isPrefix hend (List.dropWhile_idempotent isBlank _)

theorem trimEnd_trim (s : String) : trimEnd (trim s).toList = (trim s).toList := by
  rw [trim, String.toList_ofList]
  exact List.rdropWhile_idempotent isBlank _

theorem trimStart_of_trim {s : String} (h : trim s = s) : trimStart s.toList = s.toList :=
  h ▸ trimStart_trim s

theorem trimEnd_of_trim {s : String} (h : trim s = s) : trimEnd s.toList = s.toList :=
  h ▸ trimEnd_trim s

theorem trim_of_ends {s : String} (hstart : trimStart s.toList = s.toList)
    (hend : trimEnd s.toList = s.toList) : trim s = s := by
  rw [trim, hstart, hend, String.ofList_toList]

theorem trim_trim (s : String) : trim (trim s) = trim s :=
  trim_of_ends (trimStart_trim s) (trimEnd_trim s)

theorem trimStart_append {cs : List Char} (hne : cs ≠ []) (h : trimStart cs = cs) (ds : List Char) :
    trimStart (cs ++ ds) = cs ++ ds := by
  rw [trimStart] at h
  rw [trimStart, List.dropWhile_append, h, if_neg (by simpa using hne)]

theorem trimEnd_append {ds : List Char} (hne : ds ≠ []) (h : trimEnd ds = ds) (cs : List Char) :
    trimEnd (cs ++ ds) = cs ++ ds := by
  have hreverse : trimStart ds.reverse = ds.reverse := List.reverse_eq_iff.mp h
  have happend := trimStart_append (by simpa using hne) hreverse cs.reverse
  rw [trimEnd, List.reverse_append]
  exact (congrArg List.reverse happend).trans (by simp)

theorem mem_of_mem_trim {s : String} {c : Char} (h : c ∈ (trim s).toList) : c ∈ s.toList := by
  rw [trim, String.toList_ofList, trimEnd, List.mem_reverse] at h
  have hstart := List.mem_reverse.mp ((List.dropWhile_sublist _).subset h)
  exact (List.dropWhile_sublist _).subset hstart

theorem afterLast_of_not_mem {sep : Char} {cs : List Char} (h : sep ∉ cs) :
    afterLast sep cs = cs := by
  have hall : ∀ c ∈ cs.reverse, decide (c ≠ sep) = true := by
    intro c hc
    refine decide_eq_true fun heq => h ?_
    rw [← heq]
    exact List.mem_reverse.mp hc
  have hwhole : cs.reverse.takeWhile (· ≠ sep) = cs.reverse :=
    List.takeWhile_eq_self_iff.mpr hall
  rw [afterLast, hwhole, List.reverse_reverse]

theorem not_mem_afterLast (sep : Char) (cs : List Char) : sep ∉ afterLast sep cs := by
  intro h
  have hne := List.mem_takeWhile_imp (List.mem_reverse.mp h)
  exact of_decide_eq_true hne rfl

theorem mem_of_mem_afterLast {sep c : Char} {cs : List Char} (h : c ∈ afterLast sep cs) : c ∈ cs :=
  List.mem_reverse.mp ((List.takeWhile_sublist _).subset (List.mem_reverse.mp h))

theorem not_mem_of_cutFirst? {sep : Char} {cs p q : List Char} (h : cutFirst? sep cs = some (p, q)) :
    sep ∉ p := by
  induction cs generalizing p q with
  | nil => cases h
  | cons c cs ih =>
    rw [cutFirst?] at h
    split at h
    · obtain ⟨rfl, -⟩ := Prod.mk.inj (Option.some.inj h)
      exact List.not_mem_nil
    · next hc =>
      obtain ⟨⟨p', q'⟩, hcut, heq⟩ := Option.map_eq_some_iff.mp h
      obtain ⟨rfl, -⟩ := Prod.mk.inj heq
      rw [List.mem_cons, not_or]
      exact ⟨Ne.symm hc, ih hcut⟩

theorem cutFirst?_append_left {sep : Char} {p : List Char} (h : sep ∉ p) (cs : List Char) :
    cutFirst? sep (p ++ cs) = (cutFirst? sep cs).map fun (q, r) => (p ++ q, r) := by
  induction p with
  | nil => simp
  | cons c p ih =>
    rw [List.mem_cons, not_or] at h
    rw [List.cons_append, cutFirst?, if_neg (Ne.symm h.1), ih h.2, Option.map_map]
    rfl

theorem cutFirst?_append {sep : Char} {p : List Char} (h : sep ∉ p) (q : List Char) :
    cutFirst? sep (p ++ sep :: q) = some (p, q) := by
  rw [cutFirst?_append_left h, cutFirst?, if_pos rfl]
  exact congrArg (fun r => some (r, q)) (List.append_nil p)

theorem eq_append_of_cutFirst? {sep : Char} {cs p q : List Char}
    (h : cutFirst? sep cs = some (p, q)) : cs = p ++ sep :: q := by
  induction cs generalizing p q with
  | nil => cases h
  | cons c cs ih =>
    rw [cutFirst?] at h
    split at h
    · next hc =>
      obtain ⟨rfl, rfl⟩ := Prod.mk.inj (Option.some.inj h)
      rw [hc, List.nil_append]
    · obtain ⟨⟨p', q'⟩, hcut, heq⟩ := Option.map_eq_some_iff.mp h
      obtain ⟨rfl, rfl⟩ := Prod.mk.inj heq
      rw [ih hcut, List.cons_append]

theorem cutFirst?_eq_none_iff {sep : Char} {cs : List Char} : cutFirst? sep cs = none ↔ sep ∉ cs := by
  constructor
  · induction cs with
    | nil => exact fun _ => List.not_mem_nil
    | cons c cs ih =>
      intro h
      rw [cutFirst?] at h
      split at h
      · cases h
      · next hc =>
        rw [List.mem_cons, not_or]
        exact ⟨Ne.symm hc, ih (Option.map_eq_none_iff.mp h)⟩
  · intro h
    cases hcut : cutFirst? sep cs with
    | none => rfl
    | some cut =>
      rw [eq_append_of_cutFirst? hcut] at h
      exact absurd (List.mem_append_right _ (List.mem_cons_self ..)) h

theorem piecesOf_eq_of_cut (sep : Char) (cs : List Char) :
    piecesOf sep cs = match cutFirst? sep cs with
      | none => [cs]
      | some (p, q) => p :: piecesOf sep q := by
  induction cs with
  | nil => rfl
  | cons c cs ih =>
    by_cases h : c = sep
    · rw [piecesOf, cutFirst?, if_pos h, if_pos h]
    · rw [piecesOf, cutFirst?, if_neg h, if_neg h, ih]
      cases cutFirst? sep cs with
      | none => rfl
      | some cut => rfl

theorem piecesOf_append_left {sep : Char} {p : List Char} (h : sep ∉ p) (cs : List Char) :
    piecesOf sep (p ++ cs) = (piecesOf sep cs).modifyHead (p ++ ·) := by
  rw [piecesOf_eq_of_cut, piecesOf_eq_of_cut sep cs, cutFirst?_append_left h]
  cases cutFirst? sep cs with
  | none => rfl
  | some cut => rfl

theorem isPrefix_of_piecesOf {sep : Char} {cs p : List Char} {ps : List (List Char)}
    (h : piecesOf sep cs = p :: ps) : p <+: cs := by
  rw [piecesOf_eq_of_cut] at h
  cases hcut : cutFirst? sep cs with
  | none =>
    rw [hcut] at h
    exact (List.cons.inj h).1 ▸ List.prefix_rfl
  | some cut =>
    rw [hcut] at h
    rw [eq_append_of_cutFirst? hcut, (List.cons.inj h).1]
    exact List.prefix_append _ _

theorem dropStart?_append (p cs : List Char) : dropStart? p (p ++ cs) = some cs := by
  induction p with
  | nil => rfl
  | cons c p ih => rw [List.cons_append, dropStart?, if_pos rfl, ih]

theorem eq_append_of_dropStart? {p cs ds : List Char} (h : dropStart? p cs = some ds) :
    cs = p ++ ds := by
  fun_induction dropStart? p cs with
  | case1 cs => exact Option.some.inj h
  | case2 c p => cases h
  | case3 p c cs ih => rw [ih h, List.cons_append]
  | case4 d p c cs hne => cases h

theorem piecesOf_append_cons (sep : Char) (p q : List Char) :
    piecesOf sep (p ++ sep :: q) = piecesOf sep p ++ piecesOf sep q := by
  simp only [piecesOf_eq_splitOn, List.splitOn_append_cons_self]

theorem pieces_append (sep : Char) (s t : String) :
    pieces sep (s ++ String.singleton sep ++ t) = pieces sep s ++ pieces sep t := by
  rw [pieces, String.toList_append, String.toList_append, String.toList_singleton, List.append_assoc,
    List.singleton_append, piecesOf_append_cons, List.map_append]
  rfl

theorem mem_pieces_intercalate {sep : Char} {parts : List String} (hne : parts ≠ []) {p : String}
    (h : p ∈ pieces sep (String.intercalate (String.singleton sep) parts)) :
    ∃ s ∈ parts, p ∈ pieces sep s := by
  induction parts with
  | nil => exact absurd rfl hne
  | cons s parts ih =>
    cases parts with
    | nil => exact ⟨s, List.mem_cons_self .., by simpa using h⟩
    | cons t parts =>
      rw [String.intercalate_cons_cons, pieces_append, List.mem_append] at h
      rcases h with h | h
      · exact ⟨s, List.mem_cons_self .., h⟩
      · obtain ⟨u, hu, hp⟩ := ih (List.cons_ne_nil _ _) h
        exact ⟨u, List.mem_cons_of_mem _ hu, hp⟩

end FeatureAssembly.Text
