import FeatureAssembly.Proofs.LocalSteps
import FeatureAssembly.Proofs.StructuralErrors

/-! Merging configurations by policies. A merge ends early exactly if the policy for a shared pid
does not let its configurations be merged, and reports the first such pid of the source. Otherwise
all pids are there, and the policies decide which of two values a shared configuration has under a
key. -/

namespace FeatureAssembly
open Outcome

/-- The policy of the first pattern that matches a pid; a pid that none matches must not clash. -/
def ConfigurationPolicies.policyFor (l : ConfigurationPolicies) (pid : String) :
    ConfigurationPolicy :=
  (l.policyFor? pid).getD .failOnClash

theorem Table.get?_overlay {α : Type} {u : Table α} (hu : Roster.Distinct u) (t : Table α)
    (key : String) : get? (overlay t u) key = (get? u key).or (get? t key) := by
  refine (Roster.view_foldl (fun e _ => some e.2) (fun t e k => get?_set t e.1 k e.2) hu t key).trans ?_
  unfold get?
  cases Roster.find? u key <;> rfl

def ConfigurationPolicy.blend (policy : ConfigurationPolicy) (present incoming : Option ConfigValue) :
    Option ConfigValue :=
  match policy with
  | .failOnClash => present
  | .failOnPropertyClash => present.or incoming
  | .useLatest => incoming
  | .useFirst => present
  | .mergeLatest => incoming.or present
  | .mergeFirst => present.or incoming

namespace Configuration
variable {origin : Coordinate} {existing incoming c : Configuration} {policy : ConfigurationPolicy}
  {e : MergeError}

def Differs (c : Configuration) (entry : String × ConfigValue) : Prop :=
  ∃ v, Table.get? c.properties entry.1 = some v ∧ v.same entry.2 = false

def Clashes (policy : ConfigurationPolicy) (existing incoming : Configuration) : Prop :=
  policy = .failOnClash ∨
    policy = .failOnPropertyClash ∧ ∃ entry ∈ incoming.properties, existing.Differs entry

inductive ReportsClash (origin : Coordinate) (existing incoming : Configuration) :
    ConfigurationPolicy → MergeError → Prop
  | whole : ReportsClash origin existing incoming .failOnClash
      (.configurationClash incoming.pid existing.origins origin)
  | property {before after : Table ConfigValue} {key : String} {v w : ConfigValue}
      (hfirst : incoming.properties = before ++ (key, w) :: after)
      (hagree : ∀ entry ∈ before, ¬ existing.Differs entry)
      (hv : Table.get? existing.properties key = some v) (hdiffer : v.same w = false) :
      ReportsClash origin existing incoming .failOnPropertyClash
        (.configurationPropertyClash incoming.pid key v.text w.text origin)

@[simp] theorem properties_stamped (c : Configuration) (origin : Coordinate) :
    (c.stamped origin).properties = c.properties := by
  unfold stamped
  split <;> rfl

/-! Properties that must agree. -/

def agreeOn (pid : String) (origin : Coordinate) (t : Table ConfigValue)
    (entry : String × ConfigValue) : Outcome MergeError (Table ConfigValue) :=
  match Table.get? t entry.1 with
  | none => done (Table.set t entry.1 entry.2)
  | some v =>
    if v.same entry.2 then done t
    else failed t (.configurationPropertyClash pid entry.1 v.text entry.2.text origin)

theorem agree_eq (c : Configuration) (entry : String × ConfigValue) :
    agree origin c entry = (agreeOn c.pid origin c.properties entry).map
      fun properties => { c with properties } := by
  unfold agree agreeOn
  cases Table.get? c.properties entry.1 with
  | none => rfl
  | some v => cases hsame : v.same entry.2 <;> simp only [hsame] <;> rfl

theorem each_agree (c : Configuration) (entries : Table ConfigValue) :
    each (agree origin) c entries = (each (agreeOn c.pid origin) c.properties entries).map
      fun properties => { c with properties } := by
  induction entries generalizing c with
  | nil => rfl
  | cons entry entries ih =>
    rw [each_cons, each_cons, agree_eq]
    obtain ⟨t, _ | e⟩ := agreeOn c.pid origin c.properties entry
    · exact ih { c with properties := t }
    · rfl

def agreed (pid : String) (origin : Coordinate) (entry : String × ConfigValue) :
    Option ConfigValue → Outcome MergeError (Option ConfigValue)
  | none => done (some entry.2)
  | some v =>
    if v.same entry.2 then done (some v)
    else failed (some v) (.configurationPropertyClash pid entry.1 v.text entry.2.text origin)

theorem isLocalStep_agreeOn (pid : String) (origin : Coordinate) :
    Roster.IsLocalStep Table.get? (agreed pid origin) (agreeOn pid origin) where
  fault t entry := by
    unfold agreeOn agreed
    rw [Table.key_eq]
    cases Table.get? t entry.1 with
    | none => rfl
    | some v =>
      dsimp only
      split <;> rfl
  view t entry k := by
    unfold agreeOn agreed
    rw [Table.key_eq]
    by_cases hk : entry.1 = k
    · subst hk
      cases hv : Table.get? t entry.1 with
      | none => simp [Table.get?_set]
      | some v =>
        dsimp only
        split <;> simp [hv]
    · rw [if_neg hk]
      split
      · rw [value_done, Table.get?_set, if_neg hk]
      · split <;> rfl

theorem fault_agreed_eq_none_iff {pid : String} {entry : String × ConfigValue} :
    (agreed pid origin entry (Table.get? c.properties entry.1)).fault = none ↔ ¬ c.Differs entry := by
  unfold agreed Differs
  cases Table.get? c.properties entry.1 with
  | none => simp
  | some v => cases h : v.same entry.2 <;> simp [h]

theorem exists_of_fault_agreed {pid : String} {entry : String × ConfigValue}
    (h : (agreed pid origin entry (Table.get? c.properties entry.1)).fault = some e) :
    ∃ v, Table.get? c.properties entry.1 = some v ∧ v.same entry.2 = false ∧
      e = .configurationPropertyClash pid entry.1 v.text entry.2.text origin := by
  unfold agreed at h
  split at h
  · cases h
  · next v hv =>
    split at h
    · cases h
    · next hsame => exact ⟨v, hv, Bool.eq_false_iff.mpr hsame, (Option.some.inj h).symm⟩

/-! What a policy makes of two configurations. -/

theorem fault_mergeBy_eq_none_iff (hp : Roster.Distinct incoming.properties) :
    (existing.mergeBy policy origin incoming).fault = none ↔ ¬ Clashes policy existing incoming := by
  cases policy with
  | failOnClash => simp [mergeBy, Clashes]
  | failOnPropertyClash =>
    rw [mergeBy, fault_andThen, each_agree, fault_map, (isLocalStep_agreeOn ..).fault_each hp,
      fault_done, Option.or_none, List.findSome?_eq_none_iff]
    simp [fault_agreed_eq_none_iff, Clashes]
  | _ => simp [mergeBy, Clashes]

theorem reportsClash_of_fault (hp : Roster.Distinct incoming.properties)
    (hpid : existing.pid = incoming.pid)
    (h : (existing.mergeBy policy origin incoming).fault = some e) :
    ReportsClash origin existing incoming policy e := by
  cases policy with
  | failOnClash =>
    obtain rfl := Option.some.inj h
    exact .whole
  | failOnPropertyClash =>
    rw [mergeBy, fault_andThen, each_agree, fault_map, (isLocalStep_agreeOn ..).fault_each hp,
      fault_done, Option.or_none, List.findSome?_eq_some_iff] at h
    obtain ⟨before, ⟨key, w⟩, after, hsplit, hentry, hbefore⟩ := h
    obtain ⟨v, hv, hdiffer, rfl⟩ := exists_of_fault_agreed hentry
    rw [hpid]
    exact .property hsplit (fun entry he => fault_agreed_eq_none_iff.mp (hbefore entry he)) hv hdiffer
  | _ => cases h

theorem pid_mergeBy (hpid : existing.pid = incoming.pid) :
    (existing.mergeBy policy origin incoming).value.pid = incoming.pid := by
  cases policy with
  | failOnPropertyClash =>
    rw [mergeBy, each_agree]
    exact andThen_keeps (P := fun c : Configuration => c.pid = incoming.pid) hpid fun _ h => h
  | useLatest => rfl
  | _ => exact hpid

theorem get?_addMissing (t : Table ConfigValue) (entry : String × ConfigValue) (key : String) :
    Table.get? (addMissing t entry) key =
      if entry.1 = key then (Table.get? t key).or (some entry.2) else Table.get? t key := by
  unfold addMissing
  split
  · next hnone =>
    rw [Table.get?_set]
    split_ifs with hkey
    · rw [← hkey, hnone, Option.none_or]
    · rfl
  · next v hv =>
    split_ifs with hkey
    · rw [← hkey, hv, Option.some_or]
    · rfl

theorem get?_foldl_addMissing {entries : Table ConfigValue} (hentries : Roster.Distinct entries)
    (t : Table ConfigValue) (key : String) :
    Table.get? (entries.foldl addMissing t) key = (Table.get? t key).or (Table.get? entries key) := by
  refine (Roster.view_foldl (fun entry found => found.or (some entry.2)) get?_addMissing hentries t
    key).trans ?_
  rw [Table.get?_eq_find? entries]
  cases Roster.find? entries key with
  | none => exact Option.or_none.symm
  | some entry => rfl

theorem get?_agreed {entries t u : Table ConfigValue} (hentries : Roster.Distinct entries)
    {pid : String} (h : each (agreeOn pid origin) t entries = done u) (key : String) :
    Table.get? u key = (Table.get? t key).or (Table.get? entries key) := by
  rw [(isLocalStep_agreeOn pid origin).view_each hentries h, Table.get?_eq_find? entries]
  cases Roster.find? entries key with
  | none => exact Option.or_none.symm
  | some entry =>
    cases Table.get? t key with
    | none => rfl
    | some v =>
      simp only [agreed, Option.elim_some, Option.some_or]
      split <;> rfl

theorem get?_mergeBy (hp : Roster.Distinct incoming.properties)
    (h : existing.mergeBy policy origin incoming = done c) (key : String) :
    Table.get? c.properties key =
      policy.blend (Table.get? existing.properties key) (Table.get? incoming.properties key) := by
  cases policy with
  | failOnClash => cases (eq_done_iff.mp h).2
  | failOnPropertyClash =>
    rw [mergeBy, each_agree] at h
    obtain ⟨d, hd, hc⟩ := andThen_eq_done_iff.mp h
    obtain ⟨t, ht, rfl⟩ := map_eq_done_iff.mp hd
    rw [← (eq_done_iff.mp hc).1]
    exact get?_agreed hp ht key
  | useLatest => rw [← (eq_done_iff.mp h).1]; rfl
  | useFirst => rw [← (eq_done_iff.mp h).1]; rfl
  | mergeLatest =>
    rw [← (eq_done_iff.mp h).1]
    exact Table.get?_overlay hp existing.properties key
  | mergeFirst =>
    rw [← (eq_done_iff.mp h).1]
    exact get?_foldl_addMissing hp existing.properties key

theorem clashes_stamped :
    Clashes policy existing (c.stamped origin) ↔ Clashes policy existing c := by
  rw [Clashes, Clashes, properties_stamped]

theorem ReportsClash.of_stamped (h : ReportsClash origin existing (c.stamped origin) policy e) :
    ReportsClash origin existing c policy e := by
  cases h with
  | whole =>
    rw [pid_stamped]
    exact .whole
  | property hfirst hagree hv hdiffer =>
    rw [properties_stamped] at hfirst
    rw [pid_stamped]
    exact .property hfirst hagree hv hdiffer

end Configuration

namespace Configurations
open FeatureAssembly.Configuration
variable {policies : ConfigurationPolicies} {origin : Coordinate} {c : Configuration}
  {target source r : List Configuration} {e : MergeError}

def joined (policies : ConfigurationPolicies) (origin : Coordinate) (c : Configuration) :
    Option Configuration → Outcome MergeError (Option Configuration)
  | none => done (some (c.stamped origin))
  | some existing =>
    (existing.mergeBy (policies.policyFor c.pid) origin (c.stamped origin)).map some

theorem isLocalStep_mergeIncoming (policies : ConfigurationPolicies) (origin : Coordinate) :
    Roster.IsLocalStep Roster.find? (joined policies origin)
      fun t c => mergeIncoming policies origin t (c.stamped origin) where
  fault t c := by
    unfold mergeIncoming joined
    rw [pid_stamped, key_eq]
    cases Roster.find? t c.pid <;> rfl
  view t c pid := by
    unfold mergeIncoming
    rw [pid_stamped, key_eq]
    cases hfound : Roster.find? t c.pid with
    | none =>
      have hnew : Keyed.key (c.stamped origin) ∉ Roster.keys t := by
        rw [key_eq, pid_stamped]
        exact Roster.find?_eq_none_iff.mp hfound
      rw [value_done, Roster.add_of_not_mem hnew, Roster.find?_append_singleton hnew, key_eq,
        pid_stamped]
      split_ifs with hpid
      · rw [← hpid, hfound]
        rfl
      · rfl
    | some existing =>
      have hpid : existing.pid = (c.stamped origin).pid :=
        (Roster.key_of_find? hfound).trans (pid_stamped c origin).symm
      rw [value_map, Roster.find?_put, key_eq, pid_mergeBy hpid, pid_stamped]
      split_ifs with hpid
      · rw [← hpid, hfound]
        rfl
      · rfl

theorem keys_mergeIncoming (policies : ConfigurationPolicies) (origin : Coordinate)
    (t : List Configuration) (c : Configuration) :
    Roster.keys (mergeIncoming policies origin t (c.stamped origin)).value =
      addNew (Roster.keys t) c.pid := by
  unfold mergeIncoming
  rw [pid_stamped]
  cases hfound : Roster.find? t c.pid with
  | none => rw [value_done, Roster.keys_add_eq_addNew, key_eq, pid_stamped]
  | some existing =>
    have hpid : existing.pid = (c.stamped origin).pid :=
      (Roster.key_of_find? hfound).trans (pid_stamped c origin).symm
    rw [value_map, Roster.keys_put_eq_addNew, key_eq, pid_mergeBy hpid, pid_stamped]

theorem fault_joined_eq_none_iff (ht : Roster.Distinct target)
    (hp : Roster.Distinct c.properties) :
    (joined policies origin c (Roster.find? target c.pid)).fault = none ↔
      ∀ x ∈ target, x.pid = c.pid → ¬ Clashes (policies.policyFor c.pid) x c := by
  have hstamped : Roster.Distinct (c.stamped origin).properties := by rwa [properties_stamped]
  unfold joined
  cases hfound : Roster.find? target c.pid with
  | none =>
    have hnot : ∀ x ∈ target, x.pid ≠ c.pid := fun x hx hpid =>
      Roster.find?_eq_none_iff.mp hfound (List.mem_map.mpr ⟨x, hx, hpid⟩)
    exact ⟨fun _ x hx hpid => absurd hpid (hnot x hx), fun _ => rfl⟩
  | some existing =>
    obtain ⟨hmem, hpid⟩ := (Roster.find?_eq_some_iff ht).mp hfound
    rw [fault_map, fault_mergeBy_eq_none_iff hstamped, clashes_stamped]
    refine ⟨fun h x hx hx' => ?_, fun h => h existing hmem hpid⟩
    rwa [ht.eq_of_key hx hmem (hx'.trans hpid.symm)]

theorem exists_of_fault_joined (hp : Roster.Distinct c.properties)
    (h : (joined policies origin c (Roster.find? target c.pid)).fault = some e) :
    ∃ x ∈ target, x.pid = c.pid ∧ ReportsClash origin x c (policies.policyFor c.pid) e := by
  have hstamped : Roster.Distinct (c.stamped origin).properties := by rwa [properties_stamped]
  cases hfound : Roster.find? target c.pid with
  | none =>
    rw [hfound] at h
    cases h
  | some existing =>
    rw [hfound, joined, fault_map] at h
    have hpid : existing.pid = c.pid := Roster.key_of_find? hfound
    have hreport := reportsClash_of_fault hstamped (hpid.trans (pid_stamped c origin).symm) h
    exact ⟨existing, Roster.mem_of_find? hfound, hpid, hreport.of_stamped⟩

/-- What is left of two lists of configurations: the pids of the target and then the further ones of
the source, all configurations as they were, and those that share a pid blended by its policy. -/
structure IsMerge (policies : ConfigurationPolicies) (origin : Coordinate)
    (target source r : List Configuration) : Prop where
  pids : Roster.keys r =
    Roster.keys target ++ (Roster.keys source).filter fun pid => pid ∉ Roster.keys target
  targetOnly : ∀ x ∈ target, x.pid ∉ Roster.keys source → Roster.find? r x.pid = some x
  sourceOnly : ∀ c ∈ source, c.pid ∉ Roster.keys target →
    Roster.find? r c.pid = some (c.stamped origin)
  shared : ∀ x ∈ target, ∀ c ∈ source, x.pid = c.pid → ∃ m, Roster.find? r c.pid = some m ∧
    ∀ key, Table.get? m.properties key = (policies.policyFor c.pid).blend
      (Table.get? x.properties key) (Table.get? c.properties key)

theorem fault_merge (hs : Roster.Distinct source) (policies : ConfigurationPolicies)
    (origin : Coordinate) (target : List Configuration) :
    (merge policies origin target source).fault = source.findSome? fun c =>
      (joined policies origin c (Roster.find? target c.pid)).fault :=
  (isLocalStep_mergeIncoming policies origin).fault_each hs target

theorem isMerge_of_merge (ht : Roster.Distinct target) (hs : Roster.Distinct source)
    (hp : ∀ c ∈ source, Roster.Distinct c.properties)
    (h : merge policies origin target source = done r) : IsMerge policies origin target source r := by
  have hview := (isLocalStep_mergeIncoming policies origin).view_each hs h
  have incoming : ∀ c ∈ source, Roster.find? r c.pid =
      (joined policies origin c (Roster.find? target c.pid)).value := by
    intro c hc
    have hfound : Roster.find? source c.pid = some c := (Roster.find?_eq_some_iff hs).mpr ⟨hc, rfl⟩
    rw [hview, hfound]
    rfl
  refine ⟨?_, fun x hx hnot => ?_, fun c hc hnot => ?_, fun x hx c hc hpid => ?_⟩
  · rw [Roster.keys_each (fun t c t' hstep => ?_) h, addAllNew_eq_append_filter hs]
    rw [← (eq_done_iff.mp hstep).1]
    exact keys_mergeIncoming policies origin t c
  · rw [hview, Roster.find?_eq_none_iff.mpr hnot]
    exact (Roster.find?_eq_some_iff ht).mpr ⟨hx, rfl⟩
  · rw [incoming c hc, Roster.find?_eq_none_iff.mpr hnot]
    rfl
  · have hpresent : Roster.find? target c.pid = some x :=
      (Roster.find?_eq_some_iff ht).mpr ⟨hx, hpid⟩
    have hstamped : Roster.Distinct (c.stamped origin).properties := by
      rw [properties_stamped]
      exact hp c hc
    have hfault := fault_merge hs policies origin target
    rw [h, fault_done, eq_comm, List.findSome?_eq_none_iff] at hfault
    have hdone := hfault c hc
    rw [hpresent, joined, fault_map] at hdone
    refine ⟨_, by rw [incoming c hc, hpresent, joined, value_map], fun key => ?_⟩
    rw [get?_mergeBy hstamped (eq_done_of_fault hdone), properties_stamped]

/-- Merging configurations ends early exactly if the policy for a pid of both sides is that it must
not clash, or that its properties must not and two values of a key differ; the error tells of the
first such pid of the source, and of the first such key. Otherwise every configuration is there, and
those of both sides have under each key what the policy makes of the two values. -/
theorem merge_follows_policies (ht : Roster.Distinct target) (hs : Roster.Distinct source)
    (hp : ∀ c ∈ source, Roster.Distinct c.properties) (policies : ConfigurationPolicies)
    (origin : Coordinate) :
    ((∃ e, (merge policies origin target source).fault = some e) ↔
      ∃ c ∈ source, ∃ x ∈ target, x.pid = c.pid ∧ Clashes (policies.policyFor c.pid) x c) ∧
    (∀ e, (merge policies origin target source).fault = some e →
      ∃ before c after, source = before ++ c :: after ∧
        (∃ x ∈ target, x.pid = c.pid ∧ ReportsClash origin x c (policies.policyFor c.pid) e) ∧
        ∀ d ∈ before, ∀ x ∈ target, x.pid = d.pid → ¬ Clashes (policies.policyFor d.pid) x d) ∧
    ∀ r, merge policies origin target source = done r →
      IsMerge policies origin target source r := by
  have hfault := fault_merge hs policies origin target
  refine ⟨?_, fun e he => ?_, fun r hr => isMerge_of_merge ht hs hp hr⟩
  · rw [hfault, ← Option.isSome_iff_exists, List.findSome?_isSome_iff]
    refine exists_congr fun c => and_congr_right fun hc => ?_
    rw [← Option.ne_none_iff_isSome, ne_eq, fault_joined_eq_none_iff ht (hp c hc)]
    push Not
    rfl
  · rw [hfault, List.findSome?_eq_some_iff] at he
    obtain ⟨before, c, after, hsplit, hc, hbefore⟩ := he
    have hmem : ∀ d ∈ before, d ∈ source := fun d hd => hsplit ▸ List.mem_append_left _ hd
    have hcmem : c ∈ source := hsplit ▸ List.mem_append_right _ (List.mem_cons_self ..)
    refine ⟨before, c, after, hsplit, exists_of_fault_joined (hp c hcmem) hc, fun d hd => ?_⟩
    exact (fault_joined_eq_none_iff ht (hp d (hmem d hd))).mp (hbefore d hd)

end Configurations

namespace Sample

def configuration (pid : String) (values : List (String × String)) : Configuration :=
  ⟨pid, values.map fun e => (e.1, .string e.2), [], none⟩

def deployed : List Configuration :=
  [configuration "m.a" [("x", "1"), ("y", "1")], configuration "t" [("x", "1")],
    configuration "p.a" [("x", "1")]]

def arrivals : List Configuration :=
  [configuration "s" [], configuration "p.a" [("z", "2"), ("x", "1")],
    configuration "m.a" [("y", "2"), ("z", "2")]]

def policies : ConfigurationPolicies :=
  [("m.*", .mergeLatest), ("p.*", .failOnPropertyClash), ("*", .failOnClash)]

end Sample

theorem Configurations.merge_arrivals_follows_policies :
    Roster.Distinct Sample.deployed ∧ Roster.Distinct Sample.arrivals ∧
      (∀ c ∈ Sample.arrivals, Roster.Distinct c.properties) ∧
      ∃ r, merge Sample.policies (Sample.id "f") Sample.deployed Sample.arrivals = done r ∧
        Roster.keys r = ["m.a", "t", "p.a", "s"] ∧
        ∃ m, Roster.find? r "m.a" = some m ∧ Table.get? m.properties "x" = some (.string "1") ∧
          Table.get? m.properties "y" = some (.string "2") := by
  have htarget : Roster.Distinct Sample.deployed := by
    unfold Roster.Distinct
    decide
  have hsource : Roster.Distinct Sample.arrivals := by
    unfold Roster.Distinct
    decide
  have hproperties : ∀ c ∈ Sample.arrivals, Roster.Distinct c.properties := by
    unfold Roster.Distinct
    decide
  obtain ⟨-, -, hmerge⟩ :=
    merge_follows_policies htarget hsource hproperties Sample.policies (Sample.id "f")
  obtain ⟨r, hr⟩ : ∃ r, merge Sample.policies (Sample.id "f") Sample.deployed Sample.arrivals =
      done r := ⟨_, rfl⟩
  have hshared := (hmerge r hr).shared (Sample.configuration "m.a" [("x", "1"), ("y", "1")])
    (by decide) (Sample.configuration "m.a" [("y", "2"), ("z", "2")]) (by decide) rfl
  obtain ⟨m, hm, hvalues⟩ := hshared
  refine ⟨htarget, hsource, hproperties, r, hr, (hmerge r hr).pids, m, hm, ?_, ?_⟩
  · rw [hvalues]
    rfl
  · rw [hvalues]
    rfl

end FeatureAssembly
