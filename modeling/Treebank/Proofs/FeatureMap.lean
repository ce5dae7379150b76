import Mathlib.Data.Finmap
import Treebank.Proofs.FeatureCalls

/-! Features as a finite map.

Ascending features are a finite map from folded names to values (`asMap`), and a call does to them
what it does to the map (`Call.Step.asMap_eq`), so a run of calls has the map of the same run on maps
(`asMap_run`). A name keeps the spelling with which it came in (`introduced_of_mem_run`). -/
namespace Treebank
open Text

namespace Features
variable {lower : Char → List Char} {feats : Features}

/-- What the call does to a finite map from folded names to values. -/
def Call.onMap (lower : Char → List Char) (map : Finmap fun _ : List Char => String) :
    Call → Finmap fun _ : List Char => String
  | put name value => map.insert (key lower name) value
  | take name => map.erase (key lower name)

/-! ### As a finite map -/

/-- The finite map from folded names to values. -/
def asMap (lower : Char → List Char) (feats : Features) : Finmap fun _ : List Char => String :=
  (feats.entries.map fun entry => ⟨key lower entry.1, entry.2⟩).toFinmap

theorem Ascending.nodup (h : feats.Ascending lower) :
    (feats.entries.map fun entry => key lower entry.1).Nodup := by
  refine List.pairwise_map.2 (List.Pairwise.imp ?_ h)
  intro entry later hlt heq
  rw [heq] at hlt
  exact List.lt_irrefl _ hlt

theorem Ascending.lookup_eq_some (h : feats.Ascending lower) {folded : List Char}
    {value : String} :
    (feats.asMap lower).lookup folded = some value ↔
      ∃ name, (name, value) ∈ feats.entries ∧ key lower name = folded := by
  have hnodup : (feats.entries.map fun entry : String × String =>
      (⟨key lower entry.1, entry.2⟩ : Sigma fun _ : List Char => String)).NodupKeys := by
    rw [List.NodupKeys, List.keys, List.map_map]
    exact h.nodup
  rw [asMap, Finmap.dlookup_list_toFinmap, ← Option.mem_def, List.mem_dlookup_iff hnodup]
  constructor
  · intro hmem
    obtain ⟨entry, hentry, heq⟩ := List.mem_map.1 hmem
    cases heq
    exact ⟨entry.1, hentry, rfl⟩
  · rintro ⟨name, hmem, rfl⟩
    exact List.mem_map_of_mem hmem

theorem mem_asMap {folded : List Char} :
    folded ∈ feats.asMap lower ↔ ∃ entry ∈ feats.entries, key lower entry.1 = folded := by
  rw [← Finmap.lookup_isSome, asMap, Finmap.dlookup_list_toFinmap, List.dlookup_isSome, List.keys,
    List.map_map, List.mem_map]
  rfl

theorem not_mem_asMap {folded : List Char}
    (h : ∀ entry ∈ feats.entries, key lower entry.1 ≠ folded) : folded ∉ feats.asMap lower := by
  intro hmem
  obtain ⟨entry, hentry, heq⟩ := mem_asMap.1 hmem
  exact h entry hentry heq

theorem Ascending.size_eq (h : feats.Ascending lower) :
    feats.size = (feats.asMap lower).keys.card := by
  have hkeys : (feats.asMap lower).keys =
      (feats.entries.map fun entry => key lower entry.1).toFinset := by
    ext folded
    rw [Finmap.mem_keys, mem_asMap, List.mem_toFinset, List.mem_map]
  rw [hkeys, List.toFinset_card_of_nodup h.nodup, List.length_map, size]

theorem Ascending.look_eq (h : feats.Ascending lower) (name : String) :
    feats.look lower name = (feats.asMap lower).lookup (key lower name) := by
  obtain ⟨entries⟩ := feats
  have hsite := h.site name
  unfold look
  generalize slot lower ⟨entries⟩ name = slot at hsite ⊢
  cases hsite with
  | @found before after other value between same =>
    have hmem : (other, value) ∈ before ++ (other, value) :: after := by simp
    have hlookup := h.lookup_eq_some.2 ⟨other, hmem, same⟩
    exact Eq.trans (by simp [valueAt]) hlookup.symm
  | missing between => exact (Finmap.lookup_eq_none.2 (not_mem_asMap between.ne)).symm

theorem Ascending.has_iff (h : feats.Ascending lower) (name : String) :
    feats.has lower name = true ↔ key lower name ∈ feats.asMap lower := by
  rw [← Finmap.lookup_isSome, ← h.look_eq]
  have hsite := h.site name
  obtain ⟨entries⟩ := feats
  unfold has look
  generalize slot lower ⟨entries⟩ name = slot at hsite ⊢
  cases hsite with
  | found between same => simp [valueAt]
  | missing between => simp

/-- A call gives back the value that its name had. -/
theorem Call.apply_snd (call : Call) (feats : Features) :
    (call.apply lower feats).2 = feats.look lower call.name := by
  cases call with
  | put name value =>
    simp only [apply, Features.put, look, Call.name]
    split <;> rfl
  | take name =>
    simp only [apply, Features.take, look, Call.name]
    split <;> rfl

/-- The value that the name of a call has after it. -/
def Call.value? : Call → Option String
  | put _ value => some value
  | take _ => none

theorem Call.lookup_onMap (call : Call) (map : Finmap fun _ : List Char => String)
    (folded : List Char) :
    (call.onMap lower map).lookup folded =
      if folded = key lower call.name then call.value? else map.lookup folded := by
  split
  · next heq =>
    subst heq
    cases call with
    | put name value => exact Finmap.lookup_insert map
    | take name => exact Finmap.lookup_erase _ map
  · next hne =>
    cases call with
    | put name value => exact Finmap.lookup_insert_of_ne map hne
    | take name => exact Finmap.lookup_erase_ne hne

theorem Call.Step.lookup_name {call : Call} {next : Features} (h : Step lower call feats next)
    (hnext : next.Ascending lower) :
    (next.asMap lower).lookup (key lower call.name) = call.value? := by
  cases h with
  | again between same => exact hnext.lookup_eq_some.2 ⟨_, List.mem_append_cons_self, same⟩
  | new between => exact hnext.lookup_eq_some.2 ⟨_, List.mem_append_cons_self, rfl⟩
  | taken between same => exact Finmap.lookup_eq_none.2 (not_mem_asMap between.ne)
  | absent between => exact Finmap.lookup_eq_none.2 (not_mem_asMap between.ne)

theorem Call.Step.asMap_eq {call : Call} {next : Features} (h : Step lower call feats next)
    (hfeats : feats.Ascending lower) : next.asMap lower = call.onMap lower (feats.asMap lower) := by
  have hnext := h.ascending hfeats
  refine Finmap.ext_lookup fun folded => ?_
  rw [Call.lookup_onMap]
  split
  · next heq =>
    rw [heq]
    exact h.lookup_name hnext
  · next hne =>
    refine Option.ext fun value => ?_
    rw [hnext.lookup_eq_some, hfeats.lookup_eq_some]
    exact exists_congr fun name => and_congr_left fun hname => h.mem_iff (hname ▸ hne)

/-- An entry is new, or it was there with the same spelling and was not taken. -/
theorem Call.Step.origin {call : Call} {next : Features} (h : Step lower call feats next)
    {name value : String} (hmem : (name, value) ∈ next.entries) :
    (call = put name value ∧ key lower name ∉ feats.asMap lower) ∨
      (∃ old, (name, old) ∈ feats.entries) ∧
        ∀ taken, call = take taken → key lower taken ≠ key lower name := by
  by_cases hname : key lower name = key lower call.name
  · cases h with
    | @again before after added value other old between same =>
      cases between.eq_of_mem hmem hname
      exact .inr ⟨⟨old, List.mem_append_cons_self⟩, fun taken htaken => by cases htaken⟩
    | new between =>
      cases between.eq_of_mem hmem hname
      exact .inl ⟨rfl, not_mem_asMap between.ne⟩
    | taken between same => exact absurd hname (between.ne _ hmem)
    | absent between => exact absurd hname (between.ne _ hmem)
  · refine .inr ⟨⟨value, (h.mem_iff hname).1 hmem⟩, ?_⟩
    rintro taken rfl
    exact Ne.symm hname

/-! ### Runs of calls -/

/-- The finite map after the calls. -/
def mapAfter (lower : Char → List Char) (calls : List Call) : Finmap fun _ : List Char => String :=
  calls.foldl (Call.onMap lower) ∅

theorem asMap_run (lower : Char → List Char) (calls : List Call) :
    (run lower ∅ calls).asMap lower = mapAfter lower calls := by
  induction calls using List.reverseRecOn with
  | nil => rfl
  | append_singleton calls call ih =>
    have hcalls := ascending_run lower calls
    rw [run_concat, (Call.step_apply hcalls call).asMap_eq hcalls, ih, mapAfter, mapAfter,
      List.foldl_concat]

/-- The name is spelled as in the call that first set it since it was last not there. -/
def Introduced (lower : Char → List Char) (calls : List Call) (name : String) : Prop :=
  ∃ earlier value later, calls = earlier ++ .put name value :: later ∧
    key lower name ∉ mapAfter lower earlier ∧
    ∀ taken, .take taken ∈ later → key lower taken ≠ key lower name

theorem introduced_of_mem_run {calls : List Call} {name value : String}
    (h : (name, value) ∈ (run lower ∅ calls).entries) : Introduced lower calls name := by
  induction calls using List.reverseRecOn generalizing value with
  | nil => cases h
  | append_singleton calls call ih =>
    rw [run_concat] at h
    have hstep := Call.step_apply (ascending_run lower calls) call
    rcases hstep.origin h with ⟨rfl, hnew⟩ | ⟨⟨old, hold⟩, htaken⟩
    · rw [asMap_run] at hnew
      exact ⟨calls, value, [], rfl, hnew, fun taken hmem => by cases hmem⟩
    · obtain ⟨earlier, first, later, rfl, hnew, hlater⟩ := ih hold
      refine ⟨earlier, first, later ++ [call], by simp, hnew, fun taken hmem => ?_⟩
      rcases List.mem_append.1 hmem with hmem | hmem
      · exact hlater taken hmem
      · exact htaken taken (List.mem_singleton.1 hmem).symm

/-- **Features are a finite map from folded names to values, whatever characters are folded to.**
After any calls on no features, the entries stand in strict order of their folded names; looking
for a name, asking whether it is there, the number of features and what the next call gives back
are as the map has them; and every name is spelled as in the call that brought it in. Features that
are read from a column, and what calls with plain texts then make of them, are read back from the
column that is written for them. -/
theorem calls_form_map (lower : Char → List Char) (calls : List Call) :
    let feats := run lower ∅ calls
    let map := mapAfter lower calls
    feats.Ascending lower ∧
    (∀ name, feats.look lower name = map.lookup (key lower name)) ∧
    (∀ name, feats.has lower name = true ↔ key lower name ∈ map) ∧
    feats.size = map.keys.card ∧
    (∀ call : Call, (call.apply lower feats).2 = map.lookup (key lower call.name)) ∧
    (∀ entry ∈ feats.entries, Introduced lower calls entry.1) ∧
    ∀ column start more, readWith lower column = some start → (∀ call ∈ more, call.Plain) →
      readWith lower (run lower start more).write = some (run lower start more) := by
  intro feats map
  have hfeats : feats.Ascending lower := ascending_run lower calls
  have hmap : feats.asMap lower = map := asMap_run lower calls
  have hlook : ∀ name, feats.look lower name = map.lookup (key lower name) := fun name =>
    hmap ▸ hfeats.look_eq name
  refine ⟨hfeats, hlook, fun name => hmap ▸ hfeats.has_iff name, hmap ▸ hfeats.size_eq,
    fun call => ?_, fun entry => introduced_of_mem_run, ?_⟩
  · rw [Call.apply_snd, hlook]
  · intro column start more hread hmore
    obtain ⟨puts, hputs, rfl⟩ := readWith_eq_some hread
    rw [← run_append]
    exact readWith_write_run (List.forall_mem_append.2 ⟨hputs, hmore⟩)

/-- Names that differ in case only. -/
theorem calls_form_map_of_column :
    let lower : Char → List Char := fun c => [c.toLower]
    let start : Features := ⟨[("case", "Nom"), ("Number", "Sing")]⟩
    let more : List Call := [.put "NUMBER" "Plur", .take "Case", .put "CASE" "Acc"]
    readWith lower "Number=Sing|case=Nom".toList = some start ∧ (∀ call ∈ more, call.Plain) ∧
      run lower start more = ⟨[("CASE", "Acc"), ("Number", "Plur")]⟩ ∧
      readWith lower (run lower start more).write = some (run lower start more) := by
  intro lower start more
  have hread : readWith lower "Number=Sing|case=Nom".toList = some start := by decide +kernel
  have hmore : ∀ call ∈ more, call.Plain := by simp [more, Call.Plain]
  have hrun : run lower start more = ⟨[("CASE", "Acc"), ("Number", "Plur")]⟩ := by decide +kernel
  exact ⟨hread, hmore, hrun, (calls_form_map lower []).2.2.2.2.2.2 _ _ _ hread hmore⟩

/-! ### With the folding of the model's own characters -/

theorem find_eq_dlookup (folded : List Char) (entries : List (String × String)) :
    find folded entries = List.dlookup folded
      (entries.map fun entry => (⟨fold entry.1, entry.2⟩ : Sigma fun _ : List Char => String)) := by
  induction entries with
  | nil => rfl
  | cons entry rest ih =>
    obtain ⟨name, value⟩ := entry
    simp only [find, List.map_cons]
    split
    · next heq => rw [heq, List.dlookup_cons_eq]
    · next hne => rw [List.dlookup_cons_ne _ _ (Ne.symm hne), ih]

theorem Ascending.look_eq_get? (h : feats.Ascending Text.lower) (name : String) :
    feats.look Text.lower name = feats.get? name := by
  rw [h.look_eq, asMap, Finmap.dlookup_list_toFinmap, get?, find_eq_dlookup]
  rfl

theorem Ascending.has_eq_contains (h : feats.Ascending Text.lower) (name : String) :
    feats.has Text.lower name = feats.contains name := by
  rw [Bool.eq_iff_iff, h.has_iff, ← Finmap.lookup_isSome, ← h.look_eq, h.look_eq_get?, contains]

end Features
end Treebank
