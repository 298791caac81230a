import Ekg.Lib.FirstWrite
import Ekg.Lib.Split

/-!
# The parameters of the drivers

The options `pub-impl-kv` and `sub-impl-kv` are lists of strings, each of them a key and a value
with a `:` between them.  `ProgramOptions::parseKVCustomParam` splits every string at its `:`s,
throws if there are not exactly two parts, and inserts them into a map, which keeps what it has.

`parseKVCustomParam_exact` says what comes of a list: an exception if some string does not have
exactly one `:`, and else the map that takes each key to its first value.  So the strings of a map
give the map back, in any order.
-/

set_option autoImplicit false

namespace Ekg

open FirstWrite

/-- `MapStrKV`. -/
abbrev MapStrKV := Std.ExtTreeMap String String

/-- `boost::algorithm::is_any_of`. -/
def isAnyOf (set : String) (c : Char) : Bool := set.toList.contains c

/-- `boost::algorithm::split`, with `token_compress_off`, which is the default: adjacent separators
have an empty part between them. -/
def split (input : String) (pred : Char → Bool) : List String :=
  (input.toList.splitOnP pred).map String.ofList

namespace ProgramOptions

/-- The body of the loop of `parseKVCustomParam`. -/
def insertParam (implConfigMap : MapStrKV) (kv : String) : Except String MapStrKV :=
  match split kv (isAnyOf ":") with
  | [key, value] => .ok (implConfigMap.insertIfNew key value)
  | _ => .error "Bad ky paramter"

/-- `ProgramOptions::parseKVCustomParam`. -/
def parseKVCustomParam (kvVec : List String) : Except String MapStrKV :=
  kvVec.foldlM insertParam ∅

/-! ## One string -/

/-- The string has exactly one `:`. -/
def WellFormed (kv : String) : Prop := kv.toList.count ':' = 1

instance (kv : String) : Decidable (WellFormed kv) := inferInstanceAs (Decidable (_ = _))

/-- The part before the `:`. -/
def keyOf (kv : String) : String := .ofList (Split.before (· == ':') kv.toList)

/-- The part after the `:`. -/
def valueOf (kv : String) : String := .ofList (Split.after (· == ':') kv.toList)

/-- The string of a key and a value. -/
def param (key value : String) : String := key ++ ":" ++ value

variable {kv key value : String} {map : MapStrKV} {kvVec : List String}

theorem isAnyOf_colon : isAnyOf ":" = (· == ':') := by
  funext c
  rw [isAnyOf, Bool.eq_iff_iff]
  simp

theorem length_split : (split kv (isAnyOf ":")).length = kv.toList.count ':' + 1 := by
  rw [split, List.length_map, Split.length_splitOnP, isAnyOf_colon, List.count]

theorem split_of_wellFormed (h : WellFormed kv) :
    split kv (isAnyOf ":") = [keyOf kv, valueOf kv] := by
  rw [split, isAnyOf_colon, Split.splitOnP_eq_pair h]
  rfl

theorem insertParam_of_wellFormed (h : WellFormed kv) :
    insertParam map kv = .ok (map.insertIfNew (keyOf kv) (valueOf kv)) := by
  rw [insertParam, split_of_wellFormed h]

theorem insertParam_of_not_wellFormed (h : ¬ WellFormed kv) :
    insertParam map kv = .error "Bad ky paramter" := by
  rw [insertParam]
  split
  · rename_i hsplit
    have hlength : (split kv (isAnyOf ":")).length = kv.toList.count ':' + 1 := length_split
    rw [hsplit, List.length_cons, List.length_singleton] at hlength
    exact absurd (Nat.succ_injective hlength).symm h
  · rfl

theorem toList_param : (param key value).toList = key.toList ++ ':' :: value.toList := by
  simp [param]

theorem wellFormed_param (hkey : ':' ∉ key.toList) (hvalue : ':' ∉ value.toList) :
    WellFormed (param key value) := by
  rw [WellFormed, toList_param, List.count_append, List.count_cons_self,
    List.count_eq_zero.mpr hkey, List.count_eq_zero.mpr hvalue]

theorem keyOf_param (hkey : ':' ∉ key.toList) : keyOf (param key value) = key := by
  have hnone : ∀ c ∈ key.toList, (c == ':') = false := fun c hc ↦
    beq_eq_false_iff_ne.mpr fun heq ↦ hkey (heq ▸ hc)
  rw [keyOf, toList_param, Split.before_append_cons hnone rfl, String.ofList_toList]

theorem valueOf_param (hkey : ':' ∉ key.toList) : valueOf (param key value) = value := by
  have hnone : ∀ c ∈ key.toList, (c == ':') = false := fun c hc ↦
    beq_eq_false_iff_ne.mpr fun heq ↦ hkey (heq ▸ hc)
  rw [valueOf, toList_param, Split.after_append_cons hnone rfl, String.ofList_toList]

/-! ## The loop -/

/-- A list of strings that are all well formed goes through. -/
theorem parseKVCustomParam_of_forall (h : ∀ kv ∈ kvVec, WellFormed kv) :
    parseKVCustomParam kvVec =
      .ok (kvVec.foldl (fun map kv ↦ map.insertIfNew (keyOf kv) (valueOf kv)) ∅) := by
  rw [parseKVCustomParam]
  generalize (∅ : MapStrKV) = map
  induction kvVec generalizing map with
  | nil => rfl
  | cons kv kvVec ih =>
    rw [List.foldlM_cons, insertParam_of_wellFormed (h kv List.mem_cons_self)]
    exact ih (fun kv' hkv' ↦ h kv' (List.mem_cons_of_mem kv hkv')) _

/-- The first string that is not ends the loop. -/
theorem parseKVCustomParam_of_exists (h : ∃ kv ∈ kvVec, ¬ WellFormed kv) :
    parseKVCustomParam kvVec = .error "Bad ky paramter" := by
  rw [parseKVCustomParam]
  generalize (∅ : MapStrKV) = map
  induction kvVec generalizing map with
  | nil => simp at h
  | cons kv kvVec ih =>
    rw [List.foldlM_cons]
    by_cases hkv : WellFormed kv
    · rw [insertParam_of_wellFormed hkv]
      obtain ⟨kv', hmem, hkv'⟩ := h
      have hmem' := (List.mem_cons.mp hmem).resolve_left fun heq ↦ hkv' (heq ▸ hkv)
      exact ih ⟨kv', hmem', hkv'⟩ _
    · rw [insertParam_of_not_wellFormed hkv]
      rfl

/-- What a string has for a key. -/
def writes (key kv : String) : Option String :=
  if keyOf kv = key then some (valueOf kv) else none

theorem writes_eq_some : writes key kv = some value ↔ keyOf kv = key ∧ valueOf kv = value := by
  simp [writes]

/-- The map keeps the first value of a key. -/
theorem inserts_param : Inserts
    (fun (map : MapStrKV) kv ↦ map.insertIfNew (keyOf kv) (valueOf kv)) (fun map key ↦ map[key]?)
    writes :=
  fun map kv key ↦ getElem?_insertIfNew map (keyOf kv) (valueOf kv) key

/-- What `parseKVCustomParam` returns for a list. -/
structure Parsed (kvVec : List String) (r : Except String MapStrKV) : Prop where
  throws : (∃ what, r = .error what) ↔ ∃ kv ∈ kvVec, ¬ WellFormed kv
  keys : ∀ map, r = .ok map → ∀ key, key ∈ map ↔ ∃ kv ∈ kvVec, keyOf kv = key
  values : ∀ map, r = .ok map → ∀ key,
    map[key]? = (kvVec.find? fun kv ↦ keyOf kv = key).map valueOf

theorem parsed_parseKVCustomParam (kvVec : List String) :
    Parsed kvVec (parseKVCustomParam kvVec) := by
  by_cases h : ∀ kv ∈ kvVec, WellFormed kv
  · have hvalues : ∀ key : String,
        (kvVec.foldl (fun (map : MapStrKV) kv ↦ map.insertIfNew (keyOf kv) (valueOf kv)) ∅)[key]? =
          (kvVec.find? fun kv ↦ keyOf kv = key).map valueOf := fun key ↦
      inserts_param.obs_foldl_eq_find? Std.ExtTreeMap.getElem?_empty fun kv ↦ by
        simp only [writes, decide_eq_true_eq]
    rw [parseKVCustomParam_of_forall h]
    refine ⟨iff_of_false (fun ⟨what, hwhat⟩ ↦ by cases hwhat) (by simpa using h),
      fun map hmap key ↦ ?_, fun map hmap key ↦ ?_⟩
    · cases hmap
      rw [Std.ExtTreeMap.mem_iff_isSome_getElem?, hvalues]
      simp
    · cases hmap
      exact hvalues key
  · have hexists : ∃ kv ∈ kvVec, ¬ WellFormed kv := by simpa using h
    rw [parseKVCustomParam_of_exists hexists]
    exact ⟨iff_of_true ⟨_, rfl⟩ hexists, nofun, nofun⟩

/-! ## The strings of a map -/

/-- The strings of a map. -/
def params (map : MapStrKV) : List String := map.toList.map fun p ↦ param p.1 p.2

/-- No key and no value of the map has a `:`. -/
def SeparatorFree (map : MapStrKV) : Prop :=
  ∀ key value : String, map[key]? = some value → ':' ∉ key.toList ∧ ':' ∉ value.toList

theorem mem_params :
    kv ∈ params map ↔ ∃ key value, map[key]? = some value ∧ param key value = kv := by
  simp [params, Std.ExtTreeMap.mem_toList_iff_getElem?_eq_some]

/-- A string of the map has for a key what the map has. -/
theorem writes_param_eq_some {key' value' : String} (hkey : ':' ∉ key.toList) :
    writes key' (param key value) = some value' ↔ key = key' ∧ value = value' := by
  rw [writes_eq_some, keyOf_param hkey, valueOf_param hkey]

/-- **Parsing the strings of a map gives the map back**, in whatever order they are. -/
theorem parseKVCustomParam_of_perm (hfree : SeparatorFree map) (hperm : kvVec.Perm (params map)) :
    parseKVCustomParam kvVec = .ok map := by
  have hmem : ∀ kv, kv ∈ kvVec ↔ ∃ key value, map[key]? = some value ∧ param key value = kv :=
    fun kv ↦ hperm.mem_iff.trans mem_params
  have hwell : ∀ kv ∈ kvVec, WellFormed kv := by
    intro kv hkv
    obtain ⟨key, value, hmap, rfl⟩ := (hmem kv).mp hkv
    exact wellFormed_param (hfree key value hmap).1 (hfree key value hmap).2
  have hwrites : ∀ kv ∈ kvVec, ∀ key value, writes key kv = some value →
      map[key]? = some value := by
    intro kv hkv key value hwrite
    obtain ⟨key', value', hmap, rfl⟩ := (hmem kv).mp hkv
    obtain ⟨rfl, rfl⟩ := (writes_param_eq_some (hfree key' value' hmap).1).mp hwrite
    exact hmap
  rw [parseKVCustomParam_of_forall hwell]
  refine congrArg Except.ok (Std.ExtTreeMap.ext_getElem? fun key ↦ Option.ext fun value ↦ ?_)
  rw [inserts_param.obs_foldl_eq_some_iff Std.ExtTreeMap.getElem?_empty]
  · refine ⟨fun ⟨kv, hkv, hwrite⟩ ↦ hwrites kv hkv key value hwrite, fun hmap ↦ ?_⟩
    exact ⟨param key value, (hmem _).mpr ⟨key, value, hmap, rfl⟩,
      (writes_param_eq_some (hfree key value hmap).1).mpr ⟨rfl, rfl⟩⟩
  · intro kv hkv kv' hkv' v w hv hw
    have hmap := hwrites kv hkv key v hv
    rw [hwrites kv' hkv' key w hw] at hmap
    exact (Option.some_inj.mp hmap).symm

/-- **Driver parameters are parsed exactly**: the exception, the keys and the values are what they
should be, and the strings of a map give the map back. -/
theorem parseKVCustomParam_exact (kvVec : List String) :
    Parsed kvVec (parseKVCustomParam kvVec) ∧
      ∀ map, SeparatorFree map → kvVec.Perm (params map) → parseKVCustomParam kvVec = .ok map :=
  ⟨parsed_parseKVCustomParam kvVec, fun _ ↦ parseKVCustomParam_of_perm⟩

/-- The first value of a key counts, and a part may be empty. -/
example : (parseKVCustomParam ["k1:v1", "k2:", "k1:v3", ":v"]).map Std.ExtTreeMap.toList =
    .ok [("", "v"), ("k1", "v1"), ("k2", "")] := by
  decide

end ProgramOptions

end Ekg
