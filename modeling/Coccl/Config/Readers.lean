import Coccl.Config.Format

/-!
# What the readers decide

Each function that reads one value, and each loop over names and options, succeeds exactly if the
field has the format, with the value of the field.
-/

namespace Coccl

open Reports Toml Decides List Table

variable (table : Table) (key path : String)

theorem validateKeys_decides (allowed : List String) :
    Decides (validateKeys table allowed path) True (table.KeysIn allowed) () := by
  unfold validateKeys
  split
  next hnone =>
    refine .pure fun entry hentry => ?_
    simpa using find?_eq_none.mp hnone entry hentry
  next entry hsome =>
    refine .fail fun hkeys => ?_
    have hunknown := find?_some hsome
    simp [hkeys entry (mem_of_find?_eq_some hsome)] at hunknown

theorem readString_decides (value : String) (required : Bool) :
    Decides (readString table key value required path) True
      ((required = true → (table.get key).isSome = true) ∧ table.StringAt key)
      (table.stringOr key value) := by
  unfold readString StringAt stringOr
  cases table.get key with
  | none =>
    cases required with
    | false => exact .pure (by simp)
    | true => exact .fail (by simp)
  | some node =>
    cases hnode : node.valueString with
    | none => simpa [hnode] using fail not_false
    | some parsed => simpa [hnode] using pure trivial

theorem readString_optional (value : String) :
    Decides (readString table key value false path) True (table.StringAt key)
      (table.stringOr key value) :=
  (readString_decides table key path value false).congr (by simp) (fun _ => Iff.rfl) fun _ => rfl

theorem readBool_decides (value : Bool) :
    Decides (readBool table key value path) True (table.BoolAt key) (table.boolOr key value) := by
  unfold readBool BoolAt boolOr
  cases table.get key with
  | none => exact .pure (by simp)
  | some node =>
    cases hnode : node.valueBool with
    | none => simpa [hnode] using fail not_false
    | some parsed => simpa [hnode] using pure trivial

theorem readSize_decides (value : ℕ) :
    Decides (readSize table key value path) True (table.SizeAt key) (table.sizeOr key value) := by
  unfold readSize SizeAt sizeOr
  cases table.get key with
  | none => exact .pure (by simp)
  | some node =>
    cases hnode : node.valueInt with
    | none => simpa [hnode] using fail not_false
    | some parsed =>
      by_cases hsign : 0 ≤ parsed.toInt
      · simpa [hnode, Option.filter_some, hsign] using pure trivial
      · simpa [hnode, Option.filter_some, hsign] using fail not_false

theorem readInt_decides (value min max : ℤ) :
    Decides (readInt table key value min max path) True (table.IntAt key min max)
      (table.intOr key value) := by
  unfold readInt IntAt intOr
  cases table.get key with
  | none => exact .pure (by simp)
  | some node =>
    cases hnode : node.valueInt with
    | none => simpa [hnode] using fail not_false
    | some parsed =>
      by_cases hrange : min ≤ parsed.toInt ∧ parsed.toInt ≤ max
      · simpa [hnode, Option.filter_some, hrange] using pure trivial
      · simpa [hnode, Option.filter_some, hrange] using fail not_false

theorem readParallelSize_decides (required : Bool) (value : ℤ) :
    Decides (readParallelSize table required key value) True
      (Config.ParallelSizeAt required table key) (table.intOr key value) := by
  have hread := readInt_decides table key "training.classifier" value 1 maxInt
  cases required with
  | false => exact hread.congr (by simp [Config.ParallelSizeAt]) (fun _ => Iff.rfl) fun _ => rfl
  | true =>
    simp only [readParallelSize, readRequiredInt, if_true]
    cases hget : table.get key with
    | none => exact .fail fun h => by simpa [hget] using h.1 rfl
    | some node =>
      refine hread.congr (and_iff_right ?_).symm (fun _ => Iff.rfl) fun _ => rfl
      simp [hget]

/-! ## Names and options -/

theorem validCompressorName_iff (name : String) :
    validCompressorName name = true ↔ name ≠ "" ∧ name.toList.all compressorChar = true := by
  simp [validCompressorName]

theorem readNames_decides (entries : List Node) (values : List String) (hvalues : values.Nodup) :
    Decides (readNames path key entries values) True
      ((∀ entry ∈ entries, ∃ name ∈ entry.valueString, validCompressorName name = true) ∧
        (values ++ entries.filterMap Node.valueString).Nodup)
      (values ++ entries.filterMap Node.valueString) := by
  induction entries generalizing values with
  | nil =>
    rw [readNames, filterMap_nil, append_nil]
    exact .pure ⟨by simp, hvalues⟩
  | cons entry rest ih =>
    rw [readNames]
    cases hentry : entry.valueString with
    | none => exact .fail fun h => by simp [hentry] at h
    | some name =>
      have hnames : values ++ (entry :: rest).filterMap Node.valueString =
          (values ++ [name]) ++ rest.filterMap Node.valueString := by
        simp [hentry]
      simp only [hnames, forall_mem_cons, hentry, Option.mem_some_iff, exists_eq_left',
        validCompressorName_iff]
      split_ifs with hempty hchars hknown
      · exact .fail fun h => h.1.1.1 hempty
      · exact .fail fun h => by simp [h.1.1.2] at hchars
      · refine .fail fun h => ?_
        have hdistinct := (nodup_append.mp h.2).1
        rw [nodup_append] at hdistinct
        exact hdistinct.2.2 name (by simpa using hknown) name (by simp) rfl
      · have hnodup : (values ++ [name]).Nodup := by
          rw [← concat_eq_append]
          exact hvalues.concat (by simpa using hknown)
        refine (ih _ hnodup).congr ?_ (fun _ => Iff.rfl) fun _ => rfl
        simp only [validCompressorName_iff, Bool.not_eq_true', Bool.not_eq_false] at hchars ⊢
        exact ⟨fun h => ⟨⟨⟨hempty, hchars⟩, h.1⟩, h.2⟩, fun h => ⟨h.1.2, h.2⟩⟩

theorem readStringArray_decides (values : List String) :
    Decides (readStringArray table key values path) True (table.NamesAt key)
      (table.namesOr key values) := by
  unfold readStringArray NamesAt namesOr
  cases table.get key with
  | none => exact .pure (by simp)
  | some node =>
    cases hnode : node.asArray with
    | none => simpa [hnode] using fail not_false
    | some entries => simpa [hnode] using readNames_decides key path entries [] nodup_nil

theorem parseOptionValues_decides (table : Table) (values : List (String × String)) :
    Decides (parseOptionValues path table values) True
      (∀ entry ∈ table, (scalarToString entry.2).isSome = true)
      (table.foldl (fun values entry => emplace values entry.1 ((scalarToString entry.2).getD ""))
        values) := by
  induction table generalizing values with
  | nil => exact .pure (by simp)
  | cons entry rest ih =>
    obtain ⟨key, node⟩ := entry
    rw [parseOptionValues]
    cases hnode : scalarToString node with
    | none => exact .fail fun h => by simpa [hnode] using h (key, node) (by simp)
    | some value =>
      refine (ih _).congr ?_ (fun _ => Iff.rfl) fun _ => ?_
      · simp [hnode]
      · simp [hnode]

end Coccl
