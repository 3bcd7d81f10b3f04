import PropMiner.Worker.HashrateText

/-!
# The cache of batch sizes

`MineBatchCache` keeps the batch size that a sweep found best for a device, with the shape it was
found at. Its file has the same lines as that of the autotune cache, and the keys are written in the
same way, so the lemmas about lines and keys are those of `TuneCache`.

The file may hold anything before the first `save`: comments, empty lines, several lines of one
device, lines that no `save` writes. `load` takes the first line of the device, and gives up if it
cannot be read or is of another shape; it does not look at a second one. A device has one line after
its first `save`, and the later lines of a file are those of the devices that were saved last.

`%lf` is a parameter; see `ReadsDoubles`. The file can be read and written.

## Main definitions

* `MineBatchCache.load`, `MineBatchCache.save`
* `saveAll` — a sequence of saves
* `lastSaved` — what was saved last under the text of a key

## Main results

* `fileLines_save` — the lines of the file after `save`
* `load_save` — one save, and what is loaded under any key
* `load_saveAll` — any sequence of saves on any file
-/

set_option autoImplicit false

namespace PropMiner.MineBatchCache

open Stratum (Bytes bytes intText)
open TuneCache (Double Visible ReadsDoubles fileLines entry scanInt scanInts store reread)

/-- `MineBatchCache::Key`; it has the fields and the `to_string` of `TuneCache::Key`. -/
abbrev Key := TuneCache.Key

/-- `MineBatchResult` -/
structure MineBatchResult where
  m : Int32 := 0
  n : Int32 := 0
  batch : Int32 := 4
  hashrate : Double := .finite false 0
  useGraph : Bool := true
  deriving DecidableEq

/-! ### The cache -/

/-- The values as `save` writes them. -/
def valuesText (result : MineBatchResult) : Bytes :=
  [result.m, result.n, result.batch].flatMap (fun n => intText n.toInt ++ [44]) ++
    (result.hashrate.text ++ 44 :: intText (if result.useGraph then 1 else 0))

/-- `sscanf` with `%d,%d,%d,%lf,%d`, if all five values are stored. -/
def readValues (scan : Bytes → Option (Double × Bytes)) (value : Bytes) :
    Option MineBatchResult :=
  match scanInts 3 (value.takeWhile (· ≠ 0)) with
  | ([m, n, batch], some t) =>
    match scan t with
    | some (hashrate, 44 :: t) =>
      (scanInt t).map fun graph => { m, n, batch, hashrate, useGraph := store graph.1 ≠ 0 }
    | _ => none
  | _ => none

/-- The checks of `load` on the values it has read. -/
def checked (m n : Int32) (r : MineBatchResult) : Option MineBatchResult :=
  if r.m ≠ m ∨ r.n ≠ n then none
  else if r.batch < 1 then none
  else some r

/-- `load` -/
def load (scan : Bytes → Option (Double × Bytes)) (file : Option Bytes) (key : Key)
    (m n : Int32) : Option MineBatchResult :=
  match (fileLines file).findSome? (entry key.text) with
  | none => none
  | some value => (readValues scan value).bind (checked m n)

/-- The lines that `save` writes: those without the key of the device that are not empty, and a
new one. -/
def savedLines (file : Option Bytes) (key : Key) (result : MineBatchResult) : List Bytes :=
  (((fileLines file).filter fun line => entry key.text line = none).filter (· ≠ [])) ++
    [key.text ++ 32 :: valuesText result]

/-- `save` -/
def save (file : Option Bytes) (key : Key) (result : MineBatchResult) : Option Bytes :=
  some ((savedLines file key result).flatMap fun line => line ++ [10])

/-- The file after a sequence of saves. -/
def saveAll (file : Option Bytes) (saves : List (Key × MineBatchResult)) : Option Bytes :=
  saves.foldl (fun file s => save file s.1 s.2) file

/-! ### What it is for -/

/-- The last result that was saved under the text of a key. -/
def lastSaved (saves : List (Key × MineBatchResult)) (key : Key) : Option MineBatchResult :=
  (saves.reverse.find? fun s => s.1.text = key.text).map (·.2)

/-- The comment lines of a file. -/
def comments (file : Option Bytes) : List Bytes :=
  (fileLines file).filter fun line => line.head? = some 35

/-- What is loaded of a result: the hashrate is that of its text. -/
def loaded (m n : Int32) (r : MineBatchResult) : Option MineBatchResult :=
  if r.m = m ∧ r.n = n then some { r with hashrate := reread r.hashrate } else none

theorem lastSaved_append_singleton (saves : List (Key × MineBatchResult))
    (s : Key × MineBatchResult) (key : Key) :
    lastSaved (saves ++ [s]) key =
      if s.1.text = key.text then some s.2 else lastSaved saves key := by
  rw [lastSaved, List.reverse_append, List.reverse_singleton, List.singleton_append,
    List.find?_cons]
  by_cases hs : s.1.text = key.text
  · rw [decide_eq_true hs, if_pos hs]
    rfl
  · rw [decide_eq_false hs, if_neg hs]
    rfl

@[simp]
theorem saveAll_append_singleton (file : Option Bytes) (saves : List (Key × MineBatchResult))
    (s : Key × MineBatchResult) :
    saveAll file (saves ++ [s]) = save (saveAll file saves) s.1 s.2 := by
  rw [saveAll, List.foldl_append]
  rfl

/-! ### One save -/

section Save

variable {scan : Bytes → Option (Double × Bytes)} {file : Option Bytes} {key : Key}
  {result : MineBatchResult}

theorem visible_valuesText (result : MineBatchResult) : Visible (valuesText result) := by
  apply (TuneCache.visible_ints _).append
  apply (TuneCache.visible_text _).append
  exact (TuneCache.visible_intText _).cons (by decide)

/-- What is written is read, the hashrate to its digits. -/
theorem readValues_valuesText (hscan : ReadsDoubles scan) (result : MineBatchResult) :
    readValues scan (valuesText result) =
      some { result with hashrate := reread result.hashrate } := by
  obtain ⟨m, n, batch, hashrate, useGraph⟩ := result
  have hints : ∀ t, scanInts 3 ([m, n, batch].flatMap (fun n => intText n.toInt ++ [44]) ++ t) =
      ([m, n, batch], some t) := TuneCache.scanInts_append [m, n, batch] 0
  have hgraph : (scanInt (intText (if useGraph then 1 else 0))).map
      (fun graph => decide (store graph.1 ≠ 0)) = some useGraph := by
    cases useGraph <;> decide +kernel
  obtain ⟨graph, hgraph, huse⟩ := Option.map_eq_some_iff.mp hgraph
  -- three integers, the hashrate up to its comma, and the flag
  rw [readValues, (visible_valuesText _).takeWhile_eq, valuesText]
  simp only [hints, hscan.scan_text]
  rw [hgraph, Option.map_some, huse]

theorem checked_eq_loaded (hbatch : 1 ≤ result.batch) (m n : Int32) :
    checked m n { result with hashrate := reread result.hashrate } = loaded m n result := by
  by_cases hshape : result.m = m ∧ result.n = n
  · rw [checked, loaded, if_neg (by tauto), if_neg (Int32.not_lt.mpr hbatch), if_pos hshape]
  · rw [checked, loaded, if_pos (by tauto), if_neg hshape]

theorem fileLines_save (h : key.NoSpace) (file : Option Bytes) (result : MineBatchResult) :
    fileLines (save file key result) = savedLines file key result := by
  apply TuneCache.fileLines_flatMap
  intro line hline
  rcases List.mem_append.mp hline with hold | hnew
  · apply TuneCache.newline_notMem_fileLines file line
    exact List.mem_of_mem_filter (List.mem_of_mem_filter hold)
  · rw [List.mem_singleton.mp hnew]
    exact TuneCache.newline_notMem_savedLine h (visible_valuesText result)

/-- The entry found under any key: the new line, or the one found before. -/
theorem findSome?_save (h : key.NoSpace) (file : Option Bytes) (want : Bytes) :
    (fileLines (save file key result)).findSome? (entry want) =
      if key.text = want then some (valuesText result)
      else (fileLines file).findSome? (entry want) := by
  -- an empty line is no entry, so it does not matter that it is dropped
  have hempty : ∀ line : Bytes, decide (line ≠ []) = false → entry want line = none := by
    intro line hline
    rw [not_not.mp (of_decide_eq_false hline)]
    rfl
  rw [fileLines_save h, savedLines, List.findSome?_append, TuneCache.findSome?_filter hempty,
    List.findSome?_singleton, TuneCache.entry_savedLine h]
  by_cases hkey : key.text = want
  · -- all old lines of the key are gone, so the new one is the first
    rw [if_pos hkey, if_pos hkey, ← hkey, TuneCache.findSome?_filter_self, Option.none_or]
  · rw [if_neg hkey, if_neg hkey, TuneCache.findSome?_filter_of_ne (Ne.symm hkey), Option.or_none]

/-- One save: its own key loads the result, and all others what they did before. -/
theorem load_save (hscan : ReadsDoubles scan) (h : key.NoSpace) (hbatch : 1 ≤ result.batch)
    (file : Option Bytes) (other : Key) (m n : Int32) :
    load scan (save file key result) other m n =
      if key.text = other.text then loaded m n result else load scan file other m n := by
  rw [load, findSome?_save h]
  by_cases hkey : key.text = other.text
  · rw [if_pos hkey, if_pos hkey]
    dsimp only
    rw [readValues_valuesText hscan, Option.bind_some, checked_eq_loaded hbatch]
  · rw [if_neg hkey, if_neg hkey, load]

/-- A comment is an entry of no key, it is not empty, and no key begins like one. -/
theorem comments_save (h : key.NoSpace) (file : Option Bytes) (result : MineBatchResult) :
    comments (save file key result) = comments file := by
  have hnew : ¬ (key.text ++ 32 :: valuesText result).head? = some 35 := by
    intro hhead
    have hentry := TuneCache.entry_savedLine h key.text (valuesText result)
    rw [if_pos rfl, entry, if_pos (Or.inr hhead)] at hentry
    cases hentry
  rw [comments, fileLines_save h, savedLines, List.filter_append, List.filter_singleton,
    decide_eq_false hnew, comments, cond_false, List.append_nil, List.filter_filter,
    List.filter_filter]
  apply List.filter_congr
  intro line _
  by_cases hline : line.head? = some 35
  · have hentry : entry key.text line = none := if_pos (Or.inr hline)
    have hne : line ≠ [] := by
      rintro rfl
      cases hline
    rw [decide_eq_true hline, decide_eq_true hne, decide_eq_true hentry]
    rfl
  · rw [decide_eq_false hline]
    rfl

end Save

/-! ### A sequence of saves -/

/-- After any saves on any file, a key loads the last result that was saved under its text if the
shape is the same, and nothing if it is not; a key that was never saved loads what it did before.
Comments stay. -/
theorem load_saveAll {scan : Bytes → Option (Double × Bytes)} (hscan : ReadsDoubles scan)
    (file : Option Bytes) (saves : List (Key × MineBatchResult))
    (hsaves : ∀ s ∈ saves, s.1.NoSpace ∧ 1 ≤ s.2.batch) :
    (∀ (key : Key) (m n : Int32),
      load scan (saveAll file saves) key m n =
        match lastSaved saves key with
        | some r => loaded m n r
        | none => load scan file key m n) ∧
    comments (saveAll file saves) = comments file := by
  -- the last save decides, so the induction is from the end
  induction saves using List.reverseRecOn with
  | nil => exact ⟨fun key m n => rfl, rfl⟩
  | append_singleton saves s ih =>
    obtain ⟨hload, hcomments⟩ := ih fun t ht => hsaves t (List.mem_append_left _ ht)
    obtain ⟨hkey, hbatch⟩ := hsaves s (List.mem_append_right _ List.mem_cons_self)
    rw [saveAll_append_singleton]
    refine ⟨fun key m n => ?_, (comments_save hkey _ _).trans hcomments⟩
    rw [load_save hscan hkey hbatch, lastSaved_append_singleton]
    by_cases hs : s.1.text = key.text
    · rw [if_pos hs, if_pos hs]
    · rw [if_neg hs, if_neg hs]
      exact hload key m n

/-- A file with a comment and an old line of the device. -/
def sampleFile : Option Bytes :=
  some (bytes "# sweep\n\n" ++ TuneCache.sampleKey.text ++ bytes " 8192,32768,2,1e+06,1\n")

def sampleSaves : List (Key × MineBatchResult) :=
  [(TuneCache.sampleKey, { m := 8192, n := 32768, batch := 8, hashrate := .finite false 1250000 })]

theorem load_saveAll_sample : (∀ s ∈ sampleSaves, s.1.NoSpace ∧ 1 ≤ s.2.batch) ∧
    (lastSaved sampleSaves TuneCache.sampleKey).isSome ∧
    load TuneCache.scanDouble (saveAll sampleFile sampleSaves) TuneCache.sampleKey 8192 32768 =
      some { m := 8192, n := 32768, batch := 8, hashrate := reread (.finite false 1250000) } := by
  have hsaves : ∀ s ∈ sampleSaves, s.1.NoSpace ∧ 1 ≤ s.2.batch :=
    List.forall_mem_singleton.mpr ⟨by decide, by decide⟩
  refine ⟨hsaves, by decide +kernel, ?_⟩
  apply ((load_saveAll TuneCache.readsDoubles_scanDouble sampleFile sampleSaves hsaves).1
    TuneCache.sampleKey 8192 32768).trans
  decide +kernel

end PropMiner.MineBatchCache
