import PropMiner.Semantics.OrderedSet

/-!
# Maps in order

A map that is kept as a list of entries with increasing keys, and walked in that order. A key that
is put in again gets the new value.

## Main definitions

* `OrderedMap` — entries with increasing keys
* `OrderedMap.get?`, `OrderedMap.insert`, `OrderedMap.ofList`
* `OrderedMap.tabulate` — a function on an ordered set

## Main results

* `OrderedMap.mem_entries_iff`, `OrderedMap.get?_insert`, `OrderedMap.get?_ofList` — what a key
  stands for
* `OrderedMap.insert_tabulate`, `OrderedMap.ofList_tabulate` — the values of one function
-/

set_option autoImplicit false

namespace PropMiner.Semantics

/-- Entries of a map, each key below those behind it. -/
structure OrderedMap (κ ν : Type*) [LT κ] where
  entries : List (κ × ν)
  increasing : (entries.map Prod.fst).Pairwise (· < ·)

namespace OrderedMap

section Entries

variable {κ ν ω : Type*} [LT κ]

theorem increasing_nil : (([] : List (κ × ν)).map Prod.fst).Pairwise (· < ·) := .nil

def empty : OrderedMap κ ν := ⟨[], increasing_nil⟩

theorem ext_entries {m m' : OrderedMap κ ν} (h : m.entries = m'.entries) : m = m' := by
  cases m
  cases m'
  cases h
  rfl

def map (g : ν → ω) (m : OrderedMap κ ν) : OrderedMap κ ω where
  entries := m.entries.map fun e => (e.1, g e.2)
  increasing := by simpa [Function.comp_def] using m.increasing

/-- A value for every element of a set. -/
def tabulate (s : OrderedSet κ) (g : κ → ν) : OrderedMap κ ν where
  entries := s.elems.map fun k => (k, g k)
  increasing := by simpa [Function.comp_def] using s.increasing

end Entries

variable {κ ν ω : Type*} [LinearOrder κ] {m : OrderedMap κ ν} {k k' : κ} {v : ν}

/-! ### Lookup -/

/-- The value of a key. -/
def get? (m : OrderedMap κ ν) (k : κ) : Option ν := (m.entries.find? (·.1 = k)).map Prod.snd

/-- `contains_key` -/
def containsKey (m : OrderedMap κ ν) (k : κ) : Bool := (m.get? k).isSome

@[simp] theorem get?_empty (k : κ) : (empty : OrderedMap κ ν).get? k = none := rfl

theorem mem_entries_iff : (k, v) ∈ m.entries ↔ m.get? k = some v := by
  rw [get?, Option.map_eq_some_iff]
  constructor
  · intro hmem
    obtain ⟨e, he⟩ : ∃ e, m.entries.find? (·.1 = k) = some e :=
      Option.isSome_iff_exists.mp (List.find?_isSome.mpr ⟨(k, v), hmem, by simp⟩)
    have hkey : e.1 = k := by simpa using List.find?_some he
    -- no two entries have one key
    have hnodup : (m.entries.map Prod.fst).Nodup := m.increasing.imp fun h => h.ne
    have heq : e = (k, v) :=
      List.inj_on_of_nodup_map hnodup (List.mem_of_find?_eq_some he) hmem hkey
    exact ⟨e, he, congrArg Prod.snd heq⟩
  · rintro ⟨e, he, rfl⟩
    have hkey : e.1 = k := by simpa using List.find?_some he
    rw [← hkey]
    exact List.mem_of_find?_eq_some he

theorem get?_of_mem : ∀ e ∈ m.entries, m.get? e.1 = some e.2 := fun _ he => mem_entries_iff.mp he

theorem get?_tabulate {s : OrderedSet κ} {g : κ → ν} :
    (tabulate s g).get? k = some v ↔ k ∈ s ∧ v = g k := by
  rw [← mem_entries_iff, tabulate, List.mem_map]
  constructor
  · rintro ⟨_, hk, rfl, rfl⟩
    exact ⟨hk, rfl⟩
  · rintro ⟨hk, rfl⟩
    exact ⟨k, hk, rfl⟩

theorem get?_tabulate_of_mem {s : OrderedSet κ} {g : κ → ν} (hk : k ∈ s) :
    (tabulate s g).get? k = some (g k) := get?_tabulate.mpr ⟨hk, rfl⟩

theorem get?_tabulate_of_not_mem {s : OrderedSet κ} {g : κ → ν} (hk : k ∉ s) :
    (tabulate s g).get? k = none := by
  rw [Option.eq_none_iff_forall_ne_some]
  intro v hv
  exact hk (get?_tabulate.mp hv).1

theorem get?_map (g : ν → ω) (m : OrderedMap κ ν) (k : κ) :
    (m.map g).get? k = (m.get? k).map g := by
  simp only [get?, map, List.find?_map, Option.map_map, Function.comp_def]

/-! ### Insertion -/

/-- The place of an entry. -/
def insertEntry (k : κ) (v : ν) : List (κ × ν) → List (κ × ν)
  | [] => [(k, v)]
  | e :: l =>
    if k < e.1 then (k, v) :: e :: l
    else if e.1 < k then e :: insertEntry k v l
    else (k, v) :: l

theorem insertEntry_of_lt {k : κ} {v : ν} {l : List (κ × ν)} (h : ∀ e ∈ l, e.1 < k) :
    insertEntry k v l = l ++ [(k, v)] := by
  induction l with
  | nil => rfl
  | cons e l ih =>
    obtain ⟨he, hl⟩ := List.forall_mem_cons.mp h
    rw [insertEntry, if_neg he.not_gt, if_pos he, ih hl, List.cons_append]

/-- The keys are inserted as into a set. -/
theorem keys_insertEntry (k : κ) (v : ν) (l : List (κ × ν)) :
    (insertEntry k v l).map Prod.fst = OrderedSet.insertElem k (l.map Prod.fst) := by
  induction l with
  | nil => rfl
  | cons e l ih =>
    rw [insertEntry, List.map_cons, OrderedSet.insertElem]
    split_ifs with hlt hgt
    · rfl
    · rw [List.map_cons, ih]
    · rw [List.map_cons, le_antisymm (not_lt.mp hgt) (not_lt.mp hlt)]

/-- `insert` -/
def insert (m : OrderedMap κ ν) (k : κ) (v : ν) : OrderedMap κ ν where
  entries := insertEntry k v m.entries
  increasing := by
    rw [keys_insertEntry]
    exact OrderedSet.pairwise_insertElem k m.increasing

theorem find?_insertEntry (k k' : κ) (v : ν) (l : List (κ × ν)) :
    (insertEntry k v l).find? (·.1 = k') =
      if k = k' then some (k, v) else l.find? (·.1 = k') := by
  induction l with
  | nil => by_cases hkey : k = k' <;> simp [insertEntry, hkey]
  | cons e l ih =>
    rw [insertEntry]
    rcases lt_trichotomy k e.1 with hlt | heq | hgt
    · rw [if_pos hlt]
      by_cases hkey : k = k' <;> simp [hkey]
    · rw [if_neg heq.not_lt, if_neg heq.not_gt]
      by_cases hkey : k = k'
      · simp [hkey]
      · simp [hkey, ← heq]
    · rw [if_neg hgt.not_gt, if_pos hgt, List.find?_cons, List.find?_cons, ih]
      by_cases hkey : e.1 = k'
      · simp [← hkey, hgt.ne']
      · simp [hkey]

theorem get?_insert : (m.insert k v).get? k' = if k = k' then some v else m.get? k' := by
  rw [get?, insert, find?_insertEntry]
  split_ifs
  · rfl
  · rfl

/-- A key behind all others. -/
theorem entries_insert_of_lt (h : ∀ k' v', m.get? k' = some v' → k' < k) :
    (m.insert k v).entries = m.entries ++ [(k, v)] :=
  insertEntry_of_lt fun e he => h e.1 e.2 (mem_entries_iff.mp he)

theorem ext_get? {m m' : OrderedMap κ ν} (h : ∀ k, m.get? k = m'.get? k) : m = m' := by
  apply ext_entries
  have hm : m.entries.Pairwise fun e e' => e.1 < e'.1 := List.pairwise_map.mp m.increasing
  have hm' : m'.entries.Pairwise fun e e' => e.1 < e'.1 := List.pairwise_map.mp m'.increasing
  have : IsTrans (κ × ν) fun e e' => e.1 < e'.1 := ⟨fun _ _ _ => lt_trans⟩
  have : Std.Irrefl (α := κ × ν) fun e e' => e.1 < e'.1 := ⟨fun e => lt_irrefl e.1⟩
  refine hm.eq_of_mem_iff hm' fun e => ?_
  rw [mem_entries_iff (k := e.1), mem_entries_iff (k := e.1), h]

theorem insert_insert_self (w : ν) : (m.insert k v).insert k w = m.insert k w := by
  apply ext_get?
  intro k'
  rw [get?_insert, get?_insert, get?_insert]
  split_ifs
  · rfl
  · rfl

theorem insert_insert_comm (h : k ≠ k') (w : ν) :
    (m.insert k v).insert k' w = (m.insert k' w).insert k v := by
  apply ext_get?
  intro k''
  simp only [get?_insert]
  split_ifs with h1 h2
  · exact absurd (h2.trans h1.symm) h
  · rfl
  · rfl
  · rfl

/-- An entry is forgotten when its key comes again. -/
theorem foldl_insert_of_mem {l : List (κ × ν)} (h : k ∈ l.map Prod.fst) :
    l.foldl (fun m e => m.insert e.1 e.2) (m.insert k v) =
      l.foldl (fun m e => m.insert e.1 e.2) m := by
  induction l generalizing m with
  | nil => cases h
  | cons e l ih =>
    rw [List.foldl_cons, List.foldl_cons]
    by_cases hk : k = e.1
    · rw [hk, insert_insert_self]
    · rw [insert_insert_comm hk]
      exact ih ((List.mem_cons.mp h).resolve_left hk)

theorem insertEntry_map (g : κ → ν) (k : κ) (l : List κ) :
    insertEntry k (g k) (l.map fun k => (k, g k)) =
      (OrderedSet.insertElem k l).map fun k => (k, g k) := by
  induction l with
  | nil => rfl
  | cons k' l ih =>
    rw [List.map_cons, insertEntry, OrderedSet.insertElem]
    split_ifs with hlt hgt
    · rfl
    · rw [ih, List.map_cons]
    · rw [List.map_cons, le_antisymm (not_lt.mp hgt) (not_lt.mp hlt)]

/-- One more value of a function. -/
theorem insert_tabulate (s : OrderedSet κ) (g : κ → ν) (k : κ) :
    (tabulate s g).insert k (g k) = tabulate (s.insert k) g :=
  ext_entries (insertEntry_map g k s.elems)

theorem map_insert (g : ν → ω) (m : OrderedMap κ ν) (k : κ) (v : ν) :
    (m.insert k v).map g = (m.map g).insert k (g v) := by
  apply ext_entries
  change (insertEntry k v m.entries).map _ = insertEntry k (g v) (m.entries.map _)
  induction m.entries with
  | nil => rfl
  | cons e l ih =>
    rw [insertEntry, List.map_cons, insertEntry]
    split_ifs with hlt hgt
    · rfl
    · rw [List.map_cons, ih]
    · rfl

/-- `collect`: of several entries with one key the last one counts. -/
def ofList (l : List (κ × ν)) : OrderedMap κ ν := l.foldl (fun m e => m.insert e.1 e.2) empty

theorem get?_foldl_insert {l : List (κ × ν)} (hl : (l.map Prod.fst).Nodup) :
    (l.foldl (fun m e => m.insert e.1 e.2) m).get? k = some v ↔
      (k, v) ∈ l ∨ k ∉ l.map Prod.fst ∧ m.get? k = some v := by
  induction l generalizing m with
  | nil => simp
  | cons e l ih =>
    rw [List.map_cons, List.nodup_cons] at hl
    rw [List.foldl_cons, ih hl.2, get?_insert, List.mem_cons, List.map_cons, List.mem_cons]
    by_cases hk : e.1 = k
    · subst hk
      have hnot : (e.1, v) ∉ l := fun h => hl.1 (List.mem_map.mpr ⟨_, h, rfl⟩)
      simp [hl.1, hnot, Prod.ext_iff, eq_comm]
    · have hne : (k, v) ≠ e := fun h => hk (congrArg Prod.fst h).symm
      simp [hk, hne, Ne.symm hk]

theorem mem_or_of_get?_foldl_insert {l : List (κ × ν)}
    (h : (l.foldl (fun m e => m.insert e.1 e.2) m).get? k = some v) :
    (k, v) ∈ l ∨ m.get? k = some v := by
  induction l generalizing m with
  | nil => exact .inr h
  | cons e l ih =>
    rcases ih h with hmem | hget
    · exact .inl (List.mem_cons_of_mem _ hmem)
    · rw [get?_insert] at hget
      split_ifs at hget with hk
      · obtain rfl := Option.some.inj hget
        exact .inl (hk ▸ List.mem_cons_self)
      · exact .inr hget

theorem mem_of_get?_ofList {l : List (κ × ν)} (h : (ofList l).get? k = some v) : (k, v) ∈ l :=
  (mem_or_of_get?_foldl_insert h).resolve_right (by simp)

/-- Entries without a key twice. -/
theorem get?_ofList {l : List (κ × ν)} (hl : (l.map Prod.fst).Nodup) :
    (ofList l).get? k = some v ↔ (k, v) ∈ l := by
  rw [ofList, get?_foldl_insert hl]
  simp

theorem foldl_insert_tabulate (s : OrderedSet κ) (g : κ → ν) (l : List κ) :
    (l.map fun k => (k, g k)).foldl (fun m e => m.insert e.1 e.2) (tabulate s g) =
      tabulate (l.foldl (fun s k => s.insert k) s) g := by
  induction l generalizing s with
  | nil => rfl
  | cons k l ih => rw [List.map_cons, List.foldl_cons, insert_tabulate, ih, List.foldl_cons]

theorem ofList_tabulate (g : κ → ν) (l : List κ) :
    ofList (l.map fun k => (k, g k)) = tabulate (.ofList l) g :=
  foldl_insert_tabulate .empty g l

end OrderedMap

end PropMiner.Semantics
