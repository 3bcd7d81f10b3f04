import PropMiner.Merkle.Reference
import PropMiner.Semantics.Fallible
import PropMiner.Semantics.OrderedMap

/-!
# Proofs for several leaves

`get_multileaf_proof` and `MerkleProof` of `merkle.rs`. A proof opens some leaves of a tree at once.
The prover goes up layer by layer with the set of nodes that the leaves give, and sends the
neighbour of a node when that is not in the set itself. The verifier goes the same way with the
values of the nodes, and takes a sibling from the proof where the prover has put one.

## Main definitions

* `neededSibling`, `siblingsFrom`, `MerkleTree.getMultileafProof` — the prover
* `visit`, `climbLoop`, `climb`, `MerkleProof.computeRoot`, `MerkleProof.verify` — the verifier

## Main results

* `climbLoop_tabulate` — on what the prover sends, a layer of the verifier is one of the tree
* `climb_siblingsFrom` — and so the verifier gets to the root
* `verify_getMultileafProof` — every set of full leaves is opened by a proof that is accepted
* `verify_one_chunk` — but not the leaf of a tree that has only one
-/

set_option autoImplicit false

namespace PropMiner.Merkle

open PropMiner.Semantics PropMiner.Semantics.TreeFold

/-! ### The prover -/

/-- A leaf as a proof holds it: always 1024 bytes. -/
structure Leaf where
  bytes : List UInt8
  length_eq : bytes.length = chunkLen
  deriving DecidableEq

/-- A chunk with zeros behind it. -/
def Leaf.ofBytes (bytes : List UInt8) : Leaf where
  bytes := (bytes ++ List.replicate chunkLen 0).take chunkLen
  length_eq := by
    rw [List.length_take, List.length_append, List.length_replicate]
    omega

theorem Leaf.ofBytes_of_length {bytes : List UInt8} (h : bytes.length = chunkLen) :
    (Leaf.ofBytes bytes).bytes = bytes := List.take_left' h

/-- The neighbour of a node, when the proof has to say what it is. -/
def neededSibling (levelLen : ℕ) (currentSet : OrderedSet ℕ) (i : ℕ) : Option ℕ :=
  if i % 2 = 1 then if i - 1 ∈ currentSet then none else some (i - 1)
  else if i + 1 ∉ currentSet ∧ i + 1 < levelLen then some (i + 1)
  else none

/-- The nodes above some nodes. -/
def parents (currentSet : OrderedSet ℕ) : OrderedSet ℕ :=
  .ofList (currentSet.elems.map (· / 2))

/-- The walk through the layers. A layer that is not there ends it as `missing` says. -/
def siblingsFrom (missing : ℕ → Failure) :
    List (List Digest) → ℕ → ℕ → OrderedSet ℕ → Except Failure (List Digest)
  | [], level, levelLen, currentSet =>
    if 1 < levelLen ∧ currentSet.elems ≠ [] then .error (missing level) else .ok []
  | levelNodes :: layers, level, levelLen, currentSet =>
    if 1 < levelLen ∧ currentSet.elems ≠ [] then do
      let here ← (currentSet.elems.filterMap (neededSibling levelLen currentSet)).mapM
        (index levelNodes)
      let above ← siblingsFrom missing layers (level + 1) ((levelLen + 1) / 2) (parents currentSet)
      return here ++ above
    else .ok []

/-- `MerkleProof` -/
structure MerkleProof where
  leafData : List Leaf
  leafIndices : List ℕ
  totalLeaves : ℕ
  root : Digest
  siblings : List Digest
  deriving DecidableEq

/-- `get_multileaf_proof` -/
def MerkleTree.getMultileafProof (t : MerkleTree) (leafIndices : List ℕ) :
    Except Failure MerkleProof :=
  let unique := OrderedSet.ofList leafIndices
  if leafIndices.isEmpty then .error .panic
  else if t.numLeaves ≤ unique.elems.getLastD 0 then .error .panic
  else do
    let siblings ← siblingsFrom (fun _ => .panic) t.layers 0 t.numLeaves unique
    let root ← t.root
    return { leafData := unique.elems.map fun i => .ofBytes (chunk t.data i)
             leafIndices := unique.elems
             totalLeaves := t.numLeaves
             root := root
             siblings := siblings }

/-! ### The verifier -/

/-- What the loop over a layer does with one node. `none` is a missing sibling. Otherwise the
children of the node above, unless its other child has seen to them, and the siblings that are
left. -/
def visit (levelLen : ℕ) (current : OrderedMap ℕ Digest) (i : ℕ) (cv : Digest)
    (siblings : List Digest) : Option (Option (Digest × Option Digest) × List Digest) :=
  if i % 2 = 0 then
    match current.get? (i + 1) with
    | some right => some (some (cv, some right), siblings)
    | none =>
      if i + 1 < levelLen then
        match siblings with
        | [] => none
        | right :: siblings => some (some (cv, some right), siblings)
      else some (some (cv, none), siblings)
  else if current.containsKey (i - 1) then some (none, siblings)
  else
    match siblings with
    | [] => none
    | left :: siblings => some (some (left, some cv), siblings)

/-- The loop over a layer. The value of a node is made of its children by `join`. -/
def climbLoop {β : Type} (join : Digest × Option Digest → β) (levelLen : ℕ)
    (current : OrderedMap ℕ Digest) :
    List (ℕ × Digest) → List Digest → OrderedMap ℕ β → Option (OrderedMap ℕ β × List Digest)
  | [], siblings, next => some (next, siblings)
  | (i, cv) :: todo, siblings, next =>
    match visit levelLen current i cv siblings with
    | none => none
    | some (none, siblings) => climbLoop join levelLen current todo siblings next
    | some (some children, siblings) =>
      climbLoop join levelLen current todo siblings (next.insert (i / 2) (join children))

namespace Blake3Hasher

variable (H : Blake3Hasher)

/-- The value of a node: a lone child is kept. -/
def join : Digest × Option Digest → Digest
  | (left, some right) => H.parentCv left right
  | (left, none) => left

/-- A node under the root, from the map or from the proof. -/
def takeNode (current : OrderedMap ℕ Digest) (i : ℕ) (siblings : List Digest) :
    Option (Digest × List Digest) :=
  match current.get? i with
  | some v => some (v, siblings)
  | none => siblings.head?.map fun v => (v, siblings.tail)

/-- The two nodes under the root; no sibling may be left. -/
def finish (current : OrderedMap ℕ Digest) (siblings : List Digest) :
    Option (Digest × Digest) := do
  let (left, siblings) ← takeNode current 0 siblings
  let (right, siblings) ← takeNode current 1 siblings
  if siblings.isEmpty then some (left, right) else none

/-- The loop over the layers. -/
def climb (levelLen : ℕ) (current : OrderedMap ℕ Digest) (siblings : List Digest) :
    Option Digest :=
  if 2 < levelLen then
    match climbLoop H.join levelLen current current.entries siblings .empty with
    | none => none
    | some (next, siblings) => climb ((levelLen + 1) / 2) next siblings
  else (finish current siblings).map fun top => H.rootCv top.1 top.2
termination_by levelLen

end Blake3Hasher

namespace MerkleProof

variable (H : Blake3Hasher)

/-- `leaf_hashes` -/
def leafHashes (p : MerkleProof) : List Digest :=
  (p.leafIndices.zip p.leafData).map fun e => H.chunkCv e.2.bytes e.1

/-- `compute_root` -/
def computeRoot (p : MerkleProof) : Except Failure (Option Digest) :=
  let current := OrderedMap.ofList (p.leafIndices.zip (p.leafHashes H))
  if p.leafIndices.isEmpty then .ok none
  else if p.totalLeaves = 1 then
    if p.siblings.isEmpty then
      match current.get? 0 with
      | some cv => .ok (some cv)
      | none => .error .panic
    else .ok none
  else .ok (H.climb p.totalLeaves current p.siblings)

/-- `verify` -/
def verify (p : MerkleProof) : Except Failure Bool :=
  (p.computeRoot H).map fun root => root = some p.root

end MerkleProof

/-! ### Completeness -/

section Completeness

variable (H : Blake3Hasher) {layer : List Digest} {currentSet : OrderedSet ℕ}

/-- Node `i` of a layer. -/
def node (layer : List Digest) (i : ℕ) : Digest := layer.getD i default

/-- The left neighbour of a node has seen to it. -/
def Skipped (currentSet : OrderedSet ℕ) (i : ℕ) : Prop := i % 2 = 1 ∧ i - 1 ∈ currentSet

instance (currentSet : OrderedSet ℕ) (i : ℕ) : Decidable (Skipped currentSet i) :=
  inferInstanceAs (Decidable (_ ∧ _))

/-- The children of node `j` of the layer above. -/
def children (layer : List Digest) (j : ℕ) : Digest × Option Digest :=
  (node layer (2 * j), if 2 * j + 1 < layer.length then some (node layer (2 * j + 1)) else none)

theorem node_combineLayer {j : ℕ} (hj : 2 * j < layer.length) :
    node (H.combineLayer layer) j = H.join (children layer j) := by
  rw [node, children, Blake3Hasher.combineLayer, List.getD_eq_getElem?_getD, getElem?_pairUp,
    List.getElem?_eq_getElem hj]
  split_ifs with hright
  · rw [List.getElem?_eq_getElem hright, node, node, List.getD_eq_getElem _ _ hj,
      List.getD_eq_getElem _ _ hright]
    rfl
  · rw [List.getElem?_eq_none (Nat.not_lt.mp hright), node, List.getD_eq_getElem _ _ hj]
    rfl

/-- A node on what the prover sends for it. -/
theorem visit_tabulate (hset : ∀ i ∈ currentSet, i < layer.length) {i : ℕ} (hi : i ∈ currentSet)
    (rest : List Digest) :
    visit layer.length (.tabulate currentSet (node layer)) i (node layer i)
        ((neededSibling layer.length currentSet i).toList.map (node layer) ++ rest) =
      some (if Skipped currentSet i then none else some (children layer (i / 2)), rest) := by
  unfold visit neededSibling
  by_cases hpar : i % 2 = 0
  · have hodd : ¬ i % 2 = 1 := by omega
    have hskip : ¬ Skipped currentSet i := fun h => hodd h.1
    have hchild : 2 * (i / 2) = i := by omega
    rw [if_pos hpar, if_neg hodd, if_neg hskip, children, hchild]
    by_cases hright : i + 1 ∈ currentSet
    · have hlen := hset _ hright
      simp [OrderedMap.get?_tabulate_of_mem hright, hright, hlen]
    · by_cases hlen : i + 1 < layer.length
      · simp [OrderedMap.get?_tabulate_of_not_mem hright, hright, hlen]
      · simp [OrderedMap.get?_tabulate_of_not_mem hright, hlen]
  · have hodd : i % 2 = 1 := by omega
    have hchild : 2 * (i / 2) = i - 1 := by omega
    have hsucc : i - 1 + 1 = i := by omega
    rw [if_neg hpar, if_pos hodd, OrderedMap.containsKey]
    by_cases hleft : i - 1 ∈ currentSet
    · have hskip : Skipped currentSet i := ⟨hodd, hleft⟩
      simp [OrderedMap.get?_tabulate_of_mem hleft, hleft, hskip]
    · have hskip : ¬ Skipped currentSet i := fun h => hleft h.2
      simp [OrderedMap.get?_tabulate_of_not_mem hleft, hleft, hskip, children, hchild, hsucc,
        hset i hi]

/-- The loop over a layer on what the prover sends for it: the nodes above are those of the tree. -/
theorem climbLoop_tabulate (hset : ∀ i ∈ currentSet, i < layer.length) {todo : List ℕ}
    (htodo : ∀ i ∈ todo, i ∈ currentSet) (above : OrderedSet ℕ) (rest : List Digest) :
    climbLoop H.join layer.length (.tabulate currentSet (node layer))
        (todo.map fun i => (i, node layer i))
        ((todo.filterMap (neededSibling layer.length currentSet)).map (node layer) ++ rest)
        (.tabulate above (node (H.combineLayer layer))) =
      some (.tabulate ((todo.filter (¬ Skipped currentSet ·)).foldl
        (fun above i => above.insert (i / 2)) above) (node (H.combineLayer layer)), rest) := by
  induction todo generalizing above with
  | nil => rfl
  | cons i todo ih =>
    obtain ⟨hi, htodo⟩ := List.forall_mem_cons.mp htodo
    have hsiblings : ((i :: todo).filterMap (neededSibling layer.length currentSet)).map
          (node layer) ++ rest =
        (neededSibling layer.length currentSet i).toList.map (node layer) ++
          ((todo.filterMap (neededSibling layer.length currentSet)).map (node layer) ++ rest) := by
      rw [List.filterMap_cons]
      cases neededSibling layer.length currentSet i <;> simp
    rw [List.map_cons, climbLoop, hsiblings, visit_tabulate hset hi]
    by_cases hskip : Skipped currentSet i
    · rw [if_pos hskip, List.filter_cons_of_neg (by simpa using hskip)]
      exact ih htodo above
    · have hnode : node (H.combineLayer layer) (i / 2) = H.join (children layer (i / 2)) :=
        node_combineLayer H (by have := hset i hi; omega)
      rw [if_neg hskip, List.filter_cons_of_pos (by simpa using hskip), List.foldl_cons]
      simp only [← hnode, OrderedMap.insert_tabulate]
      exact ih htodo _

/-- The nodes that are not skipped have all nodes above. -/
theorem foldl_insert_filter (currentSet : OrderedSet ℕ) :
    (currentSet.elems.filter (¬ Skipped currentSet ·)).foldl
      (fun above i => above.insert (i / 2)) .empty = parents currentSet := by
  apply OrderedSet.ext_mem
  intro j
  rw [OrderedSet.mem_foldl_insert, parents, OrderedSet.mem_ofList, List.mem_map]
  constructor
  · rintro (⟨i, hi, rfl⟩ | hempty)
    · exact ⟨i, (List.mem_filter.mp hi).1, rfl⟩
    · exact absurd hempty (OrderedSet.not_mem_empty j)
  · rintro ⟨i, hi, rfl⟩
    left
    by_cases hskip : Skipped currentSet i
    · -- the left neighbour, which is even, is there and not skipped
      refine ⟨i - 1, List.mem_filter.mpr ⟨hskip.2, ?_⟩, ?_⟩
      · have hodd := hskip.1
        simp only [Skipped, not_and, decide_eq_true_eq]
        omega
      · have hodd := hskip.1
        omega
    · exact ⟨i, List.mem_filter.mpr ⟨hi, by simpa using hskip⟩, rfl⟩

theorem mem_parents {j : ℕ} : j ∈ parents currentSet ↔ ∃ i ∈ currentSet, i / 2 = j := by
  rw [parents, OrderedSet.mem_ofList, List.mem_map]
  rfl

theorem neededSibling_lt (hset : ∀ i ∈ currentSet, i < layer.length) {i j : ℕ}
    (hi : i ∈ currentSet) (hj : neededSibling layer.length currentSet i = some j) :
    j < layer.length := by
  have hlt := hset i hi
  unfold neededSibling at hj
  split_ifs at hj with hodd hleft hright
  · cases hj
    omega
  · cases hj
    exact hright.2

/-- The siblings that the nodes of a set need. -/
def needed (layer : List Digest) (currentSet : OrderedSet ℕ) : List Digest :=
  (currentSet.elems.filterMap (neededSibling layer.length currentSet)).map (node layer)

/-- One layer of the prover. -/
theorem siblingsFrom_cons (missing : ℕ → Failure) (layers : List (List Digest)) (level : ℕ)
    (hlayer : 2 ≤ layer.length) (hne : currentSet.elems ≠ [])
    (hset : ∀ i ∈ currentSet, i < layer.length) :
    siblingsFrom missing (layer :: layers) level layer.length currentSet =
      (siblingsFrom missing layers (level + 1) ((layer.length + 1) / 2) (parents currentSet)).map
        (needed layer currentSet ++ ·) := by
  have hindex : (currentSet.elems.filterMap (neededSibling layer.length currentSet)).mapM
      (index layer) = .ok (needed layer currentSet) := by
    apply mapM_eq_ok
    intro j hj
    obtain ⟨i, hi, hneeded⟩ := List.mem_filterMap.mp hj
    exact index_of_lt (neededSibling_lt hset hi hneeded)
  rw [siblingsFrom, if_pos ⟨by omega, hne⟩, hindex, ok_bind]
  generalize siblingsFrom missing layers (level + 1) ((layer.length + 1) / 2)
    (parents currentSet) = above
  cases above <;> rfl

theorem siblingsFrom_one (missing : ℕ → Failure) (layers : List (List Digest)) (level : ℕ)
    (currentSet : OrderedSet ℕ) : siblingsFrom missing layers level 1 currentSet = .ok [] := by
  cases layers with
  | nil => rw [siblingsFrom, if_neg (fun h => absurd h.1 (by omega))]
  | cons layer layers => rw [siblingsFrom, if_neg (fun h => absurd h.1 (by omega))]

theorem Blake3Hasher.climb_of_two_lt {levelLen : ℕ} (h : 2 < levelLen)
    (current : OrderedMap ℕ Digest) (siblings : List Digest) :
    H.climb levelLen current siblings =
      (climbLoop H.join levelLen current current.entries siblings .empty).bind fun r =>
        H.climb ((levelLen + 1) / 2) r.1 r.2 := by
  rw [climb, if_pos h]
  cases climbLoop H.join levelLen current current.entries siblings .empty <;> rfl

theorem Blake3Hasher.climb_two (current : OrderedMap ℕ Digest) (siblings : List Digest) :
    H.climb 2 current siblings =
      (finish current siblings).map fun top => H.rootCv top.1 top.2 := by
  rw [climb, if_neg (by omega)]

/-- The sets of nodes under the root. -/
theorem eq_of_lt_two {elems : List ℕ} (hne : elems ≠ []) (hset : ∀ i ∈ elems, i < 2)
    (hincr : elems.Pairwise (· < ·)) : elems = [0] ∨ elems = [1] ∨ elems = [0, 1] := by
  match elems with
  | [] => exact absurd rfl hne
  | [a] =>
    have ha := hset a (by simp)
    have : a = 0 ∨ a = 1 := by omega
    simpa using this
  | [a, b] =>
    have hb := hset b (by simp)
    have hab : a < b := by simpa using hincr
    obtain rfl : a = 0 := by omega
    obtain rfl : b = 1 := by omega
    simp
  | a :: b :: c :: _ =>
    have hc := hset c (by simp)
    have hab : a < b := List.rel_of_pairwise_cons hincr (by simp)
    have hbc : b < c := List.rel_of_pairwise_cons (List.Pairwise.of_cons hincr) (by simp)
    omega

theorem parents_ne_nil (hne : currentSet.elems ≠ []) : (parents currentSet).elems ≠ [] := by
  obtain ⟨i, hi⟩ := List.exists_mem_of_ne_nil _ hne
  exact List.ne_nil_of_mem (mem_parents.mpr ⟨i, hi, rfl⟩ : i / 2 ∈ parents currentSet)

/-- The verifier gets to the root on what the prover sends. -/
theorem climb_siblingsFrom (hlayer : 2 ≤ layer.length) (hne : currentSet.elems ≠ [])
    (hset : ∀ i ∈ currentSet, i < layer.length) :
    ∃ siblings, (∀ missing level,
      siblingsFrom missing (H.layersFrom layer) level layer.length currentSet = .ok siblings) ∧
      H.climb layer.length (.tabulate currentSet (node layer)) siblings =
        some (H.treeRoot layer) := by
  induction layer, hlayer using H.layer_induction generalizing currentSet with
  | pair left right =>
    refine ⟨needed [left, right] currentSet, fun missing level => ?_, ?_⟩
    · have hone : ([left, right].length + 1) / 2 = 1 := by simp
      rw [H.layersFrom_pair, siblingsFrom_cons missing _ level (by simp) hne hset, hone,
        siblingsFrom_one]
      exact congrArg Except.ok (List.append_nil _)
    · obtain ⟨elems, hincr⟩ := currentSet
      rw [H.treeRoot_pair]
      rcases eq_of_lt_two hne hset hincr with rfl | rfl | rfl
      · exact H.climb_two _ _
      · exact H.climb_two _ _
      · exact H.climb_two _ _
  | above layer hlt ih =>
    have habove : ∀ j ∈ parents currentSet, j < (H.combineLayer layer).length := by
      intro j hj
      obtain ⟨i, hi, rfl⟩ := mem_parents.mp hj
      have := hset i hi
      rw [H.length_combineLayer]
      omega
    obtain ⟨above, hsiblings, hclimb⟩ := ih (parents_ne_nil hne) habove
    rw [H.length_combineLayer] at hsiblings hclimb
    refine ⟨needed layer currentSet ++ above, fun missing level => ?_, ?_⟩
    · rw [H.layersFrom_of_two_lt hlt, siblingsFrom_cons missing _ level (by omega) hne hset,
        hsiblings]
      rfl
    · have hloop := climbLoop_tabulate H hset (fun i hi => hi) .empty above
      rw [foldl_insert_filter] at hloop
      rw [H.climb_of_two_lt hlt]
      exact (congrArg (Option.bind · _) hloop).trans
        (hclimb.trans (congrArg some (H.treeRoot_combineLayer hlt)))

theorem node_hashChunks {data : List UInt8} {i : ℕ} (hi : i < numChunks data.length) :
    node (H.hashChunks data) i = H.chunkCv (chunk data i) i := by
  rw [node, List.getD_eq_getElem _ _ (by rwa [MerkleTree.length_hashChunks])]
  simp [H.hashChunks_eq]

/-- A full chunk is one of the chunks. -/
theorem lt_numChunks_of_full {i n : ℕ} (h : (i + 1) * chunkLen ≤ n) : i < numChunks n := by
  have hpos : 0 < chunkLen := by decide
  rw [Nat.succ_mul] at h
  rw [lt_numChunks_iff]
  omega

theorem ofList_elems (s : OrderedSet ℕ) : OrderedSet.ofList s.elems = s :=
  OrderedSet.ext_mem fun _ => OrderedSet.mem_ofList

variable {data : List UInt8} {leafIndices : List ℕ}

/-- A full chunk is a leaf. -/
theorem ofBytes_chunk {i : ℕ} (h : (i + 1) * chunkLen ≤ data.length) :
    (Leaf.ofBytes (chunk data i)).bytes = chunk data i := by
  refine Leaf.ofBytes_of_length ?_
  rw [Nat.succ_mul] at h
  rw [length_chunk]
  omega

theorem getLastD_lt (hne : leafIndices ≠ []) {n : ℕ} (hlt : ∀ i ∈ leafIndices, i < n) :
    (OrderedSet.ofList leafIndices).elems.getLastD 0 < n := by
  obtain ⟨i, hi⟩ := List.exists_mem_of_ne_nil _ hne
  have hmem : i ∈ (OrderedSet.ofList leafIndices).elems := OrderedSet.mem_ofList.mpr hi
  rw [List.getLastD_eq_getLast?, List.getLast?_eq_some_getLast (List.ne_nil_of_mem hmem)]
  exact hlt _ (OrderedSet.mem_ofList.mp (List.getLast_mem _))

/-- The proof of a tree whose siblings are known. -/
theorem getMultileafProof_eq {t : MerkleTree} {root : Digest} {siblings : List Digest}
    (hne : leafIndices ≠ []) (hlt : ∀ i ∈ leafIndices, i < t.numLeaves) (hroot : t.root = .ok root)
    (hsiblings : ∀ missing, siblingsFrom missing t.layers 0 t.numLeaves (.ofList leafIndices) =
      .ok siblings) :
    t.getMultileafProof leafIndices =
      .ok ⟨(OrderedSet.ofList leafIndices).elems.map fun i => .ofBytes (chunk t.data i),
        (OrderedSet.ofList leafIndices).elems, t.numLeaves, root, siblings⟩ := by
  rw [MerkleTree.getMultileafProof, if_neg (by simpa using hne),
    if_neg (Nat.not_le.mpr (getLastD_lt hne hlt)), hsiblings, hroot]
  rfl

theorem computeRoot_eq_climb {p : MerkleProof} (hne : p.leafIndices ≠ [])
    (hone : p.totalLeaves ≠ 1) :
    p.computeRoot H = .ok (H.climb p.totalLeaves
      (.ofList (p.leafIndices.zip (p.leafHashes H))) p.siblings) := by
  rw [MerkleProof.computeRoot, if_neg (by simpa using hne), if_neg hone]

/-- The verifier starts with the leaf hashes of the tree. -/
theorem computeRoot_of_leafData {p : MerkleProof} {s : OrderedSet ℕ} (hne : s.elems ≠ [])
    (hs : ∀ i ∈ s, (i + 1) * chunkLen ≤ data.length) (hindices : p.leafIndices = s.elems)
    (hleaves : p.leafData.map Leaf.bytes = s.elems.map (chunk data)) (hone : p.totalLeaves ≠ 1) :
    p.computeRoot H =
      .ok (H.climb p.totalLeaves (.tabulate s (node (H.hashChunks data))) p.siblings) := by
  have hhashes : p.leafHashes H = s.elems.map (node (H.hashChunks data)) := by
    have hzip : (p.leafIndices.zip p.leafData).map (fun e => H.chunkCv e.2.bytes e.1) =
        (s.elems.zip (p.leafData.map Leaf.bytes)).map fun e => H.chunkCv e.2 e.1 := by
      rw [hindices, List.zip_map_right, List.map_map]
      rfl
    rw [MerkleProof.leafHashes, hzip, hleaves, ← List.map_prod_left_eq_zip, List.map_map]
    apply List.map_congr_left
    intro i hi
    exact (node_hashChunks H (lt_numChunks_of_full (hs i hi))).symm
  have hcurrent : OrderedMap.ofList (p.leafIndices.zip (p.leafHashes H)) =
      .tabulate s (node (H.hashChunks data)) := by
    rw [hhashes, hindices, ← List.map_prod_left_eq_zip, OrderedMap.ofList_tabulate, ofList_elems]
  rw [computeRoot_eq_climb H (by rwa [hindices]) hone, hcurrent]

/-- Any set of leaves that are full chunks is opened by a proof which is accepted. -/
theorem verify_getMultileafProof (data : List UInt8) (leafIndices : List ℕ)
    (hlen : chunkLen < data.length) (hne : leafIndices ≠ [])
    (hfull : ∀ i ∈ leafIndices, (i + 1) * chunkLen ≤ data.length) :
    ∃ p, (MerkleTree.new H data).getMultileafProof leafIndices = .ok p ∧
      (MerkleTree.new H data).root = .ok p.root ∧
      p.totalLeaves = numChunks data.length ∧
      p.leafIndices.Pairwise (· < ·) ∧ (∀ i, i ∈ p.leafIndices ↔ i ∈ leafIndices) ∧
      p.leafData.map Leaf.bytes = p.leafIndices.map (chunk data) ∧
      p.verify H = .ok true := by
  have hs : ∀ i ∈ OrderedSet.ofList leafIndices, (i + 1) * chunkLen ≤ data.length := fun i hi =>
    hfull i (OrderedSet.mem_ofList.mp hi)
  have hset : ∀ i ∈ OrderedSet.ofList leafIndices, i < (H.hashChunks data).length := by
    intro i hi
    rw [MerkleTree.length_hashChunks]
    exact lt_numChunks_of_full (hs i hi)
  have hnonempty : (OrderedSet.ofList leafIndices).elems ≠ [] := by
    obtain ⟨i, hi⟩ := List.exists_mem_of_ne_nil _ hne
    exact List.ne_nil_of_mem (OrderedSet.mem_ofList.mpr hi : i ∈ OrderedSet.ofList leafIndices)
  have hchunks := MerkleTree.two_le_numChunks hlen
  obtain ⟨siblings, hsiblings, hclimb⟩ := climb_siblingsFrom H
    (by rwa [MerkleTree.length_hashChunks]) hnonempty hset
  rw [MerkleTree.length_hashChunks] at hsiblings hclimb
  have hroot := MerkleTree.root_new H hlen
  have hleaves : ((OrderedSet.ofList leafIndices).elems.map fun i =>
      Leaf.ofBytes (chunk data i)).map Leaf.bytes =
        (OrderedSet.ofList leafIndices).elems.map (chunk data) := by
    rw [List.map_map]
    exact List.map_congr_left fun i hi => ofBytes_chunk (hs i hi)
  refine ⟨⟨(OrderedSet.ofList leafIndices).elems.map fun i => .ofBytes (chunk data i),
    (OrderedSet.ofList leafIndices).elems, numChunks data.length,
    H.treeRoot (H.hashChunks data), siblings⟩, ?_, hroot, rfl, OrderedSet.increasing _,
    fun i => OrderedSet.mem_ofList, hleaves, ?_⟩
  · have hleaves := MerkleTree.numLeaves_new H hlen
    rw [← hleaves] at hsiblings ⊢
    rw [MerkleTree.new_of_chunkLen_lt H hlen] at *
    exact getMultileafProof_eq hne (fun i hi => hleaves ▸ lt_numChunks_of_full (hfull i hi)) hroot
      fun missing => hsiblings missing 0
  · rw [MerkleProof.verify, computeRoot_of_leafData H hnonempty hs rfl hleaves
      (by show numChunks data.length ≠ 1; omega)]
    simp only [hclimb]
    simp [Except.map]

theorem verify_getMultileafProof_zeros :
    ∃ p, (MerkleTree.new (.keyed (.fill 0)) (List.replicate 3000 0)).getMultileafProof [1, 0] =
        .ok p ∧
      p.verify (.keyed (.fill 0)) = .ok true := by
  have hlength : (List.replicate 3000 (0 : UInt8)).length = 3000 := List.length_replicate
  obtain ⟨p, hp, -, -, -, -, -, haccept⟩ := verify_getMultileafProof (.keyed (.fill 0))
    (List.replicate 3000 0) [1, 0] (by rw [hlength]; decide) (by decide)
    (by rw [hlength]; decide)
  exact ⟨p, hp, haccept⟩

theorem chunk_zero (hlen : data.length = chunkLen) : chunk data 0 = data := by
  rw [chunk, Nat.zero_mul, List.drop_zero, List.take_of_length_le hlen.le]

theorem new_one (hlen : data.length = chunkLen) :
    MerkleTree.new H data = ⟨[[H.hash data]], data⟩ := by
  have hne : ¬ data.isEmpty := by
    rw [List.isEmpty_iff_length_eq_zero, hlen]
    decide
  rw [MerkleTree.new, if_neg hne, if_pos hlen.le]

/-- The root over one chunk is hashed with the flag of a root, and the verifier compares it with a
chaining value, which is hashed without. -/
theorem verify_one_chunk (data : List UInt8) (hlen : data.length = chunkLen) :
    ∃ p, (MerkleTree.new H data).getMultileafProof [0] = .ok p ∧
      (p.verify H = .ok true ↔ H.chunkCv data 0 = H.hash data) := by
  have hleaf : (Leaf.ofBytes (chunk data 0)).bytes = data := by
    rw [chunk_zero hlen, Leaf.ofBytes_of_length hlen]
  rw [new_one H hlen]
  refine ⟨_, getMultileafProof_eq (List.cons_ne_nil _ _)
    (List.forall_mem_singleton.mpr Nat.zero_lt_one) rfl
    fun missing => siblingsFrom_one missing _ _ _, ?_⟩
  change (Except.ok (decide (some (H.chunkCv (Leaf.ofBytes (chunk data 0)).bytes 0) =
    some (H.hash data))) : Except Failure Bool) = .ok true ↔ _
  simp [hleaf]

theorem verify_one_chunk_zeros :
    let H := Blake3Hasher.keyed (.fill 0)
    let zeros := List.replicate 1024 0
    ∃ p, (MerkleTree.new H zeros).getMultileafProof [0] = .ok p ∧
      (p.verify H = .ok true ↔ H.chunkCv zeros 0 = H.hash zeros) :=
  verify_one_chunk _ _ List.length_replicate

end Completeness

end PropMiner.Merkle
