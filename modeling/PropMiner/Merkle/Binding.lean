import PropMiner.Merkle.Proof

/-!
# What an accepted proof says

A proof whose root is that of a tree and which the verifier accepts opens the leaves of the tree, or
it holds a collision: something that the verifier has hashed, and something else that the tree has
hashed, with the same result. Both are among finitely many values that can be read off the proof and
the tree, so this says more than that there are collisions somewhere.

The verifier does not ask for leaves in order, and it does not compare their indices with the number
of leaves. Of several leaves with one index only the last is looked at. A leaf whose index lies
outside the tree, and is a multiple of a large enough power of two, is carried up and then
forgotten. Such a leaf may hold anything.

## Main definitions

* `Input`, `Blake3Hasher.eval` — what is hashed
* `MerkleTree.hashed`, `MerkleProof.hashed` — all that a tree, or the verifier of a proof, hashes
* `Collision` — two different inputs of two lists with one result
* `MerkleProof.sanityCheck` — the check that `verify` leaves to others

## Main results

* `climb_binding` — a walk to the root of a tree goes through its nodes
* `verify_binding` — an accepted proof opens leaves of the tree, or holds a collision
* `computeRoot_duplicate` — a leaf with an index that comes again is not looked at
* `verify_outside` — neither is one far outside of the tree
-/

set_option autoImplicit false

namespace PropMiner.Merkle

open PropMiner.Semantics PropMiner.Semantics.TreeFold

/-! ### What is hashed -/

/-- An input of the hash function: a chunk, two nodes, or the two nodes under the root. -/
inductive Input
  | chunk (bytes : List UInt8) (idx : ℕ)
  | parent (left right : Digest)
  | root (left right : Digest)
  deriving DecidableEq

/-- Two different inputs with one result. -/
def Collision (eval : Input → Digest) (xs ys : List Input) : Prop :=
  ∃ x ∈ xs, ∃ y ∈ ys, x ≠ y ∧ eval x = eval y

instance (eval : Input → Digest) (xs ys : List Input) : Decidable (Collision eval xs ys) :=
  inferInstanceAs (Decidable (∃ x ∈ xs, ∃ y ∈ ys, x ≠ y ∧ eval x = eval y))

theorem Collision.mono {eval : Input → Digest} {xs xs' ys ys' : List Input} (hxs : xs ⊆ xs')
    (hys : ys ⊆ ys') (h : Collision eval xs ys) : Collision eval xs' ys' := by
  obtain ⟨x, hx, y, hy, hne, heq⟩ := h
  exact ⟨x, hxs hx, y, hys hy, hne, heq⟩

/-- The pairs of neighbours. -/
def pairsOf : List Digest → List Input
  | left :: right :: layer => .parent left right :: pairsOf layer
  | _ => []

/-- The two nodes under the root. -/
def hashedTop : List Digest → List Input
  | [left, right] => [.root left right]
  | _ => []

/-- The pairs that the loop over a layer joins. -/
def joined (nodes : OrderedMap ℕ (Digest × Option Digest)) : List Input :=
  nodes.entries.filterMap fun e => e.2.2.map (Input.parent e.2.1)

namespace Blake3Hasher

variable (H : Blake3Hasher)

def eval : Input → Digest
  | .chunk bytes idx => H.chunkCv bytes idx
  | .parent left right => H.parentCv left right
  | .root left right => H.rootCv left right

/-- What is hashed above a layer of a tree. -/
def hashedFrom (layer : List Digest) : List Input :=
  if 2 < layer.length then pairsOf layer ++ hashedFrom (H.combineLayer layer) else hashedTop layer
termination_by layer.length
decreasing_by
  rw [H.length_combineLayer]
  omega

/-- What the verifier hashes above a layer. -/
def hashedClimb (levelLen : ℕ) (current : OrderedMap ℕ Digest) (siblings : List Digest) :
    List Input :=
  if 2 < levelLen then
    match climbLoop id levelLen current current.entries siblings .empty with
    | none => []
    | some (nodes, siblings) =>
      joined nodes ++ hashedClimb ((levelLen + 1) / 2) (nodes.map H.join) siblings
  else
    match finish current siblings with
    | none => []
    | some (left, right) => [.root left right]
termination_by levelLen

end Blake3Hasher

/-- What is hashed for a tree of more than one chunk. -/
def MerkleTree.hashed (H : Blake3Hasher) (data : List UInt8) : List Input :=
  (List.range (numChunks data.length)).map (fun i => Input.chunk (chunk data i) i) ++
    H.hashedFrom (H.hashChunks data)

namespace MerkleProof

/-- What the verifier hashes. -/
def hashed (H : Blake3Hasher) (p : MerkleProof) : List Input :=
  (p.leafIndices.zip p.leafData).map (fun e => Input.chunk e.2.bytes e.1) ++
    H.hashedClimb p.totalLeaves (.ofList (p.leafIndices.zip (p.leafHashes H))) p.siblings

/-- `sanity_check` -/
def sanityCheck (p : MerkleProof) : Except Failure Unit :=
  if p.leafIndices.isEmpty then .error (.err "leaf_indices must be non-empty")
  else if p.leafIndices.length ≠ p.leafData.length then
    .error (.err "leaf_indices and leaf_data must have the same length")
  else if ¬ (p.leafIndices.zip p.leafIndices.tail).all (fun w => w.1 < w.2) then
    .error (.err "leaf_indices must be sorted and unique")
  else .ok ()

end MerkleProof

/-! ### One layer of the verifier -/

section Layer

variable {β γ : Type} {levelLen : ℕ} {current : OrderedMap ℕ Digest} {i : ℕ} {cv : Digest}
  {siblings siblings' : List Digest}

/-- The children that a node is joined from, when the loop gets to the node. -/
inductive Children (levelLen : ℕ) (current : OrderedMap ℕ Digest) (i : ℕ) (cv : Digest) :
    Digest × Option Digest → Prop
  | left (right : Digest) (heven : i % 2 = 0)
      (hright : current.get? (i + 1) = some right ∨
        current.get? (i + 1) = none ∧ i + 1 < levelLen) :
      Children levelLen current i cv (cv, some right)
  | lone (heven : i % 2 = 0) (hlen : levelLen ≤ i + 1) (hright : current.get? (i + 1) = none) :
      Children levelLen current i cv (cv, none)
  | right (left : Digest) (hodd : i % 2 = 1) (hleft : current.get? (i - 1) = none) :
      Children levelLen current i cv (left, some cv)

/-- The left neighbour of a node is in the map, and has seen to the node. -/
def SkippedKey (current : OrderedMap ℕ Digest) (i : ℕ) : Prop :=
  i % 2 = 1 ∧ current.containsKey (i - 1)

theorem visit_eq_some {o : Option (Digest × Option Digest)}
    (h : visit levelLen current i cv siblings = some (o, siblings')) :
    (o = none ∧ SkippedKey current i) ∨ ∃ c, o = some c ∧ Children levelLen current i cv c := by
  unfold visit at h
  by_cases heven : i % 2 = 0
  · rw [if_pos heven] at h
    cases hget : current.get? (i + 1) with
    | some right =>
      rw [hget] at h
      cases h
      exact .inr ⟨_, rfl, .left right heven (.inl hget)⟩
    | none =>
      rw [hget] at h
      by_cases hlen : i + 1 < levelLen
      · rw [if_pos hlen] at h
        cases siblings with
        | nil => cases h
        | cons right siblings =>
          cases h
          exact .inr ⟨_, rfl, .left right heven (.inr ⟨hget, hlen⟩)⟩
      · rw [if_neg hlen] at h
        cases h
        exact .inr ⟨_, rfl, .lone heven (Nat.not_lt.mp hlen) hget⟩
  · rw [if_neg heven] at h
    by_cases hkey : current.containsKey (i - 1)
    · rw [if_pos hkey] at h
      cases h
      exact .inl ⟨rfl, by omega, hkey⟩
    · rw [if_neg hkey] at h
      cases siblings with
      | nil => cases h
      | cons left siblings =>
        cases h
        refine .inr ⟨_, rfl, .right left (by omega) ?_⟩
        simpa [OrderedMap.containsKey] using hkey

theorem Children.not_skippedKey {c : Digest × Option Digest}
    (h : Children levelLen current i cv c) : ¬ SkippedKey current i := by
  rintro ⟨hodd, hkey⟩
  cases h with
  | left right heven _ => omega
  | lone heven _ _ => omega
  | right left _ hleft =>
    rw [OrderedMap.containsKey, hleft] at hkey
    cases hkey

/-- What the loop has written: nothing where no node is, and the children of each node that is not
skipped. -/
theorem climbLoop_eq_some {join : Digest × Option Digest → β} {todo : List (ℕ × Digest)}
    {next next' : OrderedMap ℕ β} (hsorted : (todo.map Prod.fst).Pairwise (· < ·))
    (htodo : ∀ e ∈ todo, current.get? e.1 = some e.2)
    (h : climbLoop join levelLen current todo siblings next = some (next', siblings')) :
    (∀ j, (∀ e ∈ todo, e.1 / 2 = j → SkippedKey current e.1) → next'.get? j = next.get? j) ∧
      ∀ e ∈ todo, ¬ SkippedKey current e.1 →
        ∃ c, Children levelLen current e.1 e.2 c ∧ next'.get? (e.1 / 2) = some (join c) := by
  induction todo generalizing siblings next with
  | nil =>
    cases h
    exact ⟨fun _ _ => rfl, fun e he => absurd he List.not_mem_nil⟩
  | cons e todo ih =>
    obtain ⟨i, cv⟩ := e
    obtain ⟨hhead, htodo⟩ := List.forall_mem_cons.mp htodo
    rw [List.map_cons, List.pairwise_cons] at hsorted
    obtain ⟨hfirst, hsorted⟩ := hsorted
    rw [climbLoop] at h
    cases hvisit : visit levelLen current i cv siblings with
    | none =>
      rw [hvisit] at h
      cases h
    | some r =>
      obtain ⟨o, rest⟩ := r
      rw [hvisit] at h
      rcases visit_eq_some hvisit with ⟨rfl, hskip⟩ | ⟨c, rfl, hc⟩
      · obtain ⟨hkeep, hwrite⟩ := ih hsorted htodo h
        refine ⟨fun j hj => hkeep j fun e he => hj e (List.mem_cons_of_mem _ he),
          fun e he hnot => ?_⟩
        rcases List.mem_cons.mp he with rfl | he
        · exact absurd hskip hnot
        · exact hwrite e he hnot
      · obtain ⟨hkeep, hwrite⟩ := ih hsorted htodo h
        constructor
        · intro j hj
          have hne : i / 2 ≠ j := fun heq =>
            hc.not_skippedKey (hj (i, cv) List.mem_cons_self heq)
          rw [hkeep j fun e he => hj e (List.mem_cons_of_mem _ he), OrderedMap.get?_insert,
            if_neg hne]
        · intro e he hnot
          rcases List.mem_cons.mp he with rfl | he
          · refine ⟨c, hc, ?_⟩
            -- only the right neighbour has the same node above it, and that one is skipped
            rw [hkeep (i / 2), OrderedMap.get?_insert, if_pos rfl]
            intro e he heq
            have hlt : i < e.1 := hfirst e.1 (List.mem_map_of_mem he)
            have hsucc : e.1 - 1 = i := by omega
            refine ⟨by omega, ?_⟩
            rw [hsucc, OrderedMap.containsKey, hhead]
            rfl
          · exact hwrite e he hnot

/-- A function of the children comes out behind the loop. -/
theorem climbLoop_map (g : β → γ) (join : Digest × Option Digest → β) (todo : List (ℕ × Digest))
    (siblings : List Digest) (next : OrderedMap ℕ β) :
    climbLoop (g ∘ join) levelLen current todo siblings (next.map g) =
      (climbLoop join levelLen current todo siblings next).map fun r => (r.1.map g, r.2) := by
  induction todo generalizing siblings next with
  | nil => rfl
  | cons e todo ih =>
    rw [climbLoop, climbLoop]
    rcases visit levelLen current e.1 e.2 siblings with - | ⟨- | c, siblings⟩
    · rfl
    · exact ih siblings next
    · have hstep := ih siblings (next.insert (e.1 / 2) (join c))
      rw [OrderedMap.map_insert] at hstep
      exact hstep

/-- The children of the nodes above, for every node of the map. -/
theorem climbLoop_children {nodes : OrderedMap ℕ (Digest × Option Digest)}
    (h : climbLoop id levelLen current current.entries siblings .empty = some (nodes, siblings'))
    (hi : current.get? i = some cv) :
    (i % 2 = 0 ∧ levelLen ≤ i + 1 ∧ nodes.get? (i / 2) = some (cv, none)) ∨
      (i % 2 = 0 ∧ (i + 1 < levelLen ∨ ∃ v, current.get? (i + 1) = some v) ∧
        ∃ right, nodes.get? (i / 2) = some (cv, some right)) ∨
      (i % 2 = 1 ∧ ∃ left, nodes.get? (i / 2) = some (left, some cv)) := by
  obtain ⟨-, hwrite⟩ := climbLoop_eq_some current.increasing OrderedMap.get?_of_mem h
  by_cases hskip : SkippedKey current i
  · -- the left neighbour has taken the node for its right child
    obtain ⟨hodd, hkey⟩ := hskip
    obtain ⟨left, hleft⟩ := Option.isSome_iff_exists.mp hkey
    have hnot : ¬ SkippedKey current (i - 1) := fun hs => by
      have := hs.1
      omega
    obtain ⟨c, hc, hget⟩ := hwrite (i - 1, left) (OrderedMap.mem_entries_iff.mpr hleft) hnot
    have hsucc : i - 1 + 1 = i := by omega
    have hhalf : (i - 1) / 2 = i / 2 := by omega
    refine .inr (.inr ⟨hodd, left, ?_⟩)
    rw [← hhalf]
    cases hc with
    | left right _ hright =>
      dsimp only at hright
      rw [hsucc, hi] at hright
      rcases hright with hright | ⟨hright, -⟩
      · rw [hget, Option.some.inj hright]
        rfl
      · cases hright
    | lone _ _ hright =>
      dsimp only at hright
      rw [hsucc, hi] at hright
      cases hright
    | right _ hodd' _ => dsimp only at hodd'; omega
  · obtain ⟨c, hc, hget⟩ := hwrite (i, cv) (OrderedMap.mem_entries_iff.mpr hi) hskip
    cases hc with
    | left right heven hright =>
      exact .inr (.inl ⟨heven, hright.symm.imp And.right fun h => ⟨right, h⟩, right, hget⟩)
    | lone heven hlen _ => exact .inl ⟨heven, hlen, hget⟩
    | right left hodd _ => exact .inr (.inr ⟨hodd, left, hget⟩)

/-- There is a node above only where there is one below. -/
theorem exists_of_climbLoop {join : Digest × Option Digest → β} {nodes : OrderedMap ℕ β} {j : ℕ}
    {c : β}
    (h : climbLoop join levelLen current current.entries siblings .empty = some (nodes, siblings'))
    (hj : nodes.get? j = some c) : ∃ i v, current.get? i = some v ∧ i / 2 = j := by
  obtain ⟨hkeep, -⟩ := climbLoop_eq_some current.increasing OrderedMap.get?_of_mem h
  by_contra hnone
  have hempty := hkeep j fun e he heq =>
    absurd ⟨e.1, e.2, OrderedMap.get?_of_mem e he, heq⟩ hnone
  rw [hj] at hempty
  cases hempty

end Layer

/-! ### The walk to the root -/

section Binding

variable (H : Blake3Hasher) {layer : List Digest} {current : OrderedMap ℕ Digest}
  {siblings : List Digest}

theorem mem_pairsOf {j : ℕ} (hj : 2 * j + 1 < layer.length) :
    Input.parent (node layer (2 * j)) (node layer (2 * j + 1)) ∈ pairsOf layer := by
  fun_induction pairsOf layer generalizing j with
  | case1 left right layer ih =>
    cases j with
    | zero => exact List.mem_cons_self
    | succ j => exact List.mem_cons_of_mem _ (ih (by simp at hj; omega))
  | case2 layer hlayer =>
    match layer, hlayer with
    | [], _ => simp at hj
    | [_], _ => simp at hj
    | left :: right :: layer, hlayer => exact absurd rfl (hlayer left right layer)

theorem mem_joined {nodes : OrderedMap ℕ (Digest × Option Digest)} {j : ℕ} {left right : Digest}
    (h : nodes.get? j = some (left, some right)) : Input.parent left right ∈ joined nodes :=
  List.mem_filterMap.mpr ⟨_, OrderedMap.mem_entries_iff.mpr h, rfl⟩

namespace Blake3Hasher

theorem hashedFrom_of_two_lt (h : 2 < layer.length) :
    H.hashedFrom layer = pairsOf layer ++ H.hashedFrom (H.combineLayer layer) := by
  rw [hashedFrom, if_pos h]

theorem mem_hashedFrom_pair (left right : Digest) :
    Input.root left right ∈ H.hashedFrom [left, right] := by
  rw [hashedFrom, if_neg (by simp)]
  exact List.mem_singleton_self _

/-- The walk, with the children of each layer. -/
theorem climb_eq_some {levelLen : ℕ} {root : Digest} (hlen : 2 < levelLen)
    (h : H.climb levelLen current siblings = some root) :
    ∃ nodes siblings',
      climbLoop id levelLen current current.entries siblings .empty = some (nodes, siblings') ∧
      H.climb ((levelLen + 1) / 2) (nodes.map H.join) siblings' = some root ∧
      H.hashedClimb levelLen current siblings =
        joined nodes ++ H.hashedClimb ((levelLen + 1) / 2) (nodes.map H.join) siblings' := by
  have hmap : climbLoop (H.join ∘ id) levelLen current current.entries siblings
      (OrderedMap.empty.map H.join) = _ := climbLoop_map H.join id _ _ .empty
  rw [H.climb_of_two_lt hlen, ← Function.comp_id H.join] at h
  obtain ⟨⟨next, rest⟩, hloop, hclimb⟩ := Option.bind_eq_some_iff.mp h
  obtain ⟨⟨nodes, siblings'⟩, hnodes, heq⟩ := Option.map_eq_some_iff.mp (hmap.symm.trans hloop)
  obtain ⟨rfl, rfl⟩ := Prod.mk.inj heq
  refine ⟨nodes, siblings', hnodes, hclimb, ?_⟩
  rw [hashedClimb, if_pos hlen, hnodes]

end Blake3Hasher

theorem eq_of_takeNode {i : ℕ} {v w : Digest} {rest : List Digest}
    (h : Blake3Hasher.takeNode current i siblings = some (w, rest))
    (hv : current.get? i = some v) : v = w := by
  rw [Blake3Hasher.takeNode, hv] at h
  exact (Prod.mk.inj (Option.some.inj h)).1

theorem finish_eq_some {left right : Digest}
    (h : Blake3Hasher.finish current siblings = some (left, right)) :
    (∀ v, current.get? 0 = some v → v = left) ∧ ∀ v, current.get? 1 = some v → v = right := by
  obtain ⟨⟨l, rest⟩, hl, h⟩ := Option.bind_eq_some_iff.mp h
  obtain ⟨⟨r, rest'⟩, hr, h⟩ := Option.bind_eq_some_iff.mp h
  dsimp only at hr h
  split_ifs at h
  cases h
  exact ⟨fun v hv => eq_of_takeNode hl hv, fun v hv => eq_of_takeNode hr hv⟩

/-- The children of a node of the tree, unless there is a collision. -/
theorem eq_of_parentCv_eq {nodes : OrderedMap ℕ (Digest × Option Digest)} {j : ℕ}
    {left right : Digest} (hj : 2 * j + 1 < layer.length)
    (hnodes : nodes.get? j = some (left, some right))
    (hvalue : H.parentCv left right = node (H.combineLayer layer) j)
    (hno : ¬ Collision H.eval (joined nodes) (pairsOf layer)) :
    left = node layer (2 * j) ∧ right = node layer (2 * j + 1) := by
  by_contra hne
  refine hno ⟨_, mem_joined hnodes, _, mem_pairsOf hj, fun heq => hne ?_, ?_⟩
  · exact Input.parent.inj heq
  · rw [Blake3Hasher.eval, Blake3Hasher.eval, hvalue, node_combineLayer H (by omega), children,
      if_pos hj]
    rfl

/-- A walk that gets to the root of a tree, without a collision on the way, starts at nodes of the
tree. -/
theorem climb_binding (hlayer : 2 ≤ layer.length)
    (hkeys : ∀ i v, current.get? i = some v → i < layer.length)
    (hclimb : H.climb layer.length current siblings = some (H.treeRoot layer))
    (hno : ¬ Collision H.eval (H.hashedClimb layer.length current siblings) (H.hashedFrom layer)) :
    ∀ i v, current.get? i = some v → v = node layer i := by
  induction layer, hlayer using H.layer_induction generalizing current siblings with
  | pair left right =>
    intro i v hi
    have hlen : [left, right].length = 2 := rfl
    rw [hlen] at hclimb hno hkeys
    rw [H.climb_two, H.treeRoot_pair] at hclimb
    obtain ⟨⟨l, r⟩, hfinish, hroot⟩ := Option.map_eq_some_iff.mp hclimb
    obtain ⟨hl, hr⟩ := finish_eq_some hfinish
    -- the two nodes under the root are those of the tree
    have htop : Input.root l r = Input.root left right := by
      by_contra hne
      refine hno ⟨_, ?_, _, H.mem_hashedFrom_pair left right, hne, hroot⟩
      rw [Blake3Hasher.hashedClimb, if_neg (by omega), hfinish]
      exact List.mem_singleton_self _
    obtain ⟨rfl, rfl⟩ := Input.root.inj htop
    have hlt := hkeys i v hi
    have hcases : i = 0 ∨ i = 1 := by omega
    rcases hcases with rfl | rfl
    · exact hl v hi
    · exact hr v hi
  | above layer hlt ih =>
    intro i v hi
    obtain ⟨nodes, siblings', hloop, habove, hhashed⟩ := H.climb_eq_some hlt hclimb
    rw [hhashed, H.hashedFrom_of_two_lt hlt] at hno
    have hhere : ¬ Collision H.eval (joined nodes) (pairsOf layer) := fun h =>
      hno (h.mono (List.subset_append_left _ _) (List.subset_append_left _ _))
    have hrest : ¬ Collision H.eval
        (H.hashedClimb ((layer.length + 1) / 2) (nodes.map H.join) siblings')
        (H.hashedFrom (H.combineLayer layer)) := fun h =>
      hno (h.mono (List.subset_append_right _ _) (List.subset_append_right _ _))
    have hkeys' : ∀ j w, (nodes.map H.join).get? j = some w →
        j < (H.combineLayer layer).length := by
      intro j w hj
      rw [OrderedMap.get?_map, Option.map_eq_some_iff] at hj
      obtain ⟨c, hc, -⟩ := hj
      obtain ⟨k, w, hk, rfl⟩ := exists_of_climbLoop hloop hc
      have := hkeys k w hk
      rw [H.length_combineLayer]
      omega
    -- the layer above agrees with the tree
    have hagree : ∀ j c, nodes.get? j = some c → H.join c = node (H.combineLayer layer) j := by
      intro j c hc
      rw [← H.length_combineLayer] at habove hrest
      rw [← H.treeRoot_combineLayer hlt] at habove
      exact ih hkeys' habove hrest j _ (by rw [OrderedMap.get?_map, hc]; rfl)
    have hi' := hkeys i v hi
    rcases climbLoop_children hloop hi with ⟨heven, hlen, hget⟩ | ⟨heven, hbound, right, hget⟩ |
      ⟨hodd, left, hget⟩
    · have hvalue := hagree _ _ hget
      have hchild : 2 * (i / 2) = i := by omega
      rw [node_combineLayer H (by omega), children, if_neg (by omega), hchild] at hvalue
      exact hvalue
    · have hright : i + 1 < layer.length := by
        rcases hbound with hlen | ⟨w, hw⟩
        · exact hlen
        · exact hkeys _ w hw
      have hchild : 2 * (i / 2) = i := by omega
      have hpair := eq_of_parentCv_eq H (by omega) hget (hagree _ _ hget) hhere
      rw [hchild] at hpair
      exact hpair.1
    · have hvalue := hagree _ _ hget
      have hchild : 2 * (i / 2) + 1 = i := by omega
      have hpair := eq_of_parentCv_eq H (by omega) hget hvalue hhere
      rw [hchild] at hpair
      exact hpair.2

/-! ### Proofs -/

theorem windows_iff_pairwise (l : List ℕ) :
    (l.zip l.tail).all (fun w => w.1 < w.2) ↔ l.Pairwise (· < ·) := by
  rw [← List.isChain_iff_pairwise]
  induction l with
  | nil => simp
  | cons a l ih =>
    cases l with
    | nil => simp
    | cons b l =>
      rw [List.isChain_cons_cons, ← ih, List.tail_cons, List.zip_cons_cons, List.all_cons,
        Bool.and_eq_true, decide_eq_true_eq, List.tail_cons]

theorem sanityCheck_eq_ok_iff {p : MerkleProof} :
    p.sanityCheck = .ok () ↔ p.leafIndices ≠ [] ∧ p.leafIndices.length = p.leafData.length ∧
      p.leafIndices.Pairwise (· < ·) := by
  rw [← windows_iff_pairwise, MerkleProof.sanityCheck]
  split_ifs with hempty hlength hsorted
  · exact iff_of_false nofun fun h => h.1 (List.isEmpty_iff.mp hempty)
  · exact iff_of_false nofun fun h => hlength h.2.1
  · exact iff_of_true rfl ⟨mt List.isEmpty_iff.mpr hempty, not_not.mp hlength, hsorted⟩
  · exact iff_of_false nofun fun h => hsorted h.2.2

/-- The map that the verifier starts with, leaf by leaf. -/
theorem zip_leafHashes (p : MerkleProof) :
    p.leafIndices.zip (p.leafHashes H) =
      (p.leafIndices.zip p.leafData).map fun e => (e.1, H.chunkCv e.2.bytes e.1) := by
  rw [MerkleProof.leafHashes]
  generalize p.leafIndices = indices
  generalize p.leafData = leaves
  induction indices generalizing leaves with
  | nil => rfl
  | cons i indices ih =>
    cases leaves with
    | nil => rfl
    | cons leaf leaves =>
      rw [List.zip_cons_cons, List.map_cons, List.zip_cons_cons, ih, List.map_cons]

/-- An accepted proof with the root of a tree opens leaves of the tree, or it holds a collision. -/
theorem verify_binding (data : List UInt8) (p : MerkleProof) (hlen : chunkLen < data.length)
    (hroot : (MerkleTree.new H data).root = .ok p.root)
    (htotal : p.totalLeaves = (MerkleTree.new H data).numLeaves)
    (hsane : p.sanityCheck = .ok ()) (hrange : ∀ i ∈ p.leafIndices, i < p.totalLeaves)
    (haccept : p.verify H = .ok true) :
    p.leafData.map Leaf.bytes = p.leafIndices.map (chunk data) ∨
      Collision H.eval (p.hashed H) (MerkleTree.hashed H data) := by
  by_cases hcol : Collision H.eval (p.hashed H) (MerkleTree.hashed H data)
  · exact .inr hcol
  left
  obtain ⟨hne, hcount, hsorted⟩ := sanityCheck_eq_ok_iff.mp hsane
  have hchunks := MerkleTree.two_le_numChunks hlen
  rw [MerkleTree.numLeaves_new H hlen] at htotal
  rw [MerkleTree.root_new H hlen] at hroot
  -- the walk of the verifier ends at the root of the tree
  have hclimb : H.climb (H.hashChunks data).length
      (.ofList (p.leafIndices.zip (p.leafHashes H))) p.siblings =
        some (H.treeRoot (H.hashChunks data)) := by
    rw [MerkleProof.verify, computeRoot_eq_climb H hne (by omega)] at haccept
    rw [MerkleTree.length_hashChunks, ← htotal, Except.ok.inj hroot]
    simpa [Except.map] using haccept
  have hget : ∀ i v, (OrderedMap.ofList (p.leafIndices.zip (p.leafHashes H))).get? i = some v ↔
      (i, v) ∈ p.leafIndices.zip (p.leafHashes H) := by
    intro i v
    refine OrderedMap.get?_ofList ?_
    rw [zip_leafHashes, List.map_map]
    change ((p.leafIndices.zip p.leafData).map Prod.fst).Nodup
    rw [List.map_fst_zip hcount.le]
    exact hsorted.imp fun h => h.ne
  have hnodes := climb_binding H (by rwa [MerkleTree.length_hashChunks])
    (fun i v hi => by
      rw [MerkleTree.length_hashChunks, ← htotal]
      exact hrange i (List.of_mem_zip ((hget i v).mp hi)).1) hclimb
    (fun h => hcol (h.mono
      (by
        rw [MerkleTree.length_hashChunks, ← htotal]
        exact List.subset_append_right _ _)
      (List.subset_append_right _ _)))
  have hleaves : ∀ e ∈ p.leafIndices.zip p.leafData, e.2.bytes = chunk data e.1 := by
    intro e he
    have hlt : e.1 < numChunks data.length := by
      rw [← htotal]
      exact hrange _ (List.of_mem_zip he).1
    have hvalue := hnodes e.1 (H.chunkCv e.2.bytes e.1) ((hget _ _).mpr (by
      rw [zip_leafHashes]
      exact List.mem_map_of_mem he))
    rw [node_hashChunks H hlt] at hvalue
    -- equal chaining values of different chunks are a collision
    by_contra hdiff
    exact hcol ⟨_, List.mem_append_left _ (List.mem_map_of_mem he), _,
      List.mem_append_left _ (List.mem_map_of_mem (List.mem_range.mpr hlt)),
      fun heq => hdiff (Input.chunk.inj heq).1, hvalue⟩
  calc p.leafData.map Leaf.bytes
      = (p.leafIndices.zip p.leafData).map fun e => e.2.bytes := by
        conv_lhs => rw [← List.map_snd_zip hcount.ge, List.map_map]
        rfl
    _ = (p.leafIndices.zip p.leafData).map fun e => chunk data e.1 :=
        List.map_congr_left hleaves
    _ = p.leafIndices.map (chunk data) := by
        conv_rhs => rw [← List.map_fst_zip hcount.le, List.map_map]
        rfl

/-- The proof of the first of two leaves. -/
def MerkleProof.ofPair (left right : Leaf) : MerkleProof where
  leafData := [left]
  leafIndices := [0]
  totalLeaves := 2
  root := H.rootCv (H.chunkCv left.bytes 0) (H.chunkCv right.bytes 1)
  siblings := [H.chunkCv right.bytes 1]

theorem verify_ofPair (left right : Leaf) :
    (MerkleProof.ofPair H left right).verify H = .ok true := by
  have hclimb : H.climb 2 (.ofList [(0, H.chunkCv left.bytes 0)]) [H.chunkCv right.bytes 1] =
      some (MerkleProof.ofPair H left right).root := H.climb_two _ _
  rw [MerkleProof.verify, computeRoot_eq_climb H (List.cons_ne_nil _ _) (Nat.succ_ne_self 1)]
  exact congrArg Except.ok (decide_eq_true hclimb)

theorem length_pair (left right : Leaf) :
    (left.bytes ++ right.bytes).length = 2 * chunkLen := by
  rw [List.length_append, left.length_eq, right.length_eq]
  omega

theorem root_pair (left right : Leaf) :
    (MerkleTree.new H (left.bytes ++ right.bytes)).root =
      .ok (MerkleProof.ofPair H left right).root := by
  have hlength := length_pair left right
  have hchunks : numChunks (2 * chunkLen) = 2 := rfl
  have hleft : chunk (left.bytes ++ right.bytes) 0 = left.bytes := by
    rw [chunk, Nat.zero_mul, List.drop_zero, List.take_left' left.length_eq]
  have hright : chunk (left.bytes ++ right.bytes) 1 = right.bytes := by
    rw [chunk, Nat.one_mul, List.drop_left' left.length_eq,
      List.take_of_length_le right.length_eq.le]
  have hcvs : H.hashChunks (left.bytes ++ right.bytes) =
      [H.chunkCv left.bytes 0, H.chunkCv right.bytes 1] := by
    rw [H.hashChunks_eq, hlength, hchunks, List.range_succ, List.range_one]
    simp [hleft, hright]
  rw [MerkleTree.root_new H (by rw [hlength]; decide), hcvs, H.treeRoot_pair]
  rfl

/-- The proof of the first of two small leaves. -/
def samplePair : MerkleProof := .ofPair (.keyed (.fill 0)) (.ofBytes [1]) (.ofBytes [2])

theorem verify_binding_pair :
    samplePair.leafData.map Leaf.bytes =
        [0].map (chunk ((Leaf.ofBytes [1]).bytes ++ (Leaf.ofBytes [2]).bytes)) ∨
      Collision (Blake3Hasher.keyed (.fill 0)).eval (samplePair.hashed (.keyed (.fill 0)))
        (MerkleTree.hashed (.keyed (.fill 0))
          ((Leaf.ofBytes [1]).bytes ++ (Leaf.ofBytes [2]).bytes)) :=
  verify_binding (.keyed (.fill 0)) _ samplePair (by rw [length_pair]; decide) (root_pair _ _ _)
    (by rw [MerkleTree.numLeaves_new _ (by rw [length_pair]; decide), length_pair]; rfl) rfl
    (by decide) (verify_ofPair _ _ _)

end Binding

/-! ### Leaves that are not looked at -/

section Unbound

variable (H : Blake3Hasher) {current : OrderedMap ℕ Digest} {levelLen i : ℕ} {cv : Digest}
  {siblings : List Digest}

/-- The proof with one more leaf in front. -/
def MerkleProof.consLeaf (p : MerkleProof) (i : ℕ) (leaf : Leaf) : MerkleProof :=
  { p with leafIndices := i :: p.leafIndices, leafData := leaf :: p.leafData }

/-- The proof with one more leaf behind. -/
def MerkleProof.concatLeaf (p : MerkleProof) (i : ℕ) (leaf : Leaf) : MerkleProof :=
  { p with leafIndices := p.leafIndices ++ [i], leafData := p.leafData ++ [leaf] }

/-- Of two leaves with one index the first may hold anything. -/
theorem computeRoot_duplicate (p : MerkleProof) (i : ℕ) (leaf : Leaf) (hi : i ∈ p.leafIndices)
    (hcount : p.leafIndices.length = p.leafData.length) :
    (p.consLeaf i leaf).computeRoot H = p.computeRoot H := by
  have hkeys : (p.leafIndices.zip (p.leafHashes H)).map Prod.fst = p.leafIndices := by
    rw [zip_leafHashes, List.map_map]
    exact List.map_fst_zip hcount.le
  have hcurrent : OrderedMap.ofList ((p.consLeaf i leaf).leafIndices.zip
      ((p.consLeaf i leaf).leafHashes H)) =
        OrderedMap.ofList (p.leafIndices.zip (p.leafHashes H)) :=
    OrderedMap.foldl_insert_of_mem (hkeys.symm ▸ hi)
  have hne : p.leafIndices.isEmpty = false := by
    rw [List.isEmpty_eq_false_iff]
    exact List.ne_nil_of_mem hi
  simp only [MerkleProof.computeRoot, hcurrent, hne]
  rfl

theorem computeRoot_duplicate_pair :
    (samplePair.consLeaf 0 (.ofBytes [3])).computeRoot (.keyed (.fill 0)) =
      samplePair.computeRoot (.keyed (.fill 0)) :=
  computeRoot_duplicate _ samplePair 0 _ (by decide) rfl

/-- A loop over two lists of nodes. -/
theorem climbLoop_append {β : Type} (join : Digest × Option Digest → β)
    (todo todo' : List (ℕ × Digest)) (siblings : List Digest) (next : OrderedMap ℕ β) :
    climbLoop join levelLen current (todo ++ todo') siblings next =
      (climbLoop join levelLen current todo siblings next).bind fun r =>
        climbLoop join levelLen current todo' r.2 r.1 := by
  induction todo generalizing siblings next with
  | nil => rfl
  | cons e todo ih =>
    rw [List.cons_append, climbLoop, climbLoop]
    rcases visit levelLen current e.1 e.2 siblings with - | ⟨- | c, siblings⟩
    · rfl
    · exact ih siblings next
    · exact ih siblings _

/-- A node outside of the layer does not change what the loop does with the others. -/
theorem climbLoop_insert {β : Type} (join : Digest × Option Digest → β) {todo : List (ℕ × Digest)}
    (htodo : ∀ e ∈ todo, e.1 < i) (heven : i % 2 = 0) (siblings : List Digest)
    (next : OrderedMap ℕ β) :
    climbLoop join levelLen (current.insert i cv) todo siblings next =
      climbLoop join levelLen current todo siblings next := by
  induction todo generalizing siblings next with
  | nil => rfl
  | cons e todo ih =>
    obtain ⟨he, htodo⟩ := List.forall_mem_cons.mp htodo
    have hvisit : visit levelLen (current.insert i cv) e.1 e.2 siblings =
        visit levelLen current e.1 e.2 siblings := by
      unfold visit
      by_cases hpar : e.1 % 2 = 0
      · have hne : i ≠ e.1 + 1 := by omega
        rw [if_pos hpar, if_pos hpar, OrderedMap.get?_insert, if_neg hne]
      · have hne : i ≠ e.1 - 1 := by omega
        rw [if_neg hpar, if_neg hpar, OrderedMap.containsKey, OrderedMap.get?_insert, if_neg hne,
          OrderedMap.containsKey]
    rw [climbLoop, climbLoop, hvisit]
    rcases visit levelLen current e.1 e.2 siblings with - | ⟨- | c, siblings⟩
    · rfl
    · exact ih htodo siblings next
    · exact ih htodo siblings _

/-- One layer with a node outside of it: the node is carried up. -/
theorem climbLoop_outside {β : Type} (join : Digest × Option Digest → β)
    (hkeys : ∀ j v, current.get? j = some v → j < levelLen) (hle : levelLen ≤ i)
    (heven : i % 2 = 0) (siblings : List Digest) :
    climbLoop join levelLen (current.insert i cv) (current.insert i cv).entries siblings .empty =
      (climbLoop join levelLen current current.entries siblings .empty).map fun r =>
        (r.1.insert (i / 2) (join (cv, none)), r.2) := by
  have hbehind : ∀ j v, current.get? j = some v → j < i := fun j v hj =>
    (hkeys j v hj).trans_le hle
  have hlast : ∀ siblings, visit levelLen (current.insert i cv) i cv siblings =
      some (some (cv, none), siblings) := by
    intro siblings
    have hnone : current.get? (i + 1) = none := by
      rw [Option.eq_none_iff_forall_ne_some]
      intro v hv
      have := hkeys _ v hv
      omega
    have hself : i ≠ i + 1 := by omega
    have hlen : ¬ i + 1 < levelLen := by omega
    unfold visit
    rw [if_pos heven, OrderedMap.get?_insert, if_neg hself, hnone]
    exact if_neg hlen
  rw [OrderedMap.entries_insert_of_lt hbehind, climbLoop_append, climbLoop_insert join
    (fun e he => hbehind e.1 e.2 (OrderedMap.mem_entries_iff.mp he)) heven]
  rcases climbLoop join levelLen current current.entries siblings .empty with - | ⟨next, rest⟩
  · rfl
  · simp only [Option.bind_some, Option.map_some, climbLoop, hlast]

/-- A node far outside is carried up next to the walk and never read. -/
theorem climb_insert (hkeys : ∀ j v, current.get? j = some v → j < levelLen) (htwo : 2 ≤ levelLen)
    {m : ℕ} (hm : levelLen ≤ 2 ^ m) (hi : 2 ^ m ∣ i) (hpos : 0 < i) :
    H.climb levelLen (current.insert i cv) siblings = H.climb levelLen current siblings := by
  induction levelLen using Nat.strong_induction_on generalizing current i m siblings with
  | _ levelLen ih =>
    have hle : 2 ^ m ≤ i := Nat.le_of_dvd hpos hi
    by_cases hlt : 2 < levelLen
    · obtain ⟨m, rfl⟩ : ∃ k, m = k + 1 := Nat.exists_eq_succ_of_ne_zero (by rintro rfl; omega)
      have heven : 2 ∣ i := (Dvd.intro_left _ (pow_succ 2 m).symm).trans hi
      rw [H.climb_of_two_lt hlt, H.climb_of_two_lt hlt,
        climbLoop_outside H.join hkeys (hm.trans hle) (Nat.mod_eq_zero_of_dvd heven)]
      cases hloop : climbLoop H.join levelLen current current.entries siblings .empty with
      | none => rfl
      | some r =>
        have hm' : (levelLen + 1) / 2 ≤ 2 ^ m := by
          rw [pow_succ] at hm
          omega
        have hi' : 2 ^ m ∣ i / 2 := Nat.dvd_div_of_mul_dvd (by rwa [← pow_succ'])
        refine ih _ (by omega) (fun j v hj => ?_) (by omega) hm' hi' (by omega)
        obtain ⟨k, w, hk, rfl⟩ := exists_of_climbLoop hloop hj
        have := hkeys k w hk
        omega
    · obtain rfl : levelLen = 2 := by omega
      have htake : ∀ k < 2, ∀ siblings, Blake3Hasher.takeNode (current.insert i cv) k siblings =
          Blake3Hasher.takeNode current k siblings := by
        intro k hk siblings
        have hne : i ≠ k := by omega
        rw [Blake3Hasher.takeNode, OrderedMap.get?_insert, if_neg hne, Blake3Hasher.takeNode]
      rw [H.climb_two, H.climb_two, Blake3Hasher.finish, Blake3Hasher.finish, htake 0 (by omega)]
      simp only [htake 1 (by omega)]

/-- A leaf far outside of the tree may hold anything: the proof stays as good as it was, for the
check of its indices too. -/
theorem verify_outside (p : MerkleProof) (i : ℕ) (leaf : Leaf)
    (hcount : p.leafIndices.length = p.leafData.length) (hne : p.leafIndices ≠ [])
    (htwo : 2 ≤ p.totalLeaves) (hrange : ∀ j ∈ p.leafIndices, j < p.totalLeaves) {m : ℕ}
    (hm : p.totalLeaves ≤ 2 ^ m) (hi : 2 ^ m ∣ i) (hpos : 0 < i) :
    (p.sanityCheck = .ok () → (p.concatLeaf i leaf).sanityCheck = .ok ()) ∧
      (p.concatLeaf i leaf).verify H = p.verify H := by
  refine ⟨fun hsane => ?_, ?_⟩
  · obtain ⟨-, -, hsorted⟩ := sanityCheck_eq_ok_iff.mp hsane
    refine sanityCheck_eq_ok_iff.mpr ⟨List.append_ne_nil_of_left_ne_nil hne _, ?_, ?_⟩
    · rw [MerkleProof.concatLeaf, List.length_append, List.length_append, hcount]
      rfl
    · refine List.pairwise_append.mpr ⟨hsorted, List.pairwise_singleton _ _, fun j hj k hk => ?_⟩
      -- the new index is above all others
      rw [List.mem_singleton.mp hk]
      exact (hrange j hj).trans_le (hm.trans (Nat.le_of_dvd hpos hi))
  have hzip : (p.concatLeaf i leaf).leafIndices.zip ((p.concatLeaf i leaf).leafHashes H) =
      p.leafIndices.zip (p.leafHashes H) ++ [(i, H.chunkCv leaf.bytes i)] := by
    rw [zip_leafHashes, zip_leafHashes, MerkleProof.concatLeaf, List.zip_append hcount,
      List.map_append]
    rfl
  have hcurrent : OrderedMap.ofList ((p.concatLeaf i leaf).leafIndices.zip
      ((p.concatLeaf i leaf).leafHashes H)) =
        (OrderedMap.ofList (p.leafIndices.zip (p.leafHashes H))).insert i
          (H.chunkCv leaf.bytes i) := by
    rw [hzip, OrderedMap.ofList, List.foldl_append]
    rfl
  have hkeys : ∀ j v, (OrderedMap.ofList (p.leafIndices.zip (p.leafHashes H))).get? j = some v →
      j < p.totalLeaves := by
    intro j v hj
    exact hrange j (List.of_mem_zip (OrderedMap.mem_of_get?_ofList hj)).1
  rw [MerkleProof.verify, MerkleProof.verify, computeRoot_eq_climb H hne (by omega),
    computeRoot_eq_climb H (by simp [MerkleProof.concatLeaf])
      (by show p.totalLeaves ≠ 1; omega), hcurrent]
  change Except.map _ (Except.ok (H.climb p.totalLeaves _ p.siblings)) = _
  rw [climb_insert H hkeys htwo hm hi hpos]
  rfl

theorem verify_outside_pair :
    (samplePair.concatLeaf 6 (.ofBytes [3])).sanityCheck = .ok () ∧
      (samplePair.concatLeaf 6 (.ofBytes [3])).verify (.keyed (.fill 0)) =
        samplePair.verify (.keyed (.fill 0)) := by
  obtain ⟨hsane, hverify⟩ := verify_outside (.keyed (.fill 0)) samplePair 6 (.ofBytes [3]) rfl
    (by decide) (by decide) (by decide) (m := 1) (by decide) (by decide) (by decide)
  exact ⟨hsane rfl, hverify⟩

end Unbound

end PropMiner.Merkle
