import Mathlib.Data.List.Basic
import Mathlib.Data.Nat.Basic
import Mathlib.Order.Basic

/-!
# Frames with a header that tells their length

A stream is cut into frames: a header of fixed size, then as much as the header says. A
list of frames and an incomplete rest are determined by their concatenation.

## Main definitions

* `Framing` — the size of the header, and the length that a header announces
* `Framing.Whole` — one frame, complete
* `Framing.split` — the frames at the head of a stream, and the rest

## Main results

* `Framing.next_append` — a whole frame is cut off whatever follows it
* `Framing.split_flatten` — frames and an incomplete rest are found again
* `Framing.flatten_split` — nothing is lost by cutting
* `Framing.split_prefix` — a part of a stream is cut into the first frames of the stream
-/

set_option autoImplicit false

namespace PropMiner.Semantics

/-- How a stream is cut into frames. -/
structure Framing (α : Type*) where
  /-- the size of the header -/
  header : ℕ
  header_pos : 0 < header
  /-- the length of what follows a header -/
  body : List α → ℕ

namespace Framing

variable {α : Type*} {F : Framing α} {bs f rest : List α} {fs gs : List (List α)}

/-- The size of the frame that begins here, once its header is there. -/
def size (F : Framing α) (bs : List α) : Option ℕ :=
  if F.header ≤ bs.length then some (F.header + F.body (bs.take F.header)) else none

/-- One frame, complete. -/
def Whole (F : Framing α) (f : List α) : Prop := F.size f = some f.length

/-- Cut the first frame off. -/
def next (F : Framing α) (bs : List α) : Option (List α × List α) :=
  (F.size bs).bind fun n => if n ≤ bs.length then some (bs.take n, bs.drop n) else none

def splitLoop (F : Framing α) : ℕ → List α → List (List α) × List α
  | 0, bs => ([], bs)
  | fuel + 1, bs =>
      match F.next bs with
      | none => ([], bs)
      | some (f, rest) => ((f :: (splitLoop F fuel rest).1), (splitLoop F fuel rest).2)

/-- The frames at the head of a stream, and the rest: every frame has a header, so there
are no more of them than elements. -/
def split (F : Framing α) (bs : List α) : List (List α) × List α := F.splitLoop bs.length bs

theorem whole_iff : F.Whole f ↔
    F.header ≤ f.length ∧ F.header + F.body (f.take F.header) = f.length := by
  unfold Whole size
  split_ifs with h
  · simp [h]
  · simp [h]

theorem Whole.length_pos (hf : F.Whole f) : 0 < f.length :=
  F.header_pos.trans_le (whole_iff.mp hf).1

theorem size_append {n : ℕ} (h : F.size bs = some n) : F.size (bs ++ rest) = some n := by
  unfold size at h ⊢
  split_ifs at h with hle
  rw [if_pos (by simp; omega), List.take_append_of_le_length hle]
  exact h

theorem length_lt_of_next_none {n : ℕ} (hnext : F.next bs = none) (hsize : F.size bs = some n) :
    bs.length < n := by
  by_contra hle
  rw [next, hsize, Option.bind_some, if_pos (Nat.le_of_not_lt hle)] at hnext
  cases hnext

theorem next_eq_none_of_size (h : ∀ n, F.size bs = some n → bs.length < n) : F.next bs = none := by
  cases hsize : F.size bs with
  | none => rw [next, hsize, Option.bind_none]
  | some n => rw [next, hsize, Option.bind_some, if_neg (Nat.not_le.mpr (h n hsize))]

/-- A proper part of a frame announces the whole frame, once its header is there. -/
theorem size_take {k : ℕ} (hf : F.Whole f) (hk : k ≤ f.length) :
    F.size (f.take k) = if F.header ≤ k then some f.length else none := by
  have hlength : (f.take k).length = k := List.length_take_of_le hk
  unfold size
  rw [hlength]
  split_ifs with hheader
  · rw [List.take_take, Nat.min_eq_left hheader, (whole_iff.mp hf).2]
  · rfl

theorem next_take {k : ℕ} (hf : F.Whole f) (hk : k < f.length) : F.next (f.take k) = none := by
  refine next_eq_none_of_size fun n hn => ?_
  rw [size_take hf hk.le] at hn
  split_ifs at hn
  rw [List.length_take_of_le hk.le, ← Option.some.inj hn]
  exact hk

theorem next_append (hf : F.Whole f) : F.next (f ++ rest) = some (f, rest) := by
  rw [next, size_append hf, Option.bind_some, if_pos (by simp), List.take_left, List.drop_left]

theorem whole_of_next (h : F.next bs = some (f, rest)) : F.Whole f ∧ bs = f ++ rest := by
  simp only [next, Option.bind_eq_some_iff] at h
  obtain ⟨n, hsize, h⟩ := h
  split_ifs at h with hle
  obtain ⟨rfl, rfl⟩ := Prod.mk.inj (Option.some.inj h)
  refine ⟨?_, (List.take_append_drop n bs).symm⟩
  unfold size at hsize
  split_ifs at hsize with hheader
  have hn := Option.some.inj hsize
  have hlength : (bs.take n).length = n := List.length_take_of_le hle
  rw [whole_iff, hlength, List.take_take, Nat.min_eq_left (by omega)]
  exact ⟨by omega, hn⟩

theorem splitLoop_flatten {fuel : ℕ} (hfs : ∀ f ∈ fs, F.Whole f) (hrest : F.next rest = none)
    (hfuel : fs.length ≤ fuel) : F.splitLoop fuel (fs.flatten ++ rest) = (fs, rest) := by
  induction fs generalizing fuel with
  | nil =>
    cases fuel with
    | zero => rfl
    | succ fuel => simp [splitLoop, hrest]
  | cons f fs ih =>
    obtain ⟨fuel, rfl⟩ : ∃ n, fuel = n + 1 := Nat.exists_eq_add_one.mpr (Nat.zero_lt_of_lt hfuel)
    have htail := ih (fun g hg => hfs g (List.mem_cons_of_mem _ hg)) (Nat.le_of_succ_le_succ hfuel)
    rw [List.flatten_cons, List.append_assoc, splitLoop, next_append (hfs f List.mem_cons_self)]
    simp only [htail]

theorem length_le_length_flatten (hfs : ∀ f ∈ fs, F.Whole f) : fs.length ≤ fs.flatten.length := by
  induction fs with
  | nil => rfl
  | cons f fs ih =>
    have hpos := (hfs f List.mem_cons_self).length_pos
    have htail := ih fun g hg => hfs g (List.mem_cons_of_mem _ hg)
    rw [List.flatten_cons, List.length_append, List.length_cons]
    omega

/-- Frames and an incomplete rest are found again in their concatenation. -/
theorem split_flatten (hfs : ∀ f ∈ fs, F.Whole f) (hrest : F.next rest = none) :
    F.split (fs.flatten ++ rest) = (fs, rest) := by
  refine splitLoop_flatten hfs hrest ((length_le_length_flatten hfs).trans ?_)
  rw [List.length_append]
  exact Nat.le_add_right _ _

/-- A stream is cut into frames in one way only. -/
theorem split_unique {rest' : List α} (hfs : ∀ f ∈ fs, F.Whole f) (hgs : ∀ g ∈ gs, F.Whole g)
    (hrest : F.next rest = none) (hrest' : F.next rest' = none)
    (h : fs.flatten ++ rest = gs.flatten ++ rest') : fs = gs ∧ rest = rest' := by
  have hsplit := split_flatten hfs hrest
  rw [h, split_flatten hgs hrest'] at hsplit
  obtain ⟨rfl, rfl⟩ := Prod.mk.inj hsplit
  exact ⟨rfl, rfl⟩

theorem splitLoop_spec {fuel : ℕ} : (∀ f ∈ (F.splitLoop fuel bs).1, F.Whole f) ∧
    bs = (F.splitLoop fuel bs).1.flatten ++ (F.splitLoop fuel bs).2 := by
  induction fuel generalizing bs with
  | zero => exact ⟨nofun, rfl⟩
  | succ fuel ih =>
    cases hnext : F.next bs with
    | none =>
      simp only [splitLoop, hnext]
      exact ⟨nofun, rfl⟩
    | some r =>
      obtain ⟨f, rest⟩ := r
      obtain ⟨hf, hbs⟩ := whole_of_next hnext
      obtain ⟨hfs, hrest⟩ := @ih rest
      simp only [splitLoop, hnext, List.mem_cons, List.flatten_cons, List.append_assoc, ← hrest]
      refine ⟨?_, hbs⟩
      rintro g (rfl | hg)
      · exact hf
      · exact hfs g hg

theorem next_splitLoop {fuel : ℕ} (hfuel : bs.length ≤ fuel) :
    F.next (F.splitLoop fuel bs).2 = none := by
  induction fuel generalizing bs with
  | zero =>
    obtain rfl := List.length_eq_zero_iff.mp (Nat.le_zero.mp hfuel)
    refine next_eq_none_of_size fun n hn => ?_
    have hpos := F.header_pos
    unfold size at hn
    split_ifs at hn with hheader
    exact absurd hheader (Nat.not_le.mpr hpos)
  | succ fuel ih =>
    cases hnext : F.next bs with
    | none => simp only [splitLoop, hnext]
    | some r =>
      obtain ⟨f, rest⟩ := r
      obtain ⟨hf, rfl⟩ := whole_of_next hnext
      have hpos := hf.length_pos
      rw [List.length_append] at hfuel
      simp only [splitLoop, hnext]
      exact ih (by omega)

/-- What is left after cutting is not a frame. -/
theorem next_split : F.next (F.split bs).2 = none := next_splitLoop le_rfl

theorem whole_of_mem_split (hf : f ∈ (F.split bs).1) : F.Whole f := splitLoop_spec.1 f hf

/-- Nothing is lost by cutting. -/
theorem flatten_split : (F.split bs).1.flatten ++ (F.split bs).2 = bs := splitLoop_spec.2.symm

/-- A part of a stream is cut into the first frames of the stream. -/
theorem split_prefix {more : List α} (hfs : ∀ f ∈ fs, F.Whole f) (hrest : F.next rest = none)
    (h : bs ++ more = fs.flatten ++ rest) :
    ∃ gs, fs = (F.split bs).1 ++ gs ∧ (F.split bs).2 ++ more = gs.flatten ++ rest := by
  have hsplit := @flatten_split _ F ((F.split bs).2 ++ more)
  have hjoin : ((F.split bs).1 ++ (F.split ((F.split bs).2 ++ more)).1).flatten ++
      (F.split ((F.split bs).2 ++ more)).2 = fs.flatten ++ rest := by
    rw [List.flatten_append, List.append_assoc, hsplit, ← List.append_assoc, flatten_split, h]
  have hwhole : ∀ f ∈ (F.split bs).1 ++ (F.split ((F.split bs).2 ++ more)).1, F.Whole f := by
    intro f hf
    rcases List.mem_append.mp hf with hf | hf
    · exact whole_of_mem_split hf
    · exact whole_of_mem_split hf
  obtain ⟨hframes, htail⟩ := split_unique hwhole hfs next_split hrest hjoin
  exact ⟨_, hframes.symm, by rw [← htail, hsplit]⟩

/-- What a stream announces first is its first frame, or what its rest announces. -/
theorem size_flatten_append {n : ℕ} (hfs : ∀ f ∈ fs, F.Whole f)
    (h : F.size (fs.flatten ++ rest) = some n) :
    (∃ f ∈ fs, f.length = n) ∨ F.size rest = some n := by
  cases fs with
  | nil => exact .inr h
  | cons f fs =>
    rw [List.flatten_cons, List.append_assoc, size_append (hfs f List.mem_cons_self)] at h
    exact .inl ⟨f, List.mem_cons_self, Option.some.inj h⟩

end Framing

end PropMiner.Semantics
