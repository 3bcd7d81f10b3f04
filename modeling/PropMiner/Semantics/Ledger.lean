import PropMiner.Semantics.Machine
import Mathlib.Data.List.Count
import Mathlib.Data.List.Induction
import Mathlib.Data.List.Nodup
import Mathlib.Order.Basic

/-!
# Ledgers over traces

Some events of a trace open an account and some close one. A list of entries is
balanced with a trace when it lists exactly the accounts that were opened and not
closed since, and every account is closed at most once and only while open. This
is what "each request gets exactly one answer, or is still waiting" means for any
table of waiting requests.

## Main definitions

* `Ledger` — which events open and which close an account
* `Ledger.Balanced` — entries that agree with a trace

## Main results

* `Balanced.silent`, `Balanced.openOne`, `Balanced.closeOne`, `Balanced.closeAll` — how
  balance is kept when the trace grows
* `Balanced.open_or_closed` — an opened account is either listed or closed once
-/

set_option autoImplicit false

namespace PropMiner.Semantics

/-- Which events open an account, and which close one. -/
structure Ledger (ε κ : Type*) where
  opens : ε → Option κ
  closes : ε → Option κ

namespace Ledger

variable {ε κ ι : Type*} {L : Ledger ε κ} {tr es : List ε} {e : ε}
  {entries entries' : List κ} {k : κ}

/-- The account was opened along the trace. -/
def Opened (L : Ledger ε κ) (tr : List ε) (k : κ) : Prop := ∃ e ∈ tr, L.opens e = some k

@[simp] theorem not_opened_nil : ¬ L.Opened [] k := by
  rintro ⟨e, he, -⟩
  cases he

@[simp] theorem opened_append : L.Opened (tr ++ es) k ↔ L.Opened tr k ∨ L.Opened es k := by
  simp only [Opened, List.mem_append, or_and_right, exists_or]

theorem opened_singleton : L.Opened [e] k ↔ L.opens e = some k := by
  simp [Opened]

variable [DecidableEq κ]

/-- How often the account was closed along the trace. -/
def closings (L : Ledger ε κ) (tr : List ε) (k : κ) : ℕ :=
  tr.countP fun e => L.closes e = some k

/-- The account is open at the end of the trace. -/
def Outstanding (L : Ledger ε κ) (tr : List ε) (k : κ) : Prop :=
  L.Opened tr k ∧ L.closings tr k = 0

/-- The entries are the open accounts, and nothing was closed that was not open. -/
structure Balanced (L : Ledger ε κ) (tr : List ε) (entries : List κ) : Prop where
  nodup : entries.Nodup
  mem_iff : ∀ k, k ∈ entries ↔ L.Outstanding tr k
  closings_le : ∀ k, L.closings tr k ≤ 1
  closed_outstanding : ∀ pre e post k, tr = pre ++ e :: post → L.closes e = some k →
    L.Outstanding pre k

@[simp] theorem closings_append : L.closings (tr ++ es) k = L.closings tr k + L.closings es k :=
  List.countP_append

theorem closings_singleton : L.closings [e] k = if L.closes e = some k then 1 else 0 := by
  simp [closings, List.countP_singleton]

theorem balanced_nil (L : Ledger ε κ) : L.Balanced [] [] where
  nodup := List.nodup_nil
  mem_iff k := by simp [Outstanding]
  closings_le k := Nat.zero_le 1
  closed_outstanding pre e post k h := by simp at h

namespace Balanced

/-- The last event of a longer trace either lies in the old trace or is the new one. -/
theorem closed_outstanding_snoc (h : L.Balanced tr entries)
    (hlast : ∀ k, L.closes e = some k → L.Outstanding tr k) :
    ∀ pre e' post k, tr ++ [e] = pre ++ e' :: post → L.closes e' = some k →
      L.Outstanding pre k := by
  intro pre e' post k heq hclose
  rcases Machine.split_snoc heq with ⟨rfl, rfl⟩ | ⟨init, hinit⟩
  · exact hlast k hclose
  · exact h.closed_outstanding pre e' init k hinit hclose

theorem silentOne (h : L.Balanced tr entries) (hopen : L.opens e = none)
    (hclose : L.closes e = none) : L.Balanced (tr ++ [e]) entries where
  nodup := h.nodup
  mem_iff k := by
    rw [h.mem_iff k, Outstanding, Outstanding, opened_append, opened_singleton, closings_append,
      closings_singleton]
    simp [hopen, hclose]
  closings_le k := by
    rw [closings_append, closings_singleton]
    simpa [hclose] using h.closings_le k
  closed_outstanding := h.closed_outstanding_snoc fun k hk => by simp [hclose] at hk

/-- Events that neither open nor close leave the entries alone. -/
theorem silent (h : L.Balanced tr entries)
    (hes : ∀ e ∈ es, L.opens e = none ∧ L.closes e = none) : L.Balanced (tr ++ es) entries := by
  induction es using List.reverseRecOn with
  | nil => simpa using h
  | append_singleton es e ih =>
    rw [← List.append_assoc]
    have hlast := hes e (by simp)
    exact (ih fun e he => hes e (by simp [he])).silentOne hlast.1 hlast.2

/-- The order of the entries does not matter. -/
theorem perm (h : L.Balanced tr entries) (hperm : entries.Perm entries') :
    L.Balanced tr entries' where
  nodup := hperm.nodup h.nodup
  mem_iff k := hperm.mem_iff.symm.trans (h.mem_iff k)
  closings_le := h.closings_le
  closed_outstanding := h.closed_outstanding

/-- A new account adds its entry. -/
theorem openOne (h : L.Balanced tr entries) (hopen : L.opens e = some k)
    (hclose : L.closes e = none) (hnew : ¬ L.Opened tr k) :
    L.Balanced (tr ++ [e]) (k :: entries) where
  nodup := List.nodup_cons.mpr ⟨fun hk => hnew ((h.mem_iff k).mp hk).1, h.nodup⟩
  mem_iff k' := by
    have hzero : L.closings tr k = 0 := by
      by_contra hne
      -- a closed account was open at that point, so it was opened before
      obtain ⟨e', he', hclosed⟩ := List.countP_pos_iff.mp (Nat.pos_of_ne_zero hne)
      obtain ⟨pre, post, rfl⟩ := List.append_of_mem he'
      have hout := h.closed_outstanding pre e' post k rfl (by simpa using hclosed)
      exact hnew (opened_append.mpr (.inl hout.1))
    rw [List.mem_cons, h.mem_iff k', Outstanding, Outstanding, opened_append, opened_singleton,
      closings_append, closings_singleton]
    simp only [hopen, hclose, Option.some.injEq, reduceCtorEq, if_false, Nat.add_zero]
    constructor
    · rintro (rfl | ⟨hold, hclosings⟩)
      · exact ⟨.inr rfl, hzero⟩
      · exact ⟨.inl hold, hclosings⟩
    · rintro ⟨hold | rfl, hclosings⟩
      · exact .inr ⟨hold, hclosings⟩
      · exact .inl rfl
  closings_le k' := by
    rw [closings_append, closings_singleton]
    simpa [hclose] using h.closings_le k'
  closed_outstanding := h.closed_outstanding_snoc fun k hk => by simp [hclose] at hk

/-- Closing an open account removes its entry. -/
theorem closeOne (h : L.Balanced tr entries) (hopen : L.opens e = none)
    (hclose : L.closes e = some k) (hmem : k ∈ entries) (hnodup : entries'.Nodup)
    (hrest : ∀ k', k' ∈ entries' ↔ k' ∈ entries ∧ k' ≠ k) : L.Balanced (tr ++ [e]) entries' where
  nodup := hnodup
  mem_iff k' := by
    rw [hrest, h.mem_iff k', Outstanding, Outstanding, opened_append, opened_singleton,
      closings_append, closings_singleton]
    simp only [hopen, hclose, reduceCtorEq, or_false, Option.some.injEq]
    by_cases hk : k' = k
    · simp [hk]
    · simp [hk, Ne.symm hk]
  closings_le k' := by
    rw [closings_append, closings_singleton]
    simp only [hclose, Option.some.injEq]
    split_ifs with hk
    · exact Nat.le_of_eq (by rw [← hk, ((h.mem_iff k).mp hmem).2])
    · simpa using h.closings_le k'
  closed_outstanding := h.closed_outstanding_snoc fun k' hk => by
    obtain rfl : k = k' := by simpa [hclose] using hk
    exact (h.mem_iff k).mp hmem

/-- Closing a list of open accounts, one event for each. -/
theorem closeAll {items : List ι} {key : ι → κ} {event : ι → ε} (h : L.Balanced tr entries)
    (hopen : ∀ i ∈ items, L.opens (event i) = none)
    (hclose : ∀ i ∈ items, L.closes (event i) = some (key i))
    (hmem : ∀ i ∈ items, key i ∈ entries) (hdistinct : (items.map key).Nodup)
    (hnodup : entries'.Nodup)
    (hrest : ∀ k, k ∈ entries' ↔ k ∈ entries ∧ k ∉ items.map key) :
    L.Balanced (tr ++ items.map event) entries' := by
  induction items using List.reverseRecOn generalizing entries' with
  | nil =>
    refine ⟨hnodup, fun k => ?_, ?_, ?_⟩
    · rw [hrest k]
      simpa using h.mem_iff k
    · simpa using h.closings_le
    · simpa using h.closed_outstanding
  | append_singleton items i ih =>
    rw [List.map_append, List.nodup_append] at hdistinct
    -- close the earlier ones first; the last one is still open then
    have hbefore : L.Balanced (tr ++ items.map event)
        (entries.filter fun k => k ∉ items.map key) := ih
      (fun j hj => hopen j (by simp [hj])) (fun j hj => hclose j (by simp [hj]))
      (fun j hj => hmem j (by simp [hj])) hdistinct.1 (h.nodup.filter _)
      (fun k => by simp [List.mem_filter])
    have hlast : key i ∉ items.map key := fun hk =>
      hdistinct.2.2 (key i) hk (key i) (by simp) rfl
    rw [List.map_append, ← List.append_assoc]
    refine hbefore.closeOne (hopen i (by simp)) (hclose i (by simp)) ?_ hnodup fun k => ?_
    · simpa [List.mem_filter] using ⟨hmem i (by simp), by simpa using hlast⟩
    · rw [hrest k]
      simp only [List.map_append, List.map_cons, List.map_nil, List.mem_append,
        List.mem_singleton, not_or, List.mem_filter, decide_eq_true_eq, and_assoc]

/-- An account that was opened is either still listed or was closed exactly once. -/
theorem open_or_closed (h : L.Balanced tr entries) (hopened : L.Opened tr k) :
    k ∈ entries ∧ L.closings tr k = 0 ∨ k ∉ entries ∧ L.closings tr k = 1 := by
  rcases Nat.eq_zero_or_pos (L.closings tr k) with hzero | hpos
  · exact .inl ⟨(h.mem_iff k).mpr ⟨hopened, hzero⟩, hzero⟩
  · refine .inr ⟨fun hmem => ?_, Nat.le_antisymm (h.closings_le k) hpos⟩
    exact Nat.pos_iff_ne_zero.mp hpos ((h.mem_iff k).mp hmem).2

end Balanced

end Ledger

end PropMiner.Semantics
