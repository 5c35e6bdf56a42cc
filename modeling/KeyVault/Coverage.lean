import KeyVault.Extents
import KeyVault.Patching
import Mathlib.Algebra.BigOperators.Group.Finset.Piecewise
import Mathlib.Algebra.BigOperators.Ring.Finset
import Mathlib.Algebra.Order.BigOperators.Group.Finset
import Mathlib.Order.Interval.Finset.Nat

/-! How many of several extents hold each address of a buffer. Extents that stay
inside it and have its length in total hold every address exactly once when, and
only when, they do not overlap. A buffer written at every address no longer shows
what it held before. -/
namespace Extents

def coverage (extents : List Extent) (addr : Nat) : Nat :=
  extents.countP fun extent => decide (extent.Contains addr)

variable {extent : Extent} {extents : List Extent} {addr size : Nat}

theorem coverage_cons : coverage (extent :: extents) addr =
    coverage extents addr + if extent.Contains addr then 1 else 0 := by
  simp [coverage, List.countP_cons]

theorem coverage_pos_iff :
    0 < coverage extents addr ↔ ∃ extent ∈ extents, extent.Contains addr := by
  simp [coverage, List.countP_pos_iff]

theorem sum_contains (h : extent.start + extent.len ≤ size) :
    (∑ addr ∈ Finset.range size, if extent.Contains addr then 1 else 0) = extent.len := by
  have hfilter : (Finset.range size).filter (fun addr => extent.Contains addr) =
      Finset.Ico extent.start (extent.start + extent.len) := by
    ext addr
    rw [Finset.mem_filter, Finset.mem_range, Finset.mem_Ico, Extent.Contains]
    omega
  rw [← Finset.card_filter, hfilter]
  simp

theorem sum_coverage (h : ∀ extent ∈ extents, extent.start + extent.len ≤ size) :
    ∑ addr ∈ Finset.range size, coverage extents addr = (extents.map Extent.len).sum := by
  induction extents with
  | nil => simp [coverage]
  | cons extent extents ih =>
    have hrest := ih fun other hother => h other (List.mem_cons_of_mem _ hother)
    have hfirst := sum_contains (h extent (List.mem_cons_self ..))
    simp only [coverage_cons, Finset.sum_add_distrib, hrest, hfirst, List.map_cons, List.sum_cons]
    omega

theorem coverage_le_one (h : extents.Pairwise Extent.Apart) (addr : Nat) :
    coverage extents addr ≤ 1 := by
  induction extents with
  | nil => simp [coverage]
  | cons extent extents ih =>
    rw [List.pairwise_cons] at h
    have hrest := ih h.2
    rw [coverage_cons]
    split
    · rename_i hcontains
      have hnone : ¬ 0 < coverage extents addr := by
        rw [coverage_pos_iff]
        intro hother
        obtain ⟨other, hmem, hcontained⟩ := hother
        exact (h.1 other hmem).not_contains hcontains hcontained
      omega
    · omega

theorem Extent.exists_shared {left right : Extent} (h : ¬ left.Apart right) :
    ∃ addr, left.Contains addr ∧ right.Contains addr := by
  unfold Apart at h
  refine ⟨max left.start right.start, ?_, ?_⟩
  · unfold Contains
    omega
  · unfold Contains
    omega

theorem pairwise_apart (h : ∀ addr < size, coverage extents addr ≤ 1)
    (hinside : ∀ extent ∈ extents, extent.start + extent.len ≤ size) :
    extents.Pairwise Extent.Apart := by
  induction extents with
  | nil => exact List.Pairwise.nil
  | cons extent extents ih =>
    have hrest : ∀ addr < size, coverage extents addr ≤ 1 := by
      intro addr haddr
      have hall := h addr haddr
      rw [coverage_cons] at hall
      omega
    refine List.Pairwise.cons ?_
      (ih hrest fun other hother => hinside other (List.mem_cons_of_mem _ hother))
    intro other hother
    by_contra hoverlap
    obtain ⟨addr, hfirst, hsecond⟩ := Extent.exists_shared hoverlap
    have hbound := hinside extent (List.mem_cons_self ..)
    have hall := h addr (by unfold Extent.Contains at hfirst; omega)
    have hpos := coverage_pos_iff.mpr ⟨other, hother, hsecond⟩
    rw [coverage_cons, if_pos hfirst] at hall
    omega

theorem coverage_eq_one_iff (hinside : ∀ extent ∈ extents, extent.start + extent.len ≤ size) :
    (∀ addr < size, coverage extents addr = 1) ↔
      extents.Pairwise Extent.Apart ∧ (extents.map Extent.len).sum = size := by
  have hsum := sum_coverage hinside
  constructor
  · intro h
    refine ⟨pairwise_apart (fun addr haddr => Nat.le_of_eq (h addr haddr)) hinside, ?_⟩
    rw [← hsum, Finset.sum_congr rfl fun addr haddr => h addr (Finset.mem_range.mp haddr)]
    simp
  · intro h addr haddr
    have hone : ∑ addr ∈ Finset.range size, coverage extents addr =
        ∑ _addr ∈ Finset.range size, 1 := by
      rw [hsum, h.2]
      simp
    rw [Finset.sum_eq_sum_iff_of_le fun addr _ => coverage_le_one h.1 addr] at hone
    exact hone addr (Finset.mem_range.mpr haddr)

end Extents

namespace Patching

open Extents

variable {α : Type}

def extent (piece : Nat × List α) : Extent := ⟨piece.1, piece.2.length⟩

/-- Every address of the buffer is written exactly once. -/
def WritesOnce (size : Nat) (pieces : List (Nat × List α)) : Prop :=
  ∀ addr < size, coverage (pieces.map extent) addr = 1

instance (size : Nat) (pieces : List (Nat × List α)) : Decidable (WritesOnce size pieces) :=
  inferInstanceAs (Decidable (∀ addr < size, _))

theorem length_overwriteAll_of_inside {pieces : List (Nat × List α)} {out : List α}
    (h : ∀ piece ∈ pieces, piece.1 + piece.2.length ≤ out.length) :
    (overwriteAll out pieces).length = out.length := by
  induction pieces generalizing out with
  | nil => rfl
  | cons piece pieces ih =>
    have hfirst := length_overwrite (h piece (List.mem_cons_self ..))
    rw [overwriteAll_cons, ih, hfirst]
    intro other hother
    rw [hfirst]
    exact h other (List.mem_cons_of_mem _ hother)

theorem getElem?_overwriteAll_eq {pieces : List (Nat × List α)} {out out' : List α} {position : Nat}
    (hlength : out.length = out'.length)
    (hinside : ∀ piece ∈ pieces, piece.1 + piece.2.length ≤ out.length)
    (h : out[position]? = out'[position]? ∨ ∃ piece ∈ pieces, Within position piece) :
    (overwriteAll out pieces)[position]? = (overwriteAll out' pieces)[position]? := by
  induction pieces generalizing out out' with
  | nil => simpa using h
  | cons piece pieces ih =>
    have hfirst := hinside piece (List.mem_cons_self ..)
    have hout := length_overwrite hfirst
    have hout' := length_overwrite (show piece.1 + piece.2.length ≤ out'.length by omega)
    rw [overwriteAll_cons, overwriteAll_cons]
    apply ih
    · omega
    · intro other hother
      rw [hout]
      exact hinside other (List.mem_cons_of_mem _ hother)
    · rw [getElem?_overwrite hfirst, getElem?_overwrite (by omega)]
      by_cases hhere : piece.1 ≤ position ∧ position < piece.1 + piece.2.length
      · rw [if_pos hhere, if_pos hhere]
        exact Or.inl rfl
      · rw [if_neg hhere, if_neg hhere]
        rcases h with hagree | ⟨other, hmem, hwithin⟩
        · exact Or.inl hagree
        · rcases List.mem_cons.mp hmem with rfl | hlater
          · exact absurd hwithin hhere
          · exact Or.inr ⟨other, hlater, hwithin⟩

theorem WritesOnce.overwriteAll_eq {pieces : List (Nat × List α)} {out out' : List α}
    (h : WritesOnce out.length pieces) (hlength : out.length = out'.length)
    (hinside : ∀ piece ∈ pieces, piece.1 + piece.2.length ≤ out.length) :
    overwriteAll out pieces = overwriteAll out' pieces := by
  apply List.ext_getElem?
  intro position
  apply getElem?_overwriteAll_eq hlength hinside
  by_cases hposition : position < out.length
  · right
    have hpos := h position hposition
    have hcovered := coverage_pos_iff.mp (show 0 < coverage (pieces.map extent) position by omega)
    simpa [Extent.Contains, Within, extent] using hcovered
  · left
    rw [List.getElem?_eq_none (by omega), List.getElem?_eq_none (by omega)]

theorem writesOnce_iff {size : Nat} {pieces : List (Nat × List α)}
    (hinside : ∀ piece ∈ pieces, piece.1 + piece.2.length ≤ size) :
    WritesOnce size pieces ↔ (pieces.map extent).Pairwise Extent.Apart ∧
      (pieces.map fun piece => piece.2.length).sum = size := by
  have hextents : ∀ stretch ∈ pieces.map extent, stretch.start + stretch.len ≤ size := by
    intro stretch hstretch
    obtain ⟨piece, hpiece, rfl⟩ := List.mem_map.mp hstretch
    exact hinside piece hpiece
  have hlens : (pieces.map extent).map Extent.len = pieces.map fun piece => piece.2.length := by
    rw [List.map_map]
    rfl
  rw [WritesOnce, coverage_eq_one_iff hextents, hlens]

end Patching
