import Mathlib.Data.List.Nodup
import Mathlib.Data.List.Perm.Basic
import Mathlib.Logic.Function.Basic

/-! Stretches of an address space that do not overlap, and a memory with one cell for
each address: what a write leaves alone, and how a stretch is cut into equal pieces. -/
namespace Extents

/-- The addresses from `start` on, `len` of them. -/
structure Extent where
  start : Nat
  len : Nat
deriving DecidableEq, Repr

namespace Extent

def Contains (extent : Extent) (addr : Nat) : Prop :=
  extent.start ≤ addr ∧ addr < extent.start + extent.len

instance (extent : Extent) (addr : Nat) : Decidable (extent.Contains addr) :=
  inferInstanceAs (Decidable (_ ∧ _))

def Apart (left right : Extent) : Prop :=
  left.len = 0 ∨ right.len = 0 ∨ left.start + left.len ≤ right.start ∨
    right.start + right.len ≤ left.start

instance (left right : Extent) : Decidable (left.Apart right) :=
  inferInstanceAs (Decidable (_ ∨ _ ∨ _ ∨ _))

def Inside (inner outer : Extent) : Prop :=
  outer.start ≤ inner.start ∧ inner.start + inner.len ≤ outer.start + outer.len

variable {left right inner outer : Extent} {addr : Nat}

theorem Apart.symm (h : left.Apart right) : right.Apart left := by
  unfold Apart at h ⊢
  omega

theorem Apart.not_contains (h : left.Apart right) (hleft : left.Contains addr) :
    ¬right.Contains addr := by
  unfold Apart at h
  unfold Contains at hleft ⊢
  omega

theorem Apart.inside (h : outer.Apart right) (hinner : inner.Inside outer) : inner.Apart right := by
  unfold Apart at h ⊢
  unfold Inside at hinner
  omega

theorem Apart.ne (h : left.Apart right) (hpos : 0 < left.len) : left ≠ right := by
  rintro rfl
  unfold Apart at h
  omega

theorem Apart.start_ne (h : left.Apart right) (hleft : 0 < left.len) (hright : 0 < right.len) :
    left.start ≠ right.start := by
  unfold Apart at h
  omega

theorem Inside.contains (h : inner.Inside outer) (hinner : inner.Contains addr) :
    outer.Contains addr := by
  unfold Inside at h
  unfold Contains at hinner ⊢
  omega

end Extent

section Pieces

variable {base size count : Nat}

theorem piece_inside {start : Nat} (h : start ∈ List.range' base count size) {len : Nat}
    (hlen : count * size ≤ len) : (Extent.mk start size).Inside ⟨base, len⟩ := by
  obtain ⟨i, hi, rfl⟩ := List.mem_range'.mp h
  have hend : size * i + size ≤ count * size := by
    calc size * i + size = (i + 1) * size := by rw [Nat.add_mul, Nat.one_mul, Nat.mul_comm]
      _ ≤ count * size := Nat.mul_le_mul_right size hi
  unfold Extent.Inside
  dsimp only
  omega

theorem pieces_apart (base size count : Nat) : (List.range' base count size).Pairwise fun left right =>
    (Extent.mk left size).Apart ⟨right, size⟩ := by
  induction count generalizing base with
  | zero => exact List.Pairwise.nil
  | succ count ih =>
    rw [List.range'_succ]
    refine List.Pairwise.cons ?_ (ih (base + size))
    intro later hlater
    obtain ⟨i, -, rfl⟩ := List.mem_range'.mp hlater
    unfold Extent.Apart
    dsimp only
    omega

end Pieces

section Memory

variable {α : Type} {memory : Nat → α}

def load (memory : Nat → α) (start len : Nat) : List α := (List.range' start len).map memory

def store (memory : Nat → α) (start : Nat) (values : List α) : Nat → α :=
  fun addr => if start ≤ addr then (values[addr - start]?).getD (memory addr) else memory addr

def fill (memory : Nat → α) (extent : Extent) (value : α) : Nat → α :=
  fun addr => if extent.Contains addr then value else memory addr

theorem store_outside {start addr : Nat} {values : List α}
    (h : ¬(Extent.mk start values.length).Contains addr) : store memory start values addr = memory addr := by
  unfold store
  split
  · rename_i hstart
    have hlength : values.length ≤ addr - start := by
      unfold Extent.Contains at h
      dsimp only at h
      omega
    rw [List.getElem?_eq_none hlength, Option.getD_none]
  · rfl

@[simp] theorem length_load (memory : Nat → α) (start len : Nat) :
    (load memory start len).length = len := by
  simp [load]

theorem load_store (memory : Nat → α) (start : Nat) (values : List α) :
    load (store memory start values) start values.length = values := by
  apply List.ext_getElem
  · simp
  · intro i hleft hright
    simp [load, store, hright]

theorem fill_inside {extent : Extent} {value : α} {addr : Nat} (h : extent.Contains addr) :
    fill memory extent value addr = value := if_pos h

theorem fill_outside {extent : Extent} {value : α} {addr : Nat} (h : ¬extent.Contains addr) :
    fill memory extent value addr = memory addr := if_neg h

theorem load_congr {memory' : Nat → α} {start len : Nat}
    (h : ∀ addr, (Extent.mk start len).Contains addr → memory' addr = memory addr) :
    load memory' start len = load memory start len := by
  apply List.map_congr_left
  intro addr haddr
  rw [List.mem_range'_1] at haddr
  exact h addr haddr

end Memory

end Extents
