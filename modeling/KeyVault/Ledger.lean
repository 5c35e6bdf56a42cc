import Mathlib.Algebra.Order.BigOperators.Group.List
import Mathlib.Algebra.Order.Group.Nat
import Mathlib.Algebra.Ring.Nat
import Mathlib.Data.List.Nodup
import Mathlib.Data.List.Perm.Basic
import Mathlib.Logic.Function.Basic

/-! Reference counts against the references that exist. A count is right if it is the
number of times the item occurs in the list of all references; taking and giving back
a reference changes both alike, and the references of many holders are looked at one
holder at a time, whether the holders are numbered or named. -/
namespace Ledger

variable {α β : Type}

section Counts

variable [DecidableEq α]

/-- Every item is counted as often as it is held. -/
def Balanced (refs : α → Nat) (held : List α) : Prop := ∀ item, refs item = held.count item

variable {refs : α → Nat} {held held' : List α} {item : α}

theorem Balanced.perm (h : Balanced refs held) (hperm : held.Perm held') : Balanced refs held' :=
  fun item => (h item).trans (hperm.count_eq item)

theorem Balanced.pos_iff (h : Balanced refs held) : 0 < refs item ↔ item ∈ held := by
  rw [h item, List.count_pos_iff]

theorem Balanced.acquire (h : Balanced refs held) (item : α) :
    Balanced (Function.update refs item (refs item + 1)) (item :: held) := by
  intro other
  by_cases hother : other = item
  · subst hother
    rw [Function.update_self, List.count_cons_self, h other]
  · rw [Function.update_of_ne hother, List.count_cons_of_ne (Ne.symm hother), h other]

theorem Balanced.release (h : Balanced refs (item :: held)) :
    Balanced (Function.update refs item (refs item - 1)) held := by
  intro other
  by_cases hother : other = item
  · subst hother
    rw [Function.update_self, h other, List.count_cons_self, Nat.add_sub_cancel]
  · rw [Function.update_of_ne hother, h other, List.count_cons_of_ne (Ne.symm hother)]

end Counts

section Holders

variable {items : List β} {position : Nat} {old : β}

theorem perm_flatMap_getElem? (h : items[position]? = some old) (f : β → List α) :
    (items.flatMap f).Perm (f old ++ (items.eraseIdx position).flatMap f) := by
  obtain ⟨hlt, hget⟩ := List.getElem?_eq_some_iff.mp h
  have hperm := (List.getElem_cons_eraseIdx_perm hlt).flatMap_right f
  rw [hget] at hperm
  exact hperm.symm

theorem perm_flatMap_set (h : items[position]? = some old) (f : β → List α) (new : β) :
    ((items.set position new).flatMap f).Perm (f new ++ (items.eraseIdx position).flatMap f) := by
  obtain ⟨hlt, -⟩ := List.getElem?_eq_some_iff.mp h
  have hperm := perm_flatMap_getElem? (List.getElem?_set_self hlt : _ = some new) f
  rw [List.eraseIdx_set_eq] at hperm
  exact hperm

end Holders

section Families

variable {ι : Type} {keys : List ι}

theorem perm_flatMap_update [DecidableEq ι] (hnodup : keys.Nodup) {key : ι} (hkey : key ∈ keys)
    (lists : ι → List β) {moved rest : List β} (h : (lists key).Perm (moved ++ rest)) :
    (keys.flatMap lists).Perm (moved ++ keys.flatMap (Function.update lists key rest)) := by
  have hsplit := List.perm_cons_erase hkey
  have hothers : (keys.erase key).flatMap (Function.update lists key rest) =
      (keys.erase key).flatMap lists := by
    apply List.flatMap_congr
    intro other hother
    have hne : other ≠ key := by
      rintro rfl
      exact (hnodup.not_mem_erase) hother
    rw [Function.update_of_ne hne]
  have hafter := hsplit.flatMap_right (Function.update lists key rest)
  rw [List.flatMap_cons, Function.update_self, hothers] at hafter
  have hbefore := hsplit.flatMap_right lists
  rw [List.flatMap_cons] at hbefore
  apply hbefore.trans
  apply (h.append_right _).trans
  rw [List.append_assoc]
  exact hafter.symm.append_left moved

theorem perm_flatMap_iff {had due : ι → List β} (h : ∀ key ∈ keys, (had key).Sublist (due key)) :
    (keys.flatMap had).Perm (keys.flatMap due) ↔ ∀ key ∈ keys, had key = due key := by
  constructor
  · intro hperm
    induction keys with
    | nil => simp
    | cons key keys ih =>
      obtain ⟨hkey, hrest⟩ := List.forall_mem_cons.mp h
      rw [List.flatMap_cons, List.flatMap_cons] at hperm
      have hlengths := hperm.length_eq
      rw [List.length_append, List.length_append] at hlengths
      have hle : (keys.flatMap had).length ≤ (keys.flatMap due).length := by
        rw [List.length_flatMap, List.length_flatMap]
        apply List.sum_le_sum
        intro other hother
        exact (hrest other hother).length_le
      have hsame : had key = due key := by
        apply hkey.eq_of_length
        have hshort := hkey.length_le
        omega
      rw [hsame, List.perm_append_left_iff] at hperm
      exact List.forall_mem_cons.mpr ⟨hsame, ih hrest hperm⟩
  · intro hsame
    rw [List.flatMap_congr hsame]

end Families

end Ledger
