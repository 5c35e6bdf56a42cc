import Mathlib.Data.List.Nodup
import Mathlib.Logic.Function.Basic

/-! Loops over equally spaced addresses that leave when they reach the last one, with
a counter that must not run out of its range; and what such a loop does to a state
that has one cell for each address. -/
namespace StrideLoop

variable {σ β : Type}

/-- `loop { body; if addr == last { break }; addr += stride }` with a counter below
`bound`. There is no outcome if the counter leaves its range or the fuel runs out. -/
def walk (bound stride last : Nat) (body : Nat → σ → σ) : Nat → Nat → σ → Option σ
  | 0, _, _ => none
  | fuel + 1, addr, s =>
      if addr = last then some (body addr s)
      else if addr + stride < bound then walk bound stride last body fuel (addr + stride) (body addr s)
      else none

theorem walk_eq {bound stride first count fuel : Nat} (body : Nat → σ → σ)
    (hstride : 0 < stride) (hbound : first + count * stride < bound) (hfuel : count < fuel) (s : σ) :
    walk bound stride (first + count * stride) body fuel first s =
      some ((List.range' first (count + 1) stride).foldl (fun s addr => body addr s) s) := by
  induction count generalizing first fuel s with
  | zero =>
    obtain ⟨fuel, rfl⟩ := Nat.exists_eq_succ_of_ne_zero (Nat.ne_of_gt hfuel)
    simp [walk]
  | succ count ih =>
    obtain ⟨fuel, rfl⟩ := Nat.exists_eq_succ_of_ne_zero (Nat.ne_of_gt (Nat.zero_lt_of_lt hfuel))
    have hlast : first + (count + 1) * stride = first + stride + count * stride := by
      rw [Nat.succ_mul]
      omega
    have hmore : first ≠ first + stride + count * stride := by omega
    rw [hlast] at hbound ⊢
    have hroom : first + stride < bound := by omega
    simp only [walk, if_neg hmore, if_pos hroom, ih hbound (Nat.lt_of_succ_lt_succ hfuel),
      List.range'_succ, List.foldl_cons]

section Cells

variable {view : σ → Nat → β} {body : Nat → σ → σ} {cell : Nat → β → β}

theorem view_foldl (hbody : ∀ addr s, view (body addr s) =
      Function.update (view s) addr (cell addr (view s addr)))
    {addrs : List Nat} (hnodup : addrs.Nodup) (s : σ) (addr : Nat) :
    view (addrs.foldl (fun s addr => body addr s) s) addr =
      if addr ∈ addrs then cell addr (view s addr) else view s addr := by
  induction addrs generalizing s with
  | nil => simp
  | cons first addrs ih =>
    obtain ⟨hfirst, hrest⟩ := List.nodup_cons.mp hnodup
    rw [List.foldl_cons, ih hrest, hbody]
    by_cases haddr : addr = first
    · subst haddr
      simp [hfirst]
    · simp [haddr]

theorem foldl_all (hbody : ∀ addr s, view (body addr s) =
      Function.update (view s) addr (cell addr (view s addr)))
    (test : Nat → β → Bool) {addrs : List Nat} (hnodup : addrs.Nodup) (all : Bool) (s : σ) :
    addrs.foldl (fun (acc : Bool × σ) addr =>
        (acc.1 && test addr (view acc.2 addr), body addr acc.2)) (all, s) =
      (all && addrs.all fun addr => test addr (view s addr),
        addrs.foldl (fun s addr => body addr s) s) := by
  induction addrs generalizing all s with
  | nil => simp
  | cons first addrs ih =>
    obtain ⟨hfirst, hrest⟩ := List.nodup_cons.mp hnodup
    have hlater : (addrs.all fun addr => test addr (view (body first s) addr)) =
        addrs.all fun addr => test addr (view s addr) := by
      rw [Bool.eq_iff_iff, List.all_eq_true, List.all_eq_true]
      refine forall_congr' fun addr => forall_congr' fun haddr => ?_
      have hne : addr ≠ first := by
        rintro rfl
        exact hfirst haddr
      rw [hbody, Function.update_of_ne hne]
    rw [List.foldl_cons, List.foldl_cons, ih hrest, hlater, List.all_cons, Bool.and_assoc]

end Cells

end StrideLoop
