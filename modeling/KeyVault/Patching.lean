import Mathlib.Data.List.Basic

/-! Filling a buffer piece by piece. Every piece written is the part of one fixed
list that belongs at its position, so a later write never spoils an earlier one,
and pieces that cover the whole list leave exactly that list behind, in whatever
order they were written and whatever the buffer held before. -/
namespace Patching

variable {α : Type}

def overwrite (out : List α) (start : Nat) (piece : List α) : List α :=
  out.take start ++ piece ++ out.drop (start + piece.length)

/-- `piece` is the part of `whole` that starts at `start`. -/
def IsPart (whole : List α) (start : Nat) (piece : List α) : Prop :=
  start + piece.length ≤ whole.length ∧ (whole.drop start).take piece.length = piece

def Within (position : Nat) (piece : Nat × List α) : Prop :=
  piece.1 ≤ position ∧ position < piece.1 + piece.2.length

def overwriteAll (out : List α) (pieces : List (Nat × List α)) : List α :=
  pieces.foldl (fun out piece => overwrite out piece.1 piece.2) out

@[simp] theorem overwriteAll_nil (out : List α) : overwriteAll out [] = out := rfl

@[simp] theorem overwriteAll_cons (out : List α) (piece : Nat × List α)
    (pieces : List (Nat × List α)) :
    overwriteAll out (piece :: pieces) =
      overwriteAll (overwrite out piece.1 piece.2) pieces := rfl

theorem overwriteAll_append (out : List α) (left right : List (Nat × List α)) :
    overwriteAll out (left ++ right) = overwriteAll (overwriteAll out left) right :=
  List.foldl_append

theorem length_overwrite {out piece : List α} {start : Nat}
    (h : start + piece.length ≤ out.length) :
    (overwrite out start piece).length = out.length := by
  simp only [overwrite, List.length_append, List.length_take, List.length_drop]
  omega

theorem set_eq_overwrite {out : List α} {position : Nat} (h : position < out.length)
    (value : α) : out.set position value = overwrite out position [value] := by
  unfold overwrite
  rw [List.set_eq_take_append_cons_drop, if_pos h]
  simp

theorem overwrite_append_left (out piece rest : List α) (start : Nat)
    (h : start = out.length) :
    overwrite (out ++ rest) start piece = out ++ piece ++ rest.drop piece.length := by
  subst h
  unfold overwrite
  rw [List.take_left, ← List.drop_drop, List.drop_left]

theorem getElem?_overwrite {out piece : List α} {start : Nat}
    (h : start + piece.length ≤ out.length) (position : Nat) :
    (overwrite out start piece)[position]? =
      if start ≤ position ∧ position < start + piece.length then piece[position - start]?
      else out[position]? := by
  have hstart : (out.take start).length = start := by
    rw [List.length_take]
    omega
  unfold overwrite
  by_cases hbefore : position < start
  · rw [List.append_assoc, List.getElem?_append_left (by omega), List.getElem?_take_of_lt hbefore,
      if_neg (by omega)]
  · by_cases hinside : position < start + piece.length
    · rw [List.getElem?_append_left (by rw [List.length_append]; omega),
        List.getElem?_append_right (by omega), hstart, if_pos (by omega)]
    · rw [List.getElem?_append_right (by rw [List.length_append]; omega), List.length_append,
        hstart, List.getElem?_drop, if_neg (by omega)]
      congr 1
      omega

theorem getElem?_overwrite_part {whole out piece : List α} {start : Nat}
    (hpart : IsPart whole start piece) (hlength : out.length = whole.length) (position : Nat) :
    (overwrite out start piece)[position]? =
      if start ≤ position ∧ position < start + piece.length then whole[position]?
      else out[position]? := by
  obtain ⟨hfits, hpiece⟩ := hpart
  rw [getElem?_overwrite (by omega)]
  by_cases hinside : start ≤ position ∧ position < start + piece.length
  · rw [if_pos hinside, if_pos hinside, ← hpiece, List.getElem?_take_of_lt (by omega),
      List.getElem?_drop]
    congr 1
    omega
  · rw [if_neg hinside, if_neg hinside]

theorem length_overwriteAll {whole : List α} {pieces : List (Nat × List α)} {out : List α}
    (hparts : ∀ piece ∈ pieces, IsPart whole piece.1 piece.2)
    (hlength : out.length = whole.length) :
    (overwriteAll out pieces).length = whole.length := by
  induction pieces generalizing out with
  | nil => exact hlength
  | cons piece pieces ih =>
    rw [overwriteAll_cons]
    have hpart := hparts piece (List.mem_cons_self ..)
    apply ih (fun piece hmem => hparts piece (List.mem_cons_of_mem _ hmem))
    rw [length_overwrite (by rw [hlength]; exact hpart.1), hlength]

theorem getElem?_overwriteAll {whole : List α} {pieces : List (Nat × List α)} {out : List α}
    {position : Nat} (hparts : ∀ piece ∈ pieces, IsPart whole piece.1 piece.2)
    (hlength : out.length = whole.length)
    (hcovered : out[position]? = whole[position]? ∨ ∃ piece ∈ pieces, Within position piece) :
    (overwriteAll out pieces)[position]? = whole[position]? := by
  induction pieces generalizing out with
  | nil =>
    rcases hcovered with hagree | ⟨piece, hmem, -⟩
    · exact hagree
    · cases hmem
  | cons piece pieces ih =>
    have hpart := hparts piece (List.mem_cons_self ..)
    have hwritten := getElem?_overwrite_part hpart hlength position
    rw [overwriteAll_cons]
    apply ih (fun piece hmem => hparts piece (List.mem_cons_of_mem _ hmem))
    · rw [length_overwrite (by rw [hlength]; exact hpart.1), hlength]
    · by_cases hhere : piece.1 ≤ position ∧ position < piece.1 + piece.2.length
      · left
        rw [hwritten, if_pos hhere]
      · rw [hwritten, if_neg hhere]
        rcases hcovered with hagree | ⟨other, hmem, hwithin⟩
        · exact Or.inl hagree
        · rcases List.mem_cons.mp hmem with rfl | hlater
          · exact absurd hwithin hhere
          · exact Or.inr ⟨other, hlater, hwithin⟩

theorem overwriteAll_eq {whole out : List α} {pieces : List (Nat × List α)}
    (hparts : ∀ piece ∈ pieces, IsPart whole piece.1 piece.2)
    (hcover : ∀ position < whole.length, ∃ piece ∈ pieces, Within position piece)
    (hlength : out.length = whole.length) : overwriteAll out pieces = whole := by
  apply List.ext_getElem?
  intro position
  by_cases hinside : position < whole.length
  · exact getElem?_overwriteAll hparts hlength (Or.inr (hcover position hinside))
  · have hwhole : whole.length ≤ position := by omega
    rw [List.getElem?_eq_none hwhole,
      List.getElem?_eq_none (by rw [length_overwriteAll hparts hlength]; exact hwhole)]

end Patching
