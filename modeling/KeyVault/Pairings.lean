import Mathlib.Logic.Function.Basic
import Mathlib.Data.List.Nodup
import Mathlib.Data.List.Perm.Basic

/-! Functions put together from pairs whose two ends are sent to each other. When no
element is an end twice, the order of the pairs does not matter, and starting from the
identity gives an involution that moves exactly the ends. -/
namespace Pairings

variable {α : Type}

def ends (pairs : List (α × α)) : List α := pairs.flatMap fun pair => [pair.1, pair.2]

@[simp] theorem ends_cons (pair : α × α) (pairs : List (α × α)) :
    ends (pair :: pairs) = pair.1 :: pair.2 :: ends pairs := rfl

theorem mem_ends {pairs : List (α × α)} {x : α} :
    x ∈ ends pairs ↔ ∃ pair ∈ pairs, x = pair.1 ∨ x = pair.2 := by
  simp [ends]

theorem ends_perm {pairs pairs' : List (α × α)} (h : pairs.Perm pairs') :
    (ends pairs).Perm (ends pairs') := h.flatMap_right _

def adjacentPairs : List α → List (α × α)
  | a :: b :: rest => (a, b) :: adjacentPairs rest
  | _ => []

theorem ends_adjacentPairs {list : List α} (h : list.length % 2 = 0) :
    ends (adjacentPairs list) = list := by
  fun_induction adjacentPairs list with
  | case1 a b rest ih =>
    simp only [List.length_cons] at h
    rw [ends_cons, ih (by omega)]
  | case2 list hshort =>
    match list with
    | [] => rfl
    | [a] => simp at h
    | a :: b :: rest => exact absurd rfl (hshort a b rest)

theorem adjacentPairs_map {β : Type} (relabel : α → β) (list : List α) :
    adjacentPairs (list.map relabel) = (adjacentPairs list).map (Prod.map relabel relabel) := by
  fun_induction adjacentPairs list with
  | case1 a b rest ih => simp [adjacentPairs, ih]
  | case2 list hshort =>
    match list with
    | [] => rfl
    | [a] => rfl
    | a :: b :: rest => exact absurd rfl (hshort a b rest)

variable [DecidableEq α]

def exchange (f : α → α) (pair : α × α) : α → α :=
  Function.update (Function.update f pair.1 pair.2) pair.2 pair.1

def exchangeAll (f : α → α) (pairs : List (α × α)) : α → α := pairs.foldl exchange f

variable {pairs pairs' : List (α × α)} {x : α}

theorem exchangeAll_of_not_mem (f : α → α) (h : x ∉ ends pairs) : exchangeAll f pairs x = f x := by
  induction pairs generalizing f with
  | nil => rfl
  | cons pair pairs ih =>
    simp only [ends_cons, List.mem_cons, not_or] at h
    obtain ⟨hfirst, hsecond, hrest⟩ := h
    show exchangeAll (exchange f pair) pairs x = f x
    rw [ih _ hrest, exchange, Function.update_of_ne hsecond, Function.update_of_ne hfirst]

theorem exchangeAll_of_mem (f : α → α) (hnodup : (ends pairs).Nodup) {pair : α × α}
    (h : pair ∈ pairs) :
    exchangeAll f pairs pair.1 = pair.2 ∧ exchangeAll f pairs pair.2 = pair.1 := by
  induction pairs generalizing f with
  | nil => cases h
  | cons first pairs ih =>
    simp only [ends_cons, List.nodup_cons, List.mem_cons, not_or] at hnodup
    obtain ⟨⟨hne, hfirst⟩, hsecond, hrest⟩ := hnodup
    show exchangeAll (exchange f first) pairs pair.1 = pair.2 ∧
      exchangeAll (exchange f first) pairs pair.2 = pair.1
    rcases List.mem_cons.mp h with rfl | hlater
    · rw [exchangeAll_of_not_mem _ hfirst, exchangeAll_of_not_mem _ hsecond]
      simp [exchange, Function.update_of_ne hne]
    · exact ih _ hrest hlater

theorem exchangeAll_congr (f : α → α) (hnodup : (ends pairs).Nodup) (h : pairs.Perm pairs') :
    exchangeAll f pairs = exchangeAll f pairs' := by
  have hnodup' : (ends pairs').Nodup := (ends_perm h).nodup_iff.mp hnodup
  funext x
  by_cases hx : x ∈ ends pairs
  · obtain ⟨pair, hpair, hend⟩ := mem_ends.mp hx
    have hleft := exchangeAll_of_mem f hnodup hpair
    have hright := exchangeAll_of_mem f hnodup' (h.mem_iff.mp hpair)
    rcases hend with rfl | rfl
    · rw [hleft.1, hright.1]
    · rw [hleft.2, hright.2]
  · have hx' : x ∉ ends pairs' := fun hmem => hx ((ends_perm h).mem_iff.mpr hmem)
    rw [exchangeAll_of_not_mem f hx, exchangeAll_of_not_mem f hx']

theorem exchangeAll_involutive (hnodup : (ends pairs).Nodup) :
    Function.Involutive (exchangeAll id pairs) := by
  intro x
  by_cases hx : x ∈ ends pairs
  · obtain ⟨pair, hpair, hend⟩ := mem_ends.mp hx
    obtain ⟨hfirst, hsecond⟩ := exchangeAll_of_mem id hnodup hpair
    rcases hend with rfl | rfl
    · rw [hfirst, hsecond]
    · rw [hsecond, hfirst]
  · have hfixed : exchangeAll id pairs x = x := exchangeAll_of_not_mem id hx
    rw [hfixed, hfixed]

theorem exchangeAll_ne_self (f : α → α) (hnodup : (ends pairs).Nodup) (hx : x ∈ ends pairs) :
    exchangeAll f pairs x ≠ x := by
  obtain ⟨pair, hpair, hend⟩ := mem_ends.mp hx
  obtain ⟨hfirst, hsecond⟩ := exchangeAll_of_mem f hnodup hpair
  have hne : pair.1 ≠ pair.2 := by
    obtain ⟨before, after, rfl⟩ := List.append_of_mem hpair
    have hpiece : (ends (pair :: after)).Nodup := by
      rw [ends, List.flatMap_append] at hnodup
      exact hnodup.of_append_right
    simp only [ends_cons, List.nodup_cons, List.mem_cons, not_or] at hpiece
    exact hpiece.1.1
  rcases hend with rfl | rfl
  · rw [hfirst]
    exact hne.symm
  · rw [hsecond]
    exact hne

theorem exchangeAll_map {β : Type} [DecidableEq β] {relabel : α → β}
    (hrelabel : Function.Injective relabel) {f : α → α} {g : β → β}
    (h : ∀ x, g (relabel x) = relabel (f x)) (pairs : List (α × α)) (x : α) :
    exchangeAll g (pairs.map (Prod.map relabel relabel)) (relabel x) =
      relabel (exchangeAll f pairs x) := by
  induction pairs generalizing f g with
  | nil => exact h x
  | cons pair pairs ih =>
    apply ih
    intro x
    simp only [exchange, Prod.map, Function.update_apply, hrelabel.eq_iff, h, apply_ite relabel]

end Pairings
