import KeyVault.Rng
import KeyVault.UniformLaw
import Mathlib.Data.List.Permutation

/-! The shuffle as a map from choices to rearrangements. A run draws one choice
for every index from the last down to 1, none above its index. Every swap fixes
what its index holds in the end, so distinct elements leave one choice for it. -/
namespace KeyVault

open scoped Nat

/-- Choices for the indices from `i` down, in that order; none is above its index. -/
structure ReducedChoices (i : Nat) (choices : List Nat) : Prop where
  length_le : choices.length ≤ i
  le_index : ∀ back j, choices[back]? = some j → j ≤ i - back

/-- The choices `fisher_yates` draws for the indices from `i` down to 1, up to the
first failure of the source. -/
def drawn : Nat → Rng → List Nat
  | 0, _ => []
  | i + 1, rng =>
      match randomU64 rng with
      | .error _ => []
      | .ok (r, rng) => r % (i + 2) :: drawn i rng

/-- The swaps of the given choices, the first of them at index `i`. -/
def rearrange {α : Type} : Nat → List Nat → List α → List α
  | 0, _, slice => slice
  | _ + 1, [], slice => slice
  | i + 1, j :: choices, slice => rearrange i choices (swap slice (i + 1) j)

/-- One choice for every index from `i` down to 1, in every way. -/
def allChoices : Nat → List (List Nat)
  | 0 => [[]]
  | i + 1 => (List.range (i + 2)).flatMap fun j => (allChoices i).map (j :: ·)

section Choices

variable {i : Nat} {choices : List Nat}

theorem ReducedChoices.nil (i : Nat) : ReducedChoices i [] where
  length_le := Nat.zero_le i
  le_index := by simp

theorem reducedChoices_cons {j : Nat} :
    ReducedChoices (i + 1) (j :: choices) ↔ j ≤ i + 1 ∧ ReducedChoices i choices := by
  constructor
  · intro h
    refine ⟨h.le_index 0 j rfl, ?_, ?_⟩
    · have hlength := h.length_le
      rw [List.length_cons] at hlength
      omega
    · intro back k hk
      have hle := h.le_index (back + 1) k (by simpa using hk)
      omega
  · rintro ⟨hj, h⟩
    refine ⟨?_, ?_⟩
    · have hlength := h.length_le
      rw [List.length_cons]
      omega
    · intro back k hk
      cases back with
      | zero =>
        have heq : j = k := by simpa using hk
        omega
      | succ back =>
        have hle := h.le_index back k (by simpa using hk)
        omega

theorem mem_allChoices :
    choices ∈ allChoices i ↔ ReducedChoices i choices ∧ choices.length = i := by
  induction i generalizing choices with
  | zero =>
    rw [allChoices, List.mem_singleton]
    constructor
    · rintro rfl
      exact ⟨.nil 0, rfl⟩
    · rintro ⟨-, hlength⟩
      exact List.length_eq_zero_iff.mp hlength
  | succ i ih =>
    simp only [allChoices, List.mem_flatMap, List.mem_range, List.mem_map, ih]
    constructor
    · rintro ⟨j, hj, rest, ⟨hrest, hlength⟩, rfl⟩
      exact ⟨reducedChoices_cons.mpr ⟨by omega, hrest⟩, by rw [List.length_cons, hlength]⟩
    · rintro ⟨hchoices, hlength⟩
      cases choices with
      | nil => cases hlength
      | cons j rest =>
        obtain ⟨hj, hrest⟩ := reducedChoices_cons.mp hchoices
        exact ⟨j, by omega, rest, ⟨hrest, by simpa using hlength⟩, rfl⟩

theorem nodup_allChoices (i : Nat) : (allChoices i).Nodup := by
  induction i with
  | zero => exact List.nodup_singleton _
  | succ i ih =>
    rw [allChoices, List.nodup_flatMap]
    refine ⟨?_, ?_⟩
    · intro j _
      exact ih.map (List.cons_injective)
    · refine List.nodup_range.imp ?_
      intro j k hne choices hj hk
      obtain ⟨rest, -, rfl⟩ := List.mem_map.mp hj
      obtain ⟨rest', -, heq⟩ := List.mem_map.mp hk
      injection heq with hhead
      exact hne hhead.symm

theorem length_allChoices (i : Nat) : (allChoices i).length = (i + 1)! := by
  induction i with
  | zero => rfl
  | succ i ih =>
    rw [allChoices, List.length_flatMap]
    simp only [List.length_map, ih, List.map_const', List.length_range, List.sum_replicate]
    rw [Nat.factorial_succ (i + 1)]
    rfl

end Choices

section Swap

variable {α : Type} {slice : List α} {i j k : Nat}

theorem getElem?_swap (hi : i < slice.length) (hj : j < slice.length) :
    (swap slice i j)[i]? = slice[j]? := by
  unfold swap
  rw [List.getElem?_eq_getElem hi, List.getElem?_eq_getElem hj]
  dsimp only
  by_cases h : j = i
  · subst h
    simp [hj]
  · rw [List.getElem?_set_ne h, List.getElem?_set_self hi]

theorem drop_swap (hi : i < k) (hj : j < k) : (swap slice i j).drop k = slice.drop k := by
  unfold swap
  split
  · rw [List.drop_set_of_lt hj, List.drop_set_of_lt hi]
  · rfl

end Swap

/-! ### A run and its choices -/

theorem rearrange_perm {α : Type} (i : Nat) (choices : List Nat) (slice : List α) :
    (rearrange i choices slice).Perm slice := by
  induction i generalizing choices slice with
  | zero => exact List.Perm.refl slice
  | succ i ih =>
    cases choices with
    | nil => exact List.Perm.refl slice
    | cons j choices => exact (ih choices _).trans (swap_perm slice _ _)

theorem drawn_reduced (i : Nat) (rng : Rng) : ReducedChoices i (drawn i rng) := by
  induction i generalizing rng with
  | zero => exact .nil 0
  | succ i ih =>
    unfold drawn
    cases randomU64 rng with
    | error exit => exact .nil _
    | ok next =>
      have hmod := Nat.mod_lt next.1 (show 0 < i + 2 by omega)
      exact reducedChoices_cons.mpr ⟨by omega, ih next.2⟩

theorem fisherYatesFrom_rearranges {α : Type} (i : Nat) (slice : List α) (rng : Rng) :
    (fisherYatesFrom i slice rng).2 = rearrange i (drawn i rng) slice ∧
      ((∃ rng', (fisherYatesFrom i slice rng).1 = .ok rng') ↔ (drawn i rng).length = i) := by
  induction i generalizing slice rng with
  | zero => simp [fisherYatesFrom, rearrange, drawn]
  | succ i ih =>
    unfold fisherYatesFrom drawn
    cases randomU64 rng with
    | error exit => simp [rearrange]
    | ok next =>
      obtain ⟨hslice, hok⟩ := ih (swap slice (i + 1) (next.1 % (i + 2))) next.2
      refine ⟨hslice, ?_⟩
      rw [List.length_cons, Nat.succ_inj]
      exact hok

theorem drop_rearrange {α : Type} {i : Nat} {choices : List Nat} (slice : List α)
    (h : ReducedChoices i choices) :
    (rearrange i choices slice).drop (i + 1) = slice.drop (i + 1) := by
  induction i generalizing choices slice with
  | zero => rfl
  | succ i ih =>
    cases choices with
    | nil => rfl
    | cons j choices =>
      obtain ⟨hj, hrest⟩ := reducedChoices_cons.mp h
      have hlater := congrArg (List.drop 1) (ih (swap slice (i + 1) j) hrest)
      simp only [List.drop_drop] at hlater
      rw [rearrange, hlater]
      exact drop_swap (by omega) (by omega)

theorem getElem?_rearrange {α : Type} {i j : Nat} {choices : List Nat} {slice : List α}
    (hchoices : ReducedChoices (i + 1) (j :: choices)) (hi : i + 1 < slice.length) :
    (rearrange (i + 1) (j :: choices) slice)[i + 1]? = slice[j]? := by
  obtain ⟨hj, hrest⟩ := reducedChoices_cons.mp hchoices
  have hkept := drop_rearrange (swap slice (i + 1) j) hrest
  have hat := congrArg (fun list => list[0]?) hkept
  simp only [List.getElem?_drop, Nat.add_zero] at hat
  rw [rearrange, hat]
  exact getElem?_swap hi (by omega)

theorem perm_eq_of_drop_one {α : Type} {target slice : List α} (hperm : target.Perm slice)
    (hdrop : target.drop 1 = slice.drop 1) : target = slice := by
  cases slice with
  | nil => exact List.perm_nil.mp hperm
  | cons head tail =>
    cases target with
    | nil => exact absurd hperm.length_eq (by simp)
    | cons head' tail' =>
      have htail : tail' = tail := hdrop
      subst htail
      rw [List.singleton_perm_singleton.mp ((List.perm_append_right_iff tail').mp
        (show ([head'] ++ tail').Perm ([head] ++ tail') from hperm))]

theorem exists_choice {α : Type} {target slice : List α} {i : Nat} (hslice : slice.Nodup)
    (hperm : target.Perm slice) (hi : i < slice.length)
    (hdrop : target.drop (i + 1) = slice.drop (i + 1)) :
    ∃ j ≤ i, slice[j]? = target[i]? := by
  have hlt : i < target.length := by
    rw [hperm.length_eq]
    exact hi
  obtain ⟨j, hj, hvalue⟩ := List.mem_iff_getElem.mp
    (hperm.mem_iff.mp (List.getElem_mem hlt))
  refine ⟨j, ?_, ?_⟩
  · by_contra habove
    -- above `i` the two lists agree, so `target` would hold the element twice
    have hsame : target[j]? = slice[j]? := by
      have hat := congrArg (fun list => list[j - (i + 1)]?) hdrop
      simp only [List.getElem?_drop] at hat
      rwa [show i + 1 + (j - (i + 1)) = j by omega] at hat
    have htarget := hperm.nodup_iff.mpr hslice
    have hrepeat : target[i]? = target[j]? := by
      rw [hsame, List.getElem?_eq_getElem hlt, List.getElem?_eq_getElem hj, hvalue]
    have hindex := (List.getElem?_inj hlt htarget).mp hrepeat
    omega
  · rw [List.getElem?_eq_getElem hj, List.getElem?_eq_getElem hlt, hvalue]

/-- By induction on the index: the choice for it is where `slice` holds what
`target` has there, and the rest is forced by the list after that swap. -/
theorem existsUnique_choices {α : Type} {target slice : List α} {i : Nat} (hslice : slice.Nodup)
    (hperm : target.Perm slice) (hi : i ≤ slice.length - 1)
    (hdrop : target.drop (i + 1) = slice.drop (i + 1)) :
    ∃! choices, (ReducedChoices i choices ∧ choices.length = i) ∧
      rearrange i choices slice = target := by
  induction i generalizing slice with
  | zero =>
    refine ⟨[], ⟨⟨.nil 0, rfl⟩, (perm_eq_of_drop_one hperm hdrop).symm⟩, ?_⟩
    rintro choices ⟨⟨-, hlength⟩, -⟩
    exact List.length_eq_zero_iff.mp hlength
  | succ i ih =>
    have hlt : i + 1 < slice.length := by omega
    obtain ⟨j, hj, hvalue⟩ := exists_choice hslice hperm hlt hdrop
    have hswap := swap_perm slice (i + 1) j
    have hopen : target.drop (i + 1) = (swap slice (i + 1) j).drop (i + 1) := by
      have htarget : i + 1 < target.length := by
        rw [hperm.length_eq]
        exact hlt
      have hswapped : i + 1 < (swap slice (i + 1) j).length := by
        rw [hswap.length_eq]
        exact hlt
      have hhere : (swap slice (i + 1) j)[i + 1]? = target[i + 1]? := by
        rw [getElem?_swap hlt (by omega), hvalue]
      rw [List.getElem?_eq_getElem hswapped, List.getElem?_eq_getElem htarget] at hhere
      rw [List.drop_eq_getElem_cons htarget, List.drop_eq_getElem_cons hswapped, hdrop,
        drop_swap (Nat.lt_succ_self _) (Nat.lt_succ_of_le hj), Option.some.inj hhere]
    obtain ⟨rest, ⟨⟨hrest, hlength⟩, htarget⟩, hunique⟩ := ih
      (hswap.nodup_iff.mpr hslice) (hperm.trans hswap.symm) (by rw [hswap.length_eq]; omega) hopen
    refine ⟨j :: rest, ⟨⟨reducedChoices_cons.mpr ⟨hj, hrest⟩, by rw [List.length_cons, hlength]⟩,
      htarget⟩, ?_⟩
    rintro choices ⟨⟨hchoices, hcount⟩, hresult⟩
    cases choices with
    | nil => cases hcount
    | cons k others =>
      obtain ⟨hk, hothers⟩ := reducedChoices_cons.mp hchoices
      have hsource := getElem?_rearrange hchoices hlt
      rw [hresult, ← hvalue] at hsource
      have hindex := (List.getElem?_inj (by omega) hslice).mp hsource
      subst hindex
      rw [hunique others ⟨⟨hothers, by simpa using hcount⟩, hresult⟩]

theorem existsUnique_choices_of_perm {α : Type} {target slice : List α} (hslice : slice.Nodup)
    (hperm : target.Perm slice) : ∃! choices, (ReducedChoices (slice.length - 1) choices ∧
      choices.length = slice.length - 1) ∧ rearrange (slice.length - 1) choices slice = target := by
  apply existsUnique_choices hslice hperm (Nat.le_refl _)
  rw [List.drop_of_length_le (by rw [hperm.length_eq]; omega), List.drop_of_length_le (by omega)]

/-! ### The law of the shuffle -/

noncomputable def uniformChoices (i : Nat) : PMF (List Nat) :=
  PMF.uniformOfFinset (allChoices i).toFinset ⟨List.replicate i 0, by
    rw [List.mem_toFinset, mem_allChoices]
    refine ⟨⟨by simp, ?_⟩, by simp⟩
    intro back j hj
    have hzero := List.eq_of_mem_replicate (List.mem_of_getElem? hj)
    omega⟩

theorem card_allChoices (i : Nat) : (allChoices i).toFinset.card = (i + 1)! := by
  rw [List.toFinset_card_of_nodup (nodup_allChoices i), length_allChoices]

theorem factorial_pred_succ (n : Nat) : (n - 1 + 1)! = n ! := by
  cases n with
  | zero => rfl
  | succ n => rfl

theorem uniformChoices_map_rearrange {α : Type} {target slice : List α} (hslice : slice.Nodup)
    (hperm : target.Perm slice) :
    (uniformChoices (slice.length - 1)).map
        (fun choices => rearrange (slice.length - 1) choices slice) target =
      ((slice.length)! : ENNReal)⁻¹ := by
  obtain ⟨choices, ⟨hchoices, rfl⟩, hunique⟩ := existsUnique_choices_of_perm hslice hperm
  have hlaw := UniformLaw.map_uniform_apply_of_unique (allChoices (slice.length - 1)).toFinset
    ⟨choices, List.mem_toFinset.mpr (mem_allChoices.mpr hchoices)⟩
    (f := fun choices => rearrange (slice.length - 1) choices slice)
    (List.mem_toFinset.mpr (mem_allChoices.mpr hchoices))
    (fun other hother hvalue =>
      hunique other ⟨mem_allChoices.mp (List.mem_toFinset.mp hother), hvalue⟩)
  rw [card_allChoices, factorial_pred_succ] at hlaw
  exact hlaw

theorem uniformChoices_map_eq_uniform {α : Type} [DecidableEq α] {slice : List α}
    (hslice : slice.Nodup) :
    (uniformChoices (slice.length - 1)).map
        (fun choices => rearrange (slice.length - 1) choices slice) =
      PMF.uniformOfFinset slice.permutations.toFinset (UniformLaw.permutations_nonempty slice) := by
  ext target
  by_cases hperm : target.Perm slice
  · have hmem : target ∈ slice.permutations.toFinset := by simpa using hperm
    rw [uniformChoices_map_rearrange hslice hperm, PMF.uniformOfFinset_apply_of_mem _ hmem,
      List.toFinset_card_of_nodup (List.nodup_permutations slice hslice), List.length_permutations]
  · have hnot : target ∉ slice.permutations.toFinset := by simpa using hperm
    rw [PMF.uniformOfFinset_apply_of_notMem _ hnot]
    apply (PMF.apply_eq_zero_iff _ _).mpr
    intro hsupport
    rw [PMF.support_map] at hsupport
    obtain ⟨choices, -, rfl⟩ := hsupport
    exact hperm (rearrange_perm _ choices slice)

/-! ### Every list of choices is drawn -/

theorem drawn_ofValuesAt {i : Nat} (calls : Nat) {values : Nat → Nat} {choices : List Nat}
    (hchoices : ReducedChoices i choices) (hlength : choices.length = i) (hi : i < usizeSize)
    (hvalues : ∀ back j, choices[back]? = some j → values (calls + back) = j) :
    drawn i (.ofValuesAt values calls) = choices := by
  induction i generalizing calls choices with
  | zero => exact (List.length_eq_zero_iff.mp hlength).symm
  | succ i ih =>
    cases choices with
    | nil => cases hlength
    | cons j choices =>
      obtain ⟨hj, hrest⟩ := reducedChoices_cons.mp hchoices
      have hvalue : values calls = j := hvalues 0 j rfl
      have hlater : ∀ back k, choices[back]? = some k → values (calls + 1 + back) = k := by
        intro back k hk
        rw [show calls + 1 + back = calls + (back + 1) by omega]
        exact hvalues (back + 1) k (by simpa using hk)
      unfold drawn
      rw [Rng.randomU64_ofValuesAt values (by omega)]
      dsimp only
      rw [hvalue, Nat.mod_eq_of_lt (by omega),
        ih (calls + 1) hrest (by simpa using hlength) (by omega) hlater]

theorem exists_source_drawn {i : Nat} {choices : List Nat} (hchoices : ReducedChoices i choices)
    (hlength : choices.length = i) (hi : i < usizeSize) :
    drawn i (.ofValues fun call => choices.getD call 0) = choices := by
  apply drawn_ofValuesAt 0 hchoices hlength hi
  intro back j hj
  rw [Nat.zero_add, List.getD_eq_getElem?_getD, hj]
  rfl

/-! ### The shuffle as a whole -/

/-- A run rearranges by the choices it drew, and it returns once it drew them all. -/
theorem fisherYates_rearranges {α : Type} (slice : List α) (rng : Rng) :
    (fisherYates slice rng).2 =
        rearrange (slice.length - 1) (drawn (slice.length - 1) rng) slice ∧
      ((∃ rng', (fisherYates slice rng).1 = .ok rng') ↔
        (drawn (slice.length - 1) rng).length = slice.length - 1) := by
  unfold fisherYates
  split
  · rename_i hshort
    rw [show slice.length - 1 = 0 by omega]
    simp [rearrange, drawn]
  · exact fisherYatesFrom_rearranges _ slice rng

/-- The choices of a run determine the rearrangement, complete or not; of distinct
elements every rearrangement has one complete list of choices, so uniform choices
give a uniform shuffle. -/
theorem fisherYates_bijective {α : Type} (slice : List α) :
    (∀ rng, ReducedChoices (slice.length - 1) (drawn (slice.length - 1) rng) ∧
      (fisherYates slice rng).2 =
        rearrange (slice.length - 1) (drawn (slice.length - 1) rng) slice ∧
      ((∃ rng', (fisherYates slice rng).1 = .ok rng') ↔
        (drawn (slice.length - 1) rng).length = slice.length - 1) ∧
      (fisherYates slice rng).2.Perm slice) ∧
    (∀ choices, (rearrange (slice.length - 1) choices slice).Perm slice) ∧
    (slice.Nodup → ∀ target, target.Perm slice →
      (∃! choices, (ReducedChoices (slice.length - 1) choices ∧
          choices.length = slice.length - 1) ∧
        rearrange (slice.length - 1) choices slice = target) ∧
      (uniformChoices (slice.length - 1)).map
          (fun choices => rearrange (slice.length - 1) choices slice) target =
        ((slice.length)! : ENNReal)⁻¹) := by
  refine ⟨?_, fun choices => rearrange_perm _ choices slice, ?_⟩
  · intro rng
    obtain ⟨hslice, hok⟩ := fisherYates_rearranges slice rng
    exact ⟨drawn_reduced _ rng, hslice, hok, fisherYates_perm slice rng⟩
  · intro hslice target hperm
    exact ⟨existsUnique_choices_of_perm hslice hperm, uniformChoices_map_rearrange hslice hperm⟩

theorem fisherYates_bijective_three : ∃! choices, (ReducedChoices 2 choices ∧
    choices.length = 2) ∧ rearrange 2 choices [10, 20, 30] = [30, 20, 10] :=
  ((fisherYates_bijective [10, 20, 30]).2.2 (by decide) [30, 20, 10] (by decide)).1

theorem exists_source_shuffles {α : Type} {target slice : List α} (hslice : slice.Nodup)
    (hlength : slice.length ≤ usizeSize) (hperm : target.Perm slice) :
    ∃ rng rng', rng.Reliable ∧ fisherYates slice rng = (.ok rng', target) := by
  obtain ⟨choices, ⟨⟨hchoices, hcount⟩, htarget⟩, -⟩ := existsUnique_choices_of_perm hslice hperm
  have hpos : 0 < usizeSize := by decide
  have hdrawn := exists_source_drawn hchoices hcount (by omega)
  obtain ⟨hresult, hok⟩ := fisherYates_rearranges slice
    (.ofValues fun call => choices.getD call 0)
  rw [hdrawn] at hresult hok
  obtain ⟨rng', hrng'⟩ := hok.mpr hcount
  exact ⟨_, rng', Rng.ofValues_reliable _, Prod.ext hrng' (hresult.trans htarget)⟩

end KeyVault
