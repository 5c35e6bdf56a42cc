import KeyVault.Pairings
import Mathlib.GroupTheory.Perm.Centralizer
import Mathlib.Probability.Distributions.Uniform

/-! Images of uniform laws. If every value can be carried to every other by a change of
the points that keeps the set of points, then the image of the uniform law on the
points is uniform on the values. The values of interest are the maps that pair every
point of a finite type with another: any two of them are conjugate, so pairing up the
neighbours of a uniform shuffle gives a uniform one. -/
namespace UniformLaw

open Pairings
open scoped Nat

section Image

variable {α β : Type} {points : Finset α} {values : Finset β} {f : α → β}

theorem map_uniform_apply [DecidableEq β] (hpoints : points.Nonempty) (value : β) :
    (PMF.uniformOfFinset points hpoints).map f value =
      ({point ∈ points | f point = value}.card : ENNReal) / points.card := by
  classical
  rw [← PMF.toOuterMeasure_apply_singleton, PMF.toOuterMeasure_map_apply,
    PMF.toOuterMeasure_uniformOfFinset_apply]
  congr 3
  ext point
  simp

theorem map_uniform_apply_of_unique (points : Finset α) (hpoints : points.Nonempty) {point : α}
    (hmem : point ∈ points) (hunique : ∀ other ∈ points, f other = f point → other = point) :
    (PMF.uniformOfFinset points hpoints).map f (f point) = (points.card : ENNReal)⁻¹ := by
  classical
  have hfibre : {other ∈ points | f other = f point} = {point} := by
    ext other
    simp only [Finset.mem_filter, Finset.mem_singleton]
    constructor
    · rintro ⟨hother, hvalue⟩
      exact hunique other hother hvalue
    · rintro rfl
      exact ⟨hmem, rfl⟩
  rw [map_uniform_apply, hfibre]
  simp

theorem map_uniform_of_card [DecidableEq β] (hpoints : points.Nonempty) (hvalues : values.Nonempty)
    (hmem : ∀ point ∈ points, f point ∈ values)
    (hcard : ∀ value ∈ values, ∀ value' ∈ values,
      {point ∈ points | f point = value}.card ≤ {point ∈ points | f point = value'}.card) :
    (PMF.uniformOfFinset points hpoints).map f = PMF.uniformOfFinset values hvalues := by
  ext value
  rw [map_uniform_apply]
  by_cases hvalue : value ∈ values
  · have hsum : points.card = values.card * {point ∈ points | f point = value}.card := by
      rw [Finset.card_eq_sum_card_fiberwise hmem, Finset.sum_const_nat]
      intro value' hvalue'
      exact Nat.le_antisymm (hcard _ hvalue' _ hvalue) (hcard _ hvalue _ hvalue')
    have hpos : 0 < points.card := hpoints.card_pos
    have hfibre : {point ∈ points | f point = value}.card ≠ 0 := by
      intro hzero
      rw [hzero, Nat.mul_zero] at hsum
      omega
    rw [PMF.uniformOfFinset_apply_of_mem hvalues hvalue, hsum, Nat.cast_mul,
      ENNReal.div_eq_inv_mul, ENNReal.mul_inv (.inl ?_) (.inl (ENNReal.natCast_ne_top _)), mul_assoc,
      ENNReal.inv_mul_cancel (by exact_mod_cast hfibre) (ENNReal.natCast_ne_top _), mul_one]
    exact_mod_cast hvalues.card_ne_zero
  · have hnone : {point ∈ points | f point = value} = ∅ := by
      apply Finset.filter_eq_empty_iff.mpr
      rintro point hpoint rfl
      exact hvalue (hmem point hpoint)
    rw [PMF.uniformOfFinset_apply_of_notMem hvalues hvalue, hnone]
    simp

/-- Every value can be carried to every other by a change of the points. -/
theorem map_uniform_of_moves (hpoints : points.Nonempty) (hvalues : values.Nonempty)
    (hmem : ∀ point ∈ points, f point ∈ values)
    (hmoves : ∀ value ∈ values, ∀ value' ∈ values, ∃ move : α → α, Function.Injective move ∧
      ∀ point ∈ points, move point ∈ points ∧ (f point = value → f (move point) = value')) :
    (PMF.uniformOfFinset points hpoints).map f = PMF.uniformOfFinset values hvalues := by
  classical
  apply map_uniform_of_card hpoints hvalues hmem
  intro value hvalue value' hvalue'
  obtain ⟨move, hinjective, hmove⟩ := hmoves value hvalue value' hvalue'
  apply Finset.card_le_card_of_injOn move ?_ (hinjective.injOn)
  intro point hpoint
  obtain ⟨hin, hpointvalue⟩ := Finset.mem_filter.mp hpoint
  obtain ⟨hkept, hcarried⟩ := hmove point hin
  exact Finset.mem_coe.mpr (Finset.mem_filter.mpr ⟨hkept, hcarried hpointvalue⟩)

end Image

/-- Each point is exchanged with another one. -/
def PairsUp {α : Type} (f : α → α) : Prop := ∀ x, f (f x) = x ∧ f x ≠ x

section Pairing

variable {α : Type} {f g : α → α}

def PairsUp.toPerm (h : PairsUp f) : Equiv.Perm α :=
  Function.Involutive.toPerm f fun x => (h x).1

@[simp] theorem PairsUp.toPerm_apply (h : PairsUp f) (x : α) : h.toPerm x = f x := rfl

variable [Fintype α] [DecidableEq α]

instance : DecidablePred (PairsUp : (α → α) → Prop) := fun _ => inferInstanceAs (Decidable (∀ _, _))

/-- The pairings are the permutations made of half as many two-cycles as there are points. -/
theorem pairsUp_iff_cycleType (heven : Even (Fintype.card α)) (perm : Equiv.Perm α) :
    PairsUp perm ↔ perm.cycleType = Multiset.replicate (Fintype.card α / 2) 2 := by
  have hprime : Fact (Nat.Prime 2) := ⟨Nat.prime_two⟩
  have hhalves := Nat.div_mul_cancel heven.two_dvd
  have hsum := perm.sum_cycleType
  constructor
  · intro h
    have htwo : ∀ length ∈ perm.cycleType, length = 2 := by
      apply Equiv.Perm.pow_prime_eq_one_iff.mp
      ext x
      exact (h x).1
    have hreplicate := Multiset.eq_replicate_of_mem htwo
    have hsupport : perm.support = Finset.univ := by
      ext x
      simpa using (h x).2
    rw [hreplicate, Multiset.sum_replicate, hsupport, Finset.card_univ, smul_eq_mul] at hsum
    rw [hreplicate, ← hsum, Nat.mul_div_cancel _ Nat.two_pos]
  · intro h x
    have hsquare : perm ^ 2 = 1 := by
      apply Equiv.Perm.pow_prime_eq_one_iff.mpr
      rw [h]
      exact fun length => Multiset.eq_of_mem_replicate
    rw [h, Multiset.sum_replicate, smul_eq_mul, hhalves] at hsum
    have hsupport := Finset.card_eq_iff_eq_univ _ |>.mp hsum.symm
    constructor
    · exact congrArg (fun perm : Equiv.Perm α => perm x) hsquare
    · apply Equiv.Perm.mem_support.mp
      rw [hsupport]
      exact Finset.mem_univ x

theorem PairsUp.conjugate (heven : Even (Fintype.card α)) (hf : PairsUp f) (hg : PairsUp g) :
    ∃ relabel : Equiv.Perm α, ∀ x, g (relabel x) = relabel (f x) := by
  have hf' := (pairsUp_iff_cycleType heven hf.toPerm).mp hf
  have hg' := (pairsUp_iff_cycleType heven hg.toPerm).mp hg
  obtain ⟨relabel, hrelabel⟩ := isConj_iff.mp
    (Equiv.Perm.isConj_of_cycleType_eq (hf'.trans hg'.symm))
  refine ⟨relabel, fun x => ?_⟩
  have happly := congrArg (fun perm : Equiv.Perm α => perm (relabel x)) hrelabel
  simpa using happly.symm

def pairings (α : Type) [Fintype α] [DecidableEq α] : Finset (α → α) :=
  Finset.univ.filter PairsUp

@[simp] theorem mem_pairings : f ∈ pairings α ↔ PairsUp f := by
  simp [pairings]

theorem PairsUp.pairings_nonempty (h : PairsUp f) : (pairings α).Nonempty := ⟨f, mem_pairings.mpr h⟩

theorem card_pairings (heven : Even (Fintype.card α)) :
    (pairings α).card * (2 ^ (Fintype.card α / 2) * (Fintype.card α / 2)!) = (Fintype.card α)! := by
  have hcycles : ({perm : Equiv.Perm α |
      perm.cycleType = Multiset.replicate (Fintype.card α / 2) 2} : Finset (Equiv.Perm α)).card =
        (pairings α).card := by
    apply Finset.card_nbij fun perm : Equiv.Perm α => (perm : α → α)
    · intro perm hperm
      simpa [pairsUp_iff_cycleType heven] using hperm
    · exact DFunLike.coe_injective.injOn
    · intro f hf
      have hpairs : PairsUp f := by simpa using hf
      have hcycles := (pairsUp_iff_cycleType heven hpairs.toPerm).mp hpairs
      exact ⟨hpairs.toPerm, by simpa using hcycles, rfl⟩
  have hcount := Equiv.Perm.card_of_cycleType_mul_eq α (Multiset.replicate (Fintype.card α / 2) 2)
  have hfactor : ∏ length ∈ (Multiset.replicate (Fintype.card α / 2) 2).toFinset,
      ((Multiset.replicate (Fintype.card α / 2) 2).count length)! = (Fintype.card α / 2)! := by
    cases Fintype.card α / 2 with
    | zero => rfl
    | succ n =>
      rw [Multiset.toFinset_replicate, if_neg (Nat.succ_ne_zero n), Finset.prod_singleton,
        Multiset.count_replicate_self]
  rw [hcycles, hfactor, Multiset.sum_replicate, Multiset.prod_replicate, smul_eq_mul,
    Nat.div_mul_cancel heven.two_dvd, Nat.sub_self, Nat.factorial_zero, Nat.one_mul, if_pos] at hcount
  · exact hcount
  · refine ⟨Nat.le_refl _, fun length hlength => ?_⟩
    rw [Multiset.eq_of_mem_replicate hlength]

end Pairing

/-! ### Neighbours of a shuffle -/

section Shuffle

variable {α : Type} {all list : List α}

theorem map_perm_all (hnodup : all.Nodup) (hall : ∀ x, x ∈ all) (relabel : Equiv.Perm α)
    (h : list.Perm all) : (list.map relabel).Perm all := by
  have hmapped : (list.map relabel).Nodup := (h.nodup_iff.mpr hnodup).map relabel.injective
  rw [List.perm_ext_iff_of_nodup hmapped hnodup]
  intro x
  have hmem : relabel.symm x ∈ list := h.mem_iff.mpr (hall _)
  exact iff_of_true (List.mem_map.mpr ⟨_, hmem, relabel.apply_symm_apply x⟩) (hall x)

variable [DecidableEq α]

theorem permutations_nonempty (list : List α) : list.permutations.toFinset.Nonempty :=
  ⟨list, List.mem_toFinset.mpr (List.mem_permutations.mpr (.refl list))⟩

theorem pairsUp_adjacent (hnodup : all.Nodup) (hall : ∀ x, x ∈ all) (heven : all.length % 2 = 0)
    (h : list.Perm all) : PairsUp (exchangeAll id (adjacentPairs list)) := by
  have hends : ends (adjacentPairs list) = list := by
    apply ends_adjacentPairs
    rw [h.length_eq, heven]
  have hlist : (ends (adjacentPairs list)).Nodup := by
    rw [hends]
    exact h.nodup_iff.mpr hnodup
  intro x
  have hmem : x ∈ ends (adjacentPairs list) := by
    rw [hends]
    exact h.mem_iff.mpr (hall x)
  exact ⟨exchangeAll_involutive hlist x, exchangeAll_ne_self id hlist hmem⟩

/-- The neighbours of a uniform shuffle are a uniform pairing: relabelling carries any pairing
to any other, and shuffles to shuffles. -/
theorem map_permutations_uniform [Fintype α] (hnodup : all.Nodup) (hall : ∀ x, x ∈ all)
    (hlength : all.length % 2 = 0) (hpairings : (pairings α).Nonempty) :
    (PMF.uniformOfFinset all.permutations.toFinset (permutations_nonempty all)).map
        (fun list => exchangeAll id (adjacentPairs list)) =
      PMF.uniformOfFinset (pairings α) hpairings := by
  have hmem : ∀ list, list ∈ all.permutations.toFinset ↔ list.Perm all := by simp
  have huniv : all.toFinset = Finset.univ := by
    ext x
    simp [hall x]
  have heven : Even (Fintype.card α) := by
    rw [← Finset.card_univ, ← huniv, List.toFinset_card_of_nodup hnodup]
    exact Nat.even_iff.mpr hlength
  apply map_uniform_of_moves
  · intro list hlist
    exact mem_pairings.mpr (pairsUp_adjacent hnodup hall hlength ((hmem list).mp hlist))
  · intro value hvalue value' hvalue'
    obtain ⟨relabel, hrelabel⟩ :=
      (mem_pairings.mp hvalue).conjugate heven (mem_pairings.mp hvalue')
    refine ⟨List.map relabel, List.map_injective_iff.mpr relabel.injective, ?_⟩
    intro list hlist
    refine ⟨(hmem _).mpr (map_perm_all hnodup hall relabel ((hmem list).mp hlist)), ?_⟩
    rintro rfl
    funext x
    have hid : ∀ x, id (relabel x) = relabel (id x) := fun _ => rfl
    rw [← relabel.apply_symm_apply x, hrelabel, adjacentPairs_map]
    exact exchangeAll_map relabel.injective hid _ _

theorem exists_shuffle [Fintype α] (hnodup : all.Nodup) (hall : ∀ x, x ∈ all)
    (hlength : all.length % 2 = 0) {f : α → α} (hf : PairsUp f) :
    ∃ list, list.Perm all ∧ exchangeAll id (adjacentPairs list) = f := by
  have hlaw := map_permutations_uniform hnodup hall hlength hf.pairings_nonempty
  have hsupport : f ∈ (PMF.uniformOfFinset (pairings α) hf.pairings_nonempty).support := by simpa
  rw [← hlaw, PMF.support_map] at hsupport
  obtain ⟨list, hlist, hpairs⟩ := hsupport
  exact ⟨list, by simpa using hlist, hpairs⟩

end Shuffle

end UniformLaw
