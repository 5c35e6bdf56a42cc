import KeyVault.RandomFragmenter

/-! How far the random fragmenter scatters a key. Each layout entry lists the key
positions of one chunk; the shuffle may leave neighbours side by side, and a
chunk of two or more positions can then hold a run of the key. -/
namespace KeyVault

namespace RandomFragmenter

/-- The positions the layout lists for each chunk, from the given word on: a size
word is passed over, then there is one word for each byte of the chunk. -/
def listedFrom (layout : Bytes) : List Bytes → Nat → List (List Nat)
  | [], _ => []
  | chunk :: chunks, word =>
      (List.range chunk.length).map (fun i => wordAt layout (word + 1 + i)) ::
        listedFrom layout chunks (word + 1 + chunk.length)

def listed (f : Fragments) : List (List Nat) := listedFrom f.layoutBytes f.chunkBytes 0

/-- No layout entry lists a position immediately followed by the next one. -/
def Scattered (f : Fragments) : Prop :=
  ∀ positions ∈ listed f, positions.IsChain fun position next => next ≠ position + 1

instance (f : Fragments) : Decidable (Scattered f) :=
  inferInstanceAs (Decidable (∀ positions ∈ listed f, positions.IsChain _))

/-! ### What a layout lists -/

theorem listedFrom_u32Words {before : List Nat} {groups : List (List Nat)}
    (hpositions : ∀ position ∈ groups.flatten, position ≤ u32Max) (bytes : Bytes) :
    listedFrom (u32Words (before ++ layoutWords groups)) (groups.map (List.map (byteAt bytes)))
      before.length = groups := by
  induction groups generalizing before with
  | nil => rfl
  | cons group groups ih =>
    have hshift : before ++ layoutWords (group :: groups) =
        (before ++ group.length :: group) ++ layoutWords groups := by simp [layoutWords_cons]
    have hgroup : (List.range group.length).map (fun i =>
        wordAt (u32Words (before ++ layoutWords (group :: groups))) (before.length + 1 + i)) =
        group := by
      apply List.ext_getElem
      · simp
      · intro i _ hi
        have hlookup : (before ++ layoutWords (group :: groups))[before.length + 1 + i]? =
            some group[i] := by
          rw [List.getElem?_append_right (by omega), layoutWords_cons,
            show before.length + 1 + i - before.length = i + 1 by omega, List.cons_append,
            List.getElem?_cons_succ, List.getElem?_append_left hi, List.getElem?_eq_getElem hi]
        have hle : group[i] ≤ u32Max := by
          apply hpositions
          rw [List.flatten_cons]
          exact List.mem_append_left _ (List.getElem_mem hi)
        rw [List.getElem_map, List.getElem_range, wordAt_u32Words hlookup hle]
    have hrest := @ih (before ++ group.length :: group) (by
      intro position hposition
      apply hpositions
      rw [List.flatten_cons]
      exact List.mem_append_right _ hposition)
    have hlength : (before ++ group.length :: group).length = before.length + 1 + group.length := by
      simp only [List.length_append, List.length_cons]
      omega
    rw [← hshift, hlength] at hrest
    rw [List.map_cons, listedFrom, List.length_map, hgroup, hrest]

theorem peel_length_le {low high : Nat} {hrange : 0 < low ∧ low ≤ high} {bytes : Bytes}
    {positions : List Nat} {rng rng' : Rng} {groups : List (List Nat × Bytes)}
    (h : peel low high hrange bytes positions rng = .ok (groups, rng')) :
    ∀ group ∈ groups.map Prod.fst, group.length ≤ high := by
  have hpeeled := peeled_of_ok h
  clear h
  induction hpeeled with
  | done rng => simp
  | step hsize hpos hle hchunk hrest ih =>
    have hhigh := nextSize_le_high hsize
    intro group hgroup
    rcases List.mem_cons.mp hgroup with rfl | hmem
    · rw [List.length_take]
      omega
    · exact ih group hmem

theorem listed_of_fragment {f : RandomFragmenter} {key : Bytes} {rng rng' : Rng}
    {fragments : Fragments} (h : f.fragment key rng = .ok (fragments, rng')) :
    key.length ≤ u32Max ∧ ∃ rng₁ positions groups rng₂,
      fisherYates (List.range key.length) rng = (.ok rng₁, positions) ∧
      peel f.minChunk f.maxChunk ⟨f.one_le_minChunk, f.minChunk_le_maxChunk⟩ key positions rng₁ =
        .ok (groups, rng₂) ∧
      listed fragments = groups.map Prod.fst := by
  obtain ⟨hkey, rng₁, positions, groups, hshuffle, hperm, hgroups, rfl⟩ := fragment_eq_ok h
  refine ⟨hkey, rng₁, positions, groups, _, hshuffle, hgroups, ?_⟩
  obtain ⟨hflat, -, hchunks⟩ := peel_spec hgroups
  have hpositions : ∀ position ∈ (groups.map Prod.fst).flatten, position ≤ u32Max := by
    intro position hposition
    rw [hflat] at hposition
    have hlt := List.mem_range.mp (hperm.mem_iff.mp hposition)
    omega
  have hlisted := @listedFrom_u32Words [] _ hpositions key
  rw [List.nil_append, List.length_nil] at hlisted
  rw [listed, Fragments.layoutBytes_fromParts, Fragments.chunkBytes_fromParts, hchunks]
  exact hlisted

/-! ### A shuffle that moves nothing -/

def stillValues (f : RandomFragmenter) (length call : Nat) : Nat :=
  if call < length - 1 then length - 1 - call else f.maxChunk - f.minChunk

theorem nextSize_stillValues {f : RandomFragmenter} {length size : Nat} {rng' : Rng}
    (hchunk : 2 ≤ f.maxChunk) (hlength : 2 ≤ length)
    (h : nextSize f.minChunk f.maxChunk length
      (.ofValuesAt (stillValues f length) (length - 1)) = .ok (size, rng')) : 2 ≤ size := by
  have hlow := f.one_le_minChunk
  have hle := f.minChunk_le_maxChunk
  have hhigh := f.maxChunk_lt
  unfold nextSize at h
  split at h
  · cases h
    exact hlength
  · have hvalue : stillValues f length (length - 1) = f.maxChunk - f.minChunk :=
      if_neg (Nat.lt_irrefl _)
    rw [sampleRange_ofValuesAt hlow hle hhigh hvalue, ok_bind] at h
    cases h
    omega

theorem peel_first {low high : Nat} {hrange : 0 < low ∧ low ≤ high} {bytes : Bytes}
    {positions : List Nat} {rng rng' : Rng} {groups : List (List Nat × Bytes)}
    (h : peel low high hrange bytes positions rng = .ok (groups, rng'))
    (hpositions : positions.length ≠ 0) :
    ∃ size rng₁, nextSize low high positions.length rng = .ok (size, rng₁) ∧
      positions.take size ∈ groups.map Prod.fst := by
  rw [peel, dif_neg hpositions] at h
  split at h
  · cases h
  · rename_i size rng₁ hsize
    split at h
    · cases h
    · split at h
      · cases h
      · cases h
        exact ⟨size, rng₁, hsize, List.mem_cons_self ..⟩

/-- With chunks of two bytes allowed, some stream of values stores the first two
bytes of the key side by side. -/
theorem fragment_stillValues {f : RandomFragmenter} {key : Bytes} (hchunk : 2 ≤ f.maxChunk)
    (hkey : 2 ≤ key.length) (hlimit : key.length ≤ u32Max) : ∃ fragments rng',
    f.fragment key (.ofValues (stillValues f key.length)) = .ok (fragments, rng') ∧
      ¬ Scattered fragments := by
  have husize : u32Max < usizeSize := by decide
  have hstill : ∀ back < (List.range key.length).length - 1,
      stillValues f key.length back = (List.range key.length).length - 1 - back := by
    intro back hback
    rw [List.length_range] at hback ⊢
    exact if_pos hback
  have hshuffle := fisherYates_still (List.range key.length)
    (by rw [List.length_range]; omega) hstill
  obtain ⟨fragments, rng', hfragment, -⟩ := f.fragment_reliable
    (Rng.ofValues_reliable (stillValues f key.length)) (by omega) hlimit
  refine ⟨fragments, rng', hfragment, ?_⟩
  obtain ⟨-, rng₁, positions, groups, rng₂, hpositions, hgroups, hlisted⟩ :=
    listed_of_fragment hfragment
  rw [hshuffle] at hpositions
  cases hpositions
  obtain ⟨size, rng₃, hsize, hfirst⟩ := peel_first hgroups (by rw [List.length_range]; omega)
  rw [List.length_range] at hsize
  have htwo := nextSize_stillValues hchunk hkey hsize
  intro hscattered
  have hchain := hscattered _ (by rw [hlisted]; exact hfirst)
  rw [List.isChain_iff_getElem] at hchain
  have hlength : ((List.range key.length).take size).length = min size key.length := by
    rw [List.length_take, List.length_range]
  exact hchain 0 (by omega) (by simp)

/-! ### When the scatter holds -/

theorem isChain_of_length_le_one {positions : List Nat} (h : positions.length ≤ 1)
    (relation : Nat → Nat → Prop) : positions.IsChain relation := by
  rw [List.isChain_iff_getElem]
  intro i hi
  omega

/-- Only chunks of one byte, or a key without two bytes, keep every pair of
neighbours apart under every stream of values. -/
theorem scattered_iff (f : RandomFragmenter) (key : Bytes) :
    (∀ rng fragments rng', f.fragment key rng = .ok (fragments, rng') → Scattered fragments) ↔
      f.maxChunk = 1 ∨ key.length ≤ 1 ∨ u32Max < key.length := by
  have hlow := f.one_le_minChunk
  have hle := f.minChunk_le_maxChunk
  constructor
  · intro h
    by_cases hchunk : 2 ≤ f.maxChunk
    · by_cases hkey : 2 ≤ key.length
      · by_cases hlimit : key.length ≤ u32Max
        · obtain ⟨fragments, rng', hfragment, hrun⟩ := fragment_stillValues hchunk hkey hlimit
          exact absurd (h _ fragments rng' hfragment) hrun
        · omega
      · omega
    · omega
  · intro h rng fragments rng' hfragment positions hmem
    obtain ⟨hlimit, rng₁, shuffled, groups, rng₂, hshuffle, hgroups, hlisted⟩ :=
      listed_of_fragment hfragment
    rw [hlisted] at hmem
    have hperm := fisherYates_perm (List.range key.length) rng
    rw [hshuffle] at hperm
    have hsize := peel_length_le hgroups positions hmem
    have hshare := (List.sublist_flatten_of_mem hmem).length_le
    rw [(peel_spec hgroups).1, hperm.length_eq, List.length_range] at hshare
    apply isChain_of_length_le_one
    omega

/-- A key of two bytes under the default range: both bytes end up in one chunk, in
the order of the key. -/
theorem twoBytes_not_scattered : ∃ fragments rng',
    new.fragment [10, 20] (.constant 1) = .ok (fragments, rng') ∧
      fragments.chunkBytes = [[10, 20]] ∧ ¬ Scattered fragments := by
  have hrun : ((new.fragment [10, 20] (.constant 1)).toOption.map fun out =>
      decide (out.1.chunkBytes = [[10, 20]] ∧ ¬ Scattered out.1)) = some true := by
    decide +kernel
  cases hfragment : new.fragment [10, 20] (.constant 1) with
  | error exit =>
    rw [hfragment] at hrun
    cases hrun
  | ok out =>
    rw [hfragment] at hrun
    exact ⟨out.1, out.2, rfl, of_decide_eq_true (Option.some.inj hrun)⟩

end RandomFragmenter

end KeyVault
