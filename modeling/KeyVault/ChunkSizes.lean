import KeyVault.RandomFragmenter
import KeyVault.StandardFragmenter

/-! The sizes chosen by the two loops that cut a key up. Both draw them with
`nextSize`, which leaves the lower end of the range for the rest whenever
something is left, so only the last size can fall below it. -/
namespace KeyVault

/-- Sizes of consecutive blocks of `total` elements, of which only the last may
be shorter than `low`. -/
structure IsPartition (low high total : Nat) (sizes : List Nat) : Prop where
  sum : sizes.sum = total
  bounds : ∀ size ∈ sizes, 1 ≤ size ∧ size ≤ high
  low_le : ∀ size ∈ sizes.dropLast, low ≤ size

section IsPartition

variable {low high total : Nat}

theorem IsPartition.nil : IsPartition low high 0 [] where
  sum := rfl
  bounds := by simp
  low_le := by simp

theorem IsPartition.eq_nil {sizes : List Nat} (h : IsPartition low high 0 sizes) :
    sizes = [] := by
  cases sizes with
  | nil => rfl
  | cons size sizes =>
    have hpos := (h.bounds size (List.mem_cons_self ..)).1
    have hsum := h.sum
    rw [List.sum_cons] at hsum
    omega

theorem IsPartition.cons {size : Nat} {sizes : List Nat}
    (h : IsPartition low high (total - size) sizes) (hpos : 1 ≤ size) (hhigh : size ≤ high)
    (hle : size ≤ total) (hlow : size < total → low ≤ size) :
    IsPartition low high total (size :: sizes) where
  sum := by
    rw [List.sum_cons, h.sum]
    omega
  bounds := by
    intro other hother
    rcases List.mem_cons.mp hother with rfl | hlater
    · exact ⟨hpos, hhigh⟩
    · exact h.bounds other hlater
  low_le := by
    intro other hother
    by_cases hlast : size = total
    · subst hlast
      rw [Nat.sub_self] at h
      rw [h.eq_nil] at hother
      cases hother
    · have hrest : sizes ≠ [] := by
        rintro rfl
        have hsum := h.sum
        rw [List.sum_nil] at hsum
        omega
      rw [List.dropLast_cons_of_ne_nil hrest] at hother
      rcases List.mem_cons.mp hother with rfl | hlater
      · exact hlow (by omega)
      · exact h.low_le other hlater

theorem IsPartition.countP_le_one {sizes : List Nat} (h : IsPartition low high total sizes) :
    sizes.countP (fun size => decide (size < low)) ≤ 1 := by
  rcases List.eq_nil_or_concat sizes with rfl | ⟨front, last, rfl⟩
  · simp
  · have hfront : front.countP (fun size => decide (size < low)) = 0 := by
      rw [List.countP_eq_zero]
      intro size hsize
      have hle := h.low_le size (by simpa using hsize)
      simpa using hle
    rw [List.concat_eq_append, List.countP_append, hfront, Nat.zero_add]
    exact List.countP_le_length

end IsPartition

/-- What a loop answers when it chooses the sizes of `total` bytes against `rng`. -/
structure ChoosesSizes (low high total : Nat) (rng : Rng)
    (outcome : Result (List Nat × Rng)) : Prop where
  returns : rng.Reliable → ∃ sizes rng', outcome = .ok (sizes, rng')
  noPanic : outcome ≠ .error .panic
  partition : ∀ sizes rng', outcome = .ok (sizes, rng') → IsPartition low high total sizes
  oneShort : ∀ sizes rng', outcome = .ok (sizes, rng') →
    sizes.countP (fun size => decide (size < low)) ≤ 1

theorem randomU64_noPanic (rng : Rng) : randomU64 rng ≠ .error .panic := by
  unfold randomU64 Rng.fill
  cases rng.answers rng.calls with
  | none =>
    intro h
    cases h
  | some answer =>
    intro h
    cases h

section NextSize

variable {low high remaining : Nat} {rng : Rng}

theorem nextSize_noPanic (hlow : 0 < low) (hle : low ≤ high) (hhigh : high < usizeSize) :
    nextSize low high remaining rng ≠ .error .panic := by
  unfold nextSize
  split
  · intro h
    cases h
  · unfold sampleRange
    rw [usizeSub, if_pos hle, ok_bind, usizeAdd_of_lt (by omega), ok_bind]
    cases hdraw : randomU64 rng with
    | error exit =>
      intro h
      have hexit : exit = .panic := by
        injection h
      rw [hexit] at hdraw
      exact randomU64_noPanic rng hdraw
    | ok drawn =>
      have hmod := Nat.mod_lt drawn.1 (show 0 < high - low + 1 by omega)
      rw [ok_bind]
      dsimp only
      rw [usizeAdd_of_lt (by omega), ok_bind]
      intro h
      cases h

theorem low_le_nextSize {size : Nat} {rng' : Rng} (hle : low ≤ high)
    (h : nextSize low high remaining rng = .ok (size, rng')) (hleft : size < remaining) :
    low ≤ size := by
  unfold nextSize at h
  split at h
  · cases h
    omega
  · obtain ⟨⟨pick, rng₁⟩, -, hsize⟩ := bind_eq_ok.mp h
    cases hsize
    omega

end NextSize

namespace StandardFragmenter

section SampleSizes

variable {low high : Nat}

theorem Sampled.isPartition {remaining : Nat} {rng rng' : Rng} {sizes : List Nat}
    (h : Sampled low high remaining rng sizes rng') (hle : low ≤ high) :
    IsPartition low high remaining sizes := by
  induction h with
  | done rng => exact .nil
  | step hsize hpos hbound hrest ih =>
    exact ih.cons hpos (nextSize_le_high hsize) hbound (low_le_nextSize hle hsize)

theorem sampleSizes_noPanic (hrange : 0 < low ∧ low ≤ high) (hhigh : high < usizeSize)
    (remaining : Nat) (rng : Rng) : sampleSizes low high hrange remaining rng ≠ .error .panic := by
  induction remaining using Nat.strong_induction_on generalizing rng with
  | _ remaining ih =>
    intro h
    rw [sampleSizes] at h
    split at h
    · cases h
    · rename_i hdone
      split at h
      · rename_i exit hsize
        cases h
        exact nextSize_noPanic hrange.1 hrange.2 hhigh hsize
      · rename_i size rng₁ hsize
        have hbounds := nextSize_bounds hrange.1 hrange.2 (Nat.pos_of_ne_zero hdone) hsize
        split at h
        · rename_i exit hrest
          cases h
          exact ih (remaining - size) (by omega) rng₁ hrest
        · cases h

theorem sampleChunkSizes_of_range (hrange : 0 < low ∧ low ≤ high) (total : Nat) (rng : Rng) :
    sampleChunkSizes total low high rng = sampleSizes low high hrange total rng := dif_pos hrange

theorem sampleChunkSizes_chooses (hrange : 0 < low ∧ low ≤ high) (hhigh : high < usizeSize)
    (total : Nat) (rng : Rng) :
    ChoosesSizes low high total rng (sampleChunkSizes total low high rng) := by
  rw [sampleChunkSizes_of_range hrange]
  have hpartition : ∀ sizes rng', sampleSizes low high hrange total rng = .ok (sizes, rng') →
      IsPartition low high total sizes := by
    intro sizes rng' h
    exact (sampled_of_ok h).isPartition hrange.2
  refine ⟨?_, sampleSizes_noPanic hrange hhigh total rng, hpartition, ?_⟩
  · intro hrng
    obtain ⟨sizes, rng', hsizes, -⟩ := sampleSizes_reliable hrng hhigh
    exact ⟨sizes, rng', hsizes⟩
  · intro sizes rng' h
    exact (hpartition sizes rng' h).countP_le_one

end SampleSizes

end StandardFragmenter

namespace RandomFragmenter

def peelSizes (low high : Nat) (hrange : 0 < low ∧ low ≤ high) (bytes : Bytes)
    (positions : List Nat) (rng : Rng) : Result (List Nat × Rng) :=
  (peel low high hrange bytes positions rng).map fun (groups, rng) =>
    (groups.map fun group => group.1.length, rng)

theorem peelSizes_step {low high size : Nat} {hrange : 0 < low ∧ low ≤ high} {bytes : Bytes}
    {positions : List Nat} {rng rng₁ : Rng} (hdone : positions.length ≠ 0)
    (hpositions : ∀ position ∈ positions, position < bytes.length)
    (hsize : nextSize low high positions.length rng = .ok (size, rng₁)) :
    peelSizes low high hrange bytes positions rng =
      (peelSizes low high hrange bytes (positions.drop size) rng₁).map fun (sizes, rng) =>
        (size :: sizes, rng) := by
  have hbounds := nextSize_bounds hrange.1 hrange.2 (Nat.pos_of_ne_zero hdone) hsize
  have hchunk := @mapM_index_of_lt bytes (positions.take size)
    fun position hposition => hpositions position (List.mem_of_mem_take hposition)
  have htake : (positions.take size).length = size := by
    rw [List.length_take]
    omega
  unfold peelSizes
  rw [peel_step hdone hsize hchunk]
  cases peel low high hrange bytes (positions.drop size) rng₁ with
  | error exit => rfl
  | ok peeled => simp [Except.map, htake]

/-- On the same source the loop peels off groups of the sizes the other loop cuts. -/
theorem peelSizes_eq_sampleSizes {low high : Nat} (hrange : 0 < low ∧ low ≤ high) {bytes : Bytes}
    {positions : List Nat} (hpositions : ∀ position ∈ positions, position < bytes.length)
    (rng : Rng) : peelSizes low high hrange bytes positions rng =
      StandardFragmenter.sampleSizes low high hrange positions.length rng := by
  generalize hlength : positions.length = length
  induction length using Nat.strong_induction_on generalizing positions rng with
  | _ length ih =>
    by_cases hdone : length = 0
    · subst hdone
      unfold peelSizes
      rw [peel, StandardFragmenter.sampleSizes, dif_pos hlength, dif_pos rfl]
      rfl
    · cases hsize : nextSize low high length rng with
      | error exit =>
        unfold peelSizes
        rw [StandardFragmenter.sampleSizes_stop hdone hsize, peel_stop (hlength ▸ hdone)
          (hlength ▸ hsize)]
        rfl
      | ok next =>
        obtain ⟨size, rng₁⟩ := next
        have hbounds := nextSize_bounds hrange.1 hrange.2 (Nat.pos_of_ne_zero hdone) hsize
        have hdrop : (positions.drop size).length = length - size := by
          rw [List.length_drop, hlength]
        rw [StandardFragmenter.sampleSizes_step hdone hsize,
          peelSizes_step (hlength ▸ hdone) hpositions (hlength ▸ hsize), ih (length - size) (by omega)
          (fun position hposition => hpositions position (List.mem_of_mem_drop hposition)) rng₁
          hdrop]

end RandomFragmenter

/-- Both loops cut any total into a partition, the last block alone possibly
below the range, and on the same source they cut it alike. -/
theorem chunkSizes_partition {low high total : Nat} (hlow : 1 ≤ low) (hle : low ≤ high)
    (hhigh : high < usizeSize) (rng : Rng) {bytes : Bytes}
    {positions : List Nat} (hlength : positions.length = total)
    (hpositions : ∀ position ∈ positions, position < bytes.length) :
    ChoosesSizes low high total rng (StandardFragmenter.sampleChunkSizes total low high rng) ∧
      ChoosesSizes low high total rng
        (RandomFragmenter.peelSizes low high ⟨hlow, hle⟩ bytes positions rng) ∧
      RandomFragmenter.peelSizes low high ⟨hlow, hle⟩ bytes positions rng =
        StandardFragmenter.sampleChunkSizes total low high rng := by
  have hchooses := StandardFragmenter.sampleChunkSizes_chooses ⟨hlow, hle⟩ hhigh total rng
  have hsame : RandomFragmenter.peelSizes low high ⟨hlow, hle⟩ bytes positions rng =
      StandardFragmenter.sampleChunkSizes total low high rng := by
    rw [StandardFragmenter.sampleChunkSizes_of_range ⟨hlow, hle⟩, ← hlength]
    exact RandomFragmenter.peelSizes_eq_sampleSizes ⟨hlow, hle⟩ hpositions rng
  rw [hsame]
  exact ⟨hchooses, hchooses, rfl⟩

theorem chunkSizes_partition_nine :
    ∃ sizes rng', StandardFragmenter.sampleChunkSizes 9 3 4 (.constant 1) = .ok (sizes, rng') ∧
      IsPartition 3 4 9 sizes ∧
      RandomFragmenter.peelSizes 3 4 ⟨by decide, by decide⟩ [1, 2, 3, 4, 5, 6, 7, 8, 9]
        [4, 2, 0, 6, 8, 1, 7, 3, 5] (.constant 1) = .ok (sizes, rng') := by
  obtain ⟨hcut, -, hsame⟩ := chunkSizes_partition (show 1 ≤ 3 by decide) (show 3 ≤ 4 by decide)
    (by decide) (.constant 1) (show [4, 2, 0, 6, 8, 1, 7, 3, 5].length = 9 by decide)
    (show ∀ position ∈ [4, 2, 0, 6, 8, 1, 7, 3, 5], position < [1, 2, 3, 4, 5, 6, 7, 8, 9].length
      by decide)
  obtain ⟨sizes, rng', hsizes⟩ := hcut.returns (by intro call; rfl)
  exact ⟨sizes, rng', hsizes, hcut.partition sizes rng' hsizes, hsame.trans hsizes⟩

example : (StandardFragmenter.sampleChunkSizes 9 3 4 (.constant 1)).map Prod.fst = .ok [4, 3, 2] := by
  decide +kernel

end KeyVault
