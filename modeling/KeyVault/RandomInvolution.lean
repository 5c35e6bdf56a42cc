import Mathlib.Data.FinEnum
import KeyVault.Shuffles
import KeyVault.StaticCodex
import KeyVault.UniformLaw

/-! Which codex `random_involution` makes. The choices of one shuffle of all bytes decide its
table, which pairs every byte with another; uniform choices make every such pairing as likely
as any other. -/
namespace KeyVault

open Pairings UniformLaw
open scoped Nat

theorem card_byte : Fintype.card UInt8 = 256 := by
  rw [← FinEnum.card_eq_fintypeCard]
  rfl

theorem even_card_byte : Even (Fintype.card UInt8) := by
  rw [card_byte]
  decide

namespace StaticCodex

def ofChoices (choices : List Nat) : StaticCodex :=
  ⟨pairAdjacent .identity (rearrange 255 choices ((List.range 256).map UInt8.ofNat))⟩

theorem length_allBytes : ((List.range 256).map UInt8.ofNat).length = 256 := by
  rw [List.length_map, List.length_range]

section Choices

variable {choices : List Nat} {rng rng' : Rng} {codex : StaticCodex}

theorem encode_ofChoices (choices : List Nat) : (ofChoices choices).encode =
    exchangeAll id (adjacentPairs (rearrange 255 choices ((List.range 256).map UInt8.ofNat))) :=
  encode_pairAdjacent _

theorem randomInvolution_eq_ok : randomInvolution rng = .ok (codex, rng') ↔
    (fisherYates ((List.range 256).map UInt8.ofNat) rng).1 = .ok rng' ∧
      codex = ofChoices (drawn 255 rng) := by
  have hslice := (fisherYates_rearranges ((List.range 256).map UInt8.ofNat) rng).1
  rw [length_allBytes] at hslice
  unfold randomInvolution ofChoices
  rw [← hslice]
  rcases fisherYates ((List.range 256).map UInt8.ofNat) rng with ⟨exit | rng₁, perm⟩
  · simp
  · simp [and_comm, eq_comm]

theorem randomInvolution_ok_iff : (∃ codex rng', randomInvolution rng = .ok (codex, rng')) ↔
    (drawn 255 rng).length = 255 := by
  have hok := (fisherYates_rearranges ((List.range 256).map UInt8.ofNat) rng).2
  rw [length_allBytes] at hok
  rw [← hok]
  constructor
  · rintro ⟨codex, rng', h⟩
    exact ⟨rng', (randomInvolution_eq_ok.mp h).1⟩
  · rintro ⟨rng', h⟩
    exact ⟨_, rng', randomInvolution_eq_ok.mpr ⟨h, rfl⟩⟩

theorem pairsUp_ofChoices (choices : List Nat) : PairsUp (ofChoices choices).encode := by
  rw [encode_ofChoices]
  apply pairsUp_adjacent allBytes_nodup mem_allBytes
  · rw [length_allBytes]
  · exact rearrange_perm _ _ _

end Choices

theorem pairings_nonempty : (pairings UInt8).Nonempty := (pairsUp_ofChoices []).pairings_nonempty

theorem card_bytePairings : (pairings UInt8).card * (2 ^ 128 * 128 !) = 256 ! := by
  have hcount := card_pairings even_card_byte
  rw [card_byte, show 256 / 2 = 128 from rfl] at hcount
  exact hcount

theorem map_uniformChoices : (uniformChoices 255).map (fun choices => (ofChoices choices).encode) =
    PMF.uniformOfFinset (pairings UInt8) pairings_nonempty := by
  have hshuffle := uniformChoices_map_eq_uniform allBytes_nodup
  have hpairs := map_permutations_uniform allBytes_nodup mem_allBytes
    (by rw [length_allBytes]) pairings_nonempty
  rw [← hshuffle, PMF.map_comp, length_allBytes] at hpairs
  simp only [encode_ofChoices]
  exact hpairs

theorem exists_source_pairs {f : UInt8 → UInt8} (hf : PairsUp f) : ∃ rng rng' codex,
    rng.Reliable ∧ randomInvolution rng = .ok (codex, rng') ∧ codex.encode = f := by
  obtain ⟨perm, hperm, rfl⟩ := exists_shuffle allBytes_nodup mem_allBytes (by rw [length_allBytes]) hf
  obtain ⟨rng, rng', hreliable, hshuffle⟩ := exists_source_shuffles allBytes_nodup
    (by rw [length_allBytes]; decide) hperm
  refine ⟨rng, rng', ⟨pairAdjacent .identity perm⟩, hreliable, ?_, encode_pairAdjacent perm⟩
  unfold randomInvolution
  rw [hshuffle]

/-- The choices of the shuffle determine the codex; each is an involution without fixed points,
and with uniform choices each of these, `256! / (2 ^ 128 * 128!)` in number, is as likely as any
other. -/
theorem randomInvolution_uniform :
    (∀ rng, ((∃ codex rng', randomInvolution rng = .ok (codex, rng')) ↔
        (drawn 255 rng).length = 255) ∧
      ∀ codex rng', randomInvolution rng = .ok (codex, rng') →
        codex = ofChoices (drawn 255 rng)) ∧
    (uniformChoices 255).map (fun choices => (ofChoices choices).encode) =
      PMF.uniformOfFinset (pairings UInt8) pairings_nonempty ∧
    (pairings UInt8).card * (2 ^ 128 * 128 !) = 256 ! ∧
    ∀ f : UInt8 → UInt8, PairsUp f → ∃ rng rng' codex, rng.Reliable ∧
      randomInvolution rng = .ok (codex, rng') ∧ codex.encode = f := by
  refine ⟨fun rng => ⟨randomInvolution_ok_iff, ?_⟩, map_uniformChoices, card_bytePairings, ?_⟩
  · intro codex rng' h
    exact (randomInvolution_eq_ok.mp h).2
  · intro f hf
    exact exists_source_pairs hf

end StaticCodex

end KeyVault
