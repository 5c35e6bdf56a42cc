import KeyVault.InterleavedFragmenter
import KeyVault.RandomFragmenter
import KeyVault.StandardFragmenter

/-! The layered fragmenter hands each key to one of several strategies and puts
the chosen index in front of that strategy's layout. The round trip of all
built-in strategies, layered to any depth, is proved here. -/
namespace KeyVault

structure LayeredFragmenter where
  subStrategies : List FragmentStrategy
  nonempty : subStrategies ≠ []
  length_le : subStrategies.length ≤ u32Max

namespace LayeredFragmenter

def new (subStrategies : List FragmentStrategy) : Result LayeredFragmenter :=
  if hempty : subStrategies = [] then
    fail (.invalidConfig "LayeredFragmenter requires at least one sub-strategy")
  else if hlength : subStrategies.length ≤ u32Max then .ok ⟨subStrategies, hempty, hlength⟩
  else fail (.invalidConfig "LayeredFragmenter sub-strategy count exceeds u32")

def pick (f : LayeredFragmenter) (fragments : Fragments) : Result Nat := do
  require (4 ≤ fragments.layoutBytes.length)
    (.defragment "layered layout shorter than 4-byte header")
  let pick := LittleEndian.decode (fragments.layoutBytes.take 4)
  require (pick < f.subStrategies.length)
    (.defragment ("layered layout strategy index " ++ toString pick ++ " out of range"))
  return pick

/-- The chunk buffers of a fresh result are its own, so moving them keeps their
bytes. -/
def fragment (f : LayeredFragmenter) (key : Bytes) (rng : Rng) : Result (Fragments × Rng) := do
  let (r, rng) ← randomU64 rng
  let pick := r % f.subStrategies.length
  let sub ← index f.subStrategies pick
  let (fragments, rng) ← sub.fragment key rng
  require (pick ≤ u32Max) (.internal "LayeredFragmenter sub-strategy index exceeded u32")
  return (.fromParts fragments.chunkBytes (u32ToLeBytes pick ++ fragments.layoutBytes)
    fragments.totalLen, rng)

def defragmentInto (f : LayeredFragmenter) (fragments : Fragments) (out : Bytes) :
    Result Unit × Bytes :=
  match f.pick fragments with
  | .error exit => (.error exit, out)
  | .ok pick =>
      match index f.subStrategies pick with
      | .error exit => (.error exit, out)
      | .ok sub => sub.defragmentInto (fragments.viewSkipping 4) out

def strategy (f : LayeredFragmenter) : FragmentStrategy where
  fragment := f.fragment
  defragment := defragmentZeroed f.defragmentInto
  defragmentInto := f.defragmentInto

theorem pick_of_layout {f : LayeredFragmenter} {fragments : Fragments} {position : Nat}
    {layout : Bytes} (hposition : position < f.subStrategies.length)
    (hlayout : fragments.layoutBytes = u32ToLeBytes position ++ layout) :
    f.pick fragments = .ok position := by
  have hword : position < 256 ^ 4 := by
    have hmax : u32Max < 256 ^ 4 := by decide
    have hcount := f.length_le
    omega
  have hheader : LittleEndian.decode (fragments.layoutBytes.take 4) = position := by
    rw [hlayout, List.take_left' (length_u32ToLeBytes position)]
    exact LittleEndian.decode_encode_of_lt 4 position hword
  unfold pick
  rw [require_of (by rw [hlayout, List.length_append, length_u32ToLeBytes]; omega), ok_bind]
  dsimp only
  rw [hheader, require_of hposition, ok_bind]
  rfl

theorem strategy_roundTrips {f : LayeredFragmenter}
    (hsub : ∀ sub ∈ f.subStrategies, sub.RoundTrips) : f.strategy.RoundTrips := by
  intro key rng fragments rng' h g hview
  simp only [strategy, fragment, bind_eq_ok, Prod.exists] at h
  obtain ⟨r, rng₁, -, sub, hindex, inner, _, hinner, _, -, hresult⟩ := h
  cases hresult
  have hposition : r % f.subStrategies.length < f.subStrategies.length :=
    Nat.mod_lt _ (List.length_pos_iff.mpr f.nonempty)
  have hmem := List.mem_of_getElem? (index_eq_ok.mp hindex)
  obtain ⟨hchunks, hlayout, htotal⟩ := hview
  rw [Fragments.chunkBytes_fromParts] at hchunks
  rw [Fragments.layoutBytes_fromParts] at hlayout
  rw [Fragments.totalLen_fromParts] at htotal
  have hskipped : inner.SameView (g.viewSkipping 4) := by
    refine ⟨hchunks, ?_, htotal⟩
    rw [Fragments.layoutBytes_viewSkipping, ← hlayout, List.drop_left' (length_u32ToLeBytes _)]
  obtain ⟨hlength, -, hinto⟩ := hsub sub hmem key rng₁ inner _ hinner _ hskipped
  apply FragmentStrategy.restores_of_defragmentInto rfl (show g.totalLen = key.length from hlength)
  intro out hout
  show f.defragmentInto g out = (.ok (), key)
  unfold defragmentInto
  rw [pick_of_layout hposition hlayout.symm]
  dsimp only
  rw [hindex]
  exact hinto out hout

end LayeredFragmenter

/-- Strategies put together from the four built-in ones. -/
inductive Builtin : FragmentStrategy → Prop where
  | standard (f : StandardFragmenter) : Builtin f.strategy
  | random (f : RandomFragmenter) : Builtin f.strategy
  | interleaved (f : InterleavedFragmenter) : Builtin f.strategy
  | layered (f : LayeredFragmenter) (hsub : ∀ sub ∈ f.subStrategies, Builtin sub) :
      Builtin f.strategy

theorem Builtin.roundTrips {s : FragmentStrategy} (h : Builtin s) : s.RoundTrips := by
  induction h with
  | standard f => exact f.strategy_roundTrips
  | random f => exact f.strategy_roundTrips
  | interleaved f => exact f.strategy_roundTrips
  | layered f _ ih => exact LayeredFragmenter.strategy_roundTrips ih

/-- Whatever the randomness source answers, what a built-in strategy makes of a
key reassembles to exactly that key, through both decoders. -/
theorem builtin_fragment_restores {s : FragmentStrategy} {key : Bytes} {rng rng' : Rng}
    {f : Fragments} (hs : Builtin s) (h : s.fragment key rng = .ok (f, rng')) :
    f.totalLen = key.length ∧ s.defragment f = .ok key ∧
      ∀ out : Bytes, out.length = key.length → s.defragmentInto f out = (.ok (), key) :=
  hs.roundTrips key rng f rng' h f ⟨rfl, rfl, rfl⟩

def twoLayers : LayeredFragmenter where
  subStrategies := [RandomFragmenter.new.strategy,
    LayeredFragmenter.strategy
      { subStrategies := [StandardFragmenter.strategy (StandardFragmenter.new.withDecoy
          ⟨fun _ size rng => .ok (List.replicate (size + 1) 170, rng)⟩)]
        nonempty := by simp
        length_le := by decide }]
  nonempty := by simp
  length_le := by decide

theorem builtin_twoLayers : Builtin twoLayers.strategy := by
  apply Builtin.layered
  intro sub hsub
  simp only [twoLayers, List.mem_cons, List.not_mem_nil, or_false] at hsub
  rcases hsub with rfl | rfl
  · exact Builtin.random _
  · apply Builtin.layered
    intro inner hinner
    rw [List.mem_singleton.mp hinner]
    exact Builtin.standard _

theorem twoLayers_fragment_restores : ∃ f rng',
    twoLayers.strategy.fragment [7, 1, 255, 0, 7, 9, 3, 2, 8, 5] (.constant 3) = .ok (f, rng') ∧
      f.totalLen = 10 ∧ twoLayers.strategy.defragment f = .ok [7, 1, 255, 0, 7, 9, 3, 2, 8, 5] ∧
      twoLayers.strategy.defragmentInto f (List.replicate 10 66) =
        (.ok (), [7, 1, 255, 0, 7, 9, 3, 2, 8, 5]) := by
  have hok : (twoLayers.strategy.fragment [7, 1, 255, 0, 7, 9, 3, 2, 8, 5]
      (.constant 3)).toBool = true := by decide +kernel
  cases hfragment : twoLayers.strategy.fragment [7, 1, 255, 0, 7, 9, 3, 2, 8, 5] (.constant 3) with
  | error exit =>
    rw [hfragment] at hok
    cases hok
  | ok out =>
    obtain ⟨htotal, hwhole, hinto⟩ := builtin_fragment_restores builtin_twoLayers hfragment
    exact ⟨out.1, out.2, rfl, htotal, hwhole, hinto _ rfl⟩

end KeyVault
