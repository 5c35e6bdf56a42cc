import KeyVault.Fragments

/-! The interleaved fragmenter: the key bytes sit at random distinct positions of
one larger pool of random bytes. The layout holds the pool size and the position
of every key byte. -/
namespace KeyVault

structure InterleavedFragmenter where
  poolFactor : Nat
  two_le_poolFactor : 2 ≤ poolFactor
  poolFactor_lt : poolFactor < usizeSize

namespace InterleavedFragmenter

def new : InterleavedFragmenter where
  poolFactor := 4
  two_le_poolFactor := by decide
  poolFactor_lt := four_lt_usizeSize

def withPoolFactor (factor : Usize) : InterleavedFragmenter where
  poolFactor := max factor.val 2
  two_le_poolFactor := by omega
  poolFactor_lt := by
    have hsize : 2 < usizeSize := by decide
    omega

def overlay (bytes : Bytes) : Nat → List Nat → Bytes → Result Bytes
  | _, [], pool => .ok pool
  | i, position :: positions, pool => do
      let byte ← index bytes i
      if position < pool.length then overlay bytes (i + 1) positions (pool.set position byte)
      else .error .panic

def fragment (f : InterleavedFragmenter) (key : Bytes) (rng : Rng) :
    Result (Fragments × Rng) := do
  require (key.length ≠ 0) (.fragment "empty key cannot be fragmented")
  let poolSize := key.length * f.poolFactor
  require (poolSize < usizeSize) (.fragment "pool size overflowed")
  require (poolSize ≤ u32Max) (.fragment "pool size exceeds u32 layout encoding")
  match fisherYates (List.range poolSize) rng with
  | (.error exit, _) => .error exit
  | (.ok rng, allPositions) =>
      let positions := allPositions.take key.length
      let (padding, rng) ← rng.fill poolSize
      let pool ← overlay key 0 positions padding
      return (.fromParts [pool] (u32Words (poolSize :: positions)) key.length, rng)

/-- The checks before the loop of `defragment_into`; returns the pool size. -/
def readPoolSize (f : Fragments) (pool out : Bytes) : Result Nat := do
  require (out.length = f.totalLen)
    (.defragment "scratch buffer size does not match fragments.total_len()")
  let width ← usizeMul f.totalLen 4
  let expected ← usizeAdd 4 width
  require (f.layoutBytes.length = expected)
    (.defragment "interleaved layout size does not match key length")
  let poolSize ← u32Slice f.layoutBytes 0 4 (.defragment "layout slice")
  require (poolSize = pool.length)
    (.defragment "interleaved layout pool size disagrees with chunk size")
  return poolSize

/-- The loop of `defragment_into`, on the part of the buffer from `i` on. -/
def gather (layout pool : Bytes) (poolSize : Nat) : Nat → Bytes → Result Unit × Bytes
  | _, [] => (.ok (), [])
  | i, slot :: slots =>
      match readPosition layout 4 i with
      | .error exit => (.error exit, slot :: slots)
      | .ok position =>
          if poolSize ≤ position then
            (fail (.defragment "interleaved layout position out of range"), slot :: slots)
          else
            match index pool position with
            | .error exit => (.error exit, slot :: slots)
            | .ok byte =>
                let (result, slots) := gather layout pool poolSize (i + 1) slots
                (result, byte :: slots)

def defragmentInto (f : Fragments) (out : Bytes) : Result Unit × Bytes :=
  match f.chunkBytes with
  | [pool] =>
      match readPoolSize f pool out with
      | .error exit => (.error exit, out)
      | .ok poolSize => gather f.layoutBytes pool poolSize 0 out
  | _ => (fail (.defragment "interleaved fragments expects exactly one chunk"), out)

def strategy (f : InterleavedFragmenter) : FragmentStrategy where
  fragment := f.fragment
  defragment := defragmentZeroed defragmentInto
  defragmentInto := defragmentInto

theorem overlay_spec {bytes pool pool' : Bytes} {i : Nat} {positions : List Nat}
    (h : overlay bytes i positions pool = .ok pool') (hnodup : positions.Nodup) :
    pool'.length = pool.length ∧
      (∀ other, other ∉ positions → pool'[other]? = pool[other]?) ∧
      ∀ j position, positions[j]? = some position → pool'[position]? = bytes[i + j]? := by
  induction positions generalizing i pool with
  | nil =>
    cases h
    refine ⟨rfl, fun other _ => rfl, ?_⟩
    intro j position hposition
    simp at hposition
  | cons first positions ih =>
    simp only [overlay, bind_eq_ok] at h
    obtain ⟨byte, hbyte, hrest⟩ := h
    have hvalue := index_eq_ok.mp hbyte
    split at hrest
    · rename_i hlt
      obtain ⟨hfirst, hnodup'⟩ := List.nodup_cons.mp hnodup
      obtain ⟨hlength, hothers, hplaced⟩ := ih hrest hnodup'
      refine ⟨by rw [hlength, List.length_set], ?_, ?_⟩
      · intro other hother
        rw [List.mem_cons, not_or] at hother
        rw [hothers other hother.2, List.getElem?_set_ne (Ne.symm hother.1)]
      · intro j position hposition
        cases j with
        | zero =>
          simp only [List.getElem?_cons_zero, Option.some.injEq] at hposition
          subst hposition
          rw [hothers first hfirst, List.getElem?_set_self hlt, Nat.add_zero, hvalue]
        | succ j =>
          simp only [List.getElem?_cons_succ] at hposition
          rw [hplaced j position hposition]
          congr 1
          omega
    · cases hrest

theorem overlay_ok {bytes pool : Bytes} {i : Nat} {positions : List Nat}
    (hcount : i + positions.length ≤ bytes.length)
    (hpositions : ∀ position ∈ positions, position < pool.length) :
    ∃ pool', overlay bytes i positions pool = .ok pool' := by
  induction positions generalizing i pool with
  | nil => exact ⟨pool, rfl⟩
  | cons first positions ih =>
    rw [List.length_cons] at hcount
    have hi : i < bytes.length := by omega
    have hfirst := hpositions first (List.mem_cons_self ..)
    obtain ⟨pool', hpool'⟩ := @ih (pool.set first bytes[i]) (i + 1) (by omega) (by
      intro position hposition
      rw [List.length_set]
      exact hpositions position (List.mem_cons_of_mem _ hposition))
    unfold overlay
    rw [index_of_getElem? (List.getElem?_eq_getElem hi), ok_bind, if_pos hfirst, hpool']
    exact ⟨pool', rfl⟩

theorem fragment_reliable (f : InterleavedFragmenter) {key : Bytes} {rng : Rng}
    (hrng : rng.Reliable) (hempty : key.length ≠ 0)
    (hlimit : key.length * f.poolFactor ≤ u32Max) : ∃ fragments rng',
    f.fragment key rng = .ok (fragments, rng') ∧ rng'.Reliable := by
  have hmax : u32Max < usizeSize := by decide
  obtain ⟨rng₁, positions, hshuffle, hperm, hrng₁⟩ :=
    hrng.fisherYates (List.range (key.length * f.poolFactor))
  obtain ⟨padding, rng₂, hpadding, hrng₂⟩ := hrng₁.fill (key.length * f.poolFactor)
  obtain ⟨pool, hpool⟩ := @overlay_ok key padding 0 (positions.take key.length) (by
    rw [List.length_take]
    omega) (by
    intro position hposition
    rw [length_of_fill hpadding]
    exact List.mem_range.mp (hperm.mem_iff.mp (List.mem_of_mem_take hposition)))
  unfold fragment
  dsimp only
  rw [require_of hempty, ok_bind, require_of (by omega), ok_bind, require_of hlimit, ok_bind,
    hshuffle]
  dsimp only
  rw [hpadding, ok_bind]
  dsimp only
  rw [hpool, ok_bind]
  exact ⟨_, _, rfl, hrng₂⟩

theorem gather_eq {key pool out : Bytes} {positions : List Nat} {poolSize i : Nat}
    (hlength : positions.length = key.length)
    (hplaced : ∀ j position : Nat, positions[j]? = some position → pool[position]? = key[j]?)
    (hpool : pool.length = poolSize) (hpoolSize : poolSize ≤ u32Max)
    (hfits : (poolSize :: positions).length * 4 < usizeSize) (hout : out.length + i = key.length) :
    gather (u32Words (poolSize :: positions)) pool poolSize i out = (.ok (), key.drop i) := by
  induction out generalizing i with
  | nil =>
    rw [List.length_nil, Nat.zero_add] at hout
    rw [hout, List.drop_length]
    rfl
  | cons slot slots ih =>
    rw [List.length_cons] at hout
    have hi : i < key.length := by omega
    have hposition : positions[i]? = some positions[i] := List.getElem?_eq_getElem (by omega)
    generalize positions[i] = position at hposition
    have hbyte : pool[position]? = some key[i] := by
      rw [hplaced i position hposition, List.getElem?_eq_getElem hi]
    have hinside : position < pool.length := (List.getElem?_eq_some_iff.mp hbyte).1
    have hlookup : (poolSize :: positions)[1 + i]? = some position := by
      rw [Nat.add_comm, List.getElem?_cons_succ]
      exact hposition
    have hread := readPosition_u32Words hlookup (by omega) hfits
    rw [Nat.one_mul] at hread
    unfold gather
    rw [hread]
    dsimp only
    rw [if_neg (by omega), index_of_getElem? hbyte]
    dsimp only
    rw [ih (by omega), List.drop_eq_getElem_cons hi]

theorem readPoolSize_eq {g : Fragments} {key pool out : Bytes} {positions : List Nat}
    {poolSize : Nat} (hlayout : g.layoutBytes = u32Words (poolSize :: positions))
    (hlength : positions.length = key.length) (htotal : g.totalLen = key.length)
    (hpool : pool.length = poolSize) (hpoolSize : poolSize ≤ u32Max)
    (hfits : (poolSize :: positions).length * 4 < usizeSize) (hout : out.length = key.length) :
    readPoolSize g pool out = .ok poolSize := by
  rw [List.length_cons] at hfits
  unfold readPoolSize
  rw [require_of (hout.trans htotal.symm), ok_bind, htotal, usizeMul_of_lt (by omega), ok_bind,
    usizeAdd_of_lt (by omega), ok_bind, hlayout, length_u32Words, List.length_cons,
    require_of (by omega), ok_bind,
    u32Slice_u32Words (List.getElem?_cons_zero) hpoolSize rfl rfl, ok_bind,
    require_of hpool.symm, ok_bind]
  rfl

theorem strategy_roundTrips (f : InterleavedFragmenter) : f.strategy.RoundTrips := by
  intro key rng fragments rng' h g hview
  simp only [strategy, fragment, bind_eq_ok] at h
  obtain ⟨_, -, _, -, _, hpoolSize, h⟩ := h
  rw [require_eq_ok] at hpoolSize
  have hperm := fisherYates_perm (List.range (key.length * f.poolFactor)) rng
  split at h
  · cases h
  · rename_i rng₁ allPositions hshuffle
    rw [hshuffle] at hperm
    simp only [bind_eq_ok, Prod.exists] at h
    obtain ⟨padding, rng₂, hpadding, pool, hpool, hresult⟩ := h
    cases hresult
    have hfactor : key.length ≤ key.length * f.poolFactor := by
      have htwo := Nat.mul_le_mul_left key.length f.two_le_poolFactor
      omega
    have hlength : (allPositions.take key.length).length = key.length := by
      rw [List.length_take, hperm.length_eq, List.length_range]
      omega
    have hnodup : (allPositions.take key.length).Nodup :=
      (hperm.nodup_iff.mpr List.nodup_range).sublist (List.take_sublist _ _)
    obtain ⟨hpoolLength, -, hplaced⟩ := overlay_spec hpool hnodup
    rw [length_of_fill hpadding] at hpoolLength
    simp only [Nat.zero_add] at hplaced
    have husize : (u32Max + 1) * 4 < usizeSize := by decide
    have hfits : (key.length * f.poolFactor :: allPositions.take key.length).length * 4
        < usizeSize := by
      rw [List.length_cons, hlength]
      omega
    obtain ⟨hviewChunks, hviewLayout, hviewTotal⟩ := hview
    rw [Fragments.chunkBytes_fromParts] at hviewChunks
    rw [Fragments.layoutBytes_fromParts] at hviewLayout
    rw [Fragments.totalLen_fromParts] at hviewTotal
    apply FragmentStrategy.restores_of_defragmentInto rfl hviewTotal.symm
    intro out hout
    show defragmentInto g out = (.ok (), key)
    unfold defragmentInto
    rw [← hviewChunks]
    dsimp only
    rw [readPoolSize_eq hviewLayout.symm hlength hviewTotal.symm hpoolLength hpoolSize hfits hout]
    dsimp only
    rw [← hviewLayout]
    have hgathered := gather_eq (i := 0) hlength hplaced hpoolLength hpoolSize hfits hout
    exact hgathered

end InterleavedFragmenter

end KeyVault
