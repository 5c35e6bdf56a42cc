import KeyVault.StandardFragmenter

/-! The built-in decoys. Each asks for buffers of its own before it writes a byte, and
a buffer cannot be longer than `isize::MAX`. -/
namespace KeyVault

/-- `vec![0u8; length]`; a length past `isize::MAX` unwinds. -/
def zeroedBuffer (length : Nat) : Result Bytes :=
  if length ≤ isizeMax then .ok (List.replicate length 0) else .error .panic

theorem zeroedBuffer_eq_ok {length : Nat} {buf : Bytes} :
    zeroedBuffer length = .ok buf ↔ length ≤ isizeMax ∧ List.replicate length 0 = buf := by
  unfold zeroedBuffer
  split <;> simp_all

theorem zeroedBuffer_of_le {length : Nat} (h : length ≤ isizeMax) :
    zeroedBuffer length = .ok (List.replicate length 0) := if_pos h

theorem zeroedBuffer_of_lt {length : Nat} (h : isizeMax < length) :
    zeroedBuffer length = .error .panic := if_neg (Nat.not_le_of_lt h)

namespace RandomDecoy

def generate (_key : Bytes) (outputLen : Nat) (rng : Rng) : Result (Bytes × Rng) :=
  if outputLen = 0 then .ok ([], rng)
  else do
    let buf ← zeroedBuffer outputLen
    rng.fill buf.length

def strategy : DecoyStrategy := ⟨generate⟩

end RandomDecoy

namespace SelfReferenceDecoy

/-- The `i`-th decoy byte: four random bytes choose a position of the key. -/
def pickByte (keyBytes randBuf : Bytes) (i : Nat) : Result UInt8 := do
  let start ← usizeMul i 4
  let stop ← usizeAdd start 4
  let raw ← u32Slice randBuf start stop (.internal "rand buffer slice did not size to u32")
  index keyBytes (raw % keyBytes.length)

def generate (key : Bytes) (outputLen : Nat) (rng : Rng) : Result (Bytes × Rng) :=
  if outputLen = 0 then .ok ([], rng)
  else do
    require (key ≠ []) (.decoy "self-reference decoy requires a non-empty key")
    let randBuf ← zeroedBuffer (min (outputLen * 4) (usizeSize - 1))
    let (randBuf, rng) ← rng.fill randBuf.length
    let out ← (List.range outputLen).mapM (pickByte key randBuf)
    return (out, rng)

def strategy : DecoyStrategy := ⟨generate⟩

end SelfReferenceDecoy

namespace KeyDerivedDecoy

/-- `xof` is the extendable output of BLAKE3, byte by byte. -/
def generate (xof : Bytes → Nat → UInt8) (key : Bytes) (outputLen : Nat) (rng : Rng) :
    Result (Bytes × Rng) :=
  if outputLen = 0 then .ok ([], rng)
  else do
    let (nonce, rng) ← rng.fill 32
    let out ← zeroedBuffer outputLen
    return ((List.range out.length).map (xof (key ++ nonce)), rng)

def strategy (xof : Bytes → Nat → UInt8) : DecoyStrategy := ⟨generate xof⟩

end KeyDerivedDecoy

/-- The built-in decoys, with the bytes of buffer they ask for per decoy byte. -/
inductive BuiltinDecoy : DecoyStrategy → Nat → Prop where
  | random : BuiltinDecoy RandomDecoy.strategy 1
  | selfReference : BuiltinDecoy SelfReferenceDecoy.strategy 4
  | keyDerived (xof : Bytes → Nat → UInt8) : BuiltinDecoy (KeyDerivedDecoy.strategy xof) 1

theorem SelfReferenceDecoy.pickByte_ok {key randBuf : Bytes} {i : Nat} (hkey : key ≠ [])
    (hfits : i * 4 + 4 ≤ randBuf.length) (hsize : randBuf.length < usizeSize) :
    ∃ byte, pickByte key randBuf i = .ok byte := by
  have hposition : wordAt randBuf i % key.length < key.length :=
    Nat.mod_lt _ (List.length_pos_iff.mpr hkey)
  unfold pickByte
  rw [usizeMul_of_lt (by omega), ok_bind, usizeAdd_of_lt (by omega), ok_bind,
    u32Slice_of_le rfl rfl hfits, ok_bind]
  exact ⟨_, index_of_getElem? (List.getElem?_eq_getElem hposition)⟩

theorem mapM_returns {α β : Type} {f : α → Result β} {items : List α}
    (h : ∀ item ∈ items, ∃ value, f item = .ok value) :
    ∃ values, items.mapM f = .ok values ∧ values.length = items.length := by
  induction items with
  | nil => exact ⟨[], rfl, rfl⟩
  | cons item items ih =>
    obtain ⟨value, hvalue⟩ := h item (List.mem_cons_self ..)
    obtain ⟨values, hvalues, hlength⟩ := ih fun other hother => h other (List.mem_cons_of_mem _ hother)
    rw [List.mapM_cons, hvalue, ok_bind, hvalues, ok_bind]
    exact ⟨value :: values, rfl, by rw [List.length_cons, hlength, List.length_cons]⟩

theorem BuiltinDecoy.generate_ok {decoy : DecoyStrategy} {scale : Nat}
    (h : BuiltinDecoy decoy scale) {key : Bytes} {size : Nat} {rng : Rng} (hkey : key ≠ [])
    (hsize : size * scale ≤ isizeMax) (hrng : rng.Reliable) : ∃ bytes rng',
    decoy.generate key size rng = .ok (bytes, rng') ∧ bytes.length = size ∧ rng'.Reliable := by
  have hmax : isizeMax < usizeSize := by decide
  by_cases hzero : size = 0
  · subst hzero
    refine ⟨[], rng, ?_, rfl, hrng⟩
    cases h <;> rfl
  · cases h with
    | random =>
      obtain ⟨bytes, rng', hfill, hrng'⟩ := hrng.fill size
      refine ⟨bytes, rng', ?_, length_of_fill hfill, hrng'⟩
      unfold RandomDecoy.strategy RandomDecoy.generate
      dsimp only
      rw [if_neg hzero, zeroedBuffer_of_le (by omega), ok_bind, List.length_replicate, hfill]
    | selfReference =>
      have hcount : min (size * 4) (usizeSize - 1) = size * 4 := by omega
      obtain ⟨randBuf, rng', hfill, hrng'⟩ := hrng.fill (size * 4)
      have hrandBuf := length_of_fill hfill
      obtain ⟨out, hout, hlength⟩ := @mapM_returns _ _ (SelfReferenceDecoy.pickByte key randBuf)
        (List.range size) (by
          intro i hi
          have hlt := List.mem_range.mp hi
          exact SelfReferenceDecoy.pickByte_ok hkey (by omega) (by omega))
      rw [List.length_range] at hlength
      refine ⟨out, rng', ?_, hlength, hrng'⟩
      unfold SelfReferenceDecoy.strategy SelfReferenceDecoy.generate
      dsimp only
      rw [if_neg hzero, require_of hkey, ok_bind, hcount, zeroedBuffer_of_le hsize, ok_bind,
        List.length_replicate, hfill, ok_bind]
      dsimp only
      rw [hout, ok_bind]
      rfl
    | keyDerived xof =>
      obtain ⟨nonce, rng', hfill, hrng'⟩ := hrng.fill 32
      refine ⟨(List.range size).map (xof (key ++ nonce)), rng', ?_, by simp, hrng'⟩
      unfold KeyDerivedDecoy.strategy KeyDerivedDecoy.generate
      dsimp only
      rw [if_neg hzero, hfill, ok_bind]
      dsimp only
      rw [zeroedBuffer_of_le (by omega), ok_bind, List.length_replicate]
      rfl

theorem BuiltinDecoy.generate_oversized {decoy : DecoyStrategy} {scale : Nat}
    (h : BuiltinDecoy decoy scale) {key : Bytes} {size : Nat} (hsize : isizeMax < size * scale)
    (rng : Rng) (out : Bytes × Rng) : decoy.generate key size rng ≠ .ok out := by
  have hzero : size ≠ 0 := by
    rintro rfl
    rw [Nat.zero_mul] at hsize
    exact Nat.not_lt_zero _ hsize
  intro hout
  cases h with
  | random =>
    unfold RandomDecoy.strategy RandomDecoy.generate at hout
    dsimp only at hout
    rw [if_neg hzero, zeroedBuffer_of_lt (by omega)] at hout
    cases hout
  | selfReference =>
    have hmax : isizeMax < usizeSize - 1 := by decide
    unfold SelfReferenceDecoy.strategy SelfReferenceDecoy.generate at hout
    dsimp only at hout
    rw [if_neg hzero, zeroedBuffer_of_lt (by omega)] at hout
    obtain ⟨_, -, hout⟩ := bind_eq_ok.mp hout
    cases hout
  | keyDerived xof =>
    unfold KeyDerivedDecoy.strategy KeyDerivedDecoy.generate at hout
    dsimp only at hout
    rw [if_neg hzero] at hout
    obtain ⟨⟨nonce, rng'⟩, -, hout⟩ := bind_eq_ok.mp hout
    rw [zeroedBuffer_of_lt (by omega)] at hout
    cases hout

end KeyVault
