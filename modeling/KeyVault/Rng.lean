import KeyVault.Outcome
import Mathlib.Data.List.Perm.Basic

/-! The randomness source and the two helpers every fragmenter draws with. The
source is an arbitrary sequence of answers, any of which may be a failure. -/
namespace KeyVault

/-- `answers n` is what the `n`-th call of `fill` writes, byte by byte, or
`none` when that call fails. -/
structure Rng where
  answers : Nat → Option (Nat → UInt8)
  calls : Nat

def Rng.constant (value : Nat) : Rng :=
  ⟨fun _ => some fun position => (LittleEndian.encode 8 value).getD position 0, 0⟩

def Rng.fill (rng : Rng) (length : Nat) : Result (Bytes × Rng) :=
  match rng.answers rng.calls with
  | some answer => .ok ((List.range length).map answer, { rng with calls := rng.calls + 1 })
  | none => fail (.internal "RNG failed")

def randomU64 (rng : Rng) : Result (Nat × Rng) := do
  let (buf, rng) ← rng.fill 8
  return (LittleEndian.decode buf, rng)

def sampleRange (min max : Nat) (rng : Rng) : Result (Nat × Rng) := do
  let width ← usizeSub max min
  let span ← usizeAdd width 1
  let (r, rng) ← randomU64 rng
  let sample ← usizeAdd min (r % span)
  return (sample, rng)

/-- What the two loops that cut a key up have in common: what remains, when it fits, else a
sample that leaves at least `low` for the rest. -/
def nextSize (low high remaining : Nat) (rng : Rng) : Result (Nat × Rng) :=
  if remaining ≤ high then .ok (remaining, rng)
  else do
    let (pick, rng) ← sampleRange low high rng
    return (min (min (max (min pick (remaining - low)) low) high) remaining, rng)

def swap {α : Type} (slice : List α) (i j : Nat) : List α :=
  match slice[i]?, slice[j]? with
  | some left, some right => (slice.set i right).set j left
  | _, _ => slice

/-- The loop of `fisher_yates`, from index `i` down to 1. The slice is returned
also when the source fails part way. -/
def fisherYatesFrom {α : Type} : Nat → List α → Rng → Result Rng × List α
  | 0, slice, rng => (.ok rng, slice)
  | i + 1, slice, rng =>
      match randomU64 rng with
      | .error exit => (.error exit, slice)
      | .ok (r, rng) => fisherYatesFrom i (swap slice (i + 1) (r % (i + 2))) rng

def fisherYates {α : Type} (slice : List α) (rng : Rng) : Result Rng × List α :=
  if slice.length < 2 then (.ok rng, slice)
  else fisherYatesFrom (slice.length - 1) slice rng

def Rng.ofValues (values : Nat → Nat) : Rng :=
  ⟨fun call => some fun position => (LittleEndian.encode 8 (values call)).getD position 0, 0⟩

theorem length_of_fill {rng rng' : Rng} {length : Nat} {bytes : Bytes}
    (h : rng.fill length = .ok (bytes, rng')) : bytes.length = length := by
  unfold Rng.fill at h
  split at h
  · cases h
    simp
  · cases h

theorem sampleRange_bounds {min max value : Nat} {rng rng' : Rng}
    (h : sampleRange min max rng = .ok (value, rng')) : min ≤ value ∧ value ≤ max := by
  simp only [sampleRange, bind_eq_ok, usizeSub_eq_ok, usizeAdd_eq_ok, Prod.exists] at h
  obtain ⟨width, ⟨hle, rfl⟩, span, ⟨-, rfl⟩, r, rng₁, -, sample, ⟨-, rfl⟩, hvalue⟩ := h
  cases hvalue
  have hmod := Nat.mod_lt r (show 0 < max - min + 1 by omega)
  omega

/-- The loops make progress and never cut more than there is. -/
theorem nextSize_bounds {low high remaining size : Nat} {rng rng' : Rng} (hlow : 0 < low)
    (hhigh : low ≤ high) (hremaining : 0 < remaining)
    (h : nextSize low high remaining rng = .ok (size, rng')) : 0 < size ∧ size ≤ remaining := by
  unfold nextSize at h
  split at h
  · cases h
    omega
  · obtain ⟨⟨pick, rng₁⟩, -, hsize⟩ := bind_eq_ok.mp h
    cases hsize
    omega

theorem nextSize_le_high {low high remaining size : Nat} {rng rng' : Rng}
    (h : nextSize low high remaining rng = .ok (size, rng')) : size ≤ high := by
  unfold nextSize at h
  split at h
  · cases h
    assumption
  · obtain ⟨⟨pick, rng₁⟩, -, hsize⟩ := bind_eq_ok.mp h
    cases hsize
    omega

theorem swap_perm {α : Type} (slice : List α) (i j : Nat) : (swap slice i j).Perm slice := by
  unfold swap
  split
  · rename_i left right hleft hright
    obtain ⟨hi, rfl⟩ := List.getElem?_eq_some_iff.mp hleft
    obtain ⟨hj, rfl⟩ := List.getElem?_eq_some_iff.mp hright
    exact List.set_set_perm hi hj
  · exact List.Perm.refl slice

theorem fisherYatesFrom_perm {α : Type} (i : Nat) (slice : List α) (rng : Rng) :
    (fisherYatesFrom i slice rng).2.Perm slice := by
  induction i generalizing slice rng with
  | zero => exact List.Perm.refl slice
  | succ i ih =>
    unfold fisherYatesFrom
    split
    · exact List.Perm.refl slice
    · exact (ih _ _).trans (swap_perm slice _ _)

theorem fisherYates_perm {α : Type} (slice : List α) (rng : Rng) :
    (fisherYates slice rng).2.Perm slice := by
  unfold fisherYates
  split
  · exact List.Perm.refl slice
  · exact fisherYatesFrom_perm _ _ _

/-! ### A source that never fails -/

def Rng.Reliable (rng : Rng) : Prop := ∀ call, (rng.answers call).isSome = true

section Reliable

variable {rng : Rng}

theorem Rng.Reliable.fill (h : rng.Reliable) (length : Nat) : ∃ bytes rng',
    rng.fill length = .ok (bytes, rng') ∧ rng'.Reliable := by
  obtain ⟨answer, hanswer⟩ := Option.isSome_iff_exists.mp (h rng.calls)
  unfold Rng.fill
  rw [hanswer]
  exact ⟨_, _, rfl, h⟩

theorem Rng.Reliable.randomU64 (h : rng.Reliable) : ∃ value rng',
    randomU64 rng = .ok (value, rng') ∧ rng'.Reliable := by
  obtain ⟨buf, rng', hfill, hrng'⟩ := h.fill 8
  unfold KeyVault.randomU64
  rw [hfill]
  exact ⟨_, _, rfl, hrng'⟩

theorem Rng.Reliable.sampleRange (h : rng.Reliable) {low high : Nat} (hlow : 0 < low)
    (hle : low ≤ high) (hhigh : high < usizeSize) : ∃ sample rng',
    sampleRange low high rng = .ok (sample, rng') ∧ rng'.Reliable := by
  obtain ⟨value, rng', hvalue, hrng'⟩ := h.randomU64
  have hmod := Nat.mod_lt value (show 0 < high - low + 1 by omega)
  unfold KeyVault.sampleRange
  rw [usizeSub, if_pos hle, ok_bind, usizeAdd_of_lt (by omega), ok_bind, hvalue, ok_bind]
  dsimp only
  rw [usizeAdd_of_lt (by omega), ok_bind]
  exact ⟨_, _, rfl, hrng'⟩

theorem Rng.Reliable.nextSize (h : rng.Reliable) {low high : Nat} (hlow : 0 < low)
    (hle : low ≤ high) (hhigh : high < usizeSize) (remaining : Nat) : ∃ size rng',
    nextSize low high remaining rng = .ok (size, rng') ∧ rng'.Reliable := by
  unfold KeyVault.nextSize
  split
  · exact ⟨_, _, rfl, h⟩
  · obtain ⟨pick, rng', hpick, hrng'⟩ := h.sampleRange hlow hle hhigh
    rw [hpick, ok_bind]
    exact ⟨_, _, rfl, hrng'⟩

theorem Rng.Reliable.fisherYatesFrom {α : Type} (i : Nat) (h : rng.Reliable) (slice : List α) :
    ∃ rng', (fisherYatesFrom i slice rng).1 = .ok rng' ∧ rng'.Reliable := by
  induction i generalizing slice rng with
  | zero => exact ⟨rng, rfl, h⟩
  | succ i ih =>
    obtain ⟨value, rng', hvalue, hrng'⟩ := h.randomU64
    unfold KeyVault.fisherYatesFrom
    rw [hvalue]
    exact ih hrng' _

theorem Rng.Reliable.fisherYates {α : Type} (h : rng.Reliable) (slice : List α) :
    ∃ rng' shuffled, fisherYates slice rng = (.ok rng', shuffled) ∧ shuffled.Perm slice ∧
      rng'.Reliable := by
  have hanswer : ∃ rng', (KeyVault.fisherYates slice rng).1 = .ok rng' ∧ rng'.Reliable := by
    unfold KeyVault.fisherYates
    split
    · exact ⟨rng, rfl, h⟩
    · exact h.fisherYatesFrom _ slice
  obtain ⟨rng', hok, hrng'⟩ := hanswer
  refine ⟨rng', (KeyVault.fisherYates slice rng).2, ?_, fisherYates_perm slice rng, hrng'⟩
  rw [← hok]

end Reliable

/-! ### What is left of a source -/

def Rng.Later (rng rng' : Rng) : Prop := rng'.answers = rng.answers ∧ rng.calls ≤ rng'.calls

section Later

variable {rng rng' : Rng}

theorem Rng.Later.refl (rng : Rng) : rng.Later rng := ⟨rfl, Nat.le_refl _⟩

theorem Rng.Later.trans {rng'' : Rng} (h : rng.Later rng') (h' : rng'.Later rng'') :
    rng.Later rng'' := ⟨h'.1.trans h.1, Nat.le_trans h.2 h'.2⟩

theorem fill_later {length : Nat} {bytes : Bytes} (h : rng.fill length = .ok (bytes, rng')) :
    rng.Later rng' := by
  unfold Rng.fill at h
  split at h
  · cases h
    exact ⟨rfl, Nat.le_succ _⟩
  · cases h

theorem randomU64_later {value : Nat} (h : randomU64 rng = .ok (value, rng')) :
    rng.Later rng' := by
  obtain ⟨⟨buf, rng₁⟩, hfill, hvalue⟩ := bind_eq_ok.mp h
  cases hvalue
  exact fill_later hfill

theorem sampleRange_later {low high value : Nat} (h : sampleRange low high rng = .ok (value, rng')) :
    rng.Later rng' := by
  simp only [sampleRange, bind_eq_ok, Prod.exists] at h
  obtain ⟨width, -, span, -, r, rng₁, hr, sample, -, hvalue⟩ := h
  cases hvalue
  exact randomU64_later hr

theorem nextSize_later {low high remaining size : Nat}
    (h : nextSize low high remaining rng = .ok (size, rng')) : rng.Later rng' := by
  unfold nextSize at h
  split at h
  · cases h
    exact .refl rng
  · obtain ⟨⟨pick, rng₁⟩, hpick, hsize⟩ := bind_eq_ok.mp h
    cases hsize
    exact sampleRange_later hpick

end Later

/-! ### A source with chosen values -/

theorem Rng.ofValues_reliable (values : Nat → Nat) : (Rng.ofValues values).Reliable := by
  intro call
  rfl

def Rng.ofValuesAt (values : Nat → Nat) (calls : Nat) : Rng := { ofValues values with calls }

theorem range_map_getD (bytes : Bytes) :
    (List.range bytes.length).map (fun position => bytes.getD position 0) = bytes := by
  apply List.ext_getElem
  · simp
  · intro position _ hposition
    simp [hposition]

theorem Rng.randomU64_ofValuesAt (values : Nat → Nat) {calls : Nat}
    (h : values calls < usizeSize) :
    KeyVault.randomU64 (.ofValuesAt values calls) =
      .ok (values calls, .ofValuesAt values (calls + 1)) := by
  have hbytes := range_map_getD (LittleEndian.encode 8 (values calls))
  rw [LittleEndian.length_encode] at hbytes
  have hfill : (Rng.ofValuesAt values calls).fill 8 =
      .ok (LittleEndian.encode 8 (values calls), .ofValuesAt values (calls + 1)) := by
    rw [← hbytes]
    rfl
  unfold KeyVault.randomU64
  rw [hfill, ok_bind]
  dsimp only
  rw [LittleEndian.decode_encode_of_lt 8 _ (by simpa [usizeSize] using h)]
  rfl

theorem Rng.later_ofValuesAt {values : Nat → Nat} {calls : Nat} {rng : Rng}
    (h : (Rng.ofValuesAt values calls).Later rng) :
    ∃ calls', calls ≤ calls' ∧ rng = .ofValuesAt values calls' := by
  obtain ⟨answers, calls'⟩ := rng
  obtain ⟨rfl, hcalls⟩ := h
  exact ⟨calls', hcalls, rfl⟩

theorem sampleRange_ofValuesAt {values : Nat → Nat} {calls low high : Nat} (hlow : 0 < low)
    (hle : low ≤ high) (hhigh : high < usizeSize) (h : values calls = high - low) :
    sampleRange low high (.ofValuesAt values calls) = .ok (high, .ofValuesAt values (calls + 1)) := by
  unfold sampleRange
  rw [usizeSub, if_pos hle, ok_bind, usizeAdd_of_lt (by omega), ok_bind,
    Rng.randomU64_ofValuesAt values (by omega), ok_bind]
  dsimp only
  rw [h, Nat.mod_eq_of_lt (Nat.lt_succ_self _), usizeAdd_of_lt (by omega), ok_bind,
    Nat.add_sub_cancel' hle]
  rfl

theorem swap_self {α : Type} (slice : List α) (i : Nat) : swap slice i i = slice := by
  unfold swap
  split
  · rename_i left right hleft hright
    obtain ⟨hi, rfl⟩ := List.getElem?_eq_some_iff.mp hleft
    rw [hleft] at hright
    cases hright
    simp
  · rfl

theorem fisherYatesFrom_still {α : Type} {values : Nat → Nat} (i calls : Nat) (slice : List α)
    (hi : i < usizeSize) (h : ∀ back < i, values (calls + back) = i - back) :
    fisherYatesFrom i slice (.ofValuesAt values calls) =
      (.ok (.ofValuesAt values (calls + i)), slice) := by
  induction i generalizing calls with
  | zero => rfl
  | succ i ih =>
    have hfirst : values calls = i + 1 := h 0 (Nat.succ_pos i)
    have hrest : ∀ back < i, values (calls + 1 + back) = i - back := by
      intro back hback
      have hnext := h (back + 1) (by omega)
      rw [show calls + 1 + back = calls + (back + 1) by omega, hnext]
      omega
    unfold fisherYatesFrom
    rw [Rng.randomU64_ofValuesAt values (by omega)]
    dsimp only
    rw [hfirst, Nat.mod_eq_of_lt (Nat.lt_succ_self _), swap_self, ih (calls + 1) (by omega) hrest]
    congr 3
    omega

theorem fisherYates_still {α : Type} {values : Nat → Nat} (slice : List α)
    (hlength : slice.length < usizeSize)
    (h : ∀ back < slice.length - 1, values back = slice.length - 1 - back) :
    fisherYates slice (.ofValues values) =
      (.ok (.ofValuesAt values (slice.length - 1)), slice) := by
  unfold fisherYates
  split
  · rename_i hshort
    have hzero : slice.length - 1 = 0 := by omega
    rw [hzero]
    rfl
  · have hstill := fisherYatesFrom_still (slice.length - 1) 0 slice (by omega)
      (by simpa using h)
    rw [Nat.zero_add] at hstill
    exact hstill

end KeyVault
