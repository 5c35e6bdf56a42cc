import KeyVault.Fragments

/-! The standard fragmenter: consecutive chunks of random size, shuffled together
with optional decoys. The layout records for each stored chunk where it belongs,
or a sentinel for a decoy. -/
namespace KeyVault

open Patching

/-- Any source of decoy bytes; it may draw randomness and return any length. -/
structure DecoyStrategy where
  generate : Bytes → Nat → Rng → Result (Bytes × Rng)

def DecoyStrategy.Serves (decoy : DecoyStrategy) (key : Bytes) (limit : Nat) : Prop :=
  ∀ size rng, size ≤ limit → rng.Reliable →
    ∃ bytes rng', decoy.generate key size rng = .ok (bytes, rng') ∧ rng'.Reliable

def decoyOffset : Nat := u32Max

structure StandardFragmenter where
  minChunk : Nat
  maxChunk : Nat
  decoy : Option DecoyStrategy
  one_le_minChunk : 1 ≤ minChunk
  minChunk_le_maxChunk : minChunk ≤ maxChunk
  maxChunk_lt : maxChunk < usizeSize

inductive ChunkKind where
  | real (position : Nat)
  | decoy (position : Nat)
deriving DecidableEq

namespace StandardFragmenter

def new : StandardFragmenter where
  minChunk := 1
  maxChunk := 8
  decoy := none
  one_le_minChunk := Nat.zero_lt_one
  minChunk_le_maxChunk := by decide
  maxChunk_lt := by decide

def withChunkRange (low high : Usize) : StandardFragmenter where
  minChunk := max low.val 1
  maxChunk := max high.val (max low.val 1)
  decoy := none
  one_le_minChunk := one_le_raised low
  minChunk_le_maxChunk := raised_le low high
  maxChunk_lt := raised_lt low high

def withDecoy (f : StandardFragmenter) (decoy : DecoyStrategy) : StandardFragmenter :=
  { f with decoy := some decoy }

/-- What one round of the loop of `sample_chunk_sizes` pushes. -/
def chunkSize (low high remaining : Nat) (rng : Rng) : Result (Nat × Rng) :=
  if remaining ≤ high then .ok (remaining, rng)
  else do
    let (pick, rng) ← sampleRange low high rng
    let pick := min pick (remaining - low)
    let pick := min (min (max pick low) high) remaining
    return (pick, rng)

theorem chunkSize_eq_nextSize (low high remaining : Nat) (rng : Rng) :
    chunkSize low high remaining rng = nextSize low high remaining rng := rfl

/-- The loop of `sample_chunk_sizes`. -/
def sampleSizes (low high : Nat) (hrange : 0 < low ∧ low ≤ high) (remaining : Nat) (rng : Rng) :
    Result (List Nat × Rng) :=
  if _hdone : remaining = 0 then .ok ([], rng)
  else
    match _hsize : chunkSize low high remaining rng with
    | .error exit => .error exit
    | .ok (size, rng) =>
        match sampleSizes low high hrange (remaining - size) rng with
        | .error exit => .error exit
        | .ok (sizes, rng) => .ok (size :: sizes, rng)
termination_by remaining
decreasing_by
  have hbounds := nextSize_bounds hrange.1 hrange.2 (Nat.pos_of_ne_zero _hdone) _hsize
  omega

def sampleChunkSizes (total low high : Nat) (rng : Rng) : Result (List Nat × Rng) :=
  if hrange : 0 < low ∧ low ≤ high then sampleSizes low high hrange total rng
  else fail (.fragment "invalid chunk-size range")

def realPairs (bytes : Bytes) : Nat → List Nat → Result (List (Nat × Bytes))
  | _, [] => .ok []
  | offset, size :: sizes => do
      require (offset ≤ u32Max) (.fragment "key too large for fragmentation")
      let stop ← usizeAdd offset size
      let piece ← slice bytes offset stop
      let pairs ← realPairs bytes stop sizes
      return (offset, piece) :: pairs

def decoyChunks (low high : Nat) (decoy : DecoyStrategy) (key : Bytes) :
    Nat → Rng → Result (List Bytes × Rng)
  | 0, rng => .ok ([], rng)
  | count + 1, rng => do
      let (size, rng) ← sampleRange low high rng
      let (bytes, rng) ← decoy.generate key size rng
      let (chunks, rng) ← decoyChunks low high decoy key count rng
      return (bytes :: chunks, rng)

/-- As many decoys as real chunks, or none without a decoy strategy. -/
def generateDecoys (f : StandardFragmenter) (key : Bytes) (count : Nat) (rng : Rng) :
    Result (List Bytes × Rng) :=
  match f.decoy with
  | none => .ok ([], rng)
  | some decoy => decoyChunks f.minChunk f.maxChunk decoy key count rng

/-- The stored chunks in shuffled order, each with its layout word. A decoy slot
is taken out when it is used. -/
def materialize (pairs : List (Nat × Bytes)) :
    List ChunkKind → List (Option Bytes) → Result (List (Nat × Bytes))
  | [], _ => .ok []
  | .real position :: order, slots => do
      let pair ← index pairs position
      let entries ← materialize pairs order slots
      return pair :: entries
  | .decoy position :: order, slots => do
      match ← index slots position with
      | none => fail (.internal "decoy slot taken twice during fragmentation")
      | some bytes =>
          let entries ← materialize pairs order (slots.set position none)
          return (decoyOffset, bytes) :: entries

def fragment (f : StandardFragmenter) (key : Bytes) (rng : Rng) : Result (Fragments × Rng) := do
  require (key.length ≠ 0) (.fragment "empty key cannot be fragmented")
  require (key.length < decoyOffset) (.fragment "key too large for fragmentation")
  let (sizes, rng) ← sampleChunkSizes key.length f.minChunk f.maxChunk rng
  let pairs ← realPairs key 0 sizes
  let (decoys, rng) ← f.generateDecoys key sizes.length rng
  let order := (List.range sizes.length).map .real ++ (List.range decoys.length).map .decoy
  match fisherYates order rng with
  | (.error exit, _) => .error exit
  | (.ok rng, order) =>
      let entries ← materialize pairs order (decoys.map some)
      return (.fromParts (entries.map Prod.snd) (u32Words (entries.map Prod.fst)) key.length, rng)

def layoutOffset (layout : Bytes) (position : Nat) : Result Nat := do
  let start ← usizeMul position 4
  let stop ← usizeAdd start 4
  u32Slice layout start stop (.defragment "layout buffer slice did not size to u32")

/-- The loop of `defragment_into`: the number of bytes written, and the buffer.
The caller has checked that the buffer has `totalLen` bytes. -/
def placeChunks (layout : Bytes) (totalLen : Nat) :
    Nat → List Bytes → Bytes → Nat → Result Nat × Bytes
  | _, [], out, written => (.ok written, out)
  | position, chunk :: chunks, out, written =>
      match layoutOffset layout position with
      | .error exit => (.error exit, out)
      | .ok offset =>
          if offset = decoyOffset then
            placeChunks layout totalLen (position + 1) chunks out written
          else if ¬ offset + chunk.length < usizeSize then
            (fail (.defragment "chunk offset overflowed when added to chunk length"), out)
          else if totalLen < offset + chunk.length then
            (fail (.defragment "chunk would write past end of output buffer"), out)
          else
            placeChunks layout totalLen (position + 1) chunks (overwrite out offset chunk)
              (min (written + chunk.length) (usizeSize - 1))

def checkShape (f : Fragments) (out : Bytes) : Result Unit := do
  let expected ← usizeMul f.chunkCount 4
  require (f.layoutBytes.length = expected)
    (.defragment "layout buffer length does not match chunk count")
  require (out.length = f.totalLen)
    (.defragment "scratch buffer size does not match fragments.total_len()")

def defragmentInto (f : Fragments) (out : Bytes) : Result Unit × Bytes :=
  match checkShape f out with
  | .error exit => (.error exit, out)
  | .ok () =>
      match placeChunks f.layoutBytes f.totalLen 0 f.chunkBytes out 0 with
      | (.error exit, out) => (.error exit, out)
      | (.ok written, out) =>
          (require (written = f.totalLen)
            (.defragment "reassembled length does not match recorded total"), out)

def strategy (f : StandardFragmenter) : FragmentStrategy where
  fragment := f.fragment
  defragment := defragmentZeroed defragmentInto
  defragmentInto := defragmentInto

/-! ### Cutting -/

theorem sampleSizes_step {low high remaining size : Nat} {hrange : 0 < low ∧ low ≤ high}
    {rng rng₁ : Rng} (hdone : remaining ≠ 0)
    (hsize : nextSize low high remaining rng = .ok (size, rng₁)) :
    sampleSizes low high hrange remaining rng =
      (sampleSizes low high hrange (remaining - size) rng₁).map
        fun (sizes, rng) => (size :: sizes, rng) := by
  rw [sampleSizes, dif_neg hdone]
  split
  · rename_i exit hfailed
    rw [chunkSize_eq_nextSize, hsize] at hfailed
    cases hfailed
  · rename_i size' rng' hok
    rw [chunkSize_eq_nextSize, hsize] at hok
    cases hok
    cases sampleSizes low high hrange (remaining - size) rng₁ with
    | error exit => rfl
    | ok sampled => rfl

theorem sampleSizes_stop {low high remaining : Nat} {hrange : 0 < low ∧ low ≤ high} {rng : Rng}
    {exit : Exit} (hdone : remaining ≠ 0) (hsize : nextSize low high remaining rng = .error exit) :
    sampleSizes low high hrange remaining rng = .error exit := by
  rw [sampleSizes, dif_neg hdone]
  split
  · rename_i other hfailed
    rw [chunkSize_eq_nextSize, hsize] at hfailed
    cases hfailed
    rfl
  · rename_i size rng₁ hok
    rw [chunkSize_eq_nextSize, hsize] at hok
    cases hok

inductive Sampled (low high : Nat) : Nat → Rng → List Nat → Rng → Prop where
  | done (rng : Rng) : Sampled low high 0 rng [] rng
  | step {remaining size : Nat} {rng rng₁ rng₂ : Rng} {sizes : List Nat}
      (hsize : nextSize low high remaining rng = .ok (size, rng₁)) (hpos : 0 < size)
      (hle : size ≤ remaining) (hrest : Sampled low high (remaining - size) rng₁ sizes rng₂) :
      Sampled low high remaining rng (size :: sizes) rng₂

theorem sampled_of_ok {low high remaining : Nat} {hrange : 0 < low ∧ low ≤ high}
    {rng rng' : Rng} {sizes : List Nat}
    (h : sampleSizes low high hrange remaining rng = .ok (sizes, rng')) :
    Sampled low high remaining rng sizes rng' := by
  induction remaining using Nat.strong_induction_on generalizing sizes rng with
  | _ remaining ih =>
    rw [sampleSizes] at h
    split at h
    · rename_i hdone
      cases h
      subst hdone
      exact .done _
    · rename_i hdone
      split at h
      · cases h
      · rename_i size rng₁ hsize
        have hbounds := nextSize_bounds hrange.1 hrange.2 (Nat.pos_of_ne_zero hdone) hsize
        split at h
        · cases h
        · rename_i rest rng₂ hrest
          cases h
          exact .step hsize hbounds.1 hbounds.2 (ih (remaining - size) (by omega) hrest)

theorem Sampled.sum {low high remaining : Nat} {rng rng' : Rng} {sizes : List Nat}
    (h : Sampled low high remaining rng sizes rng') :
    sizes.sum = remaining ∧ sizes.length ≤ remaining := by
  induction h with
  | done rng => exact ⟨rfl, Nat.le_refl 0⟩
  | step hsize hpos hle hrest ih =>
    rw [List.sum_cons, ih.1, List.length_cons]
    omega

theorem sampleChunkSizes_sum {total low high : Nat} {rng rng' : Rng} {sizes : List Nat}
    (h : sampleChunkSizes total low high rng = .ok (sizes, rng')) :
    sizes.sum = total ∧ sizes.length ≤ total := by
  unfold sampleChunkSizes at h
  split at h
  · exact (sampled_of_ok h).sum
  · cases h

/-- Chunks cut from `offset` on: they are parts of the key, cover the rest of it
and together have its length. -/
structure CutFrom (bytes : Bytes) (offset : Nat) (pairs : List (Nat × Bytes)) : Prop where
  parts : ∀ pair ∈ pairs, IsPart bytes pair.1 pair.2
  covers : ∀ position, offset ≤ position → position < bytes.length →
    ∃ pair ∈ pairs, Within position pair
  total : (pairs.map fun pair => pair.2.length).sum + offset = bytes.length

theorem slice_isPart {bytes piece : Bytes} {start stop : Nat}
    (h : slice bytes start stop = .ok piece) :
    IsPart bytes start piece ∧ start + piece.length = stop := by
  obtain ⟨hrange, rfl⟩ := slice_eq_ok.mp h
  have hlength : ((bytes.drop start).take (stop - start)).length = stop - start := by
    rw [List.length_take, List.length_drop]
    omega
  unfold IsPart
  rw [hlength]
  refine ⟨⟨by omega, rfl⟩, by omega⟩

theorem realPairs_cutFrom {bytes : Bytes} {offset : Nat} {sizes : List Nat}
    {pairs : List (Nat × Bytes)} (h : realPairs bytes offset sizes = .ok pairs)
    (hsum : sizes.sum + offset = bytes.length) :
    CutFrom bytes offset pairs ∧ pairs.length = sizes.length := by
  induction sizes generalizing offset pairs with
  | nil =>
    cases h
    simp only [List.sum_nil, Nat.zero_add] at hsum
    refine ⟨⟨?_, ?_, ?_⟩, rfl⟩
    · intro pair hpair
      cases hpair
    · intro position hle hlt
      omega
    · simpa using hsum
  | cons size sizes ih =>
    simp only [realPairs, bind_eq_ok] at h
    obtain ⟨-, -, stop, hstop, piece, hpiece, rest, hrest, hpairs⟩ := h
    cases hpairs
    have hvalue : stop = offset + size := (usizeAdd_eq_ok.mp hstop).2.symm
    obtain ⟨hpart, hlength⟩ := slice_isPart hpiece
    simp only [List.sum_cons] at hsum
    obtain ⟨hcut, hcount⟩ := ih hrest (by omega)
    refine ⟨⟨?_, ?_, ?_⟩, by simp [hcount]⟩
    · intro pair hpair
      rcases List.mem_cons.mp hpair with rfl | hlater
      · exact hpart
      · exact hcut.parts pair hlater
    · intro position hle hlt
      by_cases hhere : position < stop
      · refine ⟨(offset, piece), List.mem_cons_self .., hle, ?_⟩
        show position < offset + piece.length
        omega
      · obtain ⟨pair, hmem, hwithin⟩ := hcut.covers position (by omega) hlt
        exact ⟨pair, List.mem_cons_of_mem _ hmem, hwithin⟩
    · have htotal := hcut.total
      simp only [List.map_cons, List.sum_cons]
      omega

theorem length_decoyChunks {low high count : Nat} {decoy : DecoyStrategy} {key : Bytes}
    {rng rng' : Rng} {chunks : List Bytes}
    (h : decoyChunks low high decoy key count rng = .ok (chunks, rng')) :
    chunks.length = count := by
  induction count generalizing rng chunks with
  | zero =>
    cases h
    rfl
  | succ count ih =>
    simp only [decoyChunks, bind_eq_ok, Prod.exists] at h
    obtain ⟨_, _, -, _, _, -, rest, rng₁, hrest, hchunks⟩ := h
    cases hchunks
    rw [List.length_cons, ih hrest]

theorem generateDecoys_length_le {f : StandardFragmenter} {key : Bytes} {count : Nat}
    {rng rng' : Rng} {chunks : List Bytes}
    (h : f.generateDecoys key count rng = .ok (chunks, rng')) : chunks.length ≤ count := by
  unfold generateDecoys at h
  split at h
  · cases h
    exact Nat.zero_le _
  · exact Nat.le_of_eq (length_decoyChunks h)

/-! ### Shuffling -/

def realEntries (entries : List (Nat × Bytes)) : List (Nat × Bytes) :=
  entries.filter fun entry => decide (entry.1 ≠ decoyOffset)

theorem realEntries_cons_real {entry : Nat × Bytes} (h : entry.1 ≠ decoyOffset)
    (entries : List (Nat × Bytes)) :
    realEntries (entry :: entries) = entry :: realEntries entries :=
  List.filter_cons_of_pos (by simp [h])

theorem realEntries_cons_decoy {entry : Nat × Bytes} (h : entry.1 = decoyOffset)
    (entries : List (Nat × Bytes)) : realEntries (entry :: entries) = realEntries entries :=
  List.filter_cons_of_neg (by simp [h])

def realPair? (pairs : List (Nat × Bytes)) : ChunkKind → Option (Nat × Bytes)
  | .real position => pairs[position]?
  | .decoy _ => none

theorem materialize_spec {pairs entries : List (Nat × Bytes)} {order : List ChunkKind}
    {slots : List (Option Bytes)} (h : materialize pairs order slots = .ok entries)
    (hpairs : ∀ pair ∈ pairs, pair.1 < decoyOffset) :
    realEntries entries = order.filterMap (realPair? pairs) ∧ entries.length = order.length ∧
      ∀ entry ∈ entries, entry.1 ≤ u32Max := by
  induction order generalizing slots entries with
  | nil =>
    cases h
    refine ⟨rfl, rfl, ?_⟩
    intro entry hentry
    cases hentry
  | cons kind order ih =>
    cases kind with
    | real position =>
      simp only [materialize, bind_eq_ok] at h
      obtain ⟨pair, hpair, rest, hrest, hentries⟩ := h
      cases hentries
      obtain ⟨hreal, hlength, hwords⟩ := ih hrest
      have hlookup := index_eq_ok.mp hpair
      have hlt := hpairs pair (List.mem_of_getElem? hlookup)
      refine ⟨?_, by simp [hlength], ?_⟩
      · rw [realEntries_cons_real (Nat.ne_of_lt hlt), hreal]
        simp only [realPair?, List.filterMap_cons, hlookup]
      · intro entry hentry
        rcases List.mem_cons.mp hentry with rfl | hlater
        · exact Nat.le_of_lt hlt
        · exact hwords entry hlater
    | decoy position =>
      simp only [materialize, bind_eq_ok] at h
      obtain ⟨slot, -, hslot⟩ := h
      cases slot with
      | none => cases hslot
      | some bytes =>
        simp only [bind_eq_ok] at hslot
        obtain ⟨rest, hrest, hentries⟩ := hslot
        cases hentries
        obtain ⟨hreal, hlength, hwords⟩ := ih hrest
        refine ⟨?_, by simp [hlength], ?_⟩
        · rw [realEntries_cons_decoy rfl, hreal]
          simp only [realPair?, List.filterMap_cons]
        · intro entry hentry
          rcases List.mem_cons.mp hentry with rfl | hlater
          · exact Nat.le_refl _
          · exact hwords entry hlater

theorem filterMap_range_getElem? {α : Type} (items : List α) :
    (List.range items.length).filterMap (fun position => items[position]?) = items := by
  induction items with
  | nil => rfl
  | cons item items ih =>
    rw [List.length_cons, List.range_succ_eq_map, List.filterMap_cons]
    simp only [List.getElem?_cons_zero, List.filterMap_map, Function.comp_def,
      List.getElem?_cons_succ, ih]

theorem realEntries_perm {pairs entries : List (Nat × Bytes)} {decoyCount : Nat}
    {order : List ChunkKind} {slots : List (Option Bytes)}
    (h : materialize pairs order slots = .ok entries)
    (hpairs : ∀ pair ∈ pairs, pair.1 < decoyOffset)
    (horder : order.Perm
      ((List.range pairs.length).map .real ++ (List.range decoyCount).map .decoy)) :
    (realEntries entries).Perm pairs := by
  rw [(materialize_spec h hpairs).1]
  refine (horder.filterMap (realPair? pairs)).trans ?_
  rw [List.filterMap_append, List.filterMap_map, List.filterMap_map]
  have hreal : (List.range pairs.length).filterMap (realPair? pairs ∘ .real) = pairs :=
    filterMap_range_getElem? pairs
  have hdecoy : (List.range decoyCount).filterMap (realPair? pairs ∘ .decoy) = [] := by
    rw [List.filterMap_eq_nil_iff]
    intro position _
    rfl
  rw [hreal, hdecoy, List.append_nil]

/-! ### A source that never fails -/

theorem sampleSizes_reliable {low high remaining : Nat} {hrange : 0 < low ∧ low ≤ high} {rng : Rng}
    (hrng : rng.Reliable) (hhigh : high < usizeSize) : ∃ sizes rng',
    sampleSizes low high hrange remaining rng = .ok (sizes, rng') ∧ rng'.Reliable := by
  induction remaining using Nat.strong_induction_on generalizing rng with
  | _ remaining ih =>
    by_cases hdone : remaining = 0
    · rw [sampleSizes, dif_pos hdone]
      exact ⟨_, _, rfl, hrng⟩
    · obtain ⟨size, rng₁, hsize, hrng₁⟩ := hrng.nextSize hrange.1 hrange.2 hhigh remaining
      have hbounds := nextSize_bounds hrange.1 hrange.2 (Nat.pos_of_ne_zero hdone) hsize
      obtain ⟨sizes, rng₂, hsizes, hrng₂⟩ := ih (remaining - size) (by omega) hrng₁
      rw [sampleSizes_step hdone hsize, hsizes]
      exact ⟨_, _, rfl, hrng₂⟩

theorem realPairs_ok {bytes : Bytes} {offset : Nat} {sizes : List Nat}
    (hsum : sizes.sum + offset = bytes.length) (hlimit : bytes.length ≤ u32Max) :
    ∃ pairs, realPairs bytes offset sizes = .ok pairs := by
  induction sizes generalizing offset with
  | nil => exact ⟨[], rfl⟩
  | cons size sizes ih =>
    have hmax : u32Max < usizeSize := by decide
    rw [List.sum_cons] at hsum
    obtain ⟨pairs, hpairs⟩ := @ih (offset + size) (by omega)
    unfold realPairs
    rw [require_of (by omega), ok_bind, usizeAdd_of_lt (by omega), ok_bind,
      slice_of_le (by omega) (by omega), ok_bind, hpairs, ok_bind]
    exact ⟨_, rfl⟩

theorem decoyChunks_reliable {low high : Nat} {decoy : DecoyStrategy} {key : Bytes} {rng : Rng}
    (hdecoy : decoy.Serves key high) (hrng : rng.Reliable) (hlow : 0 < low) (hle : low ≤ high)
    (hhigh : high < usizeSize) (count : Nat) : ∃ chunks rng',
    decoyChunks low high decoy key count rng = .ok (chunks, rng') ∧ rng'.Reliable := by
  induction count generalizing rng with
  | zero => exact ⟨[], rng, rfl, hrng⟩
  | succ count ih =>
    obtain ⟨size, rng₁, hsize, hrng₁⟩ := hrng.sampleRange hlow hle hhigh
    obtain ⟨bytes, rng₂, hbytes, hrng₂⟩ := hdecoy size rng₁ (sampleRange_bounds hsize).2 hrng₁
    obtain ⟨chunks, rng₃, hchunks, hrng₃⟩ := ih hrng₂
    unfold decoyChunks
    rw [hsize, ok_bind]
    dsimp only
    rw [hbytes, ok_bind]
    dsimp only
    rw [hchunks, ok_bind]
    exact ⟨_, _, rfl, hrng₃⟩

theorem generateDecoys_reliable {f : StandardFragmenter} {key : Bytes} {rng : Rng}
    (hdecoy : ∀ decoy ∈ f.decoy, decoy.Serves key f.maxChunk) (hrng : rng.Reliable)
    (count : Nat) : ∃ chunks rng',
    f.generateDecoys key count rng = .ok (chunks, rng') ∧ rng'.Reliable := by
  unfold generateDecoys
  cases hconfigured : f.decoy with
  | none => exact ⟨[], rng, rfl, hrng⟩
  | some decoy =>
    exact decoyChunks_reliable (hdecoy decoy hconfigured) hrng f.one_le_minChunk
      f.minChunk_le_maxChunk f.maxChunk_lt count

theorem materialize_ok {pairs : List (Nat × Bytes)} {order : List ChunkKind}
    {slots : List (Option Bytes)} (hnodup : order.Nodup)
    (hreal : ∀ position, .real position ∈ order → position < pairs.length)
    (hdecoy : ∀ position, .decoy position ∈ order → ∃ bytes, slots[position]? = some (some bytes)) :
    ∃ entries, materialize pairs order slots = .ok entries := by
  induction order generalizing slots with
  | nil => exact ⟨[], rfl⟩
  | cons kind order ih =>
    obtain ⟨hkind, hnodup'⟩ := List.nodup_cons.mp hnodup
    have hreal' : ∀ position, .real position ∈ order → position < pairs.length := by
      intro position hposition
      exact hreal position (List.mem_cons_of_mem _ hposition)
    cases kind with
    | real position =>
      have hlt := hreal position (List.mem_cons_self ..)
      obtain ⟨entries, hentries⟩ := @ih slots hnodup' hreal' (by
        intro other hother
        exact hdecoy other (List.mem_cons_of_mem _ hother))
      unfold materialize
      rw [index_of_getElem? (List.getElem?_eq_getElem hlt), ok_bind, hentries, ok_bind]
      exact ⟨_, rfl⟩
    | decoy position =>
      obtain ⟨bytes, hbytes⟩ := hdecoy position (List.mem_cons_self ..)
      -- the slot just emptied is not named again
      obtain ⟨entries, hentries⟩ := @ih (slots.set position none) hnodup' hreal' (by
        intro other hother
        have hne : position ≠ other := by
          rintro rfl
          exact hkind hother
        rw [List.getElem?_set_ne hne]
        exact hdecoy other (List.mem_cons_of_mem _ hother))
      unfold materialize
      rw [index_of_getElem? hbytes, ok_bind]
      dsimp only
      rw [hentries, ok_bind]
      exact ⟨_, rfl⟩

theorem mem_order {reals decoys : Nat} {kind : ChunkKind} :
    kind ∈ (List.range reals).map ChunkKind.real ++ (List.range decoys).map .decoy ↔
      (∃ position < reals, kind = .real position) ∨ ∃ position < decoys, kind = .decoy position := by
  simp [eq_comm]

theorem nodup_order (reals decoys : Nat) :
    ((List.range reals).map ChunkKind.real ++
      (List.range decoys).map ChunkKind.decoy).Nodup := by
  rw [List.nodup_append]
  refine ⟨?_, ?_, ?_⟩
  · exact List.pairwise_map.mpr (List.nodup_range.imp fun hne h => hne (ChunkKind.real.inj h))
  · exact List.pairwise_map.mpr (List.nodup_range.imp fun hne h => hne (ChunkKind.decoy.inj h))
  · intro left hleft right hright hsame
    obtain ⟨_, -, rfl⟩ := List.mem_map.mp hleft
    obtain ⟨_, -, rfl⟩ := List.mem_map.mp hright
    cases hsame

theorem fragment_reliable {f : StandardFragmenter} {key : Bytes} {rng : Rng}
    (hdecoy : ∀ decoy ∈ f.decoy, decoy.Serves key f.maxChunk) (hrng : rng.Reliable)
    (hempty : key.length ≠ 0) (hlimit : key.length < decoyOffset) : ∃ fragments rng',
    f.fragment key rng = .ok (fragments, rng') ∧ rng'.Reliable := by
  obtain ⟨sizes, rng₁, hsizes, hrng₁⟩ := @sampleSizes_reliable f.minChunk f.maxChunk key.length
    ⟨f.one_le_minChunk, f.minChunk_le_maxChunk⟩ rng hrng f.maxChunk_lt
  have hsum : sizes.sum + 0 = key.length := (sampled_of_ok hsizes).sum.1
  obtain ⟨pairs, hpairs⟩ := realPairs_ok hsum (Nat.le_of_lt hlimit)
  have hcount := (realPairs_cutFrom hpairs hsum).2
  obtain ⟨decoys, rng₂, hdecoys, hrng₂⟩ := generateDecoys_reliable hdecoy hrng₁ sizes.length
  obtain ⟨rng₃, order, hshuffle, hperm, hrng₃⟩ := hrng₂.fisherYates
    ((List.range sizes.length).map ChunkKind.real ++ (List.range decoys.length).map .decoy)
  obtain ⟨entries, hentries⟩ := @materialize_ok pairs order (decoys.map some)
    (hperm.nodup_iff.mpr (nodup_order _ _)) (by
      intro position hposition
      rcases mem_order.mp (hperm.mem_iff.mp hposition) with ⟨_, hlt, hsame⟩ | ⟨_, _, hsame⟩
      · cases hsame
        omega
      · cases hsame) (by
      intro position hposition
      rcases mem_order.mp (hperm.mem_iff.mp hposition) with ⟨_, _, hsame⟩ | ⟨_, hlt, hsame⟩
      · cases hsame
      · cases hsame
        rw [List.getElem?_map, List.getElem?_eq_getElem hlt]
        exact ⟨_, rfl⟩)
  unfold fragment sampleChunkSizes
  rw [require_of hempty, ok_bind, require_of hlimit, ok_bind,
    dif_pos ⟨f.one_le_minChunk, f.minChunk_le_maxChunk⟩, hsizes, ok_bind]
  dsimp only
  rw [hpairs, ok_bind, hdecoys, ok_bind]
  dsimp only
  rw [hshuffle]
  dsimp only
  rw [hentries, ok_bind]
  exact ⟨_, _, rfl, hrng₃⟩

/-! ### A source that draws the largest decoys -/

theorem Sampled.later {low high remaining : Nat} {rng rng' : Rng} {sizes : List Nat}
    (h : Sampled low high remaining rng sizes rng') : rng.Later rng' := by
  induction h with
  | done rng => exact .refl rng
  | step hsize hpos hle hrest ih => exact (nextSize_later hsize).trans ih

theorem fragment_refused {f : StandardFragmenter} {decoy : DecoyStrategy} {key : Bytes}
    {values : Nat → Nat} {calls : Nat} (hdecoy : f.decoy = some decoy)
    (hnever : ∀ rng out, decoy.generate key f.maxChunk rng ≠ .ok out)
    (hvalues : ∀ call, calls ≤ call → values call = f.maxChunk - f.minChunk)
    (out : Fragments × Rng) : f.fragment key (.ofValuesAt values calls) ≠ .ok out := by
  intro h
  simp only [fragment, bind_eq_ok, Prod.exists] at h
  obtain ⟨_, hempty, _, -, sizes, rng₁, hsizes, pairs, -, decoys, rng₂, hdecoys, -⟩ := h
  rw [require_eq_ok] at hempty
  have hsum := (sampleChunkSizes_sum hsizes).1
  unfold sampleChunkSizes at hsizes
  rw [dif_pos ⟨f.one_le_minChunk, f.minChunk_le_maxChunk⟩] at hsizes
  obtain ⟨calls', hcalls, rfl⟩ := Rng.later_ofValuesAt (sampled_of_ok hsizes).later
  unfold generateDecoys at hdecoys
  rw [hdecoy] at hdecoys
  cases sizes with
  | nil => exact hempty hsum.symm
  | cons size sizes =>
    simp only [List.length_cons, decoyChunks] at hdecoys
    rw [sampleRange_ofValuesAt f.one_le_minChunk f.minChunk_le_maxChunk f.maxChunk_lt
      (hvalues calls' hcalls), ok_bind] at hdecoys
    obtain ⟨bytes, hbytes, -⟩ := bind_eq_ok.mp hdecoys
    exact hnever _ bytes hbytes

/-! ### Reassembly -/

theorem layoutOffset_u32Words {values : List Nat} {position value : Nat}
    (h : values[position]? = some value) (hvalue : value ≤ u32Max)
    (hfits : values.length * 4 < usizeSize) :
    layoutOffset (u32Words values) position = .ok value := by
  have hlt : position < values.length := (List.getElem?_eq_some_iff.mp h).1
  unfold layoutOffset
  rw [usizeMul_of_lt (by omega), ok_bind, usizeAdd_of_lt (by omega), ok_bind]
  exact u32Slice_u32Words h hvalue rfl rfl _

theorem placeChunks_eq {totalLen : Nat} (before entries : List (Nat × Bytes)) (out : Bytes)
    (written : Nat) (hwords : ∀ entry ∈ entries, entry.1 ≤ u32Max)
    (hfits : (before ++ entries).length * 4 < usizeSize) (htotal : totalLen < usizeSize)
    (hparts : ∀ entry ∈ realEntries entries, entry.1 + entry.2.length ≤ totalLen)
    (hsum : written + ((realEntries entries).map fun entry => entry.2.length).sum < usizeSize) :
    placeChunks (u32Words ((before ++ entries).map Prod.fst)) totalLen before.length
        (entries.map Prod.snd) out written =
      (.ok (written + ((realEntries entries).map fun entry => entry.2.length).sum),
        overwriteAll out (realEntries entries)) := by
  induction entries generalizing before out written with
  | nil => simp [placeChunks, realEntries]
  | cons entry entries ih =>
    have hlookup : ((before ++ entry :: entries).map Prod.fst)[before.length]? = some entry.1 := by
      rw [List.getElem?_map, List.getElem?_append_right (Nat.le_refl _), Nat.sub_self]
      rfl
    have hoffset := layoutOffset_u32Words hlookup (hwords entry (List.mem_cons_self ..))
      (by rw [List.length_map]; exact hfits)
    have hshift : before ++ entry :: entries = (before ++ [entry]) ++ entries := by simp
    have hposition : (before ++ [entry]).length = before.length + 1 := by simp
    have hnext := ih (before ++ [entry])
    rw [← hshift, hposition] at hnext
    have hwords' : ∀ entry ∈ entries, entry.1 ≤ u32Max := by
      intro other hother
      exact hwords other (List.mem_cons_of_mem _ hother)
    unfold placeChunks
    rw [List.map_cons]
    simp only [hoffset]
    by_cases hdecoy : entry.1 = decoyOffset
    · rw [if_pos hdecoy]
      rw [realEntries_cons_decoy hdecoy] at hparts hsum ⊢
      exact hnext out written hwords' hfits hparts hsum
    · rw [realEntries_cons_real hdecoy] at hparts hsum ⊢
      rw [List.map_cons, List.sum_cons] at hsum ⊢
      have hfit := hparts entry (List.mem_cons_self ..)
      rw [if_neg hdecoy, if_neg (by omega), if_neg (by omega)]
      have hmin : min (written + entry.2.length) (usizeSize - 1) = written + entry.2.length := by
        omega
      rw [hmin, hnext _ _ hwords' hfits
        (fun other hother => hparts other (List.mem_cons_of_mem _ hother)) (by omega),
        Nat.add_assoc, overwriteAll_cons]

theorem defragmentInto_entries {key out : Bytes} {pairs entries : List (Nat × Bytes)}
    {g : Fragments} (hcut : CutFrom key 0 pairs) (hperm : (realEntries entries).Perm pairs)
    (hkey : key.length < decoyOffset) (hwords : ∀ entry ∈ entries, entry.1 ≤ u32Max)
    (hcount : entries.length ≤ 2 * key.length) (hchunks : g.chunkBytes = entries.map Prod.snd)
    (hlayout : g.layoutBytes = u32Words (entries.map Prod.fst)) (htotal : g.totalLen = key.length)
    (hout : out.length = key.length) : defragmentInto g out = (.ok (), key) := by
  have hsize : decoyOffset * 16 < usizeSize := by decide
  have hchunkCount : g.chunkCount = entries.length := by
    rw [← Fragments.length_chunkBytes, hchunks, List.length_map]
  have hparts : ∀ entry ∈ realEntries entries, IsPart key entry.1 entry.2 := by
    intro entry hentry
    exact hcut.parts entry (hperm.mem_iff.mp hentry)
  have hcovers : ∀ position < key.length,
      ∃ entry ∈ realEntries entries, Within position entry := by
    intro position hposition
    obtain ⟨pair, hpair, hwithin⟩ := hcut.covers position (Nat.zero_le _) hposition
    exact ⟨pair, hperm.mem_iff.mpr hpair, hwithin⟩
  have hwritten : ((realEntries entries).map fun entry => entry.2.length).sum = key.length := by
    rw [(hperm.map fun entry => entry.2.length).sum_nat]
    exact hcut.total
  have hshape : checkShape g out = .ok () := by
    unfold checkShape
    rw [hchunkCount, usizeMul_of_lt (by omega), ok_bind, hlayout, length_u32Words,
      List.length_map, require_of rfl, ok_bind, require_of (hout.trans htotal.symm)]
  have hplaced := placeChunks_eq [] entries out 0 hwords
    (by rw [List.nil_append]; omega) (show key.length < usizeSize by omega)
    (fun entry hentry => (hparts entry hentry).1) (by omega)
  rw [List.nil_append, List.length_nil, hwritten, Nat.zero_add,
    overwriteAll_eq hparts hcovers hout] at hplaced
  unfold defragmentInto
  rw [hshape]
  dsimp only
  rw [hlayout, htotal, hchunks, hplaced]
  dsimp only
  rw [require_of rfl]

theorem strategy_roundTrips (f : StandardFragmenter) : f.strategy.RoundTrips := by
  intro key rng fragments rng' h g hview
  simp only [strategy, fragment, bind_eq_ok, Prod.exists] at h
  obtain ⟨_, -, _, hkey, sizes, rng₁, hsizes, pairs, hpairs, decoys, rng₂, hdecoys, h⟩ := h
  rw [require_eq_ok] at hkey
  obtain ⟨hsum, hcount⟩ := sampleChunkSizes_sum hsizes
  obtain ⟨hcut, hlength⟩ := realPairs_cutFrom hpairs (by simpa using hsum)
  have hdecoyCount := generateDecoys_length_le hdecoys
  have hperm := fisherYates_perm
    ((List.range sizes.length).map ChunkKind.real ++ (List.range decoys.length).map .decoy) rng₂
  split at h
  · cases h
  · rename_i rng₃ order hshuffle
    rw [hshuffle] at hperm
    obtain ⟨entries, hentries, hresult⟩ := bind_eq_ok.mp h
    cases hresult
    have hoffsets : ∀ pair ∈ pairs, pair.1 < decoyOffset := by
      intro pair hpair
      have hfits := (hcut.parts pair hpair).1
      omega
    obtain ⟨-, horder, hwords⟩ := materialize_spec hentries hoffsets
    have hentryCount : entries.length ≤ 2 * key.length := by
      have horderLength := hperm.length_eq
      simp only [List.length_append, List.length_map, List.length_range] at horderLength
      omega
    rw [← hlength] at hperm
    obtain ⟨hchunks, hlayout, htotal⟩ := hview
    rw [Fragments.chunkBytes_fromParts] at hchunks
    rw [Fragments.layoutBytes_fromParts] at hlayout
    apply FragmentStrategy.restores_of_defragmentInto rfl htotal.symm
    intro out hout
    exact defragmentInto_entries hcut (realEntries_perm hentries hoffsets hperm) hkey hwords
      hentryCount hchunks.symm hlayout.symm htotal.symm hout

end StandardFragmenter

end KeyVault
