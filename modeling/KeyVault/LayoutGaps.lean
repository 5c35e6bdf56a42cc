import KeyVault.FragmentWrites
import KeyVault.RandomScatter

/-! Which layouts the decoders accept although they do not describe a whole key. The
interleaved decoder fills every position. The standard one compares lengths only, so
overlapping chunks leave other positions unwritten; the random one never counts the
positions it is given, so some may be missing or repeated. -/
namespace KeyVault

open Patching Extents

def cell (position : Nat) : Extent := ⟨position, 1⟩

theorem pairwise_cells {positions : List Nat} :
    (positions.map cell).Pairwise Extent.Apart ↔ positions.Nodup := by
  rw [List.pairwise_map, List.Nodup]
  constructor
  · apply List.Pairwise.imp
    intro left right h
    unfold Extent.Apart cell at h
    dsimp only at h
    omega
  · apply List.Pairwise.imp
    intro left right h
    unfold Extent.Apart cell
    dsimp only
    omega

theorem writesOnce_cells {size : Nat} {pieces : List (Nat × Bytes)} {positions : List Nat}
    (hcells : pieces.map extent = positions.map cell)
    (hinside : ∀ position ∈ positions, position < size) :
    WritesOnce size pieces ↔ positions.Nodup ∧ positions.length = size := by
  have hextents : ∀ stretch ∈ positions.map cell, stretch.start + stretch.len ≤ size := by
    intro stretch hstretch
    obtain ⟨position, hposition, rfl⟩ := List.mem_map.mp hstretch
    exact hinside position hposition
  have hlens : ((positions.map cell).map Extent.len).sum = positions.length := by
    rw [List.map_map]
    simp [cell, Function.comp_def]
  rw [WritesOnce, hcells, coverage_eq_one_iff hextents, hlens, pairwise_cells]

/-! ### Standard layouts -/

namespace StandardFragmenter

variable {layout : Bytes} {totalLen position : Nat} {chunks : List Bytes}

def entriesFrom (layout : Bytes) : Nat → List Bytes → List (Nat × Bytes)
  | _, [] => []
  | position, chunk :: chunks =>
      (wordAt layout position, chunk) :: entriesFrom layout (position + 1) chunks

/-- The chunks that carry key bytes, each with the offset the layout gives it. -/
def stored (f : Fragments) : List (Nat × Bytes) :=
  realEntries (entriesFrom f.layoutBytes 0 f.chunkBytes)

/-- A layout with one word for each chunk, whose chunks end inside the key and have
its length in total, but do not keep out of each other's way. -/
structure Overlapping (f : Fragments) (out : Bytes) : Prop where
  length_layoutBytes : f.layoutBytes.length = f.chunkCount * 4
  length_out : out.length = f.totalLen
  inside : ∀ entry ∈ stored f, entry.1 + entry.2.length ≤ f.totalLen
  total : ((stored f).map fun entry => entry.2.length).sum = f.totalLen
  overlap : ¬ ((stored f).map extent).Pairwise Extent.Apart

def byteCount (entries : List (Nat × Bytes)) : Nat :=
  (entries.map fun entry => entry.2.length).sum

theorem byteCount_cons (entry : Nat × Bytes) (entries : List (Nat × Bytes)) :
    byteCount (entry :: entries) = entry.2.length + byteCount entries := by
  simp [byteCount]

theorem placeChunks_ok_iff (out : Bytes) {written stop : Nat}
    (hfits : (position + chunks.length) * 4 ≤ layout.length) (hsize : layout.length < usizeSize)
    (htotal : totalLen < usizeSize) (hwritten : written < usizeSize) :
    (placeChunks layout totalLen position chunks out written).1 = .ok stop ↔
      (∀ entry ∈ realEntries (entriesFrom layout position chunks),
        entry.1 + entry.2.length ≤ totalLen) ∧
      stop = min (written + byteCount (realEntries (entriesFrom layout position chunks)))
        (usizeSize - 1) := by
  induction chunks generalizing position out written with
  | nil =>
    have hmin : min written (usizeSize - 1) = written := by omega
    simp only [placeChunks, entriesFrom, realEntries, byteCount, List.filter_nil, List.map_nil,
      List.sum_nil, Nat.add_zero, hmin, Except.ok.injEq, List.not_mem_nil, false_implies,
      implies_true, true_and]
    exact eq_comm
  | cons chunk chunks ih =>
    rw [List.length_cons] at hfits
    have hrest : (position + 1 + chunks.length) * 4 ≤ layout.length := by omega
    unfold placeChunks entriesFrom
    rw [layoutOffset_of_le (by omega) hsize]
    dsimp only
    split
    · rename_i hdecoy
      rw [realEntries_cons_decoy hdecoy]
      exact ih out hrest hwritten
    · rename_i hreal
      rw [realEntries_cons_real hreal, byteCount_cons]
      simp only [List.forall_mem_cons]
      split
      · have hout : ¬ wordAt layout position + chunk.length ≤ totalLen := by omega
        simp [fail, hout]
      · split
        · have hout : ¬ wordAt layout position + chunk.length ≤ totalLen := by omega
          simp [fail, hout]
        · have hin : wordAt layout position + chunk.length ≤ totalLen := by omega
          have hmin : ∀ rest, min (min (written + chunk.length) (usizeSize - 1) + rest)
              (usizeSize - 1) = min (written + (chunk.length + rest)) (usizeSize - 1) := by
            intro rest
            omega
          rw [ih _ hrest (by omega), hmin]
          simp [hin]

theorem placedChunks_eq (hfits : (position + chunks.length) * 4 ≤ layout.length)
    (hsize : layout.length < usizeSize) (htotal : totalLen < usizeSize)
    (hinside : ∀ entry ∈ realEntries (entriesFrom layout position chunks),
      entry.1 + entry.2.length ≤ totalLen) :
    placedChunks layout totalLen position chunks =
      realEntries (entriesFrom layout position chunks) := by
  induction chunks generalizing position with
  | nil => rfl
  | cons chunk chunks ih =>
    rw [List.length_cons] at hfits
    have hrest : (position + 1 + chunks.length) * 4 ≤ layout.length := by omega
    unfold entriesFrom at hinside ⊢
    unfold placedChunks
    rw [layoutOffset_of_le (by omega) hsize]
    dsimp only
    by_cases hdecoy : wordAt layout position = decoyOffset
    · rw [realEntries_cons_decoy hdecoy] at hinside ⊢
      rw [if_pos hdecoy]
      exact ih hrest hinside
    · rw [realEntries_cons_real hdecoy] at hinside ⊢
      have hfirst := hinside _ (List.mem_cons_self ..)
      dsimp only at hfirst
      rw [if_neg hdecoy, if_neg (by omega), if_neg (by omega),
        ih hrest fun entry hentry => hinside entry (List.mem_cons_of_mem _ hentry)]

theorem defragmentInto_fst (f : Fragments) (out : Bytes) : (defragmentInto f out).1 = (do
    checkShape f out
    let written ← (placeChunks f.layoutBytes f.totalLen 0 f.chunkBytes out 0).1
    require (written = f.totalLen)
      (.defragment "reassembled length does not match recorded total")) := by
  unfold defragmentInto
  cases checkShape f out with
  | error exit => rfl
  | ok _ =>
    dsimp only
    generalize placeChunks f.layoutBytes f.totalLen 0 f.chunkBytes out 0 = placed
    cases placed with
    | mk result _ => cases result <;> rfl

theorem checkShape_eq_ok {f : Fragments} {out : Bytes}
    (hlayout : f.layoutBytes.length < usizeSize) : checkShape f out = .ok () ↔
      f.layoutBytes.length = f.chunkCount * 4 ∧ out.length = f.totalLen := by
  unfold checkShape usizeMul
  simp only [bind_eq_ok, require_eq_ok]
  constructor
  · intro h
    obtain ⟨expected, hexpected, -, hshape, hout⟩ := h
    split at hexpected
    · cases hexpected
      exact ⟨hshape, hout⟩
    · cases hexpected
  · intro h
    exact ⟨_, if_pos (by omega), (), h.1, h.2⟩

theorem defragmentInto_ok_iff {f : Fragments} {out : Bytes} (hout : out.length ≤ isizeMax)
    (hlayout : f.layoutBytes.length ≤ isizeMax) :
    (defragmentInto f out).1 = .ok () ↔
      f.layoutBytes.length = f.chunkCount * 4 ∧ out.length = f.totalLen ∧
      (∀ entry ∈ stored f, entry.1 + entry.2.length ≤ f.totalLen) ∧
      byteCount (stored f) = f.totalLen := by
  have hmax : isizeMax + 1 < usizeSize := by decide
  rw [defragmentInto_fst, bind_eq_ok]
  simp only [checkShape_eq_ok (show f.layoutBytes.length < usizeSize by omega), bind_eq_ok,
    require_eq_ok, exists_const]
  rw [and_assoc]
  refine and_congr_right fun hshape => and_congr_right fun hlength => ?_
  have hfits : (0 + f.chunkBytes.length) * 4 ≤ f.layoutBytes.length := by
    rw [Fragments.length_chunkBytes]
    omega
  have hplaced : ∀ stop, (placeChunks f.layoutBytes f.totalLen 0 f.chunkBytes out 0).1 =
      .ok stop ↔ _ := fun _ =>
    placeChunks_ok_iff out hfits (by omega) (by omega) (by omega)
  simp only [hplaced, Nat.zero_add]
  constructor
  · intro h
    obtain ⟨stop, ⟨hinside, hstop⟩, htotal⟩ := h
    refine ⟨hinside, ?_⟩
    unfold stored
    omega
  · intro h
    obtain ⟨hinside, hcount⟩ := h
    refine ⟨f.totalLen, ⟨hinside, ?_⟩, rfl⟩
    unfold stored at hcount
    omega

theorem writes_of_ok {f : Fragments} {out : Bytes} (hout : out.length ≤ isizeMax)
    (hlayout : f.layoutBytes.length ≤ isizeMax) (h : (defragmentInto f out).1 = .ok ()) :
    writes f out = stored f := by
  have hmax : isizeMax + 1 < usizeSize := by decide
  obtain ⟨hshape, hlength, hinside, -⟩ := (defragmentInto_ok_iff hout hlayout).mp h
  unfold writes
  rw [(checkShape_eq_ok (by omega)).mpr ⟨hshape, hlength⟩]
  exact placedChunks_eq (by rw [Fragments.length_chunkBytes]; omega) (by omega) (by omega) hinside

theorem writesOnce_iff_not_overlapping {f : Fragments} {out : Bytes} (hout : out.length ≤ isizeMax)
    (hlayout : f.layoutBytes.length ≤ isizeMax) (h : (defragmentInto f out).1 = .ok ()) :
    WritesOnce out.length (writes f out) ↔ ¬ Overlapping f out := by
  obtain ⟨hshape, hlength, hinside, hcount⟩ := (defragmentInto_ok_iff hout hlayout).mp h
  rw [writes_of_ok hout hlayout h, hlength, writesOnce_iff hinside]
  constructor
  · intro hapart hoverlapping
    exact hoverlapping.overlap hapart.1
  · intro hnot
    refine ⟨?_, hcount⟩
    by_contra hoverlap
    exact hnot ⟨hshape, hlength, hinside, hcount, hoverlap⟩

theorem Overlapping.ok {f : Fragments} {out : Bytes} (h : Overlapping f out)
    (hout : out.length ≤ isizeMax) (hlayout : f.layoutBytes.length ≤ isizeMax) :
    (defragmentInto f out).1 = .ok () :=
  (defragmentInto_ok_iff hout hlayout).mpr
    ⟨h.length_layoutBytes, h.length_out, h.inside, h.total⟩

end StandardFragmenter

/-! ### Random layouts -/

namespace RandomFragmenter

variable {layout : Bytes} {totalLen : Nat}

/-- The words from the given one on describe the chunks: for each its length, then as
many positions of the key, and nothing after the last. -/
def Describes (layout : Bytes) (totalLen : Nat) : List Bytes → Nat → Prop
  | [], word => word * 4 = layout.length
  | chunk :: chunks, word =>
      wordAt layout word = chunk.length ∧ (word + 1 + chunk.length) * 4 ≤ layout.length ∧
        (∀ i < chunk.length, wordAt layout (word + 1 + i) < totalLen) ∧
        Describes layout totalLen chunks (word + 1 + chunk.length)

instance describesDecidable (layout : Bytes) (totalLen : Nat) :
    (chunks : List Bytes) → (word : Nat) → Decidable (Describes layout totalLen chunks word)
  | [], _ => inferInstanceAs (Decidable (_ = _))
  | _ :: chunks, _ =>
      have := describesDecidable layout totalLen chunks
      inferInstanceAs (Decidable (_ ∧ _ ∧ _ ∧ _))

/-- A layout that describes its chunks, but lists a position twice, or not as many
positions as the key has. -/
structure Miscounted (f : Fragments) (out : Bytes) : Prop where
  length_out : out.length = f.totalLen
  describes : Describes f.layoutBytes f.totalLen f.chunkBytes 0
  miscounted : ¬ ((listed f).flatten.Nodup ∧ (listed f).flatten.length = f.totalLen)

def positionsFrom (layout : Bytes) (first : Nat) (count : Nat) : List Nat :=
  (List.range count).map fun i => wordAt layout (first + i)

theorem positionsFrom_succ (layout : Bytes) (first count : Nat) :
    positionsFrom layout first (count + 1) =
      wordAt layout first :: positionsFrom layout (first + 1) count := by
  unfold positionsFrom
  rw [List.range_succ_eq_map, List.map_cons, List.map_map, Nat.add_zero]
  congr 1
  apply List.map_congr_left
  intro i _
  rw [Function.comp_apply]
  congr 1
  omega

theorem placeBytes_ok_iff {first : Nat} (i : Nat) (bytes out : Bytes)
    (hfits : (first + i + bytes.length) * 4 ≤ layout.length) (hsize : layout.length < usizeSize) :
    (placeBytes layout totalLen (first * 4) i bytes out).1 = .ok () ↔
      ∀ position ∈ positionsFrom layout (first + i) bytes.length, position < totalLen := by
  induction bytes generalizing i out with
  | nil => simp [placeBytes, positionsFrom]
  | cons byte bytes ih =>
    rw [List.length_cons] at hfits ⊢
    rw [positionsFrom_succ, List.forall_mem_cons]
    unfold placeBytes
    rw [readPosition_of_le (by omega) hsize]
    dsimp only
    split
    · have hout : ¬ wordAt layout (first + i) < totalLen := by omega
      simp [fail, hout]
    · have hin : wordAt layout (first + i) < totalLen := by omega
      rw [ih (i + 1) _ (by omega)]
      simp [hin, Nat.add_assoc]

theorem placedBytes_cells {first : Nat} (i : Nat) (bytes : Bytes)
    (hfits : (first + i + bytes.length) * 4 ≤ layout.length) (hsize : layout.length < usizeSize)
    (hinside : ∀ position ∈ positionsFrom layout (first + i) bytes.length, position < totalLen) :
    (placedBytes layout totalLen (first * 4) i bytes).map extent =
      (positionsFrom layout (first + i) bytes.length).map cell := by
  induction bytes generalizing i with
  | nil => rfl
  | cons byte bytes ih =>
    rw [List.length_cons] at hfits hinside ⊢
    rw [positionsFrom_succ, List.forall_mem_cons] at hinside
    rw [positionsFrom_succ]
    unfold placedBytes
    rw [readPosition_of_le (by omega) hsize]
    dsimp only
    rw [if_neg (by omega), List.map_cons, List.map_cons, ih (i + 1) (by omega) hinside.2]
    rfl

theorem readSize_ok_iff {word length start stop : Nat} (hsize : layout.length < usizeSize) :
    readSize layout (word * 4) length = .ok (start, stop) ↔
      wordAt layout word = length ∧ (word + 1 + length) * 4 ≤ layout.length ∧
        start = (word + 1) * 4 ∧ stop = (word + 1 + length) * 4 := by
  constructor
  · intro h
    obtain ⟨hstart, hstop, hfits⟩ := readSize_eq_ok h
    unfold readSize at h
    rw [usizeAdd_of_lt (by omega), ok_bind] at h
    simp only [bind_eq_ok, require_eq_ok] at h
    obtain ⟨-, hprefix, size, hword, -, hlength, -⟩ := h
    rw [u32Slice_of_le rfl rfl hprefix] at hword
    cases hword
    exact ⟨hlength, by omega, by omega, by omega⟩
  · intro h
    obtain ⟨hword, hfits, rfl, rfl⟩ := h
    unfold readSize
    rw [usizeAdd_of_lt (by omega), ok_bind, require_of (by omega), ok_bind,
      u32Slice_of_le rfl rfl (by omega), ok_bind, require_of hword, ok_bind, hword,
      usizeMul_of_lt (by omega), ok_bind, usizeAdd_of_lt (by omega), ok_bind,
      require_of (by omega), ok_bind]
    simp only [Nat.add_mul, Nat.one_mul]
    rfl

theorem forall_positionsFrom {first count bound : Nat} :
    (∀ position ∈ positionsFrom layout first count, position < bound) ↔
      ∀ i < count, wordAt layout (first + i) < bound := by
  simp [positionsFrom]

theorem placeChunks_ok_iff (chunks : List Bytes) {word : Nat} (out : Bytes)
    (hsize : layout.length < usizeSize) :
    (placeChunks layout totalLen chunks (word * 4) out).1 = .ok layout.length ↔
      Describes layout totalLen chunks word := by
  induction chunks generalizing word out with
  | nil => simp [placeChunks, Describes]
  | cons chunk chunks ih =>
    unfold placeChunks Describes
    cases hread : readSize layout (word * 4) chunk.length with
    | error exit =>
      have hnone : ¬ (wordAt layout word = chunk.length ∧
          (word + 1 + chunk.length) * 4 ≤ layout.length) := by
        intro h
        have hok := (readSize_ok_iff hsize).mpr ⟨h.1, h.2, rfl, rfl⟩
        rw [hread] at hok
        cases hok
      simp only [reduceCtorEq, false_iff]
      intro h
      exact hnone ⟨h.1, h.2.1⟩
    | ok range =>
      obtain ⟨start, stop⟩ := range
      obtain ⟨hword, hfits, rfl, rfl⟩ := (readSize_ok_iff hsize).mp hread
      have hbytes := @placeBytes_ok_iff layout totalLen (word + 1) 0 chunk out hfits hsize
      rw [Nat.add_zero, forall_positionsFrom] at hbytes
      simp only [hword, hfits, true_and, ← hbytes]
      generalize placeBytes layout totalLen ((word + 1) * 4) 0 chunk out = placed
      cases placed with
      | mk result out =>
        cases result with
        | error exit => simp
        | ok _ => simp [ih out]

theorem placedChunks_cells (chunks : List Bytes) {word : Nat} (hsize : layout.length < usizeSize)
    (h : Describes layout totalLen chunks word) :
    (placedChunks layout totalLen chunks (word * 4)).map extent =
      (listedFrom layout chunks word).flatten.map cell := by
  induction chunks generalizing word with
  | nil => rfl
  | cons chunk chunks ih =>
    obtain ⟨hword, hfits, hpositions, hrest⟩ := h
    have hinside := forall_positionsFrom.mpr hpositions
    have hplaced := (@placeBytes_ok_iff layout totalLen (word + 1) 0 chunk
      (List.replicate totalLen 0) hfits hsize).mpr hinside
    have hcells := @placedBytes_cells layout totalLen (word + 1) 0 chunk hfits hsize hinside
    unfold placedChunks
    rw [(readSize_ok_iff hsize).mpr ⟨hword, hfits, rfl, rfl⟩]
    dsimp only
    rw [hplaced, List.map_append, hcells, ih hrest, listedFrom, List.flatten_cons, List.map_append]
    rfl

theorem Describes.listed_lt {chunks : List Bytes} {word : Nat}
    (h : Describes layout totalLen chunks word) :
    ∀ position ∈ (listedFrom layout chunks word).flatten, position < totalLen := by
  induction chunks generalizing word with
  | nil => simp [listedFrom]
  | cons chunk chunks ih =>
    obtain ⟨-, -, hpositions, hrest⟩ := h
    intro position hposition
    rw [listedFrom, List.flatten_cons, List.mem_append] at hposition
    rcases hposition with hfirst | hlater
    · exact forall_positionsFrom.mpr hpositions position hfirst
    · exact ih hrest position hlater

theorem defragmentInto_ok_iff {f : Fragments} {out : Bytes}
    (hlayout : f.layoutBytes.length < usizeSize) :
    (defragmentInto f out).1 = .ok () ↔
      out.length = f.totalLen ∧ Describes f.layoutBytes f.totalLen f.chunkBytes 0 := by
  have hplaced := @placeChunks_ok_iff f.layoutBytes f.totalLen f.chunkBytes 0 out hlayout
  rw [Nat.zero_mul] at hplaced
  rw [← hplaced]
  unfold defragmentInto
  by_cases hlength : out.length = f.totalLen
  · rw [if_pos hlength]
    simp only [hlength, true_and]
    generalize placeChunks f.layoutBytes f.totalLen f.chunkBytes 0 out = placed
    cases placed with
    | mk result out => cases result <;> simp
  · rw [if_neg hlength]
    simp [fail, hlength]

theorem writesOnce_iff_not_miscounted {f : Fragments} {out : Bytes}
    (hlayout : f.layoutBytes.length < usizeSize) (h : (defragmentInto f out).1 = .ok ()) :
    WritesOnce out.length (writes f out) ↔ ¬ Miscounted f out := by
  obtain ⟨hlength, hdescribes⟩ := (defragmentInto_ok_iff hlayout).mp h
  have hcells := placedChunks_cells f.chunkBytes hlayout hdescribes
  rw [Nat.zero_mul] at hcells
  unfold writes
  rw [if_pos hlength, hlength, writesOnce_cells hcells hdescribes.listed_lt]
  constructor
  · intro hcounted hmiscounted
    exact hmiscounted.miscounted hcounted
  · intro hnot
    by_contra hmiscounted
    exact hnot ⟨hlength, hdescribes, hmiscounted⟩

end RandomFragmenter

/-! ### Interleaved layouts -/

namespace InterleavedFragmenter

variable {layout pool : Bytes} {poolSize : Nat}

theorem gathered_cells (i : Nat) (out : Bytes)
    (h : (gather layout pool poolSize i out).1 = .ok ()) :
    (gathered layout pool poolSize i out).map extent = (List.range' i out.length).map cell := by
  induction out generalizing i with
  | nil => rfl
  | cons slot slots ih =>
    unfold gather at h
    unfold gathered
    cases hread : readPosition layout 4 i with
    | error exit =>
      rw [hread] at h
      cases h
    | ok position =>
      rw [hread] at h
      dsimp only at h ⊢
      split at h
      · cases h
      · rename_i hposition
        rw [if_neg hposition]
        cases hindex : index pool position with
        | error exit =>
          rw [hindex] at h
          cases h
        | ok byte =>
          rw [hindex] at h
          dsimp only at h ⊢
          rw [List.map_cons, List.length_cons, List.range'_succ, List.map_cons, ih (i + 1) h]
          rfl

theorem writesOnce_of_ok {f : Fragments} {out : Bytes} (h : (defragmentInto f out).1 = .ok ()) :
    WritesOnce out.length (writes f out) := by
  unfold defragmentInto at h
  unfold writes
  cases hchunks : f.chunkBytes with
  | nil =>
    rw [hchunks] at h
    cases h
  | cons pool chunks =>
    rw [hchunks] at h
    cases chunks with
    | cons _ _ => cases h
    | nil =>
      dsimp only at h ⊢
      cases hpool : readPoolSize f pool out with
      | error exit =>
        rw [hpool] at h
        cases h
      | ok poolSize =>
        rw [hpool] at h
        dsimp only at h ⊢
        rw [writesOnce_cells (gathered_cells 0 out h)]
        · exact ⟨List.nodup_range', by simp⟩
        · intro position hposition
          simpa using hposition

end InterleavedFragmenter

/-! ### All built-in strategies -/

/-- The fragments that a decoder accepts although they are not a whole key. A layered
decoder accepts what the strategy its header names accepts. -/
inductive Defective : FragmentStrategy → Fragments → Bytes → Prop where
  | standard (s : StandardFragmenter) (f : Fragments) (out : Bytes)
      (h : StandardFragmenter.Overlapping f out) : Defective s.strategy f out
  | random (s : RandomFragmenter) (f : Fragments) (out : Bytes)
      (h : RandomFragmenter.Miscounted f out) : Defective s.strategy f out
  | layered (s : LayeredFragmenter) (f : Fragments) (out : Bytes) (position : Nat)
      (sub : FragmentStrategy) (hpick : s.pick f = .ok position)
      (hsub : index s.subStrategies position = .ok sub)
      (h : Defective sub (f.viewSkipping 4) out) : Defective s.strategy f out

/-- Acceptance means a complete key: every position is written exactly once, and the
bytes do not depend on what the buffer held. -/
def Complete (s : FragmentStrategy) (f : Fragments) (out : Bytes) : Prop :=
  (s.defragmentInto f out).1 = .ok () →
    (∀ pieces, Wrote s f out pieces → WritesOnce out.length pieces) ∧
      ∀ out' : Bytes, out'.length = out.length →
        (s.defragmentInto f out').2 = (s.defragmentInto f out).2

section Complete

variable {s : FragmentStrategy} {f : Fragments} {out : Bytes} {pieces : List (Nat × Bytes)}

theorem length_layoutBytes_viewSkipping_le (f : Fragments) (skip : Nat) :
    (f.viewSkipping skip).layoutBytes.length ≤ f.layoutBytes.length := by
  rw [Fragments.layoutBytes_viewSkipping, List.length_drop]
  omega

theorem Wrote.writesOnce (hwrote : Wrote s f out pieces) (hout : out.length ≤ isizeMax)
    (hlayout : f.layoutBytes.length ≤ isizeMax) (hok : (s.defragmentInto f out).1 = .ok ())
    (hsound : ¬ Defective s f out) : WritesOnce out.length pieces := by
  have hmax : isizeMax < usizeSize := by decide
  induction hwrote with
  | standard s f out =>
    rw [StandardFragmenter.writesOnce_iff_not_overlapping hout hlayout hok]
    intro h
    exact hsound (.standard s f out h)
  | random s f out =>
    rw [RandomFragmenter.writesOnce_iff_not_miscounted (by omega) hok]
    intro h
    exact hsound (.random s f out h)
  | interleaved s f out => exact InterleavedFragmenter.writesOnce_of_ok hok
  | refused s f out exit hpick =>
    change (s.defragmentInto f out).1 = _ at hok
    unfold LayeredFragmenter.defragmentInto at hok
    rw [hpick] at hok
    cases hok
  | layered s f out position sub pieces hpick hsub hwrote ih =>
    change (s.defragmentInto f out).1 = _ at hok
    rw [LayeredFragmenter.defragmentInto_of_pick hpick hsub] at hok
    have hview := length_layoutBytes_viewSkipping_le f 4
    apply ih hout (by omega) hok
    intro h
    exact hsound (.layered s f out position sub hpick hsub h)

theorem Defective.accepted (h : Defective s f out) (hout : out.length ≤ isizeMax)
    (hlayout : f.layoutBytes.length ≤ isizeMax) : (s.defragmentInto f out).1 = .ok () ∧
      ∃ pieces, Wrote s f out pieces ∧ ¬ WritesOnce out.length pieces := by
  have hmax : isizeMax < usizeSize := by decide
  induction h with
  | standard s f out h =>
    have hok := h.ok hout hlayout
    refine ⟨hok, _, .standard s f out, ?_⟩
    rw [StandardFragmenter.writesOnce_iff_not_overlapping hout hlayout hok]
    exact not_not_intro h
  | random s f out h =>
    have hok : (RandomFragmenter.defragmentInto f out).1 = .ok () :=
      (RandomFragmenter.defragmentInto_ok_iff (by omega)).mpr ⟨h.length_out, h.describes⟩
    refine ⟨hok, _, .random s f out, ?_⟩
    rw [RandomFragmenter.writesOnce_iff_not_miscounted (by omega) hok]
    exact not_not_intro h
  | layered s f out position sub hpick hsub h ih =>
    have hview := length_layoutBytes_viewSkipping_le f 4
    obtain ⟨hok, pieces, hwrote, honce⟩ := ih hout (by omega)
    refine ⟨?_, pieces, .layered s f out position sub pieces hpick hsub hwrote, honce⟩
    show (s.defragmentInto f out).1 = .ok ()
    rw [LayeredFragmenter.defragmentInto_of_pick hpick hsub]
    exact hok

/-- A decoder accepts complete keys only, except for overlapping standard chunks and
random layouts with missing or repeated positions. -/
theorem complete_iff (hs : Builtin s) (hout : out.length ≤ isizeMax)
    (hlayout : f.layoutBytes.length ≤ isizeMax) :
    (∃ pieces, Wrote s f out pieces) ∧ (Complete s f out ↔ ¬ Defective s f out) := by
  obtain ⟨pieces, hwrote⟩ := hs.exists_wrote f out
  refine ⟨⟨pieces, hwrote⟩, ?_, ?_⟩
  · intro hcomplete hdefective
    obtain ⟨hok, written, hwritten, honce⟩ := hdefective.accepted hout hlayout
    exact honce ((hcomplete hok).1 written hwritten)
  · intro hsound hok
    refine ⟨fun written hwritten => hwritten.writesOnce hout hlayout hok hsound, ?_⟩
    intro out' hlength
    have honce := hwrote.writesOnce hout hlayout hok hsound
    rw [hwrote.defragmentInto_eq hlength, hwrote.defragmentInto_eq rfl]
    exact (honce.overwriteAll_eq hlength.symm hwrote.inside).symm

end Complete

theorem complete_iff_repeated :
    Defective RandomFragmenter.new.strategy (.fromParts [[1, 2]] (u32Words [2, 0, 0]) 2) [66, 77] ∧
      ¬ Complete RandomFragmenter.new.strategy
        (.fromParts [[1, 2]] (u32Words [2, 0, 0]) 2) [66, 77] := by
  have hdefective : Defective RandomFragmenter.new.strategy
      (.fromParts [[1, 2]] (u32Words [2, 0, 0]) 2) [66, 77] :=
    .random _ _ _ ⟨rfl, by decide +kernel, by decide +kernel⟩
  refine ⟨hdefective, ?_⟩
  intro hcomplete
  exact (complete_iff (Builtin.random _) (by decide) (by decide)).2.mp hcomplete hdefective

/-- Two chunks at offset 0 of a key of two bytes: the second byte of the buffer stays as
it was. No chunks at all: the whole buffer does. -/
theorem accepted_not_complete :
    ¬ Complete StandardFragmenter.new.strategy
        (.fromParts [[1], [2]] (u32Words [0, 0]) 2) [66, 77] ∧
      ¬ Complete RandomFragmenter.new.strategy (.fromParts [] [] 3) [66, 77, 88] := by
  constructor
  · intro h
    have hbytes := (h (by decide +kernel)).2 [66, 78] rfl
    exact absurd hbytes (by decide +kernel)
  · intro h
    have hbytes := (h (by decide +kernel)).2 [66, 77, 89] rfl
    exact absurd hbytes (by decide +kernel)

end KeyVault
