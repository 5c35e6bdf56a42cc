import KeyVault.Extents
import KeyVault.LayeredFragmenter

/-! Moving a key's storage into a protected region. One walk copies the chunks and
the visible layout into the region, a second one lays windows over the copies; the
two agree on every boundary, so no decoder can tell the copy from the original. -/
namespace KeyVault

open Patching Extents

def LockedBytes.window (extent : Extent) : LockedBytes := .regionView extent.start extent.len

namespace Fragments

/-- The bytes `into_protected` has to find room for. -/
def storageSize (f : Fragments) : Nat :=
  (f.chunkBytes.map List.length).sum + f.layoutBytes.length

theorem length_flatten_chunkBytes (f : Fragments) :
    f.chunkBytes.flatten.length = (f.chunkBytes.map List.length).sum := by
  rw [List.length_flatten]

theorem intoProtected_eq {f : Fragments} {os : OsAnswers} (hsize : f.storageSize < usizeSize)
    (hmaps : os.maps = true) (hseals : os.seals = true) :
    f.intoProtected os = .ok ⟨(regionViews 0 (f.chunkBytes.map List.length)).1,
      .regionView (f.chunkBytes.map List.length).sum f.layoutBytes.length,
      some ⟨f.chunkBytes.flatten ++ f.layoutBytes⟩, 0, f.totalLen⟩ := by
  have hcopied := copyChunks_append [] (List.replicate f.storageSize 0) f.chunkBytes
  have hstop := (regionViews_asBytes [] [] f.chunkBytes).2
  simp only [List.nil_append, List.length_nil, Nat.zero_add, length_flatten_chunkBytes]
    at hcopied hstop
  have hrest : ((List.replicate f.storageSize (0 : UInt8)).drop
      (f.chunkBytes.map List.length).sum).drop f.layoutBytes.length = [] := by
    rw [List.drop_drop]
    apply List.drop_eq_nil_of_le
    rw [List.length_replicate, storageSize]
  have htotal : (f.chunkBytes.map List.length).foldl (· + ·) f.layoutBytes.length =
      f.storageSize := foldl_add_eq_sum ..
  unfold intoProtected
  dsimp only
  rw [htotal, require_of hsize, ok_bind, require_of hmaps, ok_bind, hcopied]
  dsimp only
  rw [overwrite_append_left _ _ _ _ (length_flatten_chunkBytes f).symm, hrest, List.append_nil,
    hstop, require_of hseals, ok_bind]
  rfl

theorem regionViews_windows (start : Nat) (sizes : List Nat) : ∃ views : List Extent,
    (regionViews start sizes).1 = views.map .window ∧ views.Pairwise Extent.Apart ∧
      ∀ view ∈ views, start ≤ view.start ∧ view.start + view.len ≤ start + sizes.sum := by
  induction sizes generalizing start with
  | nil => exact ⟨[], rfl, List.Pairwise.nil, by simp⟩
  | cons size sizes ih =>
    obtain ⟨views, hviews, hapart, hinside⟩ := ih (start + size)
    refine ⟨⟨start, size⟩ :: views, ?_, List.Pairwise.cons ?_ hapart, ?_⟩
    · simp only [regionViews, hviews]
      rfl
    · intro view hview
      have hlater := hinside view hview
      unfold Extent.Apart
      dsimp only
      omega
    · intro view hview
      rw [List.sum_cons]
      rcases List.mem_cons.mp hview with rfl | hmem
      · dsimp only
        omega
      · have hlater := hinside view hmem
        omega

end Fragments

/-! ### Decoders read through the accessors only -/

theorem StandardFragmenter.defragmentInto_sameView {f g : Fragments} (h : f.SameView g)
    (out : Bytes) : defragmentInto f out = defragmentInto g out := by
  obtain ⟨hchunks, hlayout, htotal⟩ := h
  have hcount : f.chunkCount = g.chunkCount := by
    rw [← Fragments.length_chunkBytes, hchunks, Fragments.length_chunkBytes]
  unfold defragmentInto checkShape
  rw [hchunks, hlayout, htotal, hcount]

theorem RandomFragmenter.defragmentInto_sameView {f g : Fragments} (h : f.SameView g)
    (out : Bytes) : defragmentInto f out = defragmentInto g out := by
  obtain ⟨hchunks, hlayout, htotal⟩ := h
  unfold defragmentInto
  rw [hchunks, hlayout, htotal]

theorem InterleavedFragmenter.defragmentInto_sameView {f g : Fragments} (h : f.SameView g)
    (out : Bytes) : defragmentInto f out = defragmentInto g out := by
  obtain ⟨hchunks, hlayout, htotal⟩ := h
  unfold defragmentInto readPoolSize
  rw [hchunks, hlayout, htotal]

theorem Builtin.defragmentInto_sameView {s : FragmentStrategy} (hs : Builtin s) {f g : Fragments}
    (h : f.SameView g) (out : Bytes) : s.defragmentInto f out = s.defragmentInto g out := by
  induction hs generalizing f g with
  | standard s => exact StandardFragmenter.defragmentInto_sameView h out
  | random s => exact RandomFragmenter.defragmentInto_sameView h out
  | interleaved s => exact InterleavedFragmenter.defragmentInto_sameView h out
  | layered s hsub ih =>
    show s.defragmentInto f out = s.defragmentInto g out
    have hpicks : s.pick f = s.pick g := by
      unfold LayeredFragmenter.pick
      rw [h.2.1]
    unfold LayeredFragmenter.defragmentInto
    rw [hpicks]
    cases s.pick g with
    | error exit => rfl
    | ok position =>
      dsimp only
      cases hindex : index s.subStrategies position with
      | error exit => rfl
      | ok sub =>
        have hmem := List.mem_of_getElem? (index_eq_ok.mp hindex)
        exact ih sub hmem (h.viewSkipping 4)

/-- A key moved into a protected region has the same chunks, the same visible layout
and the same length; its windows do not overlap and stay inside the region; and every
decoder gives the same result and the same bytes. -/
theorem intoProtected_relocates {f : Fragments} {os : OsAnswers}
    (hsize : f.storageSize < usizeSize) (hmaps : os.maps = true) (hseals : os.seals = true) :
    ∃ g region, f.intoProtected os = .ok g ∧ g.region = some region ∧
      g.chunkCount = f.chunkCount ∧ (∀ position, g.chunk position = f.chunk position) ∧
      g.layoutBytes = f.layoutBytes ∧ g.totalLen = f.totalLen ∧
      (∃ views : List Extent, g.chunks ++ [g.layout] = views.map .window ∧
        views.Pairwise Extent.Apart ∧
        ∀ view ∈ views, view.start + view.len ≤ region.bytes.length) ∧
      ∀ s, Builtin s → ∀ out, s.defragmentInto g out = s.defragmentInto f out := by
  have hmoved := Fragments.intoProtected_eq hsize hmaps hseals
  have hsame := Fragments.intoProtected_sameView hmoved
  obtain ⟨views, hviews, hapart, hinside⟩ :=
    Fragments.regionViews_windows 0 (f.chunkBytes.map List.length)
  refine ⟨_, _, hmoved, rfl, ?_, ?_, hsame.2.1.symm, hsame.2.2.symm, ?_, ?_⟩
  · rw [← Fragments.length_chunkBytes, ← hsame.1, Fragments.length_chunkBytes]
  · intro position
    exact congrArg (fun chunks => chunks[position]?) hsame.1.symm
  · refine ⟨views ++ [⟨(f.chunkBytes.map List.length).sum, f.layoutBytes.length⟩], ?_, ?_, ?_⟩
    · rw [List.map_append, ← hviews]
      rfl
    · rw [List.pairwise_append]
      refine ⟨hapart, List.pairwise_singleton .., ?_⟩
      intro view hview last hlast
      have hbefore := hinside view hview
      rw [List.mem_singleton.mp hlast]
      unfold Extent.Apart
      dsimp only
      omega
    · intro view hview
      rw [List.length_append, Fragments.length_flatten_chunkBytes]
      rcases List.mem_append.mp hview with hchunk | hlast
      · have hbefore := hinside view hchunk
        omega
      · rw [List.mem_singleton.mp hlast]
  · intro s hs out
    exact (hs.defragmentInto_sameView hsame out).symm

theorem intoProtected_relocates_hidden : ∃ g,
    ((Fragments.fromParts [[7, 9], [], [3]] [1, 0, 0, 0, 5] 3).viewSkipping 4).intoProtected
        ⟨true, true, true⟩ = .ok g ∧
      g.chunkCount = 3 ∧ g.layoutBytes = [5] ∧
      ∀ s, Builtin s → ∀ out, s.defragmentInto g out = s.defragmentInto
        ((Fragments.fromParts [[7, 9], [], [3]] [1, 0, 0, 0, 5] 3).viewSkipping 4) out := by
  obtain ⟨g, region, hmoved, -, hcount, -, hlayout, -, -, hdecoded⟩ := @intoProtected_relocates
    ((Fragments.fromParts [[7, 9], [], [3]] [1, 0, 0, 0, 5] 3).viewSkipping 4)
    ⟨true, true, true⟩ (by decide) rfl rfl
  exact ⟨g, hmoved, hcount, hlayout, hdecoded⟩

end KeyVault
