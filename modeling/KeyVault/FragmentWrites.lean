import KeyVault.Coverage
import KeyVault.LayeredFragmenter

/-! What the decoders write, and where. Each decoder is followed write by write on
fragments that need not come from any encoder: the layout may be any byte string,
the chunks may have any number and content. The result never depends on what the
buffer held, every write stays inside it, and the call returns or is refused with
a defragmentation error. -/
namespace KeyVault

open Patching

def Decodes {α : Type} (result : Result α) : Prop :=
  (∃ value, result = .ok value) ∨ ∃ reason, result = fail (.defragment reason)

section Decodes

variable {α β : Type}

theorem Decodes.ok (value : α) : Decodes (.ok value : Result α) := Or.inl ⟨value, rfl⟩

theorem Decodes.refused (reason : String) : Decodes (fail (.defragment reason) : Result α) :=
  Or.inr ⟨reason, rfl⟩

theorem Decodes.require (condition : Prop) [Decidable condition] (reason : String) :
    Decodes (require condition (.defragment reason)) := by
  unfold KeyVault.require
  split
  · exact .ok ()
  · exact .refused reason

theorem Decodes.bind {x : Result α} {f : α → Result β} (h : Decodes x)
    (hnext : ∀ value, x = .ok value → Decodes (f value)) : Decodes (x >>= f) := by
  rcases h with ⟨value, rfl⟩ | ⟨reason, rfl⟩
  · exact hnext value rfl
  · exact .refused reason

theorem Decodes.error {exit : Exit} (h : Decodes (.error exit : Result α)) :
    Decodes (.error exit : Result β) := by
  rcases h with ⟨value, hvalue⟩ | ⟨reason, hreason⟩
  · cases hvalue
  · cases hreason
    exact .refused reason

end Decodes

theorem readPosition_of_le {layout : Bytes} {first i : Nat}
    (hfits : (first + i + 1) * 4 ≤ layout.length) (hsize : layout.length < usizeSize) :
    readPosition layout (first * 4) i = .ok (wordAt layout (first + i)) := by
  unfold readPosition
  rw [usizeMul_of_lt (by omega), ok_bind, usizeAdd_of_lt (by omega), ok_bind,
    usizeAdd_of_lt (by omega), ok_bind, usizeMul_of_lt (by omega), ok_bind,
    usizeAdd_of_lt (by omega), ok_bind]
  exact u32Slice_of_le (by omega) (by omega) (by omega) _

namespace StandardFragmenter

variable {layout : Bytes} {totalLen position : Nat} {chunks : List Bytes}

def placedChunks (layout : Bytes) (totalLen : Nat) : Nat → List Bytes → List (Nat × Bytes)
  | _, [] => []
  | position, chunk :: chunks =>
      match layoutOffset layout position with
      | .error _ => []
      | .ok offset =>
          if offset = decoyOffset then placedChunks layout totalLen (position + 1) chunks
          else if ¬ offset + chunk.length < usizeSize then []
          else if totalLen < offset + chunk.length then []
          else (offset, chunk) :: placedChunks layout totalLen (position + 1) chunks

def writes (f : Fragments) (out : Bytes) : List (Nat × Bytes) :=
  match checkShape f out with
  | .error _ => []
  | .ok () => placedChunks f.layoutBytes f.totalLen 0 f.chunkBytes

theorem placeChunks_writes (out out' : Bytes) (written : Nat) :
    placeChunks layout totalLen position chunks out written =
      ((placeChunks layout totalLen position chunks out' written).1,
        overwriteAll out (placedChunks layout totalLen position chunks)) := by
  induction chunks generalizing position out out' written with
  | nil => rfl
  | cons chunk chunks ih =>
    unfold placeChunks placedChunks
    cases layoutOffset layout position with
    | error exit => rfl
    | ok offset =>
      dsimp only
      split
      · exact ih out out' written
      · split
        · rfl
        · split
          · rfl
          · exact ih (overwrite out offset chunk) (overwrite out' offset chunk) _

theorem checkShape_congr {f : Fragments} {out out' : Bytes} (h : out'.length = out.length) :
    checkShape f out' = checkShape f out := by
  unfold checkShape
  rw [h]

theorem defragmentInto_writes {f : Fragments} {out out' : Bytes} (h : out'.length = out.length) :
    defragmentInto f out' = ((defragmentInto f out).1, overwriteAll out' (writes f out)) := by
  have hplaced := @placeChunks_writes f.layoutBytes f.totalLen 0 f.chunkBytes out' out 0
  unfold defragmentInto writes
  rw [checkShape_congr h]
  cases checkShape f out with
  | error exit => rfl
  | ok _ =>
    dsimp only
    rw [hplaced]
    generalize placeChunks f.layoutBytes f.totalLen 0 f.chunkBytes out 0 = placed
    cases placed with
    | mk result _ => cases result <;> rfl

theorem placedChunks_inside : ∀ piece ∈ placedChunks layout totalLen position chunks,
    piece.1 + piece.2.length ≤ totalLen := by
  induction chunks generalizing position with
  | nil => simp [placedChunks]
  | cons chunk chunks ih =>
    unfold placedChunks
    cases layoutOffset layout position with
    | error exit => simp
    | ok offset =>
      dsimp only
      split
      · exact ih
      · split
        · simp
        · split
          · simp
          · intro piece hpiece
            rcases List.mem_cons.mp hpiece with rfl | hlater
            · dsimp only
              omega
            · exact ih piece hlater

theorem writes_inside {f : Fragments} {out : Bytes} :
    ∀ piece ∈ writes f out, piece.1 + piece.2.length ≤ out.length := by
  unfold writes
  split
  · simp
  · rename_i hshape
    unfold checkShape at hshape
    obtain ⟨_, -, hshape⟩ := bind_eq_ok.mp hshape
    obtain ⟨_, -, hout⟩ := bind_eq_ok.mp hshape
    rw [require_eq_ok] at hout
    rw [hout]
    exact placedChunks_inside

theorem layoutOffset_of_le (hfits : (position + 1) * 4 ≤ layout.length)
    (hsize : layout.length < usizeSize) :
    layoutOffset layout position = .ok (wordAt layout position) := by
  unfold layoutOffset
  rw [usizeMul_of_lt (by omega), ok_bind, usizeAdd_of_lt (by omega), ok_bind]
  exact u32Slice_of_le rfl rfl (by omega) _

theorem placeChunks_decodes (out : Bytes) (written : Nat)
    (hfits : (position + chunks.length) * 4 ≤ layout.length) (hsize : layout.length < usizeSize) :
    Decodes (placeChunks layout totalLen position chunks out written).1 := by
  induction chunks generalizing position out written with
  | nil => exact .ok written
  | cons chunk chunks ih =>
    rw [List.length_cons] at hfits
    have hrest : (position + 1 + chunks.length) * 4 ≤ layout.length := by omega
    unfold placeChunks
    rw [layoutOffset_of_le (by omega) hsize]
    dsimp only
    split
    · exact ih out written hrest
    · split
      · exact .refused _
      · split
        · exact .refused _
        · exact ih _ _ hrest

theorem defragmentInto_decodes {f : Fragments} {out : Bytes} (hcount : f.chunkCount * 4 < usizeSize)
    (hsize : f.layoutBytes.length < usizeSize) : Decodes (defragmentInto f out).1 := by
  unfold defragmentInto checkShape
  rw [usizeMul_of_lt hcount, ok_bind]
  by_cases hlayout : f.layoutBytes.length = f.chunkCount * 4
  · rw [require_of hlayout, ok_bind]
    by_cases hout : out.length = f.totalLen
    · rw [require_of hout]
      dsimp only
      have hplaced := @placeChunks_decodes f.layoutBytes f.totalLen 0 f.chunkBytes out 0
        (by rw [Fragments.length_chunkBytes]; omega) hsize
      split
      · rename_i exit _ hexit
        rw [hexit] at hplaced
        exact hplaced.error
      · exact .require _ _
    · rw [require, if_neg hout]
      exact .refused _
  · rw [require, if_neg hlayout]
    exact .refused _

end StandardFragmenter

namespace RandomFragmenter

variable {layout : Bytes} {totalLen : Nat}

def placedBytes (layout : Bytes) (totalLen start : Nat) : Nat → Bytes → List (Nat × Bytes)
  | _, [] => []
  | i, byte :: bytes =>
      match readPosition layout start i with
      | .error _ => []
      | .ok position =>
          if totalLen ≤ position then []
          else (position, [byte]) :: placedBytes layout totalLen start (i + 1) bytes

/-- The writes of the outer loop: a chunk that fails part way is the last one. -/
def placedChunks (layout : Bytes) (totalLen : Nat) : List Bytes → Nat → List (Nat × Bytes)
  | [], _ => []
  | chunk :: chunks, cursor =>
      match readSize layout cursor chunk.length with
      | .error _ => []
      | .ok (start, stop) =>
          placedBytes layout totalLen start 0 chunk ++
            match (placeBytes layout totalLen start 0 chunk (List.replicate totalLen 0)).1 with
            | .error _ => []
            | .ok () => placedChunks layout totalLen chunks stop

def writes (f : Fragments) (out : Bytes) : List (Nat × Bytes) :=
  if out.length = f.totalLen then placedChunks f.layoutBytes f.totalLen f.chunkBytes 0 else []

theorem placeBytes_writes {start : Nat} (i : Nat) (bytes : Bytes) {out : Bytes}
    (hout : out.length = totalLen) (out' : Bytes) :
    placeBytes layout totalLen start i bytes out =
      ((placeBytes layout totalLen start i bytes out').1,
        overwriteAll out (placedBytes layout totalLen start i bytes)) := by
  induction bytes generalizing i out out' with
  | nil => rfl
  | cons byte bytes ih =>
    unfold placeBytes placedBytes
    cases readPosition layout start i with
    | error exit => rfl
    | ok position =>
      dsimp only
      split
      · rfl
      · rename_i hposition
        rw [overwriteAll_cons, ← set_eq_overwrite (by omega)]
        exact ih (i + 1) (by rw [List.length_set, hout]) _

theorem placedBytes_inside {start : Nat} (i : Nat) (bytes : Bytes) :
    ∀ piece ∈ placedBytes layout totalLen start i bytes,
      piece.1 + piece.2.length ≤ totalLen := by
  induction bytes generalizing i with
  | nil => simp [placedBytes]
  | cons byte bytes ih =>
    unfold placedBytes
    cases readPosition layout start i with
    | error exit => simp
    | ok position =>
      dsimp only
      split
      · simp
      · rename_i hposition
        intro piece hpiece
        rcases List.mem_cons.mp hpiece with rfl | hlater
        · simp only [List.length_singleton]
          omega
        · exact ih (i + 1) piece hlater

theorem placeChunks_writes (chunks : List Bytes) (cursor : Nat) {out out' : Bytes}
    (hout : out.length = totalLen) (hout' : out'.length = totalLen) :
    placeChunks layout totalLen chunks cursor out =
      ((placeChunks layout totalLen chunks cursor out').1,
        overwriteAll out (placedChunks layout totalLen chunks cursor)) := by
  induction chunks generalizing cursor out out' with
  | nil => rfl
  | cons chunk chunks ih =>
    unfold placeChunks placedChunks
    cases readSize layout cursor chunk.length with
    | error exit => rfl
    | ok range =>
      obtain ⟨start, stop⟩ := range
      dsimp only
      have hinside := @placedBytes_inside layout totalLen start 0 chunk
      have hlength := length_overwriteAll_of_inside (by rw [hout]; exact hinside)
      have hlength' := length_overwriteAll_of_inside (by rw [hout']; exact hinside)
      rw [placeBytes_writes 0 chunk hout (List.replicate totalLen 0),
        placeBytes_writes 0 chunk hout' (List.replicate totalLen 0), overwriteAll_append]
      cases (placeBytes layout totalLen start 0 chunk (List.replicate totalLen 0)).1 with
      | error exit => rfl
      | ok _ => exact ih stop (hlength.trans hout) (hlength'.trans hout')

theorem placedChunks_inside (chunks : List Bytes) (cursor : Nat) :
    ∀ piece ∈ placedChunks layout totalLen chunks cursor,
      piece.1 + piece.2.length ≤ totalLen := by
  induction chunks generalizing cursor with
  | nil => simp [placedChunks]
  | cons chunk chunks ih =>
    unfold placedChunks
    cases readSize layout cursor chunk.length with
    | error exit => simp
    | ok range =>
      dsimp only
      intro piece hpiece
      rcases List.mem_append.mp hpiece with hfirst | hlater
      · exact placedBytes_inside 0 chunk piece hfirst
      · cases hplaced : (placeBytes layout totalLen range.1 0 chunk (List.replicate totalLen 0)).1 with
        | error exit =>
          rw [hplaced] at hlater
          cases hlater
        | ok _ =>
          rw [hplaced] at hlater
          exact ih range.2 piece hlater

theorem defragmentInto_writes {f : Fragments} {out out' : Bytes} (h : out'.length = out.length) :
    defragmentInto f out' = ((defragmentInto f out).1, overwriteAll out' (writes f out)) := by
  unfold defragmentInto writes
  rw [h]
  split
  · rename_i hout
    rw [placeChunks_writes f.chunkBytes 0 (h.trans hout) hout]
    generalize placeChunks f.layoutBytes f.totalLen f.chunkBytes 0 out = placed
    cases placed with
    | mk result _ => cases result <;> rfl
  · rfl

theorem writes_inside {f : Fragments} {out : Bytes} :
    ∀ piece ∈ writes f out, piece.1 + piece.2.length ≤ out.length := by
  unfold writes
  split
  · rename_i hout
    rw [hout]
    exact placedChunks_inside _ _
  · simp

theorem readSize_eq_ok {cursor length start stop : Nat}
    (h : readSize layout cursor length = .ok (start, stop)) :
    start = cursor + 4 ∧ stop = start + length * 4 ∧ stop ≤ layout.length := by
  simp only [readSize, bind_eq_ok, require_eq_ok, usizeAdd_eq_ok, usizeMul_eq_ok] at h
  obtain ⟨first, ⟨-, rfl⟩, -, -, size, -, -, rfl, width, ⟨-, rfl⟩, last, ⟨-, rfl⟩, -, hfits,
    hresult⟩ := h
  cases hresult
  exact ⟨rfl, rfl, hfits⟩

theorem readSize_decodes {word length : Nat} (hword : word * 4 ≤ layout.length)
    (hsize : layout.length < 2 ^ 60) : Decodes (readSize layout (word * 4) length) := by
  have husize : usizeSize = 2 ^ 64 := rfl
  have hmax : u32Max < 2 ^ 32 := by decide
  unfold readSize
  rw [usizeAdd_of_lt (by omega), ok_bind]
  apply Decodes.bind (.require _ _)
  intro _ hfits
  rw [require_eq_ok] at hfits
  rw [u32Slice_of_le rfl rfl hfits, ok_bind]
  have hle := wordAt_le layout word
  apply Decodes.bind (.require _ _)
  intro _ _
  rw [usizeMul_of_lt (by omega), ok_bind, usizeAdd_of_lt (by omega), ok_bind]
  apply Decodes.bind (.require _ _)
  intro _ _
  exact .ok _

theorem placeBytes_decodes {first : Nat} (i : Nat) (bytes out : Bytes)
    (hfits : (first + i + bytes.length) * 4 ≤ layout.length) (hsize : layout.length < usizeSize) :
    Decodes (placeBytes layout totalLen (first * 4) i bytes out).1 := by
  induction bytes generalizing i out with
  | nil => exact .ok ()
  | cons byte bytes ih =>
    rw [List.length_cons] at hfits
    unfold placeBytes
    rw [readPosition_of_le (by omega) hsize]
    dsimp only
    split
    · exact .refused _
    · exact ih (i + 1) _ (by omega)

theorem placeChunks_decodes (chunks : List Bytes) {word : Nat} (out : Bytes)
    (hword : word * 4 ≤ layout.length) (hsize : layout.length < 2 ^ 60) :
    Decodes (placeChunks layout totalLen chunks (word * 4) out).1 := by
  have husize : 2 ^ 60 < usizeSize := by decide
  induction chunks generalizing word out with
  | nil => exact .ok _
  | cons chunk chunks ih =>
    unfold placeChunks
    have hread := @readSize_decodes layout word chunk.length hword hsize
    split
    · rename_i exit hexit
      rw [hexit] at hread
      exact hread.error
    · rename_i start stop hok
      obtain ⟨hstart, hstop, hfits⟩ := readSize_eq_ok hok
      obtain rfl : start = (word + 1) * 4 := by omega
      obtain rfl : stop = (word + 1 + chunk.length) * 4 := by omega
      have hbytes := @placeBytes_decodes layout totalLen (word + 1) 0 chunk out hfits (by omega)
      split
      · rename_i exit _ hexit
        rw [hexit] at hbytes
        exact hbytes.error
      · exact ih _ hfits

theorem defragmentInto_decodes {f : Fragments} {out : Bytes}
    (hsize : f.layoutBytes.length < 2 ^ 60) : Decodes (defragmentInto f out).1 := by
  unfold defragmentInto
  split
  · have hplaced := @placeChunks_decodes f.layoutBytes f.totalLen f.chunkBytes 0 out
      (Nat.zero_le _) hsize
    rw [Nat.zero_mul] at hplaced
    split
    · rename_i exit _ hexit
      rw [hexit] at hplaced
      exact hplaced.error
    · exact .require _ _
  · exact .refused _

end RandomFragmenter

namespace InterleavedFragmenter

variable {layout pool : Bytes} {poolSize : Nat}

def gathered (layout pool : Bytes) (poolSize : Nat) : Nat → Bytes → List (Nat × Bytes)
  | _, [] => []
  | i, _ :: slots =>
      match readPosition layout 4 i with
      | .error _ => []
      | .ok position =>
          if poolSize ≤ position then []
          else
            match index pool position with
            | .error _ => []
            | .ok byte => (i, [byte]) :: gathered layout pool poolSize (i + 1) slots

def writes (f : Fragments) (out : Bytes) : List (Nat × Bytes) :=
  match f.chunkBytes with
  | [pool] =>
      match readPoolSize f pool out with
      | .error _ => []
      | .ok poolSize => gathered f.layoutBytes pool poolSize 0 out
  | _ => []

/-- `done` is the part of the buffer already filled. -/
theorem gather_writes (i : Nat) (done out out' : Bytes) (hdone : done.length = i)
    (hlength : out'.length = out.length) :
    ((gather layout pool poolSize i out').1, done ++ (gather layout pool poolSize i out').2) =
      ((gather layout pool poolSize i out).1,
        overwriteAll (done ++ out') (gathered layout pool poolSize i out)) := by
  induction out generalizing i done out' with
  | nil =>
    rw [List.eq_nil_of_length_eq_zero hlength]
    rfl
  | cons slot slots ih =>
    cases out' with
    | nil => cases hlength
    | cons slot' slots' =>
      have hrest : slots'.length = slots.length := Nat.succ.inj hlength
      unfold gather gathered
      cases readPosition layout 4 i with
      | error exit => rfl
      | ok position =>
        dsimp only
        split
        · rfl
        · cases index pool position with
          | error exit => rfl
          | ok byte =>
            have hnext := ih (i + 1) (done ++ [byte]) slots'
              (by rw [List.length_append, hdone, List.length_singleton]) hrest
            have hwritten : overwrite (done ++ slot' :: slots') i [byte] =
                done ++ [byte] ++ slots' := by
              rw [overwrite_append_left _ _ _ _ hdone.symm]
              rfl
            rw [overwriteAll_cons, hwritten, ← hnext]
            simp

theorem readPoolSize_congr {f : Fragments} {out out' : Bytes} (h : out'.length = out.length) :
    readPoolSize f pool out' = readPoolSize f pool out := by
  unfold readPoolSize
  rw [h]

theorem defragmentInto_writes {f : Fragments} {out out' : Bytes} (h : out'.length = out.length) :
    defragmentInto f out' = ((defragmentInto f out).1, overwriteAll out' (writes f out)) := by
  unfold defragmentInto writes
  cases f.chunkBytes with
  | nil => rfl
  | cons pool chunks =>
    cases chunks with
    | nil =>
      dsimp only
      rw [readPoolSize_congr h]
      cases readPoolSize f pool out with
      | error exit => rfl
      | ok poolSize => exact gather_writes 0 [] out out' rfl h
    | cons _ _ => rfl

theorem gathered_inside (i : Nat) (out : Bytes) : ∀ piece ∈ gathered layout pool poolSize i out,
    piece.1 + piece.2.length ≤ i + out.length := by
  induction out generalizing i with
  | nil => simp [gathered]
  | cons slot slots ih =>
    unfold gathered
    rw [List.length_cons]
    cases readPosition layout 4 i with
    | error exit => simp
    | ok position =>
      dsimp only
      split
      · simp
      · cases index pool position with
        | error exit => simp
        | ok byte =>
          intro piece hpiece
          rcases List.mem_cons.mp hpiece with rfl | hlater
          · simp only [List.length_singleton]
            omega
          · have hrest := ih (i + 1) piece hlater
            omega

theorem writes_inside {f : Fragments} {out : Bytes} :
    ∀ piece ∈ writes f out, piece.1 + piece.2.length ≤ out.length := by
  unfold writes
  split
  · split
    · simp
    · simpa only [Nat.zero_add] using gathered_inside 0 out
  · simp

theorem gather_decodes (i : Nat) (out : Bytes) (hfits : (1 + i + out.length) * 4 ≤ layout.length)
    (hsize : layout.length < usizeSize) (hpool : poolSize ≤ pool.length) :
    Decodes (gather layout pool poolSize i out).1 := by
  induction out generalizing i with
  | nil => exact .ok ()
  | cons slot slots ih =>
    rw [List.length_cons] at hfits
    have hread := @readPosition_of_le layout 1 i (by omega) hsize
    rw [Nat.one_mul] at hread
    unfold gather
    rw [hread]
    dsimp only
    split
    · exact .refused _
    · rename_i hposition
      have hlt : wordAt layout (1 + i) < pool.length := by omega
      rw [index_of_getElem? (List.getElem?_eq_getElem hlt)]
      exact ih (i + 1) (by omega)

theorem defragmentInto_decodes {f : Fragments} {out : Bytes} (hout : out.length < 2 ^ 60)
    (hsize : f.layoutBytes.length < 2 ^ 60) : Decodes (defragmentInto f out).1 := by
  have husize : usizeSize = 2 ^ 64 := rfl
  unfold defragmentInto
  split
  · rename_i pool _
    unfold readPoolSize
    by_cases htotal : out.length = f.totalLen
    · rw [require_of htotal, ok_bind, usizeMul_of_lt (by omega), ok_bind,
        usizeAdd_of_lt (by omega), ok_bind]
      by_cases hlayout : f.layoutBytes.length = 4 + f.totalLen * 4
      · rw [require_of hlayout, ok_bind, @u32Slice_of_le _ 0 _ _ rfl rfl (by omega), ok_bind]
        by_cases hpool : wordAt f.layoutBytes 0 = pool.length
        · rw [require_of hpool, ok_bind]
          exact gather_decodes 0 out (by omega) (by omega) (Nat.le_of_eq hpool)
        · rw [require, if_neg hpool]
          exact .refused _
      · rw [require, if_neg hlayout]
        exact .refused _
    · rw [require, if_neg htotal]
      exact .refused _
  · exact .refused _

end InterleavedFragmenter

namespace LayeredFragmenter

variable {f : LayeredFragmenter} {fragments : Fragments}

theorem pick_decodes : Decodes (f.pick fragments) := by
  unfold pick
  apply Decodes.bind (.require _ _)
  intro _ _
  apply Decodes.bind (.require _ _)
  intro _ _
  exact .ok _

theorem index_of_pick {position : Nat} (h : f.pick fragments = .ok position) :
    ∃ sub ∈ f.subStrategies, index f.subStrategies position = .ok sub := by
  unfold pick at h
  simp only [bind_eq_ok, require_eq_ok] at h
  obtain ⟨-, -, -, hposition, hresult⟩ := h
  cases hresult
  exact ⟨_, List.getElem_mem hposition, index_of_getElem? (List.getElem?_eq_getElem hposition)⟩

end LayeredFragmenter

/-! ### All built-in decoders -/

/-- `Wrote s f out pieces`: decoding `f` into `out` with `s` makes the given writes,
in this order. A layered decoder makes those of the strategy its header names. -/
inductive Wrote : FragmentStrategy → Fragments → Bytes → List (Nat × Bytes) → Prop where
  | standard (s : StandardFragmenter) (f : Fragments) (out : Bytes) :
      Wrote s.strategy f out (StandardFragmenter.writes f out)
  | random (s : RandomFragmenter) (f : Fragments) (out : Bytes) :
      Wrote s.strategy f out (RandomFragmenter.writes f out)
  | interleaved (s : InterleavedFragmenter) (f : Fragments) (out : Bytes) :
      Wrote s.strategy f out (InterleavedFragmenter.writes f out)
  | refused (s : LayeredFragmenter) (f : Fragments) (out : Bytes) (exit : Exit)
      (hpick : s.pick f = .error exit) : Wrote s.strategy f out []
  | layered (s : LayeredFragmenter) (f : Fragments) (out : Bytes) (position : Nat)
      (sub : FragmentStrategy) (pieces : List (Nat × Bytes)) (hpick : s.pick f = .ok position)
      (hsub : index s.subStrategies position = .ok sub)
      (hwrote : Wrote sub (f.viewSkipping 4) out pieces) : Wrote s.strategy f out pieces

section Wrote

variable {s : FragmentStrategy} {f : Fragments} {out : Bytes} {pieces : List (Nat × Bytes)}

theorem LayeredFragmenter.defragmentInto_of_pick {s : LayeredFragmenter} {position : Nat}
    {sub : FragmentStrategy} (hpick : s.pick f = .ok position)
    (hsub : index s.subStrategies position = .ok sub) (out : Bytes) :
    s.defragmentInto f out = sub.defragmentInto (f.viewSkipping 4) out := by
  unfold defragmentInto
  rw [hpick]
  dsimp only
  rw [hsub]

/-- The writes and the result depend on the length of the buffer only. -/
theorem Wrote.defragmentInto_eq (h : Wrote s f out pieces) {out' : Bytes}
    (hlength : out'.length = out.length) :
    s.defragmentInto f out' = ((s.defragmentInto f out).1, overwriteAll out' pieces) := by
  induction h with
  | standard s f out => exact StandardFragmenter.defragmentInto_writes hlength
  | random s f out => exact RandomFragmenter.defragmentInto_writes hlength
  | interleaved s f out => exact InterleavedFragmenter.defragmentInto_writes hlength
  | refused s f out exit hpick =>
    show s.defragmentInto f out' = ((s.defragmentInto f out).1, out')
    unfold LayeredFragmenter.defragmentInto
    rw [hpick]
  | layered s f out position sub pieces hpick hsub hwrote ih =>
    show s.defragmentInto f out' = ((s.defragmentInto f out).1, _)
    rw [LayeredFragmenter.defragmentInto_of_pick hpick hsub,
      LayeredFragmenter.defragmentInto_of_pick hpick hsub]
    exact ih hlength

theorem Wrote.inside (h : Wrote s f out pieces) :
    ∀ piece ∈ pieces, piece.1 + piece.2.length ≤ out.length := by
  induction h with
  | standard s f out => exact StandardFragmenter.writes_inside
  | random s f out => exact RandomFragmenter.writes_inside
  | interleaved s f out => exact InterleavedFragmenter.writes_inside
  | refused s f out exit hpick => simp
  | layered s f out position sub pieces hpick hsub hwrote ih => exact ih

theorem Builtin.exists_wrote (hs : Builtin s) (f : Fragments) (out : Bytes) :
    ∃ pieces, Wrote s f out pieces := by
  induction hs generalizing f with
  | standard s => exact ⟨_, .standard s f out⟩
  | random s => exact ⟨_, .random s f out⟩
  | interleaved s => exact ⟨_, .interleaved s f out⟩
  | layered s hsub ih =>
    cases hpick : s.pick f with
    | error exit => exact ⟨[], .refused s f out exit hpick⟩
    | ok position =>
      obtain ⟨sub, hmem, hindex⟩ := LayeredFragmenter.index_of_pick hpick
      obtain ⟨pieces, hwrote⟩ := ih sub hmem (f.viewSkipping 4)
      exact ⟨pieces, .layered s f out position sub pieces hpick hindex hwrote⟩

end Wrote

/-- Fragments whose buffers are shorter than `2 ^ 60`: the list of chunks and the
visible layout. -/
structure Fragments.Bounded (f : Fragments) : Prop where
  chunkCount_lt : f.chunkCount < 2 ^ 60
  layoutBytes_lt : f.layoutBytes.length < 2 ^ 60

theorem Fragments.Bounded.viewSkipping {f : Fragments} (h : f.Bounded) (skip : Nat) :
    (f.viewSkipping skip).Bounded where
  chunkCount_lt := h.chunkCount_lt
  layoutBytes_lt := by
    have hlayout := h.layoutBytes_lt
    rw [layoutBytes_viewSkipping, List.length_drop]
    omega

theorem Builtin.defragmentInto_decodes {s : FragmentStrategy} (hs : Builtin s) {f : Fragments}
    (hf : f.Bounded) {out : Bytes} (hout : out.length < 2 ^ 60) :
    Decodes (s.defragmentInto f out).1 := by
  have husize : usizeSize = 2 ^ 64 := rfl
  induction hs generalizing f with
  | standard s =>
    have hcount := hf.chunkCount_lt
    have hlayout := hf.layoutBytes_lt
    exact StandardFragmenter.defragmentInto_decodes (by omega) (by omega)
  | random s => exact RandomFragmenter.defragmentInto_decodes hf.layoutBytes_lt
  | interleaved s => exact InterleavedFragmenter.defragmentInto_decodes hout hf.layoutBytes_lt
  | layered s hsub ih =>
    show Decodes (s.defragmentInto f out).1
    have hpicked := @LayeredFragmenter.pick_decodes s f
    cases hpick : s.pick f with
    | error exit =>
      rw [hpick] at hpicked
      unfold LayeredFragmenter.defragmentInto
      rw [hpick]
      exact hpicked.error
    | ok position =>
      obtain ⟨sub, hmem, hindex⟩ := LayeredFragmenter.index_of_pick hpick
      rw [LayeredFragmenter.defragmentInto_of_pick hpick hindex]
      exact ih sub hmem (hf.viewSkipping 4)

theorem Builtin.length_of_ok {s : FragmentStrategy} (hs : Builtin s) {f : Fragments} {out : Bytes}
    (h : (s.defragmentInto f out).1 = .ok ()) : out.length = f.totalLen := by
  induction hs generalizing f with
  | standard s =>
    change (StandardFragmenter.defragmentInto f out).1 = _ at h
    unfold StandardFragmenter.defragmentInto at h
    split at h
    · cases h
    · rename_i hshape
      unfold StandardFragmenter.checkShape at hshape
      simp only [bind_eq_ok, require_eq_ok] at hshape
      obtain ⟨-, -, -, -, hout⟩ := hshape
      exact hout
  | random s =>
    change (RandomFragmenter.defragmentInto f out).1 = _ at h
    unfold RandomFragmenter.defragmentInto at h
    split at h
    · assumption
    · cases h
  | interleaved s =>
    change (InterleavedFragmenter.defragmentInto f out).1 = _ at h
    unfold InterleavedFragmenter.defragmentInto at h
    split at h
    · split at h
      · cases h
      · rename_i hpool
        unfold InterleavedFragmenter.readPoolSize at hpool
        simp only [bind_eq_ok, require_eq_ok] at hpool
        exact hpool.choose_spec.1
    · cases h
  | layered s hsub ih =>
    change (s.defragmentInto f out).1 = _ at h
    cases hpick : s.pick f with
    | error exit =>
      unfold LayeredFragmenter.defragmentInto at h
      rw [hpick] at h
      cases h
    | ok position =>
      obtain ⟨sub, hmem, hindex⟩ := LayeredFragmenter.index_of_pick hpick
      rw [LayeredFragmenter.defragmentInto_of_pick hpick hindex] at h
      have hlength := ih sub hmem h
      exact hlength

/-- Decoding any fragments into any buffer returns or is refused with a
defragmentation error, always the latter for a buffer of the wrong size, and all
writes stay inside the buffer. -/
theorem defragmentInto_total {s : FragmentStrategy} (hs : Builtin s) {f : Fragments}
    (hf : f.Bounded) {out : Bytes} (hout : out.length < 2 ^ 60) :
    ((s.defragmentInto f out).1 = .ok () ∨
        ∃ reason, (s.defragmentInto f out).1 = fail (.defragment reason)) ∧
      (out.length ≠ f.totalLen →
        ∃ reason, (s.defragmentInto f out).1 = fail (.defragment reason)) ∧
      ∃ pieces, Wrote s f out pieces ∧ (s.defragmentInto f out).2 = overwriteAll out pieces ∧
        ∀ piece ∈ pieces, piece.1 + piece.2.length ≤ out.length := by
  have hdecodes := hs.defragmentInto_decodes hf hout
  obtain ⟨pieces, hwrote⟩ := hs.exists_wrote f out
  refine ⟨?_, ?_, pieces, hwrote, ?_, hwrote.inside⟩
  · rcases hdecodes with ⟨_, hok⟩ | hrefused
    · exact Or.inl hok
    · exact Or.inr hrefused
  · intro hlength
    rcases hdecodes with ⟨_, hok⟩ | hrefused
    · exact absurd (hs.length_of_ok hok) hlength
    · exact hrefused
  · rw [hwrote.defragmentInto_eq rfl]

theorem defragmentInto_total_twoLayers :
    (Fragments.fromParts [[7, 9]] [0, 0, 0, 0, 2, 0, 0, 0] 3).Bounded ∧
      ∃ reason, (twoLayers.strategy.defragmentInto
        (.fromParts [[7, 9]] [0, 0, 0, 0, 2, 0, 0, 0] 3) [66, 66]).1 =
          fail (.defragment reason) := by
  have hbounded : (Fragments.fromParts [[7, 9]] [0, 0, 0, 0, 2, 0, 0, 0] 3).Bounded :=
    ⟨by decide, by decide⟩
  exact ⟨hbounded, (defragmentInto_total builtin_twoLayers hbounded (by decide)).2.1 (by decide)⟩

end KeyVault
