import KeyVault.Fragments

/-! The random fragmenter: a shuffled list of all key positions is peeled off in
groups, and each group's bytes form one chunk. The layout holds every group's
size and positions. -/
namespace KeyVault

open Patching

structure RandomFragmenter where
  minChunk : Nat
  maxChunk : Nat
  one_le_minChunk : 1 ≤ minChunk
  minChunk_le_maxChunk : minChunk ≤ maxChunk
  maxChunk_lt : maxChunk < usizeSize

namespace RandomFragmenter

def new : RandomFragmenter where
  minChunk := 1
  maxChunk := 4
  one_le_minChunk := Nat.zero_lt_one
  minChunk_le_maxChunk := by decide
  maxChunk_lt := four_lt_usizeSize

def withChunkRange (low high : Usize) : RandomFragmenter where
  minChunk := max low.val 1
  maxChunk := max high.val (max low.val 1)
  one_le_minChunk := one_le_raised low
  minChunk_le_maxChunk := raised_le low high
  maxChunk_lt := raised_lt low high

/-- How many positions one round of the loop of `fragment` takes. -/
def groupSize (low high remaining : Nat) (rng : Rng) : Result (Nat × Rng) :=
  if remaining ≤ high then .ok (remaining, rng)
  else do
    let (pick, rng) ← sampleRange low high rng
    return (min (min (max (min pick (remaining - low)) low) high) remaining, rng)

theorem groupSize_eq_nextSize (low high remaining : Nat) (rng : Rng) :
    groupSize low high remaining rng = nextSize low high remaining rng := rfl

/-- The loop of `fragment`, on the positions not yet peeled off: each group with
the bytes at its positions. -/
def peel (low high : Nat) (hrange : 0 < low ∧ low ≤ high) (bytes : Bytes)
    (positions : List Nat) (rng : Rng) : Result (List (List Nat × Bytes) × Rng) :=
  if _hdone : positions.length = 0 then .ok ([], rng)
  else
    match _hsize : groupSize low high positions.length rng with
    | .error exit => .error exit
    | .ok (size, rng) =>
        match (positions.take size).mapM (index bytes) with
        | .error exit => .error exit
        | .ok chunk =>
            match peel low high hrange bytes (positions.drop size) rng with
            | .error exit => .error exit
            | .ok (groups, rng) => .ok ((positions.take size, chunk) :: groups, rng)
termination_by positions.length
decreasing_by
  have hbounds := nextSize_bounds hrange.1 hrange.2 (Nat.pos_of_ne_zero _hdone) _hsize
  rw [List.length_drop]
  omega

def layoutWords (groups : List (List Nat)) : List Nat :=
  groups.flatMap fun group => group.length :: group

def fragment (f : RandomFragmenter) (key : Bytes) (rng : Rng) : Result (Fragments × Rng) := do
  require (key.length ≠ 0) (.fragment "empty key cannot be fragmented")
  require (key.length ≤ u32Max) (.fragment "key too large for fragmentation")
  match fisherYates (List.range key.length) rng with
  | (.error exit, _) => .error exit
  | (.ok rng, positions) =>
      let (groups, rng) ← peel f.minChunk f.maxChunk
        ⟨f.one_le_minChunk, f.minChunk_le_maxChunk⟩ key positions rng
      return (.fromParts (groups.map Prod.snd) (u32Words (layoutWords (groups.map Prod.fst)))
        key.length, rng)

/-- The size prefix of a chunk: where its position list starts and where it ends. -/
def readSize (layout : Bytes) (cursor length : Nat) : Result (Nat × Nat) := do
  let start ← usizeAdd cursor 4
  require (start ≤ layout.length) (.defragment "layout buffer truncated before size prefix")
  let size ← u32Slice layout cursor start (.defragment "layout slice")
  require (size = length) (.defragment "layout size does not match chunk length")
  let width ← usizeMul size 4
  let stop ← usizeAdd start width
  require (stop ≤ layout.length) (.defragment "layout buffer truncated before position list")
  return (start, stop)

/-- The inner loop of `defragment_into`: every byte goes to its own position. -/
def placeBytes (layout : Bytes) (totalLen start : Nat) :
    Nat → Bytes → Bytes → Result Unit × Bytes
  | _, [], out => (.ok (), out)
  | i, byte :: bytes, out =>
      match readPosition layout start i with
      | .error exit => (.error exit, out)
      | .ok position =>
          if totalLen ≤ position then
            (fail (.defragment "layout position out of range"), out)
          else placeBytes layout totalLen start (i + 1) bytes (out.set position byte)

/-- The outer loop: where the layout ends, and the buffer. -/
def placeChunks (layout : Bytes) (totalLen : Nat) :
    List Bytes → Nat → Bytes → Result Nat × Bytes
  | [], cursor, out => (.ok cursor, out)
  | chunk :: chunks, cursor, out =>
      match readSize layout cursor chunk.length with
      | .error exit => (.error exit, out)
      | .ok (start, stop) =>
          match placeBytes layout totalLen start 0 chunk out with
          | (.error exit, out) => (.error exit, out)
          | (.ok (), out) => placeChunks layout totalLen chunks stop out

def defragmentInto (f : Fragments) (out : Bytes) : Result Unit × Bytes :=
  if out.length = f.totalLen then
    match placeChunks f.layoutBytes f.totalLen f.chunkBytes 0 out with
    | (.error exit, out) => (.error exit, out)
    | (.ok cursor, out) =>
        (require (cursor = f.layoutBytes.length)
          (.defragment "trailing bytes in layout buffer"), out)
  else (fail (.defragment "scratch buffer size does not match fragments.total_len()"), out)

def strategy (f : RandomFragmenter) : FragmentStrategy where
  fragment := f.fragment
  defragment := defragmentZeroed defragmentInto
  defragmentInto := defragmentInto

/-! ### Peeling -/

def byteAt (bytes : Bytes) (position : Nat) : UInt8 := bytes.getD position 0

theorem mapM_index {bytes chunk : Bytes} {positions : List Nat}
    (h : positions.mapM (index bytes) = .ok chunk) : chunk = positions.map (byteAt bytes) := by
  induction positions generalizing chunk with
  | nil =>
    cases h
    rfl
  | cons position positions ih =>
    simp only [List.mapM_cons, bind_eq_ok] at h
    obtain ⟨byte, hbyte, rest, hrest, hchunk⟩ := h
    cases hchunk
    rw [List.map_cons, ih hrest, byteAt, List.getD_eq_getElem?_getD, index_eq_ok.mp hbyte]
    rfl

theorem peel_step {low high size : Nat} {hrange : 0 < low ∧ low ≤ high} {bytes chunk : Bytes}
    {positions : List Nat} {rng rng₁ : Rng} (hdone : positions.length ≠ 0)
    (hsize : nextSize low high positions.length rng = .ok (size, rng₁))
    (hchunk : (positions.take size).mapM (index bytes) = .ok chunk) :
    peel low high hrange bytes positions rng =
      (peel low high hrange bytes (positions.drop size) rng₁).map fun (groups, rng) =>
        ((positions.take size, chunk) :: groups, rng) := by
  rw [peel, dif_neg hdone]
  split
  · rename_i exit hfailed
    rw [groupSize_eq_nextSize, hsize] at hfailed
    cases hfailed
  · rename_i size' rng' hok
    rw [groupSize_eq_nextSize, hsize] at hok
    cases hok
    rw [hchunk]
    dsimp only
    cases peel low high hrange bytes (positions.drop size) rng₁ with
    | error exit => rfl
    | ok peeled => rfl

theorem peel_stop {low high : Nat} {hrange : 0 < low ∧ low ≤ high} {bytes : Bytes}
    {positions : List Nat} {rng : Rng} {exit : Exit} (hdone : positions.length ≠ 0)
    (hsize : nextSize low high positions.length rng = .error exit) :
    peel low high hrange bytes positions rng = .error exit := by
  rw [peel, dif_neg hdone]
  split
  · rename_i other hfailed
    rw [groupSize_eq_nextSize, hsize] at hfailed
    cases hfailed
    rfl
  · rename_i size rng₁ hok
    rw [groupSize_eq_nextSize, hsize] at hok
    cases hok

inductive Peeled (low high : Nat) (bytes : Bytes) :
    List Nat → Rng → List (List Nat × Bytes) → Rng → Prop where
  | done (rng : Rng) : Peeled low high bytes [] rng [] rng
  | step {positions : List Nat} {size : Nat} {rng rng₁ rng₂ : Rng} {chunk : Bytes}
      {groups : List (List Nat × Bytes)}
      (hsize : nextSize low high positions.length rng = .ok (size, rng₁)) (hpos : 0 < size)
      (hle : size ≤ positions.length) (hchunk : (positions.take size).mapM (index bytes) = .ok chunk)
      (hrest : Peeled low high bytes (positions.drop size) rng₁ groups rng₂) :
      Peeled low high bytes positions rng ((positions.take size, chunk) :: groups) rng₂

theorem peeled_of_ok {low high : Nat} {hrange : 0 < low ∧ low ≤ high} {bytes : Bytes}
    {positions : List Nat} {rng rng' : Rng} {groups : List (List Nat × Bytes)}
    (h : peel low high hrange bytes positions rng = .ok (groups, rng')) :
    Peeled low high bytes positions rng groups rng' := by
  generalize hlength : positions.length = length at h
  induction length using Nat.strong_induction_on generalizing positions rng groups with
  | _ length ih =>
    rw [peel] at h
    split at h
    · rename_i hdone
      cases h
      rw [List.length_eq_zero_iff.mp hdone]
      exact .done _
    · rename_i hdone
      split at h
      · cases h
      · rename_i size rng₁ hsize
        have hbounds := nextSize_bounds hrange.1 hrange.2 (Nat.pos_of_ne_zero hdone) hsize
        split at h
        · cases h
        · rename_i chunk hchunk
          split at h
          · cases h
          · rename_i rest rng₂ hrest
            cases h
            have hdrop : (positions.drop size).length = length - size := by
              rw [List.length_drop, hlength]
            exact .step hsize hbounds.1 hbounds.2 hchunk (ih (length - size) (by omega) hrest hdrop)

theorem peel_spec {low high : Nat} {hrange : 0 < low ∧ low ≤ high} {bytes : Bytes}
    {positions : List Nat} {rng rng' : Rng} {groups : List (List Nat × Bytes)}
    (h : peel low high hrange bytes positions rng = .ok (groups, rng')) :
    (groups.map Prod.fst).flatten = positions ∧ groups.length ≤ positions.length ∧
      groups.map Prod.snd = (groups.map Prod.fst).map (List.map (byteAt bytes)) := by
  have hpeeled := peeled_of_ok h
  clear h
  induction hpeeled with
  | done rng => exact ⟨rfl, Nat.le_refl 0, rfl⟩
  | step hsize hpos hle hchunk hrest ih =>
    obtain ⟨hflat, hcount, hchunks⟩ := ih
    rw [List.length_drop] at hcount
    refine ⟨?_, ?_, ?_⟩
    · rw [List.map_cons, List.flatten_cons, hflat, List.take_append_drop]
    · rw [List.length_cons]
      omega
    · simp only [List.map_cons, hchunks, mapM_index hchunk]

theorem mapM_index_of_lt {bytes : Bytes} {positions : List Nat}
    (h : ∀ position ∈ positions, position < bytes.length) :
    positions.mapM (index bytes) = .ok (positions.map (byteAt bytes)) := by
  induction positions with
  | nil => rfl
  | cons position positions ih =>
    have hlt := h position (List.mem_cons_self ..)
    have hrest := ih fun other hother => h other (List.mem_cons_of_mem _ hother)
    have hbyte : bytes[position]? = some (byteAt bytes position) := by
      simp [byteAt, hlt]
    rw [List.mapM_cons, index_of_getElem? hbyte, ok_bind, hrest, ok_bind]
    rfl

theorem peel_reliable {low high : Nat} {hrange : 0 < low ∧ low ≤ high} {bytes : Bytes}
    {positions : List Nat} {rng : Rng} (hrng : rng.Reliable) (hhigh : high < usizeSize)
    (hpositions : ∀ position ∈ positions, position < bytes.length) : ∃ groups rng',
    peel low high hrange bytes positions rng = .ok (groups, rng') ∧ rng'.Reliable := by
  generalize hlength : positions.length = length
  induction length using Nat.strong_induction_on generalizing positions rng with
  | _ length ih =>
    by_cases hdone : positions.length = 0
    · rw [peel, dif_pos hdone]
      exact ⟨_, _, rfl, hrng⟩
    · obtain ⟨size, rng₁, hsize, hrng₁⟩ := hrng.nextSize hrange.1 hrange.2 hhigh positions.length
      have hbounds := nextSize_bounds hrange.1 hrange.2 (Nat.pos_of_ne_zero hdone) hsize
      have hdrop : (positions.drop size).length = length - size := by
        rw [List.length_drop, hlength]
      obtain ⟨rest, rng₂, hrest, hrng₂⟩ := ih (length - size) (by omega) hrng₁
        (fun position hposition => hpositions position (List.mem_of_mem_drop hposition)) hdrop
      have hchunk := @mapM_index_of_lt bytes (positions.take size)
        fun position hposition => hpositions position (List.mem_of_mem_take hposition)
      rw [peel_step hdone hsize hchunk, hrest]
      exact ⟨_, _, rfl, hrng₂⟩

theorem fragment_eq_ok {f : RandomFragmenter} {key : Bytes} {rng rng' : Rng}
    {fragments : Fragments} (h : f.fragment key rng = .ok (fragments, rng')) :
    key.length ≤ u32Max ∧ ∃ rng₁ positions groups,
      fisherYates (List.range key.length) rng = (.ok rng₁, positions) ∧
      positions.Perm (List.range key.length) ∧
      peel f.minChunk f.maxChunk ⟨f.one_le_minChunk, f.minChunk_le_maxChunk⟩ key positions rng₁ =
        .ok (groups, rng') ∧
      fragments = .fromParts (groups.map Prod.snd) (u32Words (layoutWords (groups.map Prod.fst)))
        key.length := by
  simp only [fragment, bind_eq_ok] at h
  obtain ⟨_, -, _, hkey, h⟩ := h
  rw [require_eq_ok] at hkey
  have hperm := fisherYates_perm (List.range key.length) rng
  split at h
  · cases h
  · rename_i rng₁ positions hshuffle
    rw [hshuffle] at hperm
    simp only [bind_eq_ok, Prod.exists] at h
    obtain ⟨groups, rng₂, hgroups, hresult⟩ := h
    cases hresult
    exact ⟨hkey, rng₁, positions, groups, hshuffle, hperm, hgroups, rfl⟩

theorem fragment_reliable (f : RandomFragmenter) {key : Bytes} {rng : Rng} (hrng : rng.Reliable)
    (hempty : key.length ≠ 0) (hlimit : key.length ≤ u32Max) : ∃ fragments rng',
    f.fragment key rng = .ok (fragments, rng') ∧ rng'.Reliable := by
  obtain ⟨rng₁, positions, hshuffle, hperm, hrng₁⟩ := hrng.fisherYates (List.range key.length)
  have hpositions : ∀ position ∈ positions, position < key.length := by
    intro position hposition
    exact List.mem_range.mp (hperm.mem_iff.mp hposition)
  obtain ⟨groups, rng₂, hgroups, hrng₂⟩ := peel_reliable hrng₁ f.maxChunk_lt hpositions
  unfold fragment
  rw [require_of hempty, ok_bind, require_of hlimit, ok_bind, hshuffle]
  dsimp only
  rw [hgroups, ok_bind]
  exact ⟨_, _, rfl, hrng₂⟩

/-! ### Reassembly -/

def groupPieces (bytes : Bytes) (group : List Nat) : List (Nat × Bytes) :=
  group.map fun position => (position, [byteAt bytes position])

theorem readSize_u32Words {words : List Nat} {position size : Nat}
    (h : words[position]? = some size) (hsize : size ≤ u32Max)
    (hroom : position + 1 + size ≤ words.length) (hfits : words.length * 4 < usizeSize) :
    readSize (u32Words words) (position * 4) size =
      .ok ((position + 1) * 4, (position + 1 + size) * 4) := by
  unfold readSize
  rw [usizeAdd_of_lt (by omega), ok_bind, require_of (by rw [length_u32Words]; omega), ok_bind,
    u32Slice_u32Words h hsize rfl rfl, ok_bind, require_of rfl, ok_bind,
    usizeMul_of_lt (by omega), ok_bind, usizeAdd_of_lt (by omega), ok_bind,
    require_of (by rw [length_u32Words]; omega), ok_bind]
  simp only [Nat.add_mul]
  rfl

/-- `done` are the positions of the group already used, `group` the rest of it. -/
theorem placeBytes_eq (bytes out : Bytes) (before done group after : List Nat)
    (hpositions : ∀ position ∈ group, position < bytes.length) (hbytes : bytes.length ≤ u32Max)
    (hfits : (before ++ done ++ group ++ after).length * 4 < usizeSize)
    (hout : out.length = bytes.length) :
    placeBytes (u32Words (before ++ done ++ group ++ after)) bytes.length (before.length * 4)
        done.length (group.map (byteAt bytes)) out =
      (.ok (), overwriteAll out (groupPieces bytes group)) := by
  induction group generalizing done out with
  | nil => rfl
  | cons position group ih =>
    have hlookup : (before ++ done ++ position :: group ++ after)[before.length + done.length]? =
        some position := by
      rw [List.append_assoc, List.getElem?_append_right (by rw [List.length_append])]
      simp
    have hposition := hpositions position (List.mem_cons_self ..)
    have hread := readPosition_u32Words hlookup (by omega) hfits
    have hshift : before ++ done ++ position :: group ++ after =
        before ++ (done ++ [position]) ++ group ++ after := by simp
    have hnext := ih (overwrite out position [byteAt bytes position]) (done ++ [position])
      (fun other hother => hpositions other (List.mem_cons_of_mem _ hother))
      (by rw [← hshift]; exact hfits)
      (by rw [length_overwrite (by rw [hout]; exact hposition), hout])
    rw [← hshift, List.length_append, List.length_singleton] at hnext
    rw [List.map_cons]
    unfold placeBytes
    rw [hread]
    dsimp only
    rw [if_neg (by omega), set_eq_overwrite (by omega), hnext]
    rfl

theorem layoutWords_cons (group : List Nat) (groups : List (List Nat)) :
    layoutWords (group :: groups) = group.length :: group ++ layoutWords groups := rfl

theorem length_layoutWords (groups : List (List Nat)) :
    (layoutWords groups).length = groups.flatten.length + groups.length := by
  induction groups with
  | nil => rfl
  | cons group groups ih =>
    rw [layoutWords_cons, List.length_append, ih, List.flatten_cons, List.length_append,
      List.length_cons, List.length_cons]
    omega

theorem groupPieces_parts {bytes : Bytes} {group : List Nat}
    (h : ∀ position ∈ group, position < bytes.length) :
    ∀ piece ∈ groupPieces bytes group, IsPart bytes piece.1 piece.2 := by
  intro piece hpiece
  obtain ⟨position, hposition, rfl⟩ := List.mem_map.mp hpiece
  have hlt := h position hposition
  refine ⟨hlt, ?_⟩
  rw [List.drop_eq_getElem_cons hlt, byteAt, List.getD_eq_getElem?_getD,
    List.getElem?_eq_getElem hlt]
  rfl

theorem groupPieces_append (bytes : Bytes) (left right : List Nat) :
    groupPieces bytes (left ++ right) = groupPieces bytes left ++ groupPieces bytes right :=
  List.map_append

theorem placeChunks_eq (bytes out : Bytes) (before : List Nat) (groups : List (List Nat))
    (hpositions : ∀ position ∈ groups.flatten, position < bytes.length)
    (hsizes : ∀ group ∈ groups, group.length ≤ u32Max) (hbytes : bytes.length ≤ u32Max)
    (hfits : (before ++ layoutWords groups).length * 4 < usizeSize)
    (hout : out.length = bytes.length) :
    placeChunks (u32Words (before ++ layoutWords groups)) bytes.length
        (groups.map (List.map (byteAt bytes))) (before.length * 4) out =
      (.ok ((before ++ layoutWords groups).length * 4),
        overwriteAll out (groupPieces bytes groups.flatten)) := by
  induction groups generalizing before out with
  | nil => simp [placeChunks, layoutWords, groupPieces]
  | cons group groups ih =>
    have hsplit : before ++ layoutWords (group :: groups) =
        (before ++ [group.length]) ++ [] ++ group ++ layoutWords groups := by
      simp [layoutWords_cons]
    have hshift : before ++ layoutWords (group :: groups) =
        (before ++ group.length :: group) ++ layoutWords groups := by simp [layoutWords_cons]
    have hlookup : (before ++ layoutWords (group :: groups))[before.length]? =
        some group.length := by
      rw [List.getElem?_append_right (Nat.le_refl _), Nat.sub_self]
      rfl
    have hgroup : ∀ position ∈ group, position < bytes.length := by
      intro position hposition
      exact hpositions position (by rw [List.flatten_cons]; exact List.mem_append_left _ hposition)
    have hrest : ∀ position ∈ groups.flatten, position < bytes.length := by
      intro position hposition
      exact hpositions position (by rw [List.flatten_cons]; exact List.mem_append_right _ hposition)
    have hread := readSize_u32Words hlookup (hsizes group (List.mem_cons_self ..))
      (by rw [List.length_append, layoutWords_cons, List.length_append, List.length_cons]; omega)
      hfits
    have hplaced := placeBytes_eq bytes out (before ++ [group.length]) [] group
      (layoutWords groups) hgroup hbytes (by rw [← hsplit]; exact hfits) hout
    have hnext := ih (overwriteAll out (groupPieces bytes group))
      (before ++ group.length :: group) hrest
      (fun other hother => hsizes other (List.mem_cons_of_mem _ hother))
      (by rw [← hshift]; exact hfits) (length_overwriteAll (groupPieces_parts hgroup) hout)
    have hstart : (before ++ [group.length]).length = before.length + 1 := by simp
    have hstop : (before ++ group.length :: group).length = before.length + 1 + group.length := by
      simp only [List.length_append, List.length_cons]
      omega
    rw [← hsplit, hstart, List.length_nil] at hplaced
    rw [← hshift, hstop] at hnext
    rw [List.map_cons]
    unfold placeChunks
    rw [List.length_map, hread]
    dsimp only
    rw [hplaced]
    dsimp only
    rw [hnext, List.flatten_cons, groupPieces_append, overwriteAll_append]

theorem strategy_roundTrips (f : RandomFragmenter) : f.strategy.RoundTrips := by
  intro key rng fragments rng' h g hview
  obtain ⟨hkey, rng₁, positions, groups, -, hperm, hgroups, rfl⟩ := fragment_eq_ok h
  obtain ⟨hflat, hcount, hchunks⟩ := peel_spec hgroups
  have hlength : positions.length = key.length := by
    rw [hperm.length_eq, List.length_range]
  have hpositions : ∀ position ∈ (groups.map Prod.fst).flatten, position < key.length := by
    intro position hposition
    rw [hflat] at hposition
    exact List.mem_range.mp (hperm.mem_iff.mp hposition)
  have hsizes : ∀ group ∈ groups.map Prod.fst, group.length ≤ u32Max := by
    intro group hgroup
    have hle := (List.sublist_flatten_of_mem hgroup).length_le
    rw [hflat] at hle
    omega
  have hwords : (layoutWords (groups.map Prod.fst)).length ≤ 2 * key.length := by
    rw [length_layoutWords, hflat, List.length_map]
    omega
  have husize : u32Max * 16 < usizeSize := by decide
  obtain ⟨hviewChunks, hviewLayout, hviewTotal⟩ := hview
  rw [Fragments.chunkBytes_fromParts, hchunks] at hviewChunks
  rw [Fragments.layoutBytes_fromParts] at hviewLayout
  rw [Fragments.totalLen_fromParts] at hviewTotal
  apply FragmentStrategy.restores_of_defragmentInto rfl hviewTotal.symm
  intro out hout
  have hplaced := placeChunks_eq key out [] (groups.map Prod.fst) hpositions hsizes hkey
    (by rw [List.nil_append]; omega) hout
  have hall : overwriteAll out (groupPieces key (groups.map Prod.fst).flatten) = key := by
    apply overwriteAll_eq (groupPieces_parts hpositions) ?_ hout
    intro position hposition
    refine ⟨(position, [byteAt key position]), ?_, Nat.le_refl _, Nat.lt_succ_self _⟩
    apply List.mem_map_of_mem
    rw [hflat]
    exact hperm.mem_iff.mpr (List.mem_range.mpr hposition)
  rw [List.nil_append, List.length_nil, Nat.zero_mul, hall] at hplaced
  show defragmentInto g out = (.ok (), key)
  unfold defragmentInto
  rw [if_pos (hout.trans hviewTotal), ← hviewLayout, ← hviewTotal, ← hviewChunks, hplaced]
  dsimp only
  rw [length_u32Words, require_of rfl]

end RandomFragmenter

end KeyVault
