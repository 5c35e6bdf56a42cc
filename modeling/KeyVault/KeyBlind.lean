import KeyVault.Decoys
import KeyVault.KeyMaterial
import KeyVault.Lockstep

/-! What a key's bytes decide. Two keys of one length, fragmented with the same
randomness, end alike: with the same error, or with chunks of the same sizes under the
same layout, and reading either back ends alike. So nothing but the bytes of the chunks
depends on the bytes of the key. -/
namespace KeyVault

open Lockstep Patching

abbrev SameLength (bytes bytes' : Bytes) : Prop := bytes.length = bytes'.length

def Drawn {α : Type} (R : α → α → Prop) (out out' : α × Rng) : Prop :=
  R out.1 out'.1 ∧ out.2 = out'.2

/-- The same first part, a result, a layout word or a list of positions, and bytes of the
same length. -/
def Tagged {α : Type} (out out' : α × Bytes) : Prop := out.1 = out'.1 ∧ SameLength out.2 out'.2

theorem forall₂_tagged {α : Type} {entries entries' : List (α × Bytes)}
    (h : List.Forall₂ Tagged entries entries') :
    entries.map Prod.fst = entries'.map Prod.fst ∧
      List.Forall₂ SameLength (entries.map Prod.snd) (entries'.map Prod.snd) := by
  induction h with
  | nil => exact ⟨rfl, .nil⟩
  | cons hentry _ ih =>
    rw [List.map_cons, List.map_cons, hentry.1, ih.1]
    exact ⟨rfl, .cons hentry.2 ih.2⟩

/-- The fragments differ at most in the bytes of their chunks. -/
structure Fragments.Alike (f g : Fragments) : Prop where
  chunks : List.Forall₂ SameLength f.chunkBytes g.chunkBytes
  layout : f.layoutBytes = g.layoutBytes
  totalLen : f.totalLen = g.totalLen
  guarded : f.region.isSome = g.region.isSome

theorem Fragments.Alike.refl (f : Fragments) : f.Alike f :=
  ⟨List.forall₂_same.mpr fun _ _ => rfl, rfl, rfl, rfl⟩

theorem Fragments.Alike.chunkCount {f g : Fragments} (h : f.Alike g) :
    f.chunkCount = g.chunkCount := by
  rw [← length_chunkBytes, ← length_chunkBytes, h.chunks.length_eq]

theorem Fragments.Alike.viewSkipping {f g : Fragments} (h : f.Alike g) (skip : Nat) :
    (f.viewSkipping skip).Alike (g.viewSkipping skip) where
  chunks := h.chunks
  layout := by rw [layoutBytes_viewSkipping, layoutBytes_viewSkipping, h.layout]
  totalLen := h.totalLen
  guarded := h.guarded

theorem alike_fromParts {chunks chunks' : List Bytes} (h : List.Forall₂ SameLength chunks chunks')
    (layout : Bytes) (totalLen : Nat) :
    (Fragments.fromParts chunks layout totalLen).Alike (.fromParts chunks' layout totalLen) where
  chunks := by
    rw [Fragments.chunkBytes_fromParts, Fragments.chunkBytes_fromParts]
    exact h
  layout := by rw [Fragments.layoutBytes_fromParts, Fragments.layoutBytes_fromParts]
  totalLen := rfl
  guarded := rfl

structure FragmentStrategy.Blind (s : FragmentStrategy) : Prop where
  fragment : ∀ {key key' : Bytes}, SameLength key key' → ∀ rng,
    Agrees (Drawn Fragments.Alike) (s.fragment key rng) (s.fragment key' rng)
  defragment : ∀ {f g : Fragments}, f.Alike g → Agrees SameLength (s.defragment f) (s.defragment g)
  defragmentInto : ∀ {f g : Fragments} {out out' : Bytes}, f.Alike g → SameLength out out' →
    Tagged (s.defragmentInto f out) (s.defragmentInto g out')

theorem defragmentZeroed_alike {defragmentInto : Fragments → Bytes → Result Unit × Bytes}
    (h : ∀ {f g : Fragments} {out out' : Bytes}, f.Alike g → SameLength out out' →
      Tagged (defragmentInto f out) (defragmentInto g out')) {f g : Fragments} (hfg : f.Alike g) :
    Agrees SameLength (defragmentZeroed defragmentInto f) (defragmentZeroed defragmentInto g) := by
  have hbuffers : SameLength (List.replicate f.totalLen 0) (List.replicate g.totalLen 0) := by
    rw [hfg.totalLen]
  obtain ⟨hend, hlength⟩ := h hfg hbuffers
  unfold defragmentZeroed
  generalize defragmentInto f (List.replicate f.totalLen 0) = filled at hend hlength ⊢
  generalize defragmentInto g (List.replicate g.totalLen 0) = filled' at hend hlength ⊢
  obtain ⟨result, out⟩ := filled
  obtain ⟨result', out'⟩ := filled'
  dsimp only at hend
  subst hend
  cases result with
  | error exit => exact rfl
  | ok value => exact hlength

/-! ### Slices and positions -/

theorem agrees_require {P P' : Prop} [Decidable P] [Decidable P'] (h : P ↔ P') (error : Error) :
    Agrees Eq (require P error) (require P' error) := by
  unfold require
  by_cases hP : P
  · rw [if_pos hP, if_pos (h.mp hP)]
    exact rfl
  · rw [if_neg hP, if_neg (hP ∘ h.mpr)]
    exact rfl

theorem agrees_slice {bytes bytes' : Bytes} (h : SameLength bytes bytes') (start stop : Nat) :
    Agrees SameLength (slice bytes start stop) (slice bytes' start stop) := by
  unfold slice
  rw [h]
  split
  · show List.length _ = List.length _
    rw [List.length_take, List.length_take, List.length_drop, List.length_drop, h]
  · exact rfl

theorem agrees_index {α β : Type} {R : α → β → Prop} {xs : List α} {ys : List β}
    (h : List.Forall₂ R xs ys) (position : Nat) : Agrees R (index xs position) (index ys position) := by
  have hrel := rel_getElem? h position
  unfold index
  generalize xs[position]? = x at hrel
  generalize ys[position]? = y at hrel
  cases hrel with
  | none => exact rfl
  | some hab => exact hab

theorem sameLength_overwrite {out out' piece piece' : Bytes} (hout : SameLength out out')
    (hpiece : SameLength piece piece') (start : Nat) :
    SameLength (overwrite out start piece) (overwrite out' start piece') := by
  simp only [SameLength, overwrite, List.length_append, List.length_take, List.length_drop] at hout hpiece ⊢
  omega

theorem forall₂_of_sameLength {bytes bytes' : Bytes} (h : SameLength bytes bytes') :
    List.Forall₂ (fun _ _ => True) bytes bytes' := by
  induction bytes generalizing bytes' with
  | nil =>
    rw [List.eq_nil_of_length_eq_zero h.symm]
    exact .nil
  | cons byte bytes ih =>
    cases bytes' with
    | nil => cases h
    | cons byte' bytes' => exact .cons trivial (ih (Nat.succ.inj h))

/-! ### Decoys -/

def DecoyStrategy.Blind (decoy : DecoyStrategy) : Prop :=
  ∀ {key key' : Bytes}, SameLength key key' → ∀ size rng,
    Agrees (Drawn SameLength) (decoy.generate key size rng) (decoy.generate key' size rng)

theorem drawn_self (out : Bytes × Rng) : Drawn SameLength out out := ⟨rfl, rfl⟩

theorem RandomDecoy.blind : RandomDecoy.strategy.Blind := by
  intro key key' _ size rng
  exact agrees_of_eq drawn_self rfl

theorem KeyDerivedDecoy.blind (xof : Bytes → Nat → UInt8) : (KeyDerivedDecoy.strategy xof).Blind := by
  intro key key' hlength size rng
  show Agrees _ (generate xof key size rng) (generate xof key' size rng)
  unfold generate
  split
  · exact drawn_self ([], rng)
  · apply agrees_bind
    intro nonce _
    apply agrees_bind
    intro out _
    refine ⟨?_, rfl⟩
    simp [SameLength]

theorem agrees_mapM {α β γ : Type} {R : β → γ → Prop} {f : α → Result β} {g : α → Result γ}
    (h : ∀ a, Agrees R (f a) (g a)) (items : List α) :
    Agrees (List.Forall₂ R) (items.mapM f) (items.mapM g) := by
  induction items with
  | nil => exact .nil
  | cons item items ih =>
    rw [List.mapM_cons, List.mapM_cons]
    apply (h item).bind
    intro b c hbc
    apply ih.bind
    intro bs cs hrest
    exact .cons hbc hrest

theorem SelfReferenceDecoy.blind : SelfReferenceDecoy.strategy.Blind := by
  intro key key' hlength size rng
  show Agrees _ (generate key size rng) (generate key' size rng)
  have hempty : key ≠ [] ↔ key' ≠ [] := by
    rw [← List.length_pos_iff, ← List.length_pos_iff, hlength]
  unfold generate
  split
  · exact drawn_self ([], rng)
  · apply (agrees_require hempty _).bind
    intro _ _ _
    apply agrees_bind
    intro buf _
    apply agrees_bind
    intro drawn _
    refine (agrees_mapM (R := fun _ _ => True) (fun i => ?_) (List.range size)).bind ?_
    · unfold pickByte
      apply agrees_bind
      intro start _
      apply agrees_bind
      intro stop _
      apply agrees_bind
      intro raw _
      rw [hlength]
      exact agrees_index (forall₂_of_sameLength hlength) _
    · intro out out' hout
      exact ⟨hout.length_eq, rfl⟩

/-! ### The standard fragmenter -/

namespace StandardFragmenter

theorem agrees_realPairs {bytes bytes' : Bytes} (h : SameLength bytes bytes') (offset : Nat)
    (sizes : List Nat) :
    Agrees (List.Forall₂ Tagged) (realPairs bytes offset sizes) (realPairs bytes' offset sizes) := by
  induction sizes generalizing offset with
  | nil => exact .nil
  | cons size sizes ih =>
    unfold realPairs
    apply agrees_bind
    intro _ _
    apply agrees_bind
    intro stop _
    apply (agrees_slice h offset stop).bind
    intro piece piece' hpiece
    apply (ih stop).bind
    intro pairs pairs' hpairs
    exact .cons ⟨rfl, hpiece⟩ hpairs

theorem agrees_decoyChunks {decoy : DecoyStrategy} (hdecoy : decoy.Blind) {key key' : Bytes}
    (h : SameLength key key') (low high count : Nat) (rng : Rng) :
    Agrees (Drawn (List.Forall₂ SameLength)) (decoyChunks low high decoy key count rng)
      (decoyChunks low high decoy key' count rng) := by
  induction count generalizing rng with
  | zero => exact ⟨.nil, rfl⟩
  | succ count ih =>
    unfold decoyChunks
    apply agrees_bind
    intro drawn _
    apply (hdecoy h drawn.1 drawn.2).bind
    rintro ⟨bytes, rng⟩ ⟨bytes', _⟩ ⟨hbytes, rfl⟩
    apply (ih rng).bind
    intro rest rest' hrest
    exact ⟨.cons hbytes hrest.1, hrest.2⟩

theorem agrees_materialize {pairs pairs' : List (Nat × Bytes)}
    (hpairs : List.Forall₂ Tagged pairs pairs') (order : List ChunkKind)
    {slots slots' : List (Option Bytes)} (hslots : List.Forall₂ (Option.Rel SameLength) slots slots') :
    Agrees (List.Forall₂ Tagged) (materialize pairs order slots)
      (materialize pairs' order slots') := by
  induction order generalizing slots slots' with
  | nil => exact .nil
  | cons kind order ih =>
    cases kind with
    | real position =>
      unfold materialize
      apply (agrees_index hpairs position).bind
      intro pair pair' hpair
      apply (ih hslots).bind
      intro entries entries' hentries
      exact .cons hpair hentries
    | decoy position =>
      unfold materialize
      apply (agrees_index hslots position).bind
      intro slot slot' hslot
      cases hslot with
      | none => exact rfl
      | some hbytes =>
        apply (ih (forall₂_set hslots position .none)).bind
        intro entries entries' hentries
        exact .cons ⟨rfl, hbytes⟩ hentries

theorem agrees_fragment {f : StandardFragmenter} (hdecoy : ∀ decoy ∈ f.decoy, decoy.Blind)
    {key key' : Bytes} (h : SameLength key key') (rng : Rng) :
    Agrees (Drawn Fragments.Alike) (f.fragment key rng) (f.fragment key' rng) := by
  unfold fragment
  rw [h]
  apply agrees_bind
  intro _ _
  apply agrees_bind
  intro _ _
  apply agrees_bind
  intro sampled _
  apply (agrees_realPairs h 0 sampled.1).bind
  intro pairs pairs' hpairs
  have hdecoys : Agrees (Drawn (List.Forall₂ SameLength))
      (f.generateDecoys key sampled.1.length sampled.2)
      (f.generateDecoys key' sampled.1.length sampled.2) := by
    unfold generateDecoys
    cases hchosen : f.decoy with
    | none => exact ⟨.nil, rfl⟩
    | some decoy => exact agrees_decoyChunks (hdecoy decoy hchosen) h _ _ _ _
  apply hdecoys.bind
  rintro ⟨decoys, rng⟩ ⟨decoys', _⟩ ⟨hchunks, rfl⟩
  dsimp only
  have hslots : List.Forall₂ (Option.Rel SameLength) (decoys.map some) (decoys'.map some) := by
    rw [List.forall₂_map_left_iff, List.forall₂_map_right_iff]
    exact hchunks.imp fun _ _ => .some
  rw [show decoys.length = decoys'.length from hchunks.length_eq]
  generalize fisherYates _ rng = shuffled
  obtain ⟨drawn, order⟩ := shuffled
  cases drawn with
  | error exit => exact rfl
  | ok rng =>
    apply (agrees_materialize hpairs order hslots).bind
    intro entries entries' hentries
    obtain ⟨hwords, hstored⟩ := forall₂_tagged hentries
    rw [hwords]
    exact ⟨alike_fromParts hstored _ _, rfl⟩

theorem tagged_placeChunks {chunks chunks' : List Bytes} (h : List.Forall₂ SameLength chunks chunks')
    (layout : Bytes) (totalLen position written : Nat) {out out' : Bytes} (hout : SameLength out out') :
    Tagged (placeChunks layout totalLen position chunks out written)
      (placeChunks layout totalLen position chunks' out' written) := by
  induction h generalizing position written out out' with
  | nil => exact ⟨rfl, hout⟩
  | @cons chunk chunk' chunks chunks' hchunk _ ih =>
    unfold placeChunks
    rw [← hchunk]
    cases layoutOffset layout position with
    | error exit => exact ⟨rfl, hout⟩
    | ok offset =>
      dsimp only
      split
      · exact ih _ _ hout
      · split
        · exact ⟨rfl, hout⟩
        · split
          · exact ⟨rfl, hout⟩
          · exact ih _ _ (sameLength_overwrite hout hchunk offset)

theorem checkShape_alike {f g : Fragments} (h : f.Alike g) {out out' : Bytes}
    (hout : SameLength out out') : checkShape f out = checkShape g out' := by
  unfold checkShape
  rw [h.chunkCount, h.layout, h.totalLen, hout]

theorem tagged_defragmentInto {f g : Fragments} {out out' : Bytes} (h : f.Alike g)
    (hout : SameLength out out') : Tagged (defragmentInto f out) (defragmentInto g out') := by
  unfold defragmentInto
  rw [checkShape_alike h hout]
  cases checkShape g out' with
  | error exit => exact ⟨rfl, hout⟩
  | ok checked =>
    dsimp only
    obtain ⟨hend, hlength⟩ := tagged_placeChunks h.chunks g.layoutBytes g.totalLen 0 0 hout
    rw [h.layout, h.totalLen]
    generalize placeChunks g.layoutBytes g.totalLen 0 f.chunkBytes out 0 = placed at hend hlength ⊢
    generalize placeChunks g.layoutBytes g.totalLen 0 g.chunkBytes out' 0 = placed' at hend hlength ⊢
    obtain ⟨result, out⟩ := placed
    obtain ⟨_, out'⟩ := placed'
    cases hend
    cases result with
    | error exit => exact ⟨rfl, hlength⟩
    | ok written => exact ⟨rfl, hlength⟩

theorem blind {f : StandardFragmenter} (hdecoy : ∀ decoy ∈ f.decoy, decoy.Blind) :
    f.strategy.Blind where
  fragment := agrees_fragment hdecoy
  defragment := defragmentZeroed_alike tagged_defragmentInto
  defragmentInto := tagged_defragmentInto

end StandardFragmenter

/-! ### The random fragmenter -/

namespace RandomFragmenter

theorem agrees_positions {bytes bytes' : Bytes} (h : SameLength bytes bytes') (positions : List Nat) :
    Agrees SameLength (positions.mapM (index bytes)) (positions.mapM (index bytes')) :=
  (agrees_mapM (agrees_index (forall₂_of_sameLength h)) positions).mono
    fun _ _ hfound => hfound.length_eq

theorem peel_refused {low high size : Nat} {hrange : 0 < low ∧ low ≤ high} {bytes : Bytes}
    {positions : List Nat} {rng rng₁ : Rng} {exit : Exit} (hdone : positions.length ≠ 0)
    (hsize : nextSize low high positions.length rng = .ok (size, rng₁))
    (hchunk : (positions.take size).mapM (index bytes) = .error exit) :
    peel low high hrange bytes positions rng = .error exit := by
  rw [peel, dif_neg hdone]
  split
  · rename_i other hfailed
    rw [groupSize_eq_nextSize, hsize] at hfailed
    cases hfailed
  · rename_i size' rng' hok
    rw [groupSize_eq_nextSize, hsize] at hok
    cases hok
    rw [hchunk]

theorem agrees_peel {bytes bytes' : Bytes} (h : SameLength bytes bytes') {low high : Nat}
    (hrange : 0 < low ∧ low ≤ high) (positions : List Nat) (rng : Rng) :
    Agrees (Drawn (List.Forall₂ Tagged)) (peel low high hrange bytes positions rng)
      (peel low high hrange bytes' positions rng) := by
  generalize hlength : positions.length = length
  induction length using Nat.strong_induction_on generalizing positions rng with
  | _ length ih =>
    by_cases hdone : positions.length = 0
    · rw [peel, dif_pos hdone, peel, dif_pos hdone]
      exact ⟨.nil, rfl⟩
    · cases hsize : nextSize low high positions.length rng with
      | error exit =>
        rw [peel_stop hdone hsize, peel_stop hdone hsize]
        exact rfl
      | ok drawn =>
        obtain ⟨size, rng₁⟩ := drawn
        have hbounds := nextSize_bounds hrange.1 hrange.2 (Nat.pos_of_ne_zero hdone) hsize
        have hchunks := agrees_positions h (positions.take size)
        cases hchunk : (positions.take size).mapM (index bytes) with
        | error exit =>
          cases hchunk' : (positions.take size).mapM (index bytes') with
          | error exit' =>
            rw [hchunk, hchunk'] at hchunks
            rw [peel_refused hdone hsize hchunk, peel_refused hdone hsize hchunk']
            exact hchunks
          | ok chunk' =>
            rw [hchunk, hchunk'] at hchunks
            exact hchunks.elim
        | ok chunk =>
          cases hchunk' : (positions.take size).mapM (index bytes') with
          | error exit' =>
            rw [hchunk, hchunk'] at hchunks
            exact hchunks.elim
          | ok chunk' =>
            rw [hchunk, hchunk'] at hchunks
            rw [peel_step hdone hsize hchunk, peel_step hdone hsize hchunk']
            have hshorter : (positions.drop size).length < length := by
              rw [List.length_drop]
              omega
            apply (ih _ hshorter _ rng₁ rfl).map
            intro rest rest' hrest
            exact ⟨.cons ⟨rfl, hchunks⟩ hrest.1, hrest.2⟩

theorem agrees_fragment (f : RandomFragmenter) {key key' : Bytes} (h : SameLength key key')
    (rng : Rng) : Agrees (Drawn Fragments.Alike) (f.fragment key rng) (f.fragment key' rng) := by
  unfold fragment
  rw [h]
  apply agrees_bind
  intro _ _
  apply agrees_bind
  intro _ _
  generalize fisherYates _ rng = shuffled
  obtain ⟨drawn, positions⟩ := shuffled
  cases drawn with
  | error exit => exact rfl
  | ok rng =>
    apply (agrees_peel h _ positions rng).bind
    rintro ⟨groups, rng⟩ ⟨groups', _⟩ ⟨hgroups, rfl⟩
    dsimp only at hgroups ⊢
    obtain ⟨hwords, hstored⟩ := forall₂_tagged hgroups
    rw [hwords]
    exact ⟨alike_fromParts hstored _ _, rfl⟩

theorem tagged_placeBytes {bytes bytes' : Bytes} (h : SameLength bytes bytes') (layout : Bytes)
    (totalLen start i : Nat) {out out' : Bytes} (hout : SameLength out out') :
    Tagged (placeBytes layout totalLen start i bytes out)
      (placeBytes layout totalLen start i bytes' out') := by
  induction forall₂_of_sameLength h generalizing i out out' with
  | nil => exact ⟨rfl, hout⟩
  | @cons byte byte' bytes bytes' _ _ ih =>
    unfold placeBytes
    cases readPosition layout start i with
    | error exit => exact ⟨rfl, hout⟩
    | ok position =>
      dsimp only
      split
      · exact ⟨rfl, hout⟩
      · apply ih (Nat.succ.inj h)
        rw [SameLength, List.length_set, List.length_set, hout]

theorem tagged_placeChunks {chunks chunks' : List Bytes} (h : List.Forall₂ SameLength chunks chunks')
    (layout : Bytes) (totalLen cursor : Nat) {out out' : Bytes} (hout : SameLength out out') :
    Tagged (placeChunks layout totalLen chunks cursor out)
      (placeChunks layout totalLen chunks' cursor out') := by
  induction h generalizing cursor out out' with
  | nil => exact ⟨rfl, hout⟩
  | @cons chunk chunk' chunks chunks' hchunk _ ih =>
    unfold placeChunks
    rw [← hchunk]
    cases readSize layout cursor chunk.length with
    | error exit => exact ⟨rfl, hout⟩
    | ok bounds =>
      obtain ⟨hend, hlength⟩ := tagged_placeBytes hchunk layout totalLen bounds.1 0 hout
      dsimp only
      generalize placeBytes layout totalLen bounds.1 0 chunk out = placed at hend hlength ⊢
      generalize placeBytes layout totalLen bounds.1 0 chunk' out' = placed' at hend hlength ⊢
      obtain ⟨result, out⟩ := placed
      obtain ⟨_, out'⟩ := placed'
      cases hend
      cases result with
      | error exit => exact ⟨rfl, hlength⟩
      | ok _ => exact ih bounds.2 hlength

theorem tagged_defragmentInto {f g : Fragments} {out out' : Bytes} (h : f.Alike g)
    (hout : SameLength out out') : Tagged (defragmentInto f out) (defragmentInto g out') := by
  unfold defragmentInto
  rw [← hout, h.totalLen, h.layout]
  split
  · obtain ⟨hend, hlength⟩ := tagged_placeChunks h.chunks g.layoutBytes g.totalLen 0 hout
    generalize placeChunks g.layoutBytes g.totalLen f.chunkBytes 0 out = placed at hend hlength ⊢
    generalize placeChunks g.layoutBytes g.totalLen g.chunkBytes 0 out' = placed' at hend hlength ⊢
    obtain ⟨result, out⟩ := placed
    obtain ⟨_, out'⟩ := placed'
    cases hend
    cases result with
    | error exit => exact ⟨rfl, hlength⟩
    | ok cursor => exact ⟨rfl, hlength⟩
  · exact ⟨rfl, hout⟩

theorem blind (f : RandomFragmenter) : f.strategy.Blind where
  fragment := f.agrees_fragment
  defragment := defragmentZeroed_alike tagged_defragmentInto
  defragmentInto := tagged_defragmentInto

end RandomFragmenter

/-! ### The interleaved fragmenter -/

namespace InterleavedFragmenter

theorem agrees_overlay {bytes bytes' : Bytes} (h : SameLength bytes bytes') (i : Nat)
    (positions : List Nat) {pool pool' : Bytes} (hpool : SameLength pool pool') :
    Agrees SameLength (overlay bytes i positions pool) (overlay bytes' i positions pool') := by
  induction positions generalizing i pool pool' with
  | nil => exact hpool
  | cons position positions ih =>
    unfold overlay
    apply (agrees_index (forall₂_of_sameLength h) i).bind
    intro byte byte' _
    rw [← hpool]
    split
    · apply ih
      rw [SameLength, List.length_set, List.length_set, hpool]
    · exact rfl

theorem agrees_fragment (f : InterleavedFragmenter) {key key' : Bytes} (h : SameLength key key')
    (rng : Rng) : Agrees (Drawn Fragments.Alike) (f.fragment key rng) (f.fragment key' rng) := by
  unfold fragment
  dsimp only
  rw [← h]
  apply agrees_bind
  intro _ _
  apply agrees_bind
  intro _ _
  apply agrees_bind
  intro _ _
  generalize fisherYates _ rng = shuffled
  obtain ⟨drawn, positions⟩ := shuffled
  cases drawn with
  | error exit => exact rfl
  | ok rng =>
    apply agrees_bind
    intro padding _
    apply (agrees_overlay h 0 _ rfl).bind
    intro pool pool' hpool
    exact ⟨alike_fromParts (.cons hpool .nil) _ _, rfl⟩

theorem tagged_gather {pool pool' : Bytes} (hpool : SameLength pool pool') (layout : Bytes)
    (poolSize i : Nat) {out out' : Bytes} (hout : SameLength out out') :
    Tagged (gather layout pool poolSize i out) (gather layout pool' poolSize i out') := by
  induction forall₂_of_sameLength hout generalizing i with
  | nil => exact ⟨rfl, hout⟩
  | @cons slot slot' slots slots' _ _ ih =>
    unfold gather
    cases readPosition layout 4 i with
    | error exit => exact ⟨rfl, hout⟩
    | ok position =>
      dsimp only
      split
      · exact ⟨rfl, hout⟩
      · have hfound := agrees_index (forall₂_of_sameLength hpool) position
        generalize index pool position = found at hfound ⊢
        generalize index pool' position = found' at hfound ⊢
        cases found with
        | error exit =>
          cases found' with
          | error exit' =>
            cases hfound
            exact ⟨rfl, hout⟩
          | ok byte' => exact hfound.elim
        | ok byte =>
          cases found' with
          | error exit' => exact hfound.elim
          | ok byte' =>
            obtain ⟨hend, hlength⟩ := ih (i + 1) (Nat.succ.inj hout)
            exact ⟨hend, congrArg (· + 1) hlength⟩

theorem readPoolSize_alike {f g : Fragments} (h : f.Alike g) {pool pool' out out' : Bytes}
    (hpool : SameLength pool pool') (hout : SameLength out out') :
    readPoolSize f pool out = readPoolSize g pool' out' := by
  unfold readPoolSize
  rw [h.layout, h.totalLen, hpool, hout]

theorem tagged_defragmentInto {f g : Fragments} {out out' : Bytes} (h : f.Alike g)
    (hout : SameLength out out') : Tagged (defragmentInto f out) (defragmentInto g out') := by
  unfold defragmentInto
  have hchunks := h.chunks
  generalize f.chunkBytes = chunks at hchunks ⊢
  generalize g.chunkBytes = chunks' at hchunks ⊢
  cases hchunks with
  | nil => exact ⟨rfl, hout⟩
  | cons hpool hrest =>
    cases hrest with
    | cons _ _ => exact ⟨rfl, hout⟩
    | nil =>
      dsimp only
      rw [readPoolSize_alike h hpool hout]
      cases readPoolSize g _ out' with
      | error exit => exact ⟨rfl, hout⟩
      | ok poolSize =>
        dsimp only
        rw [h.layout]
        exact tagged_gather hpool g.layoutBytes poolSize 0 hout

theorem blind (f : InterleavedFragmenter) : f.strategy.Blind where
  fragment := f.agrees_fragment
  defragment := defragmentZeroed_alike tagged_defragmentInto
  defragmentInto := tagged_defragmentInto

end InterleavedFragmenter

/-! ### The layered fragmenter -/

namespace LayeredFragmenter

theorem new_subStrategies {subStrategies : List FragmentStrategy} {f : LayeredFragmenter}
    (h : new subStrategies = .ok f) : f.subStrategies = subStrategies := by
  unfold new at h
  split at h
  · cases h
  · split at h
    · cases h
      rfl
    · cases h

variable {f : LayeredFragmenter}

theorem agrees_fragment (hsub : ∀ sub ∈ f.subStrategies, sub.Blind) {key key' : Bytes}
    (h : SameLength key key') (rng : Rng) :
    Agrees (Drawn Fragments.Alike) (f.fragment key rng) (f.fragment key' rng) := by
  unfold fragment
  apply agrees_bind
  intro drawn _
  apply agrees_bind
  intro sub hindex
  apply ((hsub sub (List.mem_of_getElem? (index_eq_ok.mp hindex))).fragment h drawn.2).bind
  rintro ⟨made, rng⟩ ⟨made', _⟩ ⟨hmade, rfl⟩
  apply agrees_bind
  intro _ _
  dsimp only
  rw [hmade.layout, hmade.totalLen]
  exact ⟨alike_fromParts hmade.chunks _ _, rfl⟩

theorem pick_alike {fragments fragments' : Fragments} (h : fragments.Alike fragments') :
    f.pick fragments = f.pick fragments' := by
  unfold pick
  rw [h.layout]

theorem tagged_defragmentInto (hsub : ∀ sub ∈ f.subStrategies, sub.Blind)
    {fragments fragments' : Fragments} {out out' : Bytes} (h : fragments.Alike fragments')
    (hout : SameLength out out') :
    Tagged (f.defragmentInto fragments out) (f.defragmentInto fragments' out') := by
  unfold defragmentInto
  rw [pick_alike h]
  cases f.pick fragments' with
  | error exit => exact ⟨rfl, hout⟩
  | ok pick =>
    dsimp only
    cases hindex : index f.subStrategies pick with
    | error exit => exact ⟨rfl, hout⟩
    | ok sub =>
      exact (hsub sub (List.mem_of_getElem? (index_eq_ok.mp hindex))).defragmentInto
        (h.viewSkipping 4) hout

theorem blind (hsub : ∀ sub ∈ f.subStrategies, sub.Blind) : f.strategy.Blind where
  fragment := agrees_fragment hsub
  defragment := defragmentZeroed_alike (tagged_defragmentInto hsub)
  defragmentInto := tagged_defragmentInto hsub

end LayeredFragmenter

/-- The built-in strategies with the built-in decoys, layered to any depth. -/
inductive KeyBlind : FragmentStrategy → Prop where
  | standard (f : StandardFragmenter) (hdecoy : ∀ decoy ∈ f.decoy, decoy.Blind) :
      KeyBlind f.strategy
  | random (f : RandomFragmenter) : KeyBlind f.strategy
  | interleaved (f : InterleavedFragmenter) : KeyBlind f.strategy
  | layered (f : LayeredFragmenter) (hsub : ∀ sub ∈ f.subStrategies, KeyBlind sub) :
      KeyBlind f.strategy

theorem KeyBlind.blind {s : FragmentStrategy} (h : KeyBlind s) : s.Blind := by
  induction h with
  | standard f hdecoy => exact StandardFragmenter.blind hdecoy
  | random f => exact f.blind
  | interleaved f => exact f.blind
  | layered f _ ih => exact LayeredFragmenter.blind ih

end KeyVault
