import KeyVault.Patching
import KeyVault.Rng

/-! The fragmented representation of a key and the strategy interface. A chunk
is a buffer of its own or, for a page-protected key, a window into the key's
region. Strategies read fragments only through the accessors below. -/
namespace KeyVault

open Patching

/-- A locked buffer: its own bytes, or a window into the protected region. -/
inductive LockedBytes where
  | owned (bytes : Bytes)
  | regionView (start length : Nat)
deriving DecidableEq, Repr

/-- A private mapping holding one key's storage; `bytes` are the bytes in use. -/
structure GuardedRegion where
  bytes : Bytes
deriving DecidableEq, Repr

structure Fragments where
  chunks : List LockedBytes
  layout : LockedBytes
  region : Option GuardedRegion
  /-- Layout bytes hidden from this view. -/
  layoutStart : Nat
  totalLen : Nat
deriving DecidableEq, Repr

/-- What the operating system answers to the calls that protect one key. A size
that cannot be rounded up to whole pages counts as a refused mapping. -/
structure OsAnswers where
  maps : Bool
  seals : Bool
  opens : Bool

def LockedBytes.asBytes (region : Option GuardedRegion) : LockedBytes → Bytes
  | .owned bytes => bytes
  | .regionView start length =>
      match region with
      | some region => (region.bytes.drop start).take length
      | none => []

namespace Fragments

def fromParts (chunks : List Bytes) (layout : Bytes) (totalLen : Nat) : Fragments :=
  ⟨chunks.map .owned, .owned layout, none, 0, totalLen⟩

def chunkBytes (f : Fragments) : List Bytes := f.chunks.map (LockedBytes.asBytes f.region)

def chunkCount (f : Fragments) : Nat := f.chunks.length

def chunk (f : Fragments) (position : Nat) : Option Bytes := f.chunkBytes[position]?

def layoutBytes (f : Fragments) : Bytes := (f.layout.asBytes f.region).drop f.layoutStart

/-- A view with the first `skip` visible layout bytes hidden. The source adds
with saturation; a buffer is never longer than `usize::MAX`, so a saturated
offset shows the same empty layout as the exact one. -/
def viewSkipping (f : Fragments) (skip : Nat) : Fragments :=
  { f with layoutStart := f.layoutStart + skip }

def regionViews : Nat → List Nat → List LockedBytes × Nat
  | start, [] => ([], start)
  | start, size :: sizes =>
      let (views, stop) := regionViews (start + size) sizes
      (.regionView start size :: views, stop)

/-- `dst[at..at + chunk.len()].copy_from_slice(chunk)` for every chunk in turn;
returns the filled buffer and the offset after the last chunk. -/
def copyChunks : Bytes → Nat → List Bytes → Bytes × Nat
  | dst, start, [] => (dst, start)
  | dst, start, bytes :: rest => copyChunks (overwrite dst start bytes) (start + bytes.length) rest

def intoProtected (f : Fragments) (os : OsAnswers) : Result Fragments := do
  let layout := f.layoutBytes
  let sizes := f.chunkBytes.map List.length
  let total := sizes.foldl (· + ·) layout.length
  require (total < usizeSize) (.internal "fragment storage size overflowed")
  require os.maps (.memoryLock "could not map a page-protected region for the key")
  let (dst, stop) := copyChunks (List.replicate total 0) 0 f.chunkBytes
  let dst := overwrite dst stop layout
  let (chunks, stop) := regionViews 0 sizes
  let layout := .regionView stop layout.length
  require os.seals (.memoryLock "could not make the key's pages inaccessible")
  return ⟨chunks, layout, some ⟨dst⟩, 0, f.totalLen⟩

def «open» (f : Fragments) (opens : Bool) : Result Unit :=
  match f.region with
  | none => .ok ()
  | some _ =>
      if opens then .ok () else fail (.memoryLock "could not make the key's pages readable")

/-- Two fragments that no accessor tells apart. -/
def SameView (f g : Fragments) : Prop :=
  f.chunkBytes = g.chunkBytes ∧ f.layoutBytes = g.layoutBytes ∧ f.totalLen = g.totalLen

@[simp] theorem chunkBytes_fromParts (chunks : List Bytes) (layout : Bytes) (totalLen : Nat) :
    (fromParts chunks layout totalLen).chunkBytes = chunks := by
  simp [fromParts, chunkBytes, LockedBytes.asBytes, Function.comp_def]

@[simp] theorem layoutBytes_fromParts (chunks : List Bytes) (layout : Bytes) (totalLen : Nat) :
    (fromParts chunks layout totalLen).layoutBytes = layout := by
  simp [fromParts, layoutBytes, LockedBytes.asBytes]

@[simp] theorem totalLen_fromParts (chunks : List Bytes) (layout : Bytes) (totalLen : Nat) :
    (fromParts chunks layout totalLen).totalLen = totalLen := rfl

@[simp] theorem length_chunkBytes (f : Fragments) : f.chunkBytes.length = f.chunkCount := by
  simp [chunkBytes, chunkCount]

@[simp] theorem layoutBytes_viewSkipping (f : Fragments) (skip : Nat) :
    (f.viewSkipping skip).layoutBytes = f.layoutBytes.drop skip := by
  simp [viewSkipping, layoutBytes, List.drop_drop]

theorem SameView.viewSkipping {f g : Fragments} (h : f.SameView g) (skip : Nat) :
    (f.viewSkipping skip).SameView (g.viewSkipping skip) := by
  obtain ⟨hchunks, hlayout, htotal⟩ := h
  exact ⟨hchunks, by simp [hlayout], htotal⟩

theorem copyChunks_append (filled free : Bytes) (chunks : List Bytes) :
    copyChunks (filled ++ free) filled.length chunks =
      (filled ++ chunks.flatten ++ free.drop chunks.flatten.length,
        filled.length + chunks.flatten.length) := by
  induction chunks generalizing filled free with
  | nil => simp [copyChunks]
  | cons bytes chunks ih =>
    have hstep := ih (filled ++ bytes) (free.drop bytes.length)
    rw [List.length_append] at hstep
    unfold copyChunks
    rw [overwrite_append_left _ _ _ _ rfl, hstep]
    simp [List.drop_drop, Nat.add_assoc]

theorem regionViews_asBytes (before after : Bytes) (chunks : List Bytes) :
    (regionViews before.length (chunks.map List.length)).1.map
        (LockedBytes.asBytes (some ⟨before ++ chunks.flatten ++ after⟩)) = chunks ∧
      (regionViews before.length (chunks.map List.length)).2 =
        before.length + chunks.flatten.length := by
  induction chunks generalizing before with
  | nil => simp [regionViews]
  | cons bytes chunks ih =>
    obtain ⟨hviews, hstop⟩ := ih (before ++ bytes)
    have hassoc : before ++ (bytes :: chunks).flatten ++ after =
        before ++ bytes ++ chunks.flatten ++ after := by simp
    rw [List.length_append] at hviews hstop
    simp only [List.map_cons, regionViews, hassoc, hviews, hstop]
    constructor
    · simp [LockedBytes.asBytes]
    · simp [Nat.add_assoc]

theorem foldl_add_eq_sum (sizes : List Nat) (first : Nat) :
    sizes.foldl (· + ·) first = sizes.sum + first := by
  induction sizes generalizing first with
  | nil => simp
  | cons size sizes ih =>
    rw [List.foldl_cons, ih, List.sum_cons]
    omega

theorem open_true (f : Fragments) : f.open true = .ok () := by
  unfold «open»
  split <;> rfl

theorem open_eq_error {f : Fragments} {opens : Bool} {exit : Exit}
    (h : f.open opens = .error exit) :
    opens = false ∧ exit = .error (.memoryLock "could not make the key's pages readable") := by
  unfold «open» at h
  cases hregion : f.region with
  | none =>
    rw [hregion] at h
    cases h
  | some region =>
    rw [hregion] at h
    cases opens with
    | true => cases h
    | false =>
      cases h
      exact ⟨rfl, rfl⟩

theorem intoProtected_sameView {f g : Fragments} {os : OsAnswers}
    (h : f.intoProtected os = .ok g) : f.SameView g := by
  unfold intoProtected at h
  simp only [bind_eq_ok, foldl_add_eq_sum] at h
  obtain ⟨-, -, -, -, -, -, hresult⟩ := h
  have hcopied := copyChunks_append [] (List.replicate
    ((f.chunkBytes.map List.length).sum + f.layoutBytes.length) 0) f.chunkBytes
  simp only [List.nil_append, List.length_nil, Nat.zero_add] at hcopied
  rw [hcopied, overwrite_append_left _ _ _ _ rfl] at hresult
  cases hresult
  generalize List.drop f.layoutBytes.length _ = padding
  obtain ⟨hviews, hstop⟩ := regionViews_asBytes [] (f.layoutBytes ++ padding) f.chunkBytes
  simp only [List.nil_append, List.length_nil, Nat.zero_add, ← List.append_assoc]
    at hviews hstop
  refine ⟨hviews.symm, ?_, rfl⟩
  simp [layoutBytes, LockedBytes.asBytes, hstop]

end Fragments

def readPosition (layout : Bytes) (start i : Nat) : Result Nat := do
  let low ← usizeMul i 4
  let low ← usizeAdd start low
  let next ← usizeAdd i 1
  let high ← usizeMul next 4
  let high ← usizeAdd start high
  u32Slice layout low high (.defragment "layout slice")

theorem readPosition_u32Words {words : List Nat} {first i value : Nat}
    (h : words[first + i]? = some value) (hvalue : value ≤ u32Max)
    (hfits : words.length * 4 < usizeSize) :
    readPosition (u32Words words) (first * 4) i = .ok value := by
  have hlt : first + i < words.length := (List.getElem?_eq_some_iff.mp h).1
  unfold readPosition
  rw [usizeMul_of_lt (by omega), ok_bind, usizeAdd_of_lt (by omega), ok_bind,
    usizeAdd_of_lt (by omega), ok_bind, usizeMul_of_lt (by omega), ok_bind,
    usizeAdd_of_lt (by omega), ok_bind]
  exact u32Slice_u32Words h hvalue (by omega) (by omega) _

/-- A trait object: any implementation of the fragmentation interface. The
buffer of `defragmentInto` is returned also when the call fails part way. -/
structure FragmentStrategy where
  fragment : Bytes → Rng → Result (Fragments × Rng)
  defragment : Fragments → Result Bytes
  defragmentInto : Fragments → Bytes → Result Unit × Bytes

/-- `defragment` as every built-in strategy implements it: a zeroed buffer of
the recorded length, filled by `defragment_into`. -/
def defragmentZeroed (defragmentInto : Fragments → Bytes → Result Unit × Bytes)
    (f : Fragments) : Result Bytes :=
  match defragmentInto f (List.replicate f.totalLen 0) with
  | (.ok (), out) => .ok out
  | (.error exit, _) => .error exit

namespace FragmentStrategy

/-- Both ways back from `f` give `key`, whatever the buffer held before. -/
def Restores (s : FragmentStrategy) (f : Fragments) (key : Bytes) : Prop :=
  f.totalLen = key.length ∧ s.defragment f = .ok key ∧
    ∀ out, out.length = key.length → s.defragmentInto f out = (.ok (), key)

def RoundTrips (s : FragmentStrategy) : Prop :=
  ∀ key rng f rng', s.fragment key rng = .ok (f, rng') → ∀ g, f.SameView g → s.Restores g key

theorem restores_of_defragmentInto {s : FragmentStrategy} {f : Fragments} {key : Bytes}
    (hzeroed : s.defragment = defragmentZeroed s.defragmentInto)
    (htotal : f.totalLen = key.length)
    (hinto : ∀ out, out.length = key.length → s.defragmentInto f out = (.ok (), key)) :
    s.Restores f key := by
  refine ⟨htotal, ?_, hinto⟩
  have hbuffer := hinto (List.replicate f.totalLen 0) (by rw [List.length_replicate, htotal])
  rw [hzeroed]
  unfold defragmentZeroed
  rw [hbuffer]

end FragmentStrategy

end KeyVault
