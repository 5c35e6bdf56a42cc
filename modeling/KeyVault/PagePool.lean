import KeyVault.Extents
import KeyVault.Ledger
import KeyVault.PageTable
import Mathlib.Data.List.FinRange

/-! The pool of locked pages behind small key buffers, and the buffers on top of it.
`grow` cuts a page into blocks, `from_slice` writes only as many bytes as it was given,
and `drop` wipes only those: that the rest of a block is zero, and that no two buffers
meet, is what holds between the three. -/
namespace KeyVault

open Extents

def classes : Vector Nat 8 := #v[16, 32, 64, 128, 256, 512, 1024, 2048]

/-- A position in `CLASSES`; a block keeps it in a byte. -/
abbrev SizeClass := Fin 8

def classSize (c : SizeClass) : Nat := classes.get c

abbrev FreeBlock := Nat × Bool

structure Block where
  ptr : Nat
  sizeClass : SizeClass
  locked : Bool
deriving DecidableEq, Repr

inductive Storage where
  | heap
  | pooled (sizeClass : SizeClass)
  | regionView
deriving DecidableEq, Repr

/-- A `LockedBytes` as it lies in memory. -/
structure LockedBuffer where
  ptr : Nat
  len : Nat
  storage : Storage
  locked : Bool
deriving DecidableEq, Repr

structure Mapping where
  extent : Extent
  locked : Bool
deriving DecidableEq, Repr

/-- The bytes of the process, its page table, the free lists with the block freed last
in front, the pages the pool has mapped and the heap allocations of key buffers. -/
structure ProcessMemory where
  bytes : Nat → UInt8
  pages : PageMemory
  free : SizeClass → List FreeBlock
  mapped : List Mapping
  boxes : List Extent

/-- What the operating system and the allocator answer during one call. -/
structure MemoryAnswers where
  mapRegion : Option Nat
  lockPages : Bool
  box : Nat
  pages : PageAnswers

namespace ProcessMemory

def new : ProcessMemory := ⟨fun _ => 0, .new, fun _ => [], [], []⟩

def setFree (m : ProcessMemory) (c : SizeClass) (blocks : List FreeBlock) : ProcessMemory :=
  { m with free := Function.update m.free c blocks }

def setBytes (m : ProcessMemory) (bytes : Nat → UInt8) : ProcessMemory := { m with bytes := bytes }

@[simp] theorem setFree_free_self (m : ProcessMemory) (c : SizeClass) (blocks : List FreeBlock) :
    (m.setFree c blocks).free c = blocks := Function.update_self ..

theorem setFree_free_of_ne (m : ProcessMemory) {c other : SizeClass} (h : other ≠ c)
    (blocks : List FreeBlock) : (m.setFree c blocks).free other = m.free other :=
  Function.update_of_ne h ..

def Unused (m : ProcessMemory) (extent : Extent) : Prop :=
  (∀ page ∈ m.mapped, extent.Apart page.extent) ∧ ∀ box ∈ m.boxes, extent.Apart box

instance (m : ProcessMemory) (extent : Extent) : Decidable (m.Unused extent) :=
  inferInstanceAs (Decidable (_ ∧ _))

/-- A fresh zero-filled mapping, or a refusal. The system has no other answer. -/
def mapRegion (m : ProcessMemory) (answer : Option Nat) (len : Nat) :
    Option (Option Nat × ProcessMemory) :=
  match answer with
  | none => some (none, m)
  | some base =>
      if m.Unused ⟨base, len⟩ then
        some (some base, { m with
          bytes := fill m.bytes ⟨base, len⟩ 0
          mapped := ⟨⟨base, len⟩, false⟩ :: m.mapped })
      else none

def lockPages (m : ProcessMemory) (answer : Bool) (extent : Extent) : Bool × ProcessMemory :=
  (answer, { m with mapped := m.mapped.map fun page =>
    if page.extent = extent then { page with locked := answer } else page })

/-- `Box::from`: the allocator finds room and the bytes are copied. -/
def boxFrom (m : ProcessMemory) (addr : Nat) (bytes : Bytes) : Option ProcessMemory :=
  if m.Unused ⟨addr, bytes.length⟩ then
    some { m with
      bytes := store m.bytes addr bytes
      boxes := ⟨addr, bytes.length⟩ :: m.boxes }
  else none

section Calls

variable (plat : Platform) (m : ProcessMemory) (answers : MemoryAnswers)

/-- Map one more page for blocks of the class and put its blocks on the free list. The
answer to `exclude_from_dumps` is not used. -/
def grow (c : SizeClass) : Option (Option Unit × ProcessMemory) :=
  let page := max plat.page (classSize c)
  match m.mapRegion answers.mapRegion page with
  | none => none
  | some (none, m) => some (none, m)
  | some (some base, m) =>
      let (locked, m) := m.lockPages answers.lockPages ⟨base, page⟩
      let count := page / classSize c
      let blocks := (List.range count).reverse.foldl
        (fun free i => (base + i * classSize c, locked) :: free) (m.free c)
      some (some (), m.setFree c blocks)

def alloc (len : Nat) : Option (Option Block × ProcessMemory) :=
  match (List.finRange 8).find? fun c => decide (len ≤ classSize c) with
  | none => some (none, m)
  | some c =>
      if len = 0 then some (none, m)
      else
        match if (m.free c).isEmpty then m.grow plat answers c else some (some (), m) with
        | none => none
        | some (none, m) => some (none, m)
        | some (some (), m) =>
            match m.free c with
            | [] => some (none, m)
            | (addr, locked) :: rest =>
                some (some ⟨addr, c, locked⟩, m.setFree c rest)

def freeBlock (block : Block) : ProcessMemory :=
  m.setFree block.sizeClass ((block.ptr, block.locked) :: m.free block.sizeClass)

def acquireBox (addr len : Nat) : Option (Bool × ProcessMemory) :=
  if hpos : 0 < len then
    if hfits : addr + len ≤ plat.size then
      (m.pages.acquireRegion answers.pages (⟨addr, len, hpos, hfits⟩ : Region plat)).map fun out =>
        (out.1, { m with pages := out.2 })
    else none
  else some (false, m)

def releaseBox (addr len : Nat) : Option ProcessMemory :=
  if hpos : 0 < len then
    if hfits : addr + len ≤ plat.size then
      (m.pages.releaseRegion (⟨addr, len, hpos, hfits⟩ : Region plat)).map fun pages =>
        { m with pages := pages }
    else none
  else some m

def fromSlice (bytes : Bytes) : Option (LockedBuffer × ProcessMemory) :=
  match m.alloc plat answers bytes.length with
  | none => none
  | some (some block, m) =>
      some (⟨block.ptr, bytes.length, .pooled block.sizeClass, block.locked⟩,
        m.setBytes (store m.bytes block.ptr bytes))
  | some (none, m) =>
      match m.boxFrom answers.box bytes with
      | none => none
      | some m =>
          (m.acquireBox plat answers answers.box bytes.length).map fun out =>
            (⟨answers.box, bytes.length, .heap, out.1⟩, out.2)

def asBytes (buffer : LockedBuffer) : Bytes := load m.bytes buffer.ptr buffer.len

/-- `zeroize` comes first in every case. -/
def drop (buffer : LockedBuffer) : Option ProcessMemory :=
  match buffer.storage with
  | .regionView => some m
  | .pooled c =>
      let m := m.setBytes (fill m.bytes ⟨buffer.ptr, buffer.len⟩ 0)
      some (m.freeBlock ⟨buffer.ptr, c, buffer.locked⟩)
  | .heap =>
      let m := m.setBytes (fill m.bytes ⟨buffer.ptr, buffer.len⟩ 0)
      (m.releaseBox plat buffer.ptr buffer.len).map fun m =>
        { m with boxes := m.boxes.erase ⟨buffer.ptr, buffer.len⟩ }

end Calls

end ProcessMemory

/-! ### What a call can do -/

theorem classSize_pos (c : SizeClass) : 0 < classSize c := by
  revert c
  decide

namespace ProcessMemory

variable {plat : Platform} {m m' : ProcessMemory} {answers : MemoryAnswers} {c : SizeClass}

def grown (plat : Platform) (m : ProcessMemory) (c : SizeClass) (base : Nat) (locked : Bool) :
    ProcessMemory :=
  { m with
    bytes := fill m.bytes ⟨base, max plat.page (classSize c)⟩ 0
    mapped := ⟨⟨base, max plat.page (classSize c)⟩, locked⟩ :: m.mapped
    free := Function.update m.free c
      ((List.range' base (max plat.page (classSize c) / classSize c) (classSize c)).map
        (fun addr => (addr, locked)) ++ m.free c) }

theorem foldl_reverse_blocks (base size count : Nat) (locked : Bool) (free : List FreeBlock) :
    (List.range count).reverse.foldl (fun free i => (base + i * size, locked) :: free) free =
      (List.range' base count size).map (fun addr => (addr, locked)) ++ free := by
  have hpush : ∀ (positions : List Nat) (free : List FreeBlock),
      positions.reverse.foldl (fun free i => (base + i * size, locked) :: free) free =
        positions.map (fun i => (base + i * size, locked)) ++ free := by
    intro positions
    induction positions with
    | nil => simp
    | cons position positions ih => simp [ih]
  rw [hpush]
  congr 1
  apply List.ext_getElem
  · simp
  · intro i hleft hright
    simp [Nat.mul_comm]

theorem page_pos (plat : Platform) (c : SizeClass) : 0 < max plat.page (classSize c) :=
  lt_max_of_lt_left plat.page_pos

theorem lockPages_fresh {extent : Extent} (hpos : 0 < extent.len)
    (hunused : m.Unused extent) (answer : Bool) :
    ((⟨extent, false⟩ :: m.mapped).map fun page =>
      if page.extent = extent then { page with locked := answer } else page) =
      ⟨extent, answer⟩ :: m.mapped := by
  rw [List.map_cons, if_pos rfl]
  congr 1
  conv_rhs => rw [← List.map_id m.mapped]
  apply List.map_congr_left
  intro page hpage
  exact if_neg ((hunused.1 page hpage).ne hpos).symm

theorem grow_cases {result : Option Unit} (h : m.grow plat answers c = some (result, m')) :
    (result = none ∧ m' = m) ∨ ∃ base, result = some () ∧
      m.Unused ⟨base, max plat.page (classSize c)⟩ ∧ m' = m.grown plat c base answers.lockPages := by
  unfold grow mapRegion at h
  cases hmap : answers.mapRegion with
  | none =>
    rw [hmap] at h
    cases h
    exact .inl ⟨rfl, rfl⟩
  | some base =>
    rw [hmap] at h
    by_cases hunused : m.Unused ⟨base, max plat.page (classSize c)⟩
    · refine .inr ⟨base, ?_⟩
      simp only [if_pos hunused, lockPages, foldl_reverse_blocks,
        lockPages_fresh (page_pos plat c) hunused, Option.some.injEq, Prod.mk.injEq] at h
      exact ⟨h.1.symm, hunused, h.2.symm⟩
    · simp only [if_neg hunused] at h
      cases h

theorem grown_free (plat : Platform) (m : ProcessMemory) (c : SizeClass) (base : Nat)
    (locked : Bool) :
    ∃ rest, (m.grown plat c base locked).free c = (base, locked) :: rest := by
  have hcount : 0 < max plat.page (classSize c) / classSize c :=
    Nat.div_pos (le_max_right _ _) (classSize_pos c)
  obtain ⟨count, hcount⟩ := Nat.exists_eq_succ_of_ne_zero (Nat.ne_of_gt hcount)
  refine ⟨(List.range' (base + classSize c) count (classSize c)).map (fun addr => (addr, locked)) ++
    m.free c, ?_⟩
  simp only [grown, Function.update_self, hcount, List.range'_succ, List.map_cons, List.cons_append]

structure Takes (plat : Platform) (m : ProcessMemory) (answers : MemoryAnswers) (len : Nat)
    (block : Block) (mid : ProcessMemory) (rest : List FreeBlock) : Prop where
  pos : 0 < len
  fits : len ≤ classSize block.sizeClass
  grows : mid = m ∨ ∃ base, m.Unused ⟨base, max plat.page (classSize block.sizeClass)⟩ ∧
    mid = m.grown plat block.sizeClass base answers.lockPages
  top : mid.free block.sizeClass = (block.ptr, block.locked) :: rest

theorem alloc_cases {len : Nat} {result : Option Block}
    (h : m.alloc plat answers len = some (result, m')) :
    (result = none ∧ m' = m) ∨ ∃ block mid rest, result = some block ∧
      m.Takes plat answers len block mid rest ∧
      m' = mid.setFree block.sizeClass rest := by
  unfold alloc at h
  cases hfind : (List.finRange 8).find? fun c => decide (len ≤ classSize c) with
  | none =>
    rw [hfind] at h
    cases h
    exact .inl ⟨rfl, rfl⟩
  | some c =>
    have hfits : len ≤ classSize c := by simpa using List.find?_some hfind
    rw [hfind] at h
    dsimp only at h
    by_cases hzero : len = 0
    · rw [if_pos hzero] at h
      cases h
      exact .inl ⟨rfl, rfl⟩
    have hpos := Nat.pos_of_ne_zero hzero
    rw [if_neg hzero] at h
    cases hfree : m.free c with
    | nil =>
      rw [hfree, List.isEmpty_nil, if_pos rfl] at h
      cases hgrow : m.grow plat answers c with
      | none =>
        rw [hgrow] at h
        cases h
      | some out =>
        obtain ⟨answer, mid⟩ := out
        rw [hgrow] at h
        rcases grow_cases hgrow with ⟨rfl, rfl⟩ | ⟨base, rfl, hunused, rfl⟩
        · cases h
          exact .inl ⟨rfl, rfl⟩
        · obtain ⟨rest, hrest⟩ := grown_free plat m c base answers.lockPages
          simp only [hrest] at h
          cases h
          exact .inr ⟨⟨base, c, answers.lockPages⟩, _, rest, rfl,
            ⟨hpos, hfits, .inr ⟨base, hunused, rfl⟩, hrest⟩, rfl⟩
    | cons block rest =>
      obtain ⟨addr, locked⟩ := block
      rw [hfree, List.isEmpty_cons, if_neg Bool.false_ne_true] at h
      simp only [hfree] at h
      cases h
      exact .inr ⟨⟨addr, c, locked⟩, m, rest, rfl, ⟨hpos, hfits, .inl rfl, hfree⟩, rfl⟩

end ProcessMemory

/-! ### Runs -/

namespace LockedBuffer

/-- The addresses a buffer keeps from others: the whole block, for a pooled one. -/
def extent (buffer : LockedBuffer) : Extent :=
  match buffer.storage with
  | .pooled c => ⟨buffer.ptr, classSize c⟩
  | _ => ⟨buffer.ptr, buffer.len⟩

def isPooled (buffer : LockedBuffer) : Bool :=
  match buffer.storage with
  | .pooled _ => true
  | _ => false

theorem storage_of_isPooled {buffer : LockedBuffer} (h : buffer.isPooled = true) :
    ∃ c, buffer.storage = .pooled c := by
  unfold isPooled at h
  split at h
  · exact ⟨_, ‹_›⟩
  · cases h

end LockedBuffer

structure HeldBuffers where
  memory : ProcessMemory
  live : List (LockedBuffer × Bytes)

/-- A drop says which of the live buffers it is for. -/
inductive BufferOp where
  | fromSlice (bytes : Bytes) (answers : MemoryAnswers)
  | drop (position : Nat)

namespace HeldBuffers

def new : HeldBuffers := ⟨.new, []⟩

def step (plat : Platform) (s : HeldBuffers) : BufferOp → Option HeldBuffers
  | .fromSlice bytes answers =>
      (s.memory.fromSlice plat answers bytes).map fun out =>
        ⟨out.2, (out.1, bytes) :: s.live⟩
  | .drop position =>
      match s.live[position]? with
      | none => none
      | some (buffer, _) =>
          (s.memory.drop plat buffer).map fun m => ⟨m, s.live.eraseIdx position⟩

def run (plat : Platform) (ops : List BufferOp) : Option HeldBuffers := ops.foldlM (step plat) new

def freeExtents (m : ProcessMemory) : List Extent :=
  (List.finRange 8).flatMap fun c => (m.free c).map fun block => ⟨block.1, classSize c⟩

def heapExtents (live : List (LockedBuffer × Bytes)) : List Extent :=
  (live.filter fun entry => !entry.1.isPooled).map fun entry => entry.1.extent

def Placed (m : ProcessMemory) (extent : Extent) (locked : Bool) : Prop :=
  ∃ page ∈ m.mapped, extent.Inside page.extent ∧ page.locked = locked

/-- What a live buffer can rely on. -/
structure Kept (m : ProcessMemory) (buffer : LockedBuffer) (bytes : Bytes) : Prop where
  owned : buffer.storage ≠ .regionView
  length : buffer.len = bytes.length
  reads : m.asBytes buffer = bytes
  /-- A pooled buffer has a block of its class to itself, and never wrote past its end. -/
  pooled : ∀ c, buffer.storage = .pooled c → 0 < buffer.len ∧ buffer.len ≤ classSize c ∧
    Placed m buffer.extent buffer.locked ∧
    ∀ addr, buffer.extent.Contains addr → buffer.ptr + buffer.len ≤ addr → m.bytes addr = 0

structure Sound (s : HeldBuffers) : Prop where
  apart : (freeExtents s.memory ++ s.live.map fun entry => entry.1.extent).Pairwise Extent.Apart
  free : ∀ c, ∀ block ∈ s.memory.free c, Placed s.memory ⟨block.1, classSize c⟩ block.2 ∧
    ∀ addr, (Extent.mk block.1 (classSize c)).Contains addr → s.memory.bytes addr = 0
  live : ∀ entry ∈ s.live, Kept s.memory entry.1 entry.2
  boxes : (heapExtents s.live).Perm s.memory.boxes
  /-- The pool's pages and the heap do not meet. -/
  apartBoxes : ∀ box ∈ s.memory.boxes, ∀ page ∈ s.memory.mapped, page.extent.Apart box
  apartPages : s.memory.mapped.Pairwise fun left right => left.extent.Apart right.extent

theorem sound_new : Sound new where
  apart := by
    have hempty : freeExtents ProcessMemory.new = [] := rfl
    rw [show (new).memory = ProcessMemory.new from rfl, hempty]
    exact List.Pairwise.nil
  free c block hblock := by cases hblock
  live entry hentry := by cases hentry
  boxes := List.Perm.refl _
  apartBoxes box hbox := by cases hbox
  apartPages := List.Pairwise.nil

variable {plat : Platform} {m m' : ProcessMemory} {live : List (LockedBuffer × Bytes)}
  {c : SizeClass}

theorem freeExtents_perm (moved : List FreeBlock) (hclass : m'.free c = moved ++ m.free c)
    (hothers : ∀ other, other ≠ c → m'.free other = m.free other) :
    (freeExtents m').Perm (moved.map (fun block => ⟨block.1, classSize c⟩) ++ freeExtents m) := by
  have hsplit : ((m'.free c).map fun block => Extent.mk block.1 (classSize c)).Perm
      (moved.map (fun block => Extent.mk block.1 (classSize c)) ++
        (m.free c).map fun block => Extent.mk block.1 (classSize c)) := by
    rw [hclass, List.map_append]
  have hmoved := Ledger.perm_flatMap_update (List.nodup_finRange 8) (List.mem_finRange c)
    (fun c => (m'.free c).map fun block => Extent.mk block.1 (classSize c)) hsplit
  have hrest : Function.update (fun c => (m'.free c).map fun block => Extent.mk block.1 (classSize c))
      c ((m.free c).map fun block => Extent.mk block.1 (classSize c)) =
      fun c => (m.free c).map fun block => Extent.mk block.1 (classSize c) := by
    funext other
    by_cases hother : other = c
    · subst hother
      rw [Function.update_self]
    · rw [Function.update_of_ne hother, hothers other hother]
  rw [hrest] at hmoved
  exact hmoved

theorem mem_freeExtents {extent : Extent} (h : extent ∈ freeExtents m) :
    ∃ c, ∃ block ∈ m.free c, extent = ⟨block.1, classSize c⟩ := by
  obtain ⟨c, -, hextent⟩ := List.mem_flatMap.mp h
  obtain ⟨block, hblock, rfl⟩ := List.mem_map.mp hextent
  exact ⟨c, block, hblock, rfl⟩

theorem mem_freeExtents_of_free {block : FreeBlock} (h : block ∈ m.free c) :
    (⟨block.1, classSize c⟩ : Extent) ∈ freeExtents m :=
  List.mem_flatMap.mpr ⟨c, List.mem_finRange c, List.mem_map.mpr ⟨block, h, rfl⟩⟩

theorem Placed.mono {extent : Extent} {locked : Bool} (h : Placed m extent locked)
    (hpages : m.mapped ⊆ m'.mapped) : Placed m' extent locked := by
  obtain ⟨page, hpage, hinside⟩ := h
  exact ⟨page, hpages hpage, hinside⟩

theorem Kept.contains {buffer : LockedBuffer} {bytes : Bytes} (h : Kept m buffer bytes) {addr : Nat}
    (haddr : (Extent.mk buffer.ptr buffer.len).Contains addr) : buffer.extent.Contains addr := by
  unfold LockedBuffer.extent
  cases hstorage : buffer.storage with
  | heap => exact haddr
  | regionView => exact haddr
  | pooled c =>
    have hfits := (h.pooled c hstorage).2.1
    unfold Extent.Contains at haddr ⊢
    dsimp only at haddr ⊢
    omega

theorem Kept.frame {buffer : LockedBuffer} {bytes : Bytes} (h : Kept m buffer bytes)
    (hbytes : ∀ addr, buffer.extent.Contains addr → m'.bytes addr = m.bytes addr)
    (hpages : m.mapped ⊆ m'.mapped) : Kept m' buffer bytes where
  owned := h.owned
  length := h.length
  reads := by
    have hload : m'.asBytes buffer = m.asBytes buffer :=
      load_congr fun addr haddr => hbytes addr (h.contains haddr)
    rw [hload, h.reads]
  pooled c hstorage := by
    obtain ⟨hpos, hfits, hplaced, hzero⟩ := h.pooled c hstorage
    refine ⟨hpos, hfits, hplaced.mono hpages, ?_⟩
    intro addr haddr hpast
    rw [hbytes addr haddr, hzero addr haddr hpast]

namespace Sound

variable (h : Sound ⟨m, live⟩)
include h

theorem unused_apart {extent : Extent} (hunused : m.Unused extent) {other : Extent}
    (hother : other ∈ freeExtents m ++ live.map fun entry => entry.1.extent) :
    extent.Apart other := by
  have hplaced : ∀ {locked}, Placed m other locked → extent.Apart other := by
    rintro locked ⟨page, hpage, hinside, -⟩
    exact ((hunused.1 page hpage).symm.inside hinside).symm
  rcases List.mem_append.mp hother with hfree | hlive
  · obtain ⟨c, block, hblock, rfl⟩ := mem_freeExtents hfree
    exact hplaced (h.free c block hblock).1
  · obtain ⟨entry, hentry, rfl⟩ := List.mem_map.mp hlive
    cases hpooled : entry.1.isPooled with
    | true =>
      obtain ⟨c, hstorage⟩ := LockedBuffer.storage_of_isPooled hpooled
      exact hplaced ((h.live entry hentry).pooled c hstorage).2.2.1
    | false =>
      apply hunused.2
      apply h.boxes.subset
      exact List.mem_map.mpr ⟨entry, List.mem_filter.mpr ⟨hentry, by rw [hpooled]; rfl⟩, rfl⟩

theorem grown {base : Nat} (hunused : m.Unused ⟨base, max plat.page (classSize c)⟩)
    (locked : Bool) : Sound ⟨m.grown plat c base locked, live⟩ := by
  have hclass : (m.grown plat c base locked).free c =
      (List.range' base (max plat.page (classSize c) / classSize c) (classSize c)).map
        (fun addr => (addr, locked)) ++ m.free c := Function.update_self ..
  have hothers : ∀ other, other ≠ c → (m.grown plat c base locked).free other = m.free other :=
    fun other hother => Function.update_of_ne hother ..
  have hpage : ∀ {addr}, addr ∈ List.range' base (max plat.page (classSize c) / classSize c)
      (classSize c) → (Extent.mk addr (classSize c)).Inside ⟨base, max plat.page (classSize c)⟩ :=
    fun haddr => piece_inside haddr (Nat.div_mul_le_self ..)
  have hsame : ∀ {extent : Extent}, (Extent.mk base (max plat.page (classSize c))).Apart extent →
      ∀ addr, extent.Contains addr → (m.grown plat c base locked).bytes addr = m.bytes addr :=
    fun hapart addr haddr => fill_outside (hapart.symm.not_contains haddr)
  have hpages : m.mapped ⊆ (m.grown plat c base locked).mapped := List.subset_cons_self ..
  have hold : ∀ other, ∀ block ∈ m.free other,
      Placed (m.grown plat c base locked) ⟨block.1, classSize other⟩ block.2 ∧
      ∀ addr, (Extent.mk block.1 (classSize other)).Contains addr →
        (m.grown plat c base locked).bytes addr = 0 := by
    intro other block hblock
    obtain ⟨hplaced, hzero⟩ := h.free other block hblock
    refine ⟨hplaced.mono hpages, ?_⟩
    intro addr haddr
    have hapart := h.unused_apart hunused
      (List.mem_append_left _ (mem_freeExtents_of_free hblock))
    rw [hsame hapart addr haddr, hzero addr haddr]
  constructor
  · show (freeExtents (m.grown plat c base locked) ++ _).Pairwise Extent.Apart
    have hperm := (freeExtents_perm _ hclass hothers).append_right
      (live.map fun entry => entry.1.extent)
    rw [List.append_assoc] at hperm
    rw [hperm.pairwise_iff fun hapart => hapart.symm, List.pairwise_append]
    refine ⟨?_, h.apart, ?_⟩
    · rw [List.map_map, List.pairwise_map]
      exact pieces_apart ..
    · intro piece hpiece other hother
      rw [List.map_map] at hpiece
      obtain ⟨addr, haddr, rfl⟩ := List.mem_map.mp hpiece
      exact (h.unused_apart hunused hother).inside (hpage haddr)
  · intro other block hblock
    by_cases hother : other = c
    · subst hother
      rw [show (HeldBuffers.mk (m.grown plat other base locked) live).memory.free other = _ from
        hclass] at hblock
      rcases List.mem_append.mp hblock with hnew | hblock
      · obtain ⟨addr, haddr, rfl⟩ := List.mem_map.mp hnew
        refine ⟨⟨⟨⟨base, max plat.page (classSize other)⟩, locked⟩, List.mem_cons_self ..,
          hpage haddr, rfl⟩, ?_⟩
        intro byte hbyte
        exact fill_inside ((hpage haddr).contains hbyte)
      · exact hold other block hblock
    · exact hold other block (by rw [← hothers other hother]; exact hblock)
  · intro entry hentry
    have hapart := h.unused_apart hunused
      (List.mem_append_right _ (List.mem_map.mpr ⟨entry, hentry, rfl⟩))
    exact (h.live entry hentry).frame (hsame hapart) hpages
  · exact h.boxes
  · intro box hbox page hpage
    rcases List.mem_cons.mp hpage with rfl | hpage
    · exact hunused.2 box hbox
    · exact h.apartBoxes box hbox page hpage
  · exact List.pairwise_cons.mpr ⟨hunused.1, h.apartPages⟩

omit h in
/-- One block changes hands: nothing but its own bytes changes, and everybody else
keeps what they had. -/
theorem moved (m m' : ProcessMemory) {block : Extent} {rest : List (LockedBuffer × Bytes)}
    (hapart : (block :: (freeExtents m ++ rest.map fun entry => entry.1.extent)).Pairwise
      Extent.Apart)
    (hfree : ∀ c, ∀ block ∈ m.free c, Placed m ⟨block.1, classSize c⟩ block.2 ∧
      ∀ addr, (Extent.mk block.1 (classSize c)).Contains addr → m.bytes addr = 0)
    (hlive : ∀ entry ∈ rest, Kept m entry.1 entry.2)
    (hpages : m.mapped ⊆ m'.mapped)
    (hbytes : ∀ addr, ¬block.Contains addr → m'.bytes addr = m.bytes addr) :
    (∀ c, ∀ block ∈ m.free c, Placed m' ⟨block.1, classSize c⟩ block.2 ∧
      ∀ addr, (Extent.mk block.1 (classSize c)).Contains addr → m'.bytes addr = 0) ∧
    ∀ entry ∈ rest, Kept m' entry.1 entry.2 := by
  have hothers := (List.pairwise_cons.mp hapart).1
  constructor
  · intro c other hother
    obtain ⟨hplaced, hzero⟩ := hfree c other hother
    refine ⟨hplaced.mono hpages, ?_⟩
    intro addr haddr
    have hapart := hothers _ (List.mem_append_left _ (mem_freeExtents_of_free hother))
    rw [hbytes addr (hapart.symm.not_contains haddr), hzero addr haddr]
  · intro entry hentry
    have hapart := hothers _ (List.mem_append_right _ (List.mem_map.mpr ⟨entry, hentry, rfl⟩))
    exact (hlive entry hentry).frame
      (fun addr haddr => hbytes addr (hapart.symm.not_contains haddr)) hpages

theorem takes {addr : Nat} {locked : Bool} {rest : List FreeBlock} {bytes : Bytes}
    (htop : m.free c = (addr, locked) :: rest) (hpos : 0 < bytes.length)
    (hfits : bytes.length ≤ classSize c) :
    Sound ⟨(m.setFree c rest).setBytes (store m.bytes addr bytes),
      (⟨addr, bytes.length, .pooled c, locked⟩, bytes) :: live⟩ := by
  obtain ⟨hplaced, hzero⟩ := h.free c (addr, locked) (by rw [htop]; exact List.mem_cons_self ..)
  have hmid : ∀ other, ∀ block ∈ (m.setFree c rest).free other, block ∈ m.free other := by
    intro other block hblock
    by_cases hother : other = c
    · subst hother
      rw [ProcessMemory.setFree_free_self] at hblock
      rw [htop]
      exact List.mem_cons_of_mem _ hblock
    · rwa [m.setFree_free_of_ne hother] at hblock
  have hperm : (freeExtents m).Perm (⟨addr, classSize c⟩ :: freeExtents (m.setFree c rest)) := by
    apply freeExtents_perm [(addr, locked)]
    · rw [htop, ProcessMemory.setFree_free_self]
      rfl
    · intro other hother
      rw [m.setFree_free_of_ne hother]
  have hapart : (⟨addr, classSize c⟩ :: (freeExtents (m.setFree c rest) ++
      live.map fun entry => entry.1.extent)).Pairwise Extent.Apart := by
    rw [← List.cons_append, ← (hperm.append_right _).pairwise_iff fun hapart => hapart.symm]
    exact h.apart
  have hwrite : ∀ byte, ¬(Extent.mk addr (classSize c)).Contains byte →
      store m.bytes addr bytes byte = m.bytes byte := by
    intro byte hbyte
    apply store_outside
    intro hinside
    apply hbyte
    unfold Extent.Contains at hinside ⊢
    dsimp only at hinside ⊢
    omega
  obtain ⟨hfree, hlive⟩ := moved (m.setFree c rest)
    ((m.setFree c rest).setBytes (store m.bytes addr bytes)) hapart
    (fun other block hblock => h.free other block (hmid other block hblock))
    (fun entry hentry => (h.live entry hentry).frame (fun _ _ => rfl) (List.Subset.refl _))
    (List.Subset.refl _) hwrite
  constructor
  · refine (List.Perm.pairwise_iff (fun hapart => hapart.symm) ?_).mp hapart
    exact List.perm_middle.symm
  · exact hfree
  · intro entry hentry
    rcases List.mem_cons.mp hentry with rfl | hentry
    · refine ⟨Storage.noConfusion, rfl, load_store .., ?_⟩
      intro other hother
      cases hother
      refine ⟨hpos, hfits, hplaced, ?_⟩
      intro byte hbyte hpast
      have houtside : ¬(Extent.mk addr bytes.length).Contains byte := by
        unfold Extent.Contains
        dsimp only at hpast ⊢
        omega
      exact (store_outside houtside).trans (hzero byte hbyte)
    · exact hlive entry hentry
  · exact h.boxes
  · exact h.apartBoxes
  · exact h.apartPages

theorem boxed {addr : Nat} {bytes : Bytes} (hunused : m.Unused ⟨addr, bytes.length⟩)
    (pages : PageMemory) (locked : Bool) :
    Sound ⟨{ m with
        bytes := store m.bytes addr bytes
        boxes := ⟨addr, bytes.length⟩ :: m.boxes
        pages := pages },
      (⟨addr, bytes.length, .heap, locked⟩, bytes) :: live⟩ := by
  have hapart : (⟨addr, bytes.length⟩ :: (freeExtents m ++
      live.map fun entry => entry.1.extent)).Pairwise Extent.Apart :=
    List.pairwise_cons.mpr ⟨fun other hother => h.unused_apart hunused hother, h.apart⟩
  obtain ⟨hfree, hlive⟩ := moved m { m with
      bytes := store m.bytes addr bytes
      boxes := ⟨addr, bytes.length⟩ :: m.boxes
      pages := pages } hapart h.free h.live
    (List.Subset.refl _) (fun byte hbyte => store_outside hbyte)
  constructor
  · refine (List.Perm.pairwise_iff (fun hapart => hapart.symm) ?_).mp hapart
    exact List.perm_middle.symm
  · exact hfree
  · intro entry hentry
    rcases List.mem_cons.mp hentry with rfl | hentry
    · refine ⟨Storage.noConfusion, rfl, load_store .., ?_⟩
      intro other hother
      cases hother
    · exact hlive entry hentry
  · exact h.boxes.cons _
  · intro box hbox page hpage
    rcases List.mem_cons.mp hbox with rfl | hbox
    · exact (hunused.1 page hpage).symm
    · exact h.apartBoxes box hbox page hpage
  · exact h.apartPages

theorem without {entry : LockedBuffer × Bytes} {rest : List (LockedBuffer × Bytes)}
    (hperm : live.Perm (entry :: rest)) : Kept m entry.1 entry.2 ∧
      (∀ other ∈ rest, Kept m other.1 other.2) ∧
      (entry.1.extent :: (freeExtents m ++ rest.map fun entry => entry.1.extent)).Pairwise
        Extent.Apart := by
  refine ⟨h.live entry (hperm.symm.subset (List.mem_cons_self ..)), ?_, ?_⟩
  · intro other hother
    exact h.live other (hperm.symm.subset (List.mem_cons_of_mem _ hother))
  · refine (List.Perm.pairwise_iff (fun hapart => hapart.symm) ?_).mp h.apart
    exact ((hperm.map _).append_left _).trans List.perm_middle

theorem dropPooled {buffer : LockedBuffer} {bytes : Bytes} {rest : List (LockedBuffer × Bytes)}
    (hperm : live.Perm ((buffer, bytes) :: rest)) (hstorage : buffer.storage = .pooled c) :
    Sound ⟨(m.setBytes (fill m.bytes ⟨buffer.ptr, buffer.len⟩ 0)).freeBlock
      ⟨buffer.ptr, c, buffer.locked⟩, rest⟩ := by
  obtain ⟨hkept, hothers, hapart⟩ := h.without hperm
  obtain ⟨-, -, hplaced, htail⟩ := hkept.pooled c hstorage
  have hextent : buffer.extent = ⟨buffer.ptr, classSize c⟩ := by
    unfold LockedBuffer.extent
    rw [hstorage]
  obtain ⟨hfree, hlive⟩ := moved m (m.setBytes (fill m.bytes ⟨buffer.ptr, buffer.len⟩ 0)) hapart
    h.free hothers (List.Subset.refl _)
    (fun byte hbyte => fill_outside fun hinside => hbyte (hkept.contains hinside))
  constructor
  · have hfrees : (freeExtents (m.freeBlock ⟨buffer.ptr, c, buffer.locked⟩)).Perm
        (⟨buffer.ptr, classSize c⟩ :: freeExtents m) :=
      freeExtents_perm [(buffer.ptr, buffer.locked)] (ProcessMemory.setFree_free_self ..)
        (fun other hother => m.setFree_free_of_ne hother _)
    rw [hextent] at hapart
    exact (List.Perm.pairwise_iff (fun hapart => hapart.symm) (hfrees.append_right _)).mpr hapart
  · intro other block hblock
    have hold : block ∈ m.free other → Placed m ⟨block.1, classSize other⟩ block.2 ∧
        ∀ addr, (Extent.mk block.1 (classSize other)).Contains addr →
          fill m.bytes ⟨buffer.ptr, buffer.len⟩ 0 addr = 0 := hfree other block
    by_cases hother : other = c
    · subst hother
      have hpushed : block ∈ (buffer.ptr, buffer.locked) :: m.free other := by
        rw [← m.setFree_free_self other (_ :: _)]
        exact hblock
      rcases List.mem_cons.mp hpushed with rfl | hblock
      · refine ⟨by rw [← hextent]; exact hplaced, ?_⟩
        intro addr haddr
        by_cases hused : (Extent.mk buffer.ptr buffer.len).Contains addr
        · exact fill_inside hused
        · have hpast : buffer.ptr + buffer.len ≤ addr := by
            unfold Extent.Contains at haddr hused
            dsimp only at haddr hused
            omega
          exact (fill_outside hused).trans (htail addr (by rw [hextent]; exact haddr) hpast)
      · exact hold hblock
    · exact hold (by rw [← m.setFree_free_of_ne hother]; exact hblock)
  · intro entry hentry
    exact (hlive entry hentry).frame (fun _ _ => rfl) (List.Subset.refl _)
  · have hboxes := (hperm.filter fun entry => !entry.1.isPooled).map fun entry => entry.1.extent
    have hpooled : buffer.isPooled = true := by
      unfold LockedBuffer.isPooled
      rw [hstorage]
    rw [List.filter_cons_of_neg (by simp [hpooled])] at hboxes
    exact hboxes.symm.trans h.boxes
  · exact h.apartBoxes
  · exact h.apartPages

theorem dropHeap {buffer : LockedBuffer} {bytes : Bytes} {rest : List (LockedBuffer × Bytes)}
    (hperm : live.Perm ((buffer, bytes) :: rest)) (hstorage : buffer.storage = .heap)
    (pages : PageMemory) :
    Sound ⟨{ m with
        bytes := fill m.bytes ⟨buffer.ptr, buffer.len⟩ 0
        pages := pages
        boxes := m.boxes.erase ⟨buffer.ptr, buffer.len⟩ }, rest⟩ := by
  obtain ⟨hkept, hothers, hapart⟩ := h.without hperm
  have hextent : buffer.extent = ⟨buffer.ptr, buffer.len⟩ := by
    unfold LockedBuffer.extent
    rw [hstorage]
  obtain ⟨hfree, hlive⟩ := moved m { m with
      bytes := fill m.bytes ⟨buffer.ptr, buffer.len⟩ 0
      pages := pages
      boxes := m.boxes.erase ⟨buffer.ptr, buffer.len⟩ } hapart h.free hothers
    (List.Subset.refl _)
    (fun byte hbyte => fill_outside fun hinside => hbyte (hkept.contains hinside))
  constructor
  · exact (List.pairwise_cons.mp hapart).2
  · exact hfree
  · exact hlive
  · have hboxes := (hperm.filter fun entry => !entry.1.isPooled).map fun entry => entry.1.extent
    have hheap : buffer.isPooled = false := by
      unfold LockedBuffer.isPooled
      rw [hstorage]
    rw [List.filter_cons_of_pos (by simp [hheap]), List.map_cons, hextent] at hboxes
    have herase := (hboxes.symm.trans h.boxes).erase ⟨buffer.ptr, buffer.len⟩
    rw [List.erase_cons_head] at herase
    exact herase
  · intro box hbox
    exact h.apartBoxes box (List.mem_of_mem_erase hbox)
  · exact h.apartPages

theorem fromSlice {answers : MemoryAnswers} {bytes : Bytes} {buffer : LockedBuffer}
    (hcall : m.fromSlice plat answers bytes = some (buffer, m')) :
    Sound ⟨m', (buffer, bytes) :: live⟩ := by
  unfold ProcessMemory.fromSlice at hcall
  cases halloc : m.alloc plat answers bytes.length with
  | none =>
    rw [halloc] at hcall
    cases hcall
  | some out =>
    obtain ⟨result, after⟩ := out
    rw [halloc] at hcall
    rcases ProcessMemory.alloc_cases halloc with ⟨rfl, rfl⟩ | ⟨block, mid, rest, rfl, htakes, rfl⟩
    · -- no block: the bytes go to the heap
      unfold ProcessMemory.boxFrom at hcall
      by_cases hunused : after.Unused ⟨answers.box, bytes.length⟩
      · simp only [if_pos hunused] at hcall
        obtain ⟨⟨locked, pages⟩, hacquire, hout⟩ := Option.map_eq_some_iff.mp hcall
        cases hout
        unfold ProcessMemory.acquireBox at hacquire
        split at hacquire
        · split at hacquire
          · obtain ⟨acquired, -, hacquired⟩ := Option.map_eq_some_iff.mp hacquire
            cases hacquired
            exact h.boxed hunused acquired.2 acquired.1
          · cases hacquire
        · cases hacquire
          exact h.boxed hunused after.pages false
      · simp only [if_neg hunused] at hcall
        cases hcall
    · cases hcall
      have hmid : Sound ⟨mid, live⟩ := by
        rcases htakes.grows with rfl | ⟨base, hunused, rfl⟩
        · exact h
        · exact h.grown hunused answers.lockPages
      exact hmid.takes htakes.top htakes.pos htakes.fits

theorem drop {buffer : LockedBuffer} {bytes : Bytes} {rest : List (LockedBuffer × Bytes)}
    (hperm : live.Perm ((buffer, bytes) :: rest)) (hcall : m.drop plat buffer = some m') :
    Sound ⟨m', rest⟩ := by
  unfold ProcessMemory.drop at hcall
  cases hstorage : buffer.storage with
  | pooled c =>
    rw [hstorage] at hcall
    cases hcall
    exact h.dropPooled hperm hstorage
  | regionView => exact absurd hstorage (h.without hperm).1.owned
  | heap =>
    rw [hstorage] at hcall
    obtain ⟨after, hrelease, rfl⟩ := Option.map_eq_some_iff.mp hcall
    unfold ProcessMemory.releaseBox at hrelease
    split at hrelease
    · split at hrelease
      · obtain ⟨pages, -, rfl⟩ := Option.map_eq_some_iff.mp hrelease
        exact h.dropHeap hperm hstorage pages
      · cases hrelease
    · cases hrelease
      exact h.dropHeap hperm hstorage m.pages

end Sound

variable {s s' : HeldBuffers}

theorem sound_step {op : BufferOp} (h : Sound s) (hstep : s.step plat op = some s') : Sound s' := by
  cases op with
  | fromSlice bytes answers =>
    obtain ⟨⟨buffer, m⟩, hcall, rfl⟩ := Option.map_eq_some_iff.mp hstep
    exact h.fromSlice hcall
  | drop position =>
    simp only [step] at hstep
    cases hlive : s.live[position]? with
    | none =>
      rw [hlive] at hstep
      cases hstep
    | some entry =>
      rw [hlive] at hstep
      obtain ⟨m, hcall, rfl⟩ := Option.map_eq_some_iff.mp hstep
      obtain ⟨hlt, hget⟩ := List.getElem?_eq_some_iff.mp hlive
      have hperm := (List.getElem_cons_eraseIdx_perm hlt).symm
      rw [hget] at hperm
      exact h.drop hperm hcall

theorem sound_run {ops : List BufferOp} (hrun : run plat ops = some s) : Sound s :=
  Interleaving.foldlM_invariant (fun _ _ _ => sound_step) sound_new hrun

def blocks (s : HeldBuffers) : List Extent :=
  freeExtents s.memory ++ (s.live.filter fun entry => entry.1.isPooled).map fun entry => entry.1.extent

/-- What the pool promises. -/
structure PoolKept (s : HeldBuffers) : Prop where
  apart : s.blocks.Pairwise Extent.Apart
  /-- No block is on a free list twice, or both free and live. -/
  once : (s.blocks.map Extent.start).Nodup
  mapped : ∀ block ∈ s.blocks, ∃ page ∈ s.memory.mapped, block.Inside page.extent
  /-- A live block is as large as its class, and has room for the bytes. -/
  fits : ∀ buffer bytes c, (buffer, bytes) ∈ s.live → buffer.storage = .pooled c →
    buffer.extent = ⟨buffer.ptr, classSize c⟩ ∧ bytes.length ≤ classSize c ∧
      buffer.len = bytes.length
  zero : ∀ block ∈ freeExtents s.memory, ∀ addr, block.Contains addr → s.memory.bytes addr = 0
  /-- Every live buffer holds the slice it was created from. -/
  reads : ∀ buffer bytes, (buffer, bytes) ∈ s.live → s.memory.asBytes buffer = bytes
  /-- The flag of a block says whether its page is locked; there is one such page. -/
  lockedFree : ∀ c, ∀ block ∈ s.memory.free c, ∀ page ∈ s.memory.mapped,
    (Extent.mk block.1 (classSize c)).Inside page.extent → block.2 = page.locked
  lockedLive : ∀ buffer bytes c, (buffer, bytes) ∈ s.live → buffer.storage = .pooled c →
    ∀ page ∈ s.memory.mapped, buffer.extent.Inside page.extent → buffer.locked = page.locked

theorem Sound.locked_eq (h : Sound s) {extent : Extent} {locked : Bool} (hpos : 0 < extent.len)
    (hplaced : Placed s.memory extent locked) {page : Mapping} (hpage : page ∈ s.memory.mapped)
    (hinside : extent.Inside page.extent) : locked = page.locked := by
  obtain ⟨own, hown, hownInside, rfl⟩ := hplaced
  by_cases hsame : own = page
  · rw [hsame]
  · have hsymm : Std.Symm fun left right : Mapping => left.extent.Apart right.extent :=
      ⟨fun _ _ hapart => hapart.symm⟩
    have hapart : own.extent.Apart page.extent := h.apartPages.forall hown hpage hsame
    have hself := (hapart.inside hownInside).symm.inside hinside
    exact absurd rfl (hself.ne hpos)

/-- The page pool, over any sequence of `from_slice` and drops and whatever the
operating system and the allocator answer. -/
theorem pool_kept {ops : List BufferOp} (hrun : run plat ops = some s) : PoolKept s := by
  have h := sound_run hrun
  have hsublist : s.blocks.Sublist
      (freeExtents s.memory ++ s.live.map fun entry => entry.1.extent) :=
    (List.filter_sublist.map _).append_left _
  have hapart : s.blocks.Pairwise Extent.Apart := h.apart.sublist hsublist
  have hpooled : ∀ {buffer : LockedBuffer} {c}, buffer.storage = .pooled c →
      buffer.extent = ⟨buffer.ptr, classSize c⟩ := by
    intro buffer c hstorage
    unfold LockedBuffer.extent
    rw [hstorage]
  have hplaced : ∀ block ∈ s.blocks, 0 < block.len ∧ ∃ locked, Placed s.memory block locked := by
    intro block hblock
    rcases List.mem_append.mp hblock with hfree | hlive
    · obtain ⟨c, free, hmem, rfl⟩ := mem_freeExtents hfree
      exact ⟨classSize_pos c, _, (h.free c free hmem).1⟩
    · obtain ⟨entry, hentry, rfl⟩ := List.mem_map.mp hlive
      obtain ⟨hentry, hispooled⟩ := List.mem_filter.mp hentry
      obtain ⟨c, hstorage⟩ := LockedBuffer.storage_of_isPooled hispooled
      refine ⟨?_, _, ((h.live entry hentry).pooled c hstorage).2.2.1⟩
      rw [hpooled hstorage]
      exact classSize_pos c
  refine ⟨hapart, ?_, ?_, ?_, ?_, ?_, ?_, ?_⟩
  · rw [List.Nodup, List.pairwise_map]
    apply hapart.imp_of_mem
    intro left right hleft hright hapart
    exact hapart.start_ne (hplaced left hleft).1 (hplaced right hright).1
  · intro block hblock
    obtain ⟨-, locked, page, hpage, hinside, -⟩ := hplaced block hblock
    exact ⟨page, hpage, hinside⟩
  · intro buffer bytes c hlive hstorage
    have hkept := h.live _ hlive
    refine ⟨hpooled hstorage, ?_, hkept.length⟩
    rw [← hkept.length]
    exact (hkept.pooled c hstorage).2.1
  · intro block hblock
    obtain ⟨c, free, hmem, rfl⟩ := mem_freeExtents hblock
    exact (h.free c free hmem).2
  · intro buffer bytes hlive
    exact (h.live _ hlive).reads
  · intro c block hblock page hpage hinside
    exact h.locked_eq (classSize_pos c) (h.free c block hblock).1 hpage hinside
  · intro buffer bytes c hlive hstorage page hpage hinside
    refine h.locked_eq ?_ ((h.live _ hlive).pooled c hstorage).2.2.1 hpage hinside
    rw [hpooled hstorage]
    exact classSize_pos c

end HeldBuffers

def mapsAt (base : Nat) (locked : Bool) : MemoryAnswers :=
  ⟨some base, locked, 2 ^ 32, ⟨fun _ => true, fun _ => true⟩⟩

/-- Two keys share a page; the first is dropped and a longer one takes its block. A
slice of another class finds no page and goes to the heap, and a page that could not be
locked serves the last. -/
def reuseOps : List BufferOp :=
  [.fromSlice [1, 2, 3] (mapsAt 4096 true), .fromSlice [4, 5] (mapsAt 8192 true), .drop 1,
    .fromSlice [6, 7, 8, 9] (mapsAt 8192 true),
    .fromSlice (List.replicate 20 7) { mapsAt 0 true with mapRegion := none },
    .fromSlice (List.replicate 40 8) (mapsAt 8192 false)]

theorem pool_kept_reuseOps : ∃ s, HeldBuffers.run desktop reuseOps = some s ∧
    s.live.map (fun entry => (entry.1.ptr, entry.1.locked)) =
      [(8192, false), (2 ^ 32, true), (4096, true), (4112, true)] ∧ s.PoolKept := by
  have hrun : (HeldBuffers.run desktop reuseOps).map (fun s =>
      s.live.map fun entry => (entry.1.ptr, entry.1.locked)) =
      some [(8192, false), (2 ^ 32, true), (4096, true), (4112, true)] := by
    decide +kernel
  obtain ⟨s, hs, hlive⟩ := Option.map_eq_some_iff.mp hrun
  exact ⟨s, hs, hlive, HeldBuffers.pool_kept hs⟩

end KeyVault
