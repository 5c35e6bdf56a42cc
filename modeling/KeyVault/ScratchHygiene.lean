import KeyVault.FragmentWrites
import KeyVault.VaultProgram

/-! The scratch buffer of a thread, over everything the thread does. A `with_key` call
can end in an error, or unwind from the strategy, from the codex at any byte or from
its callback; the thread may catch the panic and go on, and a callback may call
`with_key` again. Only the part of the buffer that a call used is wiped when it ends. -/
namespace KeyVault

namespace ThreadScratch

/-- `RefCell<Scratch>`: the buffer, and whether it is borrowed. -/
structure Cell where
  buf : Bytes
  borrowed : Bool
deriving DecidableEq, Repr

/-- `Scratch::ensure_len`, which unwinds before the old buffer is touched when the new one
would be longer than any allocation. -/
def ensureLen (buf : Bytes) (len : Nat) : Option Bytes :=
  if len ≤ max buf.length isizeMax then some (KeyVault.ensureLen buf len) else none

/-- The loop of `volatile_zero_slice`. -/
def volatileZeroSlice (slice : Bytes) : Bytes :=
  (List.range slice.length).foldl (fun slice i => slice.set i 0) slice

/-- `codex_decode_in_place`, from byte `i` on. What the codex answers may differ from
byte to byte; `none` unwinds, with the bytes before it already decoded. -/
def decodeInPlace (decode : Nat → UInt8 → Option UInt8) : Nat → Bytes → Result Unit × Bytes
  | _, [] => (.ok (), [])
  | i, byte :: bytes =>
      match decode i byte with
      | none => (.error .panic, byte :: bytes)
      | some decoded =>
          let (result, bytes) := decodeInPlace decode (i + 1) bytes
          (result, decoded :: bytes)

/-- What a `with_key` call meets: the answer of its lockout and registry checks, the
length of the key, whether its pages can be opened, and how the strategy and the codex
behave. A strategy cannot change the length of the slice it is given. -/
structure Read where
  checks : Result Unit
  total : Nat
  access : Result Unit
  defragmentInto : Bytes → Result Unit × Bytes
  length_defragmentInto : ∀ out, (defragmentInto out).2.length = out.length
  decode : Option (Nat → UInt8 → Option UInt8)

/-- `reassemble`: the slice as it is left on every exit. -/
def Read.reassemble (read : Read) (out : Bytes) : Result Unit × Bytes :=
  match read.access with
  | .error exit => (.error exit, out)
  | .ok () =>
      match read.defragmentInto out with
      | (.error exit, out) => (.error exit, out)
      | (.ok (), out) =>
          match read.decode with
          | none => (.ok (), out)
          | some decode => decodeInPlace decode 0 out

/-- The end of a call: `ZeroOnExit` wipes the part it covers, then the borrow is given
back. -/
def finish (total : Nat) (buf : Bytes) : Cell :=
  ⟨volatileZeroSlice (buf.take total) ++ buf.drop total, false⟩

/-- A call up to its callback: it has ended, and whether it had its part of the buffer by
then, or the callback gets `slice` while `rest` is the part of the buffer behind it. -/
inductive Begun where
  | ended (exit : Exit) (taken : Bool) (after : Cell)
  | running (slice rest : Bytes)

def Read.fill (read : Read) (buf : Bytes) : Begun :=
  match read.reassemble (buf.take read.total) with
  | (.error exit, slice) => .ended exit true (finish read.total (slice ++ buf.drop read.total))
  | (.ok (), slice) => .running slice (buf.drop read.total)

def Read.begin (read : Read) (cell : Cell) : Begun :=
  match read.checks with
  | .error exit => .ended exit false cell
  | .ok () =>
      -- `borrow_mut` unwinds when the cell is borrowed
      if cell.borrowed then .ended .panic false cell
      else
        match ensureLen cell.buf read.total with
        | none => .ended .panic false cell
        | some buf => read.fill buf

/-- What a thread, or a callback, does: it ends, it panics, or it calls `with_key` and
goes on with the outcome, which is a panic if it caught one. -/
inductive Thread where
  | done (value : Bytes)
  | panics
  | withKey (read : Read) (callback : Bytes → Thread) (next : Result Bytes → Thread)

structure Call where
  total : Nat
  /-- The call had its part of the buffer. -/
  taken : Bool
  /-- The slice its callback was given. -/
  seen : Option Bytes
  before : Cell
  after : Cell
deriving DecidableEq, Repr

def Thread.run : Thread → Cell → (Result Bytes × Cell) × List Call
  | .done value, cell => ((.ok value, cell), [])
  | .panics, cell => ((.error .panic, cell), [])
  | .withKey read callback next, cell =>
      match read.begin cell with
      | .ended exit taken after =>
          let (ending, calls) := (next (.error exit)).run after
          (ending, ⟨read.total, taken, none, cell, after⟩ :: calls)
      | .running slice rest =>
          let ((result, inner), nested) := (callback slice).run ⟨slice ++ rest, true⟩
          let after := finish read.total inner.buf
          let (ending, calls) := (next result).run after
          (ending, nested ++ ⟨read.total, true, some slice, cell, after⟩ :: calls)

/-! ### Lengths -/

theorem length_decodeInPlace (decode : Nat → UInt8 → Option UInt8) (i : Nat) (bytes : Bytes) :
    (decodeInPlace decode i bytes).2.length = bytes.length := by
  induction bytes generalizing i with
  | nil => rfl
  | cons byte bytes ih =>
    unfold decodeInPlace
    cases decode i byte with
    | none => rfl
    | some decoded => simp [ih]

theorem Read.length_reassemble (read : Read) (out : Bytes) :
    (read.reassemble out).2.length = out.length := by
  unfold reassemble
  have hlength := read.length_defragmentInto out
  cases read.access with
  | error exit => rfl
  | ok _ =>
    dsimp only
    generalize read.defragmentInto out = defragmented at hlength
    cases defragmented with
    | mk result slice =>
      cases result with
      | error exit => exact hlength
      | ok _ =>
        dsimp only
        cases read.decode with
        | none => exact hlength
        | some decode => exact (length_decodeInPlace decode 0 slice).trans hlength

theorem ensureLen_spec {buf buf' : Bytes} {len : Nat} (h : ensureLen buf len = some buf') :
    len ≤ buf'.length ∧ buf.length ≤ buf'.length ∧ ((∀ byte ∈ buf, byte = 0) → ∀ byte ∈ buf', byte = 0) := by
  unfold ensureLen at h
  split at h
  · cases h
    unfold KeyVault.ensureLen
    split
    · rename_i hfits
      exact ⟨hfits, Nat.le_refl _, id⟩
    · refine ⟨by simp, by simp; omega, ?_⟩
      intro _ byte hbyte
      exact List.eq_of_mem_replicate hbyte
  · cases h

theorem ensureLen_of_le {len : Nat} (h : len ≤ isizeMax) (buf : Bytes) :
    ensureLen buf len = some (KeyVault.ensureLen buf len) :=
  if_pos (Nat.le_trans h (Nat.le_max_right _ _))

/-! ### Wiping -/

/-- After `count` writes the first `count` bytes are zero and the others untouched. -/
theorem getElem?_foldl_set (count : Nat) (slice : Bytes) (position : Nat) :
    ((List.range count).foldl (fun slice i => slice.set i 0) slice)[position]? =
      if position < count then slice[position]?.map fun _ => 0 else slice[position]? := by
  induction count with
  | zero => simp
  | succ count ih =>
    rw [List.range_succ, List.foldl_append, List.foldl_cons, List.foldl_nil, List.getElem?_set']
    rw [ih]
    by_cases hlast : count = position
    · subst hlast
      simp
      rfl
    · rw [if_neg hlast]
      by_cases hbefore : position < count
      · rw [if_pos hbefore, if_pos (by omega)]
      · rw [if_neg hbefore, if_neg (by omega)]

theorem volatileZeroSlice_eq (slice : Bytes) :
    volatileZeroSlice slice = List.replicate slice.length 0 := by
  apply List.ext_getElem?
  intro position
  unfold volatileZeroSlice
  rw [getElem?_foldl_set, List.getElem?_replicate]
  split
  · rename_i hinside
    rw [List.getElem?_eq_getElem hinside]
    rfl
  · rename_i houtside
    exact List.getElem?_eq_none (Nat.le_of_not_lt houtside)

structure Cell.Idle (cell : Cell) : Prop where
  free : cell.borrowed = false
  zero : ∀ byte ∈ cell.buf, byte = 0

theorem length_finish (total : Nat) (buf : Bytes) : (finish total buf).buf.length = buf.length := by
  unfold finish
  rw [List.length_append, volatileZeroSlice_eq, List.length_replicate, ← List.length_append,
    List.take_append_drop]

theorem idle_finish {total : Nat} {buf : Bytes} (h : ∀ byte ∈ buf.drop total, byte = 0) :
    (finish total buf).Idle := by
  refine ⟨rfl, ?_⟩
  intro byte hbyte
  unfold finish at hbyte
  rw [volatileZeroSlice_eq] at hbyte
  rcases List.mem_append.mp hbyte with hused | hrest
  · exact List.eq_of_mem_replicate hused
  · exact h byte hrest

/-! ### One call -/

section Begin

variable {read : Read} {cell : Cell}

theorem begin_borrowed (read : Read) (h : cell.borrowed = true) :
    ∃ exit, read.begin cell = .ended exit false cell := by
  unfold Read.begin
  cases read.checks with
  | error exit => exact ⟨exit, rfl⟩
  | ok _ => exact ⟨.panic, by rw [h]; rfl⟩

theorem begin_free {buf : Bytes} (hchecks : read.checks = .ok ()) (h : cell.borrowed = false)
    (hlen : ensureLen cell.buf read.total = some buf) : read.begin cell = read.fill buf := by
  unfold Read.begin
  rw [hchecks]
  simp only [h, Bool.false_eq_true, if_false, hlen]

theorem begin_cases (read : Read) (h : cell.borrowed = false) :
    (∃ exit, read.begin cell = .ended exit false cell) ∨
    ∃ buf slice, ensureLen cell.buf read.total = some buf ∧ slice.length = read.total ∧
      ((∃ exit, read.begin cell =
          .ended exit true (finish read.total (slice ++ buf.drop read.total))) ∨
        read.begin cell = .running slice (buf.drop read.total)) := by
  unfold Read.begin
  cases read.checks with
  | error exit => exact Or.inl ⟨exit, rfl⟩
  | ok _ =>
    simp only [h, Bool.false_eq_true, if_false]
    cases hlen : ensureLen cell.buf read.total with
    | none => exact Or.inl ⟨.panic, rfl⟩
    | some buf =>
      right
      have hfits := (ensureLen_spec hlen).1
      have hlength := read.length_reassemble (buf.take read.total)
      rw [List.length_take, Nat.min_eq_left hfits] at hlength
      dsimp only [Read.fill]
      generalize read.reassemble (buf.take read.total) = reassembled at hlength
      cases reassembled with
      | mk result slice =>
        refine ⟨buf, slice, rfl, hlength, ?_⟩
        cases result with
        | error exit => exact Or.inl ⟨exit, rfl⟩
        | ok _ => exact Or.inr rfl

theorem begin_ended {exit : Exit} {taken : Bool} {after : Cell} (h : cell.Idle)
    (hbegin : read.begin cell = .ended exit taken after) :
    after.Idle ∧ cell.buf.length ≤ after.buf.length ∧
      (taken = true → read.total ≤ after.buf.length) := by
  rcases begin_cases read h.free with ⟨exit', hended⟩ | ⟨buf, slice, hlen, hslice, hrest⟩
  · rw [hbegin] at hended
    cases hended
    exact ⟨h, Nat.le_refl _, nofun⟩
  · obtain ⟨hfits, hgrows, hzero⟩ := ensureLen_spec hlen
    rcases hrest with ⟨exit', hended⟩ | hrunning
    · rw [hbegin] at hended
      cases hended
      have hlength := length_finish read.total (slice ++ buf.drop read.total)
      rw [List.length_append, List.length_drop, hslice] at hlength
      refine ⟨idle_finish ?_, by omega, fun _ => by omega⟩
      rw [List.drop_left' hslice]
      intro byte hbyte
      exact hzero h.zero byte (List.mem_of_mem_drop hbyte)
    · rw [hbegin] at hrunning
      cases hrunning

theorem begin_running {slice rest : Bytes} (h : cell.Idle)
    (hbegin : read.begin cell = .running slice rest) :
    slice.length = read.total ∧ (∀ byte ∈ rest, byte = 0) ∧
      cell.buf.length ≤ (slice ++ rest).length := by
  rcases begin_cases read h.free with ⟨exit, hended⟩ | ⟨buf, taken, hlen, hslice, hrest⟩
  · rw [hbegin] at hended
    cases hended
  · obtain ⟨hfits, hgrows, hzero⟩ := ensureLen_spec hlen
    rcases hrest with ⟨exit, hended⟩ | hrunning
    · rw [hbegin] at hended
      cases hended
    · rw [hbegin] at hrunning
      cases hrunning
      refine ⟨hslice, ?_, ?_⟩
      · intro byte hbyte
        exact hzero h.zero byte (List.mem_of_mem_drop hbyte)
      · rw [List.length_append, List.length_drop, hslice]
        omega

/-- Once its checks have passed, a call that finds the buffer free has its part of it: only a
key longer than any allocation is refused. -/
theorem begin_taken (hchecks : read.checks = .ok ()) (h : cell.borrowed = false)
    (hfits : read.total ≤ isizeMax) :
    (∃ exit after, read.begin cell = .ended exit true after) ∨
      ∃ slice rest, read.begin cell = .running slice rest := by
  rw [begin_free hchecks h (ensureLen_of_le hfits cell.buf)]
  unfold Read.fill
  generalize read.reassemble _ = reassembled
  rcases reassembled with ⟨exit | done, slice⟩
  · exact .inl ⟨_, _, rfl⟩
  · exact .inr ⟨_, _, rfl⟩

end Begin

/-! ### Whole threads -/

theorem run_borrowed (thread : Thread) {cell : Cell} (h : cell.borrowed = true) :
    (thread.run cell).1.2 = cell ∧
      ∀ call ∈ (thread.run cell).2, call.taken = false ∧ call.seen = none ∧
        call.before = cell ∧ call.after = cell := by
  induction thread with
  | done value => exact ⟨rfl, nofun⟩
  | panics => exact ⟨rfl, nofun⟩
  | withKey read callback next ihcallback ihnext =>
    obtain ⟨exit, hbegin⟩ := begin_borrowed read h
    obtain ⟨hcell, hcalls⟩ := ihnext (.error exit)
    unfold Thread.run
    rw [hbegin]
    refine ⟨hcell, ?_⟩
    intro call hcall
    rcases List.mem_cons.mp hcall with rfl | hlater
    · exact ⟨rfl, rfl, rfl, rfl⟩
    · exact hcalls call hlater

/-- What holds of the calls of a thread, in the order in which they ended. A call that
is not made from inside a callback leaves the buffer free and zero; the buffer never
shrinks and is as long as every key that was read into it; and a callback gets exactly
the length of its key. -/
structure Hygienic (calls : List Call) : Prop where
  wiped : ∀ call ∈ calls, call.before.borrowed = false →
    call.after.borrowed = false ∧ ∀ byte ∈ call.after.buf, byte = 0
  grows : ∀ call ∈ calls, call.before.buf.length ≤ call.after.buf.length
  keeps : calls.Pairwise fun earlier later => earlier.after.buf.length ≤ later.after.buf.length
  holds : ∀ call ∈ calls, call.taken = true → call.total ≤ call.after.buf.length
  exact : ∀ call ∈ calls, ∀ slice ∈ call.seen, slice.length = call.total

theorem hygienic_nil : Hygienic [] :=
  ⟨nofun, nofun, List.Pairwise.nil, nofun, nofun⟩

theorem Hygienic.cons {call : Call} {calls : List Call} (h : Hygienic calls)
    (hwiped : call.before.borrowed = false →
      call.after.borrowed = false ∧ ∀ byte ∈ call.after.buf, byte = 0)
    (hgrows : call.before.buf.length ≤ call.after.buf.length)
    (hkeeps : ∀ later ∈ calls, call.after.buf.length ≤ later.after.buf.length)
    (hholds : call.taken = true → call.total ≤ call.after.buf.length)
    (hexact : ∀ slice ∈ call.seen, slice.length = call.total) : Hygienic (call :: calls) where
  wiped := List.forall_mem_cons.mpr ⟨hwiped, h.wiped⟩
  grows := List.forall_mem_cons.mpr ⟨hgrows, h.grows⟩
  keeps := List.Pairwise.cons hkeeps h.keeps
  holds := List.forall_mem_cons.mpr ⟨hholds, h.holds⟩
  exact := List.forall_mem_cons.mpr ⟨hexact, h.exact⟩

theorem Hygienic.nested {nested calls : List Call} {cell : Cell} (h : Hygienic calls)
    (hborrowed : cell.borrowed = true)
    (hnested : ∀ call ∈ nested, call.taken = false ∧ call.seen = none ∧
      call.before = cell ∧ call.after = cell)
    (hkeeps : ∀ later ∈ calls, cell.buf.length ≤ later.after.buf.length) :
    Hygienic (nested ++ calls) := by
  induction nested with
  | nil => exact h
  | cons call nested ih =>
    obtain ⟨⟨htaken, hseen, hbefore, hafter⟩, hrest⟩ := List.forall_mem_cons.mp hnested
    apply (ih hrest).cons
    · intro hfree
      rw [hbefore, hborrowed] at hfree
      cases hfree
    · rw [hbefore, hafter]
    · intro later hlater
      rw [hafter]
      rcases List.mem_append.mp hlater with hinner | houter
      · rw [(hrest later hinner).2.2.2]
      · exact hkeeps later houter
    · rw [htaken]
      nofun
    · rw [hseen]
      nofun

theorem run_hygienic (thread : Thread) {cell : Cell} (h : cell.Idle) :
    Hygienic (thread.run cell).2 ∧ (thread.run cell).1.2.Idle ∧
      ∀ call ∈ (thread.run cell).2, cell.buf.length ≤ call.after.buf.length := by
  induction thread generalizing cell with
  | done value => exact ⟨hygienic_nil, h, nofun⟩
  | panics => exact ⟨hygienic_nil, h, nofun⟩
  | withKey read callback next ihcallback ihnext =>
    unfold Thread.run
    cases hbegin : read.begin cell with
    | ended exit taken after =>
      obtain ⟨hafter, hgrows, hholds⟩ := begin_ended h hbegin
      obtain ⟨hlater, hidle, hkeeps⟩ := ihnext (.error exit) hafter
      refine ⟨hlater.cons (fun _ => ⟨hafter.free, hafter.zero⟩) hgrows hkeeps hholds nofun,
        hidle, ?_⟩
      refine List.forall_mem_cons.mpr ⟨hgrows, ?_⟩
      intro call hcall
      exact Nat.le_trans hgrows (hkeeps call hcall)
    | running slice rest =>
      obtain ⟨hslice, hzero, hgrows⟩ := begin_running h hbegin
      -- the callback runs on a borrowed cell, so it leaves the buffer as it found it
      obtain ⟨hinner, hnested⟩ := run_borrowed (callback slice)
        (show (Cell.mk (slice ++ rest) true).borrowed = true from rfl)
      dsimp only
      generalize hcallback : (callback slice).run ⟨slice ++ rest, true⟩ = ran at hinner hnested
      obtain ⟨⟨result, inner⟩, nested⟩ := ran
      dsimp only at hinner hnested ⊢
      subst hinner
      have hlength := length_finish read.total (slice ++ rest)
      have hafter : (finish read.total (slice ++ rest)).Idle :=
        idle_finish (by rw [List.drop_left' hslice]; exact hzero)
      obtain ⟨hlater, hidle, hkeeps⟩ := ihnext result hafter
      generalize hcalls : ((next result).run (finish read.total (slice ++ rest))).2 = calls
        at hlater hkeeps
      have houter : Hygienic (⟨read.total, true, some slice, cell,
          finish read.total (slice ++ rest)⟩ :: calls) := by
        refine hlater.cons (fun _ => ⟨hafter.free, hafter.zero⟩) ?_ hkeeps ?_ ?_
        · dsimp only
          omega
        · intro _
          dsimp only
          rw [hlength, List.length_append]
          omega
        · intro seen hseen
          cases hseen
          exact hslice
      have hfrom : ∀ call ∈ ⟨read.total, true, some slice, cell,
          finish read.total (slice ++ rest)⟩ :: calls,
          (slice ++ rest).length ≤ call.after.buf.length := by
        refine List.forall_mem_cons.mpr ⟨Nat.le_of_eq hlength.symm, ?_⟩
        intro call hcall
        rw [← hlength]
        exact hkeeps call hcall
      refine ⟨houter.nested rfl hnested hfrom, hidle, ?_⟩
      intro call hcall
      rcases List.mem_append.mp hcall with hinside | houtside
      · rw [(hnested call hinside).2.2.2]
        exact hgrows
      · exact Nat.le_trans hgrows (hfrom call houtside)

/-- Whatever a thread does with `with_key`, from its first call on: the calls are
hygienic, and the buffer stays at least as long as every key read so far. -/
theorem thread_hygienic (thread : Thread) : Hygienic (thread.run ⟨[], false⟩).2 ∧
    (thread.run ⟨[], false⟩).2.Pairwise fun earlier later =>
      earlier.taken = true → earlier.total ≤ later.after.buf.length := by
  have h := (@run_hygienic thread ⟨[], false⟩ ⟨rfl, by simp⟩).1
  refine ⟨h, ?_⟩
  apply h.keeps.imp_of_mem
  intro earlier later hearlier _ hkeeps htaken
  exact Nat.le_trans (h.holds earlier hearlier htaken) hkeeps

/-- Wherever a thread calls `with_key` with the buffer free, the call is recorded as having had
its part of it. -/
theorem withKey_taken {read : Read} {cell : Cell} (hchecks : read.checks = .ok ())
    (h : cell.borrowed = false) (hfits : read.total ≤ isizeMax) (callback : Bytes → Thread)
    (next : Result Bytes → Thread) :
    ∃ call ∈ ((Thread.withKey read callback next).run cell).2,
      call.before = cell ∧ call.total = read.total ∧ call.taken = true := by
  unfold Thread.run
  rcases begin_taken hchecks h hfits with ⟨exit, after, hbegin⟩ | ⟨slice, rest, hbegin⟩
  · rw [hbegin]
    exact ⟨_, List.mem_cons_self, rfl, rfl, rfl⟩
  · rw [hbegin]
    exact ⟨_, List.mem_append_right _ List.mem_cons_self, rfl, rfl, rfl⟩

def filling (byte : UInt8) (total : Nat) : Read where
  checks := .ok ()
  total := total
  access := .ok ()
  defragmentInto out := (.ok (), out.map fun _ => byte)
  length_defragmentInto _ := List.length_map _
  decode := none

/-- The second key is the longer one: the buffer grows, and is wiped again. -/
example : ((Thread.withKey (filling 7 2) .done fun _ =>
    .withKey (filling 9 3) .done fun _ => .done []).run ⟨[], false⟩).2 =
      [⟨2, true, some [7, 7], ⟨[], false⟩, ⟨[0, 0], false⟩⟩,
        ⟨3, true, some [9, 9, 9], ⟨[0, 0], false⟩, ⟨[0, 0, 0], false⟩⟩] := by
  decide

/-! ### The reads of a vault -/

theorem builtin_keepsLength {s : FragmentStrategy} (hs : Builtin s) (f : Fragments)
    (out : Bytes) : (s.defragmentInto f out).2.length = out.length := by
  obtain ⟨pieces, hwrote⟩ := hs.exists_wrote f out
  rw [hwrote.defragmentInto_eq rfl]
  exact Patching.length_overwriteAll_of_inside hwrote.inside

def Read.ofVault (env : Environment) (hs : Builtin env.fragmenter) (fragments : Fragments)
    (opens : Bool) : Read where
  checks := .ok ()
  total := fragments.totalLen
  access := if env.config.pageProtection then fragments.open opens else .ok ()
  defragmentInto := env.fragmenter.defragmentInto fragments
  length_defragmentInto := builtin_keepsLength hs fragments
  decode := env.codex.map fun codex _ byte => some (codex.decode byte)

def Begun.outcome {α : Type} (total : Nat) (f : Bytes → α) : Begun → Result α × Bytes
  | .ended exit _ after => (.error exit, after.buf)
  | .running slice rest => (.ok (f slice), (finish total (slice ++ rest)).buf)

theorem decodeInPlace_eq_map (decode : UInt8 → UInt8) (i : Nat) (bytes : Bytes) :
    decodeInPlace (fun _ byte => some (decode byte)) i bytes = (.ok (), bytes.map decode) := by
  induction bytes generalizing i with
  | nil => rfl
  | cons byte bytes ih =>
    unfold decodeInPlace
    simp only [ih]
    rfl

theorem reassemble_ofVault {env : Environment} {fragments : Fragments} {opens : Bool}
    (hs : Builtin env.fragmenter) (out : Bytes) :
    (Read.ofVault env hs fragments opens).reassemble out =
      KeyVault.reassemble env fragments opens out := by
  unfold Read.reassemble KeyVault.reassemble
  dsimp only [Read.ofVault]
  cases (if env.config.pageProtection then fragments.open opens else .ok ()) with
  | error exit => rfl
  | ok _ =>
    dsimp only
    cases env.fragmenter.defragmentInto fragments out with
    | mk result slice =>
      cases result with
      | error exit => rfl
      | ok _ =>
        cases env.codex with
        | none => rfl
        | some codex => exact decodeInPlace_eq_map codex.decode 0 slice

theorem finish_append {total : Nat} {slice rest : Bytes} (h : slice.length = total) :
    (finish total (slice ++ rest)).buf = List.replicate total 0 ++ rest := by
  unfold finish
  rw [volatileZeroSlice_eq, List.take_left' h, List.drop_left' h, h]

/-- `read_key` with a codex and a callback that do not unwind is such a call. -/
theorem readKey_eq_begin {α : Type} {env : Environment} {fragments : Fragments} {opens : Bool}
    (hs : Builtin env.fragmenter) (htotal : fragments.totalLen ≤ isizeMax) (scratch : Bytes)
    (f : Bytes → α) :
    readKey env fragments opens scratch f =
      ((Read.ofVault env hs fragments opens).begin ⟨scratch, false⟩).outcome
        fragments.totalLen f := by
  have hensure := ensureLen_of_le htotal scratch
  have hfits := (ensureLen_spec hensure).1
  have hlength := (Read.ofVault env hs fragments opens).length_reassemble
    ((KeyVault.ensureLen scratch fragments.totalLen).take fragments.totalLen)
  rw [reassemble_ofVault, List.length_take, Nat.min_eq_left hfits] at hlength
  have hbegin : (Read.ofVault env hs fragments opens).begin ⟨scratch, false⟩ =
      (Read.ofVault env hs fragments opens).fill
        (KeyVault.ensureLen scratch fragments.totalLen) :=
    begin_free rfl rfl hensure
  rw [hbegin]
  unfold readKey Read.fill
  rw [reassemble_ofVault]
  dsimp only [Read.ofVault]
  generalize KeyVault.reassemble env fragments opens
    ((KeyVault.ensureLen scratch fragments.totalLen).take fragments.totalLen) = reassembled
    at hlength
  cases reassembled with
  | mk result slice =>
    cases result with
    | error exit =>
      dsimp only [Begun.outcome]
      rw [finish_append hlength]
    | ok _ =>
      dsimp only [Begun.outcome]
      rw [finish_append hlength]

end ThreadScratch

end KeyVault
