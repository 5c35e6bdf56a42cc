import KeyVault.Decoys

/-! Reading a key file to its end. The reader is any that fills a part of the slice
it is offered; the buffer grows as soon as it is full, so the slice is never
empty and `Ok(0)` can only be the end of the file. -/
namespace KeyVault

open Patching

inductive ErrorKind where
  | notFound | permissionDenied | connectionRefused | connectionReset | hostUnreachable
  | networkUnreachable | connectionAborted | notConnected | addrInUse | addrNotAvailable
  | networkDown | brokenPipe | alreadyExists | wouldBlock | notADirectory | isADirectory
  | directoryNotEmpty | readOnlyFilesystem | filesystemLoop | staleNetworkFileHandle
  | invalidInput | invalidData | timedOut | writeZero | storageFull | notSeekable
  | quotaExceeded | fileTooLarge | resourceBusy | executableFileBusy | deadlock
  | crossesDevices | tooManyLinks | invalidFilename | argumentListTooLong | interrupted
  | unsupported | unexpectedEof | outOfMemory | inProgress | other | uncategorized
deriving DecidableEq, Repr

def ErrorKind.debug : ErrorKind → String
  | notFound => "NotFound"
  | permissionDenied => "PermissionDenied"
  | connectionRefused => "ConnectionRefused"
  | connectionReset => "ConnectionReset"
  | hostUnreachable => "HostUnreachable"
  | networkUnreachable => "NetworkUnreachable"
  | connectionAborted => "ConnectionAborted"
  | notConnected => "NotConnected"
  | addrInUse => "AddrInUse"
  | addrNotAvailable => "AddrNotAvailable"
  | networkDown => "NetworkDown"
  | brokenPipe => "BrokenPipe"
  | alreadyExists => "AlreadyExists"
  | wouldBlock => "WouldBlock"
  | notADirectory => "NotADirectory"
  | isADirectory => "IsADirectory"
  | directoryNotEmpty => "DirectoryNotEmpty"
  | readOnlyFilesystem => "ReadOnlyFilesystem"
  | filesystemLoop => "FilesystemLoop"
  | staleNetworkFileHandle => "StaleNetworkFileHandle"
  | invalidInput => "InvalidInput"
  | invalidData => "InvalidData"
  | timedOut => "TimedOut"
  | writeZero => "WriteZero"
  | storageFull => "StorageFull"
  | notSeekable => "NotSeekable"
  | quotaExceeded => "QuotaExceeded"
  | fileTooLarge => "FileTooLarge"
  | resourceBusy => "ResourceBusy"
  | executableFileBusy => "ExecutableFileBusy"
  | deadlock => "Deadlock"
  | crossesDevices => "CrossesDevices"
  | tooManyLinks => "TooManyLinks"
  | invalidFilename => "InvalidFilename"
  | argumentListTooLong => "ArgumentListTooLong"
  | interrupted => "Interrupted"
  | unsupported => "Unsupported"
  | unexpectedEof => "UnexpectedEof"
  | outOfMemory => "OutOfMemory"
  | inProgress => "InProgress"
  | other => "Other"
  | uncategorized => "Uncategorized"

def ioFailureMessage (path : String) (kind : ErrorKind) : String :=
  "failed to read " ++ path ++ ": " ++ kind.debug

def ioError (path : String) (kind : ErrorKind) : Error :=
  .acquisition "file" (ioFailureMessage path kind)

structure SliceRead (σ : Type) where
  answer : Except ErrorKind Nat
  slice : Bytes
  state : σ

/-- Any `std::io::Read`. It may write anywhere in the slice, whatever it answers. -/
structure Reader (σ : Type) where
  read : σ → Bytes → SliceRead σ
  length_slice : ∀ state slice, (read state slice).slice.length = slice.length

/-- The length of the buffer that replaces a full one. -/
def grownLength (length : Nat) : Nat := max (min (length * 2) (usizeSize - 1)) 64

def growBuffer (buf : Bytes) (filled : Nat) : Result Bytes :=
  if filled = buf.length then do
    let bigger ← zeroedBuffer (grownLength buf.length)
    let source ← slice buf 0 filled
    let _ ← slice bigger 0 filled
    return overwrite bigger 0 source
  else .ok buf

/-- The loop of `read_wiping`, for `fuel` rounds: how it ends, if it does, and the
lengths of the slices it offered to the reader. -/
def readLoop {σ : Type} (reader : Reader σ) (path : String) :
    Nat → σ → Bytes → Nat → Option (Result Bytes) × List Nat
  | 0, _, _, _ => (none, [])
  | fuel + 1, state, buf, filled =>
      match growBuffer buf filled with
      | .error exit => (some (.error exit), [])
      | .ok buf =>
          match slice buf filled buf.length with
          | .error exit => (some (.error exit), [])
          | .ok offered =>
              let outcome := reader.read state offered
              let buf := buf.take filled ++ outcome.slice
              match outcome.answer with
              | .ok 0 => (some (.ok (buf.take filled)), [offered.length])
              | .ok (n + 1) =>
                  match usizeAdd filled (n + 1) with
                  | .error exit => (some (.error exit), [offered.length])
                  | .ok filled =>
                      let (result, log) := readLoop reader path fuel outcome.state buf filled
                      (result, offered.length :: log)
              | .error kind =>
                  if kind = .interrupted then
                    let (result, log) := readLoop reader path fuel outcome.state buf filled
                    (result, offered.length :: log)
                  else (some (fail (ioError path kind)), [offered.length])

def readWiping {σ : Type} (reader : Reader σ) (hint : Nat) (path : String) (fuel : Nat)
    (state : σ) : Option (Result Bytes) × List Nat :=
  match zeroedBuffer (min (hint + 1) (usizeSize - 1)) with
  | .error exit => (some (.error exit), [])
  | .ok buf => readLoop reader path fuel state buf 0

theorem slice_to_end {bytes : Bytes} {start : Nat} (h : start ≤ bytes.length) :
    slice bytes start bytes.length = .ok (bytes.drop start) := by
  rw [slice_of_le h (Nat.le_refl _), List.take_of_length_le (by rw [List.length_drop])]

theorem lt_grownLength {length : Nat} (h : grownLength length ≤ isizeMax) :
    length < grownLength length := by
  unfold grownLength at h ⊢
  have hmax : isizeMax < usizeSize - 1 := by decide
  omega

theorem growBuffer_ne_full {buf buf' : Bytes} {filled : Nat} (h : growBuffer buf filled = .ok buf') :
    filled ≠ buf'.length := by
  unfold growBuffer at h
  split at h
  · rename_i hfull
    obtain ⟨bigger, hbigger, h⟩ := bind_eq_ok.mp h
    obtain ⟨source, hsource, h⟩ := bind_eq_ok.mp h
    obtain ⟨_, hfits, h⟩ := bind_eq_ok.mp h
    cases h
    obtain ⟨hroom, rfl⟩ := zeroedBuffer_eq_ok.mp hbigger
    have hlt := lt_grownLength hroom
    obtain ⟨-, rfl⟩ := slice_eq_ok.mp hsource
    simp only [overwrite, List.length_append, List.length_take, List.length_drop,
      List.length_replicate]
    omega
  · cases h
    assumption

theorem readLoop_offers {σ : Type} (reader : Reader σ) (path : String) (fuel : Nat) (state : σ)
    (buf : Bytes) (filled : Nat) :
    ∀ offered ∈ (readLoop reader path fuel state buf filled).2, 0 < offered := by
  induction fuel generalizing state buf filled with
  | zero => simp [readLoop]
  | succ fuel ih =>
    unfold readLoop
    cases hgrow : growBuffer buf filled with
    | error exit => simp
    | ok buf =>
      cases hslice : slice buf filled buf.length with
      | error exit => simp [hslice]
      | ok offered =>
        have hroom : 0 < offered.length := by
          have hne := growBuffer_ne_full hgrow
          obtain ⟨hrange, rfl⟩ := slice_eq_ok.mp hslice
          rw [List.length_take, List.length_drop]
          omega
        simp only [hslice]
        split
        · simpa using hroom
        · split
          · simpa using hroom
          · simpa using ⟨hroom, ih _ _ _⟩
        · split
          · simpa using ⟨hroom, ih _ _ _⟩
          · simpa using hroom

/-! ### One round -/

section Round

variable {σ : Type} {reader : Reader σ} {path : String} {fuel filled : Nat} {state : σ}
  {buf room : Bytes}

theorem readLoop_eof (hgrow : growBuffer buf filled = .ok room) (hfilled : filled ≤ room.length)
    (hanswer : (reader.read state (room.drop filled)).answer = .ok 0) :
    readLoop reader path (fuel + 1) state buf filled =
      (some (.ok (room.take filled)), [(room.drop filled).length]) := by
  unfold readLoop
  simp only [hgrow, slice_to_end hfilled, hanswer]
  rw [List.take_append_of_le_length (by rw [List.length_take]; omega), List.take_take, Nat.min_self]

theorem readLoop_bytes {count : Nat} (hgrow : growBuffer buf filled = .ok room)
    (hfilled : filled ≤ room.length)
    (hanswer : (reader.read state (room.drop filled)).answer = .ok (count + 1))
    (hfits : filled + (count + 1) < usizeSize) {result : Option (Result Bytes)} {log : List Nat}
    (hrest : readLoop reader path fuel (reader.read state (room.drop filled)).state
      (room.take filled ++ (reader.read state (room.drop filled)).slice) (filled + (count + 1)) =
        (result, log)) :
    readLoop reader path (fuel + 1) state buf filled =
      (result, (room.drop filled).length :: log) := by
  unfold readLoop
  simp only [hgrow, slice_to_end hfilled, hanswer, usizeAdd_of_lt hfits, hrest]

theorem readLoop_interrupted (hgrow : growBuffer buf filled = .ok room) (hfilled : filled ≤ room.length)
    (hanswer : (reader.read state (room.drop filled)).answer = .error .interrupted)
    {result : Option (Result Bytes)} {log : List Nat}
    (hrest : readLoop reader path fuel (reader.read state (room.drop filled)).state
      (room.take filled ++ (reader.read state (room.drop filled)).slice) filled = (result, log)) :
    readLoop reader path (fuel + 1) state buf filled =
      (result, (room.drop filled).length :: log) := by
  unfold readLoop
  simp only [hgrow, slice_to_end hfilled, hanswer, if_pos, hrest]

theorem readLoop_failed {kind : ErrorKind} (hgrow : growBuffer buf filled = .ok room)
    (hfilled : filled ≤ room.length) (hkind : kind ≠ .interrupted)
    (hanswer : (reader.read state (room.drop filled)).answer = .error kind) :
    readLoop reader path (fuel + 1) state buf filled =
      (some (fail (ioError path kind)), [(room.drop filled).length]) := by
  unfold readLoop
  simp only [hgrow, slice_to_end hfilled, hanswer, if_neg hkind]

end Round

/-! ### Delivering a stream -/

/-- How a stream ends: with `Ok(0)`, or with an error other than `Interrupted`. -/
inductive StreamEnd where
  | eof
  | failed (kind : ErrorKind)

def StreamEnd.result (path : String) (bytes : Bytes) : StreamEnd → Result Bytes
  | eof => .ok bytes
  | failed kind => fail (ioError path kind)

namespace SliceRead

variable {σ : Type}

def Allowed (rest : Bytes) (ending : StreamEnd) (offered : Nat) (outcome : SliceRead σ) : Prop :=
  match outcome.answer with
  | .ok 0 => rest = [] ∧ ending = .eof
  | .ok (n + 1) => n + 1 ≤ offered ∧ n + 1 ≤ rest.length ∧
      outcome.slice.take (n + 1) = rest.take (n + 1)
  | .error kind => kind = .interrupted ∨ rest = [] ∧ ending = .failed kind

def Continues (outcome : SliceRead σ) : Prop :=
  match outcome.answer with
  | .ok n => n ≠ 0
  | .error kind => kind = .interrupted

def remaining (rest : Bytes) (outcome : SliceRead σ) : Bytes :=
  match outcome.answer with
  | .ok n => rest.drop n
  | .error _ => rest

end SliceRead

/-- From `state` on the reader delivers `rest` and then `ending`: in reads of any
positive sizes, with finitely many interruptions, whatever slices it is offered. -/
inductive Delivers {σ : Type} (reader : Reader σ) : σ → Bytes → StreamEnd → Prop where
  | step {state : σ} {rest : Bytes} {ending : StreamEnd}
      (hallowed : ∀ slice, slice ≠ [] →
        (reader.read state slice).Allowed rest ending slice.length)
      (hlater : ∀ slice, slice ≠ [] → (reader.read state slice).Continues →
        Delivers reader (reader.read state slice).state
          ((reader.read state slice).remaining rest) ending) :
      Delivers reader state rest ending

def bufferLength (hint : Nat) : Nat → Nat
  | 0 => min (hint + 1) (usizeSize - 1)
  | times + 1 => grownLength (bufferLength hint times)

/-- Every buffer used for a stream of `length` bytes is shorter than `usize::MAX / 2`.
A buffer is replaced when the stream has filled it. -/
def Roomy (hint length : Nat) : Prop :=
  ∀ times, (∀ before < times, bufferLength hint before ≤ length) →
    bufferLength hint times < (usizeSize - 1) / 2

/-- The buffer between two rounds: it starts with what was delivered so far, and it
was replaced only when it was full. -/
structure HoldsRead (hint : Nat) (delivered buf : Bytes) (filled : Nat) : Prop where
  held : buf.take filled = delivered
  filled_eq : filled = delivered.length
  reached : ∃ times, buf.length = bufferLength hint times ∧
    ∀ before < times, bufferLength hint before ≤ filled

section HoldsRead

variable {hint filled length : Nat} {delivered buf : Bytes}

theorem HoldsRead.filled_le (h : HoldsRead hint delivered buf filled) : filled ≤ buf.length := by
  have hlength := congrArg List.length h.held
  rw [List.length_take, ← h.filled_eq] at hlength
  omega

theorem HoldsRead.room (h : HoldsRead hint delivered buf filled) (hroom : Roomy hint length)
    (hfilled : filled ≤ length) : buf.length < isizeMax := by
  obtain ⟨times, hbuf, hreached⟩ := h.reached
  rw [hbuf]
  exact hroom times fun before hbefore => Nat.le_trans (hreached before hbefore) hfilled

theorem HoldsRead.growBuffer (h : HoldsRead hint delivered buf filled) (hroom : Roomy hint length)
    (hfilled : filled ≤ length) : ∃ room, growBuffer buf filled = .ok room ∧
      HoldsRead hint delivered room filled ∧ filled < room.length := by
  by_cases hfull : filled = buf.length
  · obtain ⟨times, hbuf, hreached⟩ := h.reached
    have hsize : grownLength buf.length < isizeMax := by
      rw [hbuf]
      refine hroom (times + 1) ?_
      intro before hbefore
      rcases Nat.lt_succ_iff_lt_or_eq.mp hbefore with hlt | rfl
      · exact Nat.le_trans (hreached before hlt) hfilled
      · rw [← hbuf, ← hfull]
        exact hfilled
    have hlt := lt_grownLength (Nat.le_of_lt hsize)
    have hcopy : overwrite (List.replicate (grownLength buf.length) (0 : UInt8)) 0 buf =
        buf ++ List.replicate (grownLength buf.length - buf.length) 0 := by
      simp [overwrite]
    refine ⟨buf ++ List.replicate (grownLength buf.length - buf.length) 0, ?_,
      ⟨?_, h.filled_eq, ?_⟩, ?_⟩
    · unfold KeyVault.growBuffer
      rw [if_pos hfull, zeroedBuffer_of_le (Nat.le_of_lt hsize), ok_bind, hfull,
        slice_to_end (Nat.zero_le _), ok_bind, slice_of_le (Nat.zero_le _) (by
          rw [List.length_replicate]
          exact Nat.le_of_lt hlt), ok_bind, List.drop_zero, hcopy]
      rfl
    · rw [List.take_append_of_le_length h.filled_le]
      exact h.held
    · refine ⟨times + 1, ?_, ?_⟩
      · rw [List.length_append, List.length_replicate, bufferLength, ← hbuf]
        omega
      · intro before hbefore
        rcases Nat.lt_succ_iff_lt_or_eq.mp hbefore with hlt' | rfl
        · exact hreached before hlt'
        · rw [← hbuf, hfull]
    · rw [List.length_append, List.length_replicate]
      omega
  · have hle := h.filled_le
    refine ⟨buf, ?_, h, by omega⟩
    unfold KeyVault.growBuffer
    rw [if_neg hfull]

theorem HoldsRead.append (h : HoldsRead hint delivered buf filled) {offered more : Bytes}
    (hlength : offered.length = (buf.drop filled).length) {count : Nat}
    (hcount : count ≤ offered.length) (hmore : offered.take count = more) :
    HoldsRead hint (delivered ++ more) (buf.take filled ++ offered) (filled + count) := by
  have hle := h.filled_le
  have htake : (buf.take filled).length = filled := by
    rw [List.length_take]
    omega
  refine ⟨?_, ?_, ?_⟩
  · rw [List.take_append, List.take_of_length_le (by rw [htake]; omega), htake,
      Nat.add_sub_cancel_left, hmore, h.held]
  · rw [List.length_append, ← h.filled_eq, ← hmore, List.length_take]
    omega
  · obtain ⟨times, hbuf, hreached⟩ := h.reached
    refine ⟨times, ?_, ?_⟩
    · rw [List.length_append, htake, hlength, List.length_drop, ← hbuf]
      omega
    · intro before hbefore
      exact Nat.le_trans (hreached before hbefore) (Nat.le_add_right _ _)

end HoldsRead

section Delivers

variable {σ : Type} {reader : Reader σ} {state : σ}

theorem readLoop_mono {path : String} {fuel filled : Nat} {buf : Bytes} {result : Result Bytes}
    {log : List Nat} (h : readLoop reader path fuel state buf filled = (some result, log)) :
    readLoop reader path (fuel + 1) state buf filled = (some result, log) := by
  induction fuel generalizing state buf filled log with
  | zero => cases h
  | succ fuel ih =>
    rw [readLoop] at h ⊢
    cases hgrow : growBuffer buf filled with
    | error exit => simpa only [hgrow] using h
    | ok room =>
      simp only [hgrow] at h ⊢
      cases hslice : slice room filled room.length with
      | error exit => simpa only [hslice] using h
      | ok offered =>
        simp only [hslice] at h ⊢
        cases hanswer : (reader.read state offered).answer with
        | error kind =>
          simp only [hanswer] at h ⊢
          split at h
          · rename_i hkind
            obtain ⟨hresult, hlog⟩ := Prod.mk.inj h
            rw [if_pos hkind, ih (Prod.ext hresult rfl), ← hlog]
          · rename_i hkind
            rw [if_neg hkind]
            exact h
        | ok count =>
          cases count with
          | zero => simpa only [hanswer] using h
          | succ count =>
            simp only [hanswer] at h ⊢
            cases hsum : usizeAdd filled (count + 1) with
            | error exit => simpa only [hsum] using h
            | ok next =>
              simp only [hsum] at h ⊢
              obtain ⟨hresult, hlog⟩ := Prod.mk.inj h
              rw [ih (Prod.ext hresult rfl), ← hlog]

/-- By induction on the delivery: each read adds its bytes to the buffer, an
interruption none, and the fuel is one round more than the rest of it takes. -/
theorem Delivers.readLoop {hint : Nat} {rest : Bytes} {ending : StreamEnd}
    (h : Delivers reader state rest ending) (path : String) {delivered buf : Bytes} {filled : Nat}
    (hholds : HoldsRead hint delivered buf filled)
    (hroom : Roomy hint (delivered ++ rest).length) :
    ∃ fuel log, KeyVault.readLoop reader path fuel state buf filled =
      (some (ending.result path (delivered ++ rest)), log) := by
  induction h generalizing delivered buf filled with
  | @step state rest ending hallowed hlater ih =>
    have hfilled : filled ≤ (delivered ++ rest).length := by
      rw [List.length_append, ← hholds.filled_eq]
      omega
    obtain ⟨room, hgrow, hkept, hlt⟩ := hholds.growBuffer hroom hfilled
    have hoffered : room.drop filled ≠ [] := by
      intro hempty
      have hnone := congrArg List.length hempty
      rw [List.length_drop, List.length_nil] at hnone
      omega
    have hwritten := reader.length_slice state (room.drop filled)
    have hmay := hallowed _ hoffered
    have hrun := ih _ hoffered
    unfold SliceRead.Allowed at hmay
    unfold SliceRead.Continues SliceRead.remaining at hrun
    cases hanswer : (reader.read state (room.drop filled)).answer with
    | error kind =>
      rw [hanswer] at hmay hrun
      dsimp only at hmay hrun
      by_cases hkind : kind = .interrupted
      · subst hkind
        have hagain := hkept.append hwritten (Nat.zero_le _) (List.take_zero)
        rw [List.append_nil, Nat.add_zero] at hagain
        obtain ⟨fuel, log, hloop⟩ := hrun rfl hagain hroom
        exact ⟨fuel + 1, _, readLoop_interrupted hgrow (Nat.le_of_lt hlt) hanswer hloop⟩
      · obtain ⟨rfl, rfl⟩ := hmay.resolve_left hkind
        rw [List.append_nil]
        exact ⟨1, _, readLoop_failed hgrow (Nat.le_of_lt hlt) hkind hanswer⟩
    | ok count =>
      rw [hanswer] at hmay hrun
      cases count with
      | zero =>
        obtain ⟨rfl, rfl⟩ := hmay
        rw [List.append_nil]
        refine ⟨1, [(room.drop filled).length], ?_⟩
        rw [readLoop_eof hgrow (Nat.le_of_lt hlt) hanswer, hkept.held]
        rfl
      | succ count =>
        obtain ⟨hcount, hleft, hsame⟩ := hmay
        dsimp only at hrun
        have hmore := hkept.append hwritten (by rw [hwritten]; exact hcount) hsame
        have hsplit : delivered ++ rest.take (count + 1) ++ rest.drop (count + 1) =
            delivered ++ rest := by
          rw [List.append_assoc, List.take_append_drop]
        obtain ⟨fuel, log, hloop⟩ := hrun (Nat.succ_ne_zero count) hmore (by rw [hsplit]; exact hroom)
        rw [hsplit] at hloop
        have hfits : filled + (count + 1) < usizeSize := by
          have hbuffer := hkept.room hroom hfilled
          have hmax : isizeMax < usizeSize := by decide
          rw [List.length_drop] at hcount
          omega
        exact ⟨fuel + 1, _, readLoop_bytes hgrow (Nat.le_of_lt hlt) hanswer hfits hloop⟩

end Delivers

/-! ### The whole stream -/

theorem readLoop_of_le {σ : Type} {reader : Reader σ} {path : String} {state : σ} {buf : Bytes}
    {filled fuel more : Nat} {result : Result Bytes} {log : List Nat} (hle : fuel ≤ more)
    (h : readLoop reader path fuel state buf filled = (some result, log)) :
    readLoop reader path more state buf filled = (some result, log) := by
  induction more, hle using Nat.le_induction with
  | base => exact h
  | succ more hle ih => exact readLoop_mono ih

/-- Whatever way a stream is delivered and whatever its length was taken for, the
loop ends with all of it, or with the error that cut it short; and it never offers
an empty slice. -/
theorem readWiping_returns {σ : Type} (reader : Reader σ) (path : String) {hint : Nat} {state : σ}
    {stream : Bytes} {ending : StreamEnd} (hroom : Roomy hint stream.length)
    (hdelivers : Delivers reader state stream ending) :
    (∃ fuel log, ∀ more, fuel ≤ more →
      readWiping reader hint path more state = (some (ending.result path stream), log)) ∧
    ∀ fuel, ∀ offered ∈ (readWiping reader hint path fuel state).2, 0 < offered := by
  have hfirst : min (hint + 1) (usizeSize - 1) < isizeMax := hroom 0 (by simp)
  unfold readWiping
  rw [zeroedBuffer_of_le (Nat.le_of_lt hfirst)]
  refine ⟨?_, ?_⟩
  · have hholds : HoldsRead hint [] (List.replicate (min (hint + 1) (usizeSize - 1)) 0) 0 :=
      ⟨List.take_zero, rfl, 0, by rw [List.length_replicate]; rfl, by simp⟩
    obtain ⟨fuel, log, hloop⟩ := hdelivers.readLoop path hholds hroom
    exact ⟨fuel, log, fun more hmore => readLoop_of_le hmore hloop⟩
  · intro fuel
    exact readLoop_offers reader path fuel state _ 0

theorem grownLength_mono {length length' : Nat} (h : length ≤ length') :
    grownLength length ≤ grownLength length' := by
  unfold grownLength
  omega

/-- The first buffer and one that replaces a buffer as long as the stream are the longest. -/
theorem roomy_of_lt {hint length : Nat} (hhint : hint + 1 < (usizeSize - 1) / 2)
    (hlength : grownLength length < (usizeSize - 1) / 2) : Roomy hint length := by
  intro times hreached
  cases times with
  | zero =>
    unfold bufferLength
    omega
  | succ times =>
    have hle := grownLength_mono (hreached times (Nat.lt_succ_self times))
    exact Nat.lt_of_le_of_lt hle hlength

/-! ### Readers that follow a script -/

def deliver (ending : StreamEnd) (script : List (Option Nat)) (rest : Bytes) (limit : Nat)
    (slice : Bytes) : SliceRead (List (Option Nat) × Bytes) :=
  match rest, ending with
  | [], .failed kind => ⟨.error kind, slice, (script, [])⟩
  | _, _ =>
      let count := min limit (min slice.length rest.length)
      ⟨.ok count, rest.take count ++ slice.drop count, (script, rest.drop count)⟩

/-- One call for each entry: an interruption, or a read of at most one byte more than the entry
says. Past the script a read fills the slice. -/
def scriptedRead (ending : StreamEnd) :
    List (Option Nat) × Bytes → Bytes → SliceRead (List (Option Nat) × Bytes)
  | (none :: script, rest), slice => ⟨.error .interrupted, slice, (script, rest)⟩
  | (some limit :: script, rest), slice => deliver ending script rest (limit + 1) slice
  | ([], rest), slice => deliver ending [] rest slice.length slice

theorem length_deliver (ending : StreamEnd) (script : List (Option Nat)) (rest : Bytes) (limit : Nat)
    (slice : Bytes) : (deliver ending script rest limit slice).slice.length = slice.length := by
  unfold deliver
  split
  · rfl
  · simp only [List.length_append, List.length_take, List.length_drop]
    omega

def scripted (ending : StreamEnd) : Reader (List (Option Nat) × Bytes) where
  read := scriptedRead ending
  length_slice := by
    rintro ⟨_ | ⟨_ | limit, script⟩, rest⟩ slice
    · exact length_deliver ..
    · rfl
    · exact length_deliver ..

theorem deliver_cases (ending : StreamEnd) (script : List (Option Nat)) (rest : Bytes) {limit : Nat}
    {slice : Bytes} (hlimit : 0 < limit) (hslice : slice ≠ []) :
    (rest = [] ∧ ending = .eof ∧ (deliver ending script rest limit slice).answer = .ok 0) ∨
    (∃ kind, rest = [] ∧ ending = .failed kind ∧
      (deliver ending script rest limit slice).answer = .error kind) ∨
    ∃ count, count + 1 ≤ slice.length ∧ count + 1 ≤ rest.length ∧
      deliver ending script rest limit slice =
        ⟨.ok (count + 1), rest.take (count + 1) ++ slice.drop (count + 1),
          (script, rest.drop (count + 1))⟩ := by
  have hpos := List.length_pos_iff.mpr hslice
  cases rest with
  | nil =>
    cases ending with
    | eof => exact .inl ⟨rfl, rfl, by simp [deliver]⟩
    | failed kind => exact .inr (.inl ⟨kind, rfl, rfl, rfl⟩)
  | cons byte rest =>
    refine .inr (.inr ⟨min limit (min slice.length (rest.length + 1)) - 1, by omega, ?_, ?_⟩)
    · rw [List.length_cons]
      omega
    · have hcount : min limit (min slice.length (rest.length + 1)) - 1 + 1 =
          min limit (min slice.length (rest.length + 1)) := by omega
      rw [hcount]
      rfl

theorem delivers_of_deliver {ending : StreamEnd} (hending : ending ≠ .failed .interrupted)
    {state : List (Option Nat) × Bytes} {script : List (Option Nat)} {rest : Bytes}
    (limit : Bytes → Nat) (hlimit : ∀ slice, slice ≠ [] → 0 < limit slice)
    (hread : ∀ slice, scriptedRead ending state slice =
      deliver ending script rest (limit slice) slice)
    (hlater : ∀ count, count + 1 ≤ rest.length →
      Delivers (scripted ending) (script, rest.drop (count + 1)) (rest.drop (count + 1)) ending) :
    Delivers (scripted ending) state rest ending := by
  refine .step ?_ ?_
  · intro slice hslice
    show (scriptedRead ending state slice).Allowed rest ending slice.length
    rw [hread]
    unfold SliceRead.Allowed
    obtain ⟨hrest, heof, hanswer⟩ | ⟨kind, hrest, hfailed, hanswer⟩ |
      ⟨count, hfits, hleft, houtcome⟩ := deliver_cases ending script rest (hlimit slice hslice) hslice
    · rw [hanswer]
      exact ⟨hrest, heof⟩
    · rw [hanswer]
      exact .inr ⟨hrest, hfailed⟩
    · rw [houtcome]
      refine ⟨hfits, hleft, ?_⟩
      rw [List.take_append_of_le_length (by rw [List.length_take]; omega), List.take_take,
        Nat.min_self]
  · intro slice hslice hcontinues
    replace hcontinues : (scriptedRead ending state slice).Continues := hcontinues
    show Delivers (scripted ending) (scriptedRead ending state slice).state
      ((scriptedRead ending state slice).remaining rest) ending
    rw [hread] at hcontinues ⊢
    unfold SliceRead.Continues at hcontinues
    obtain ⟨-, -, hanswer⟩ | ⟨kind, -, hfailed, hanswer⟩ | ⟨count, -, hleft, houtcome⟩ :=
      deliver_cases ending script rest (hlimit slice hslice) hslice
    · rw [hanswer] at hcontinues
      exact absurd rfl hcontinues
    · rw [hanswer] at hcontinues
      have hkind : kind = .interrupted := hcontinues
      rw [hkind] at hfailed
      exact absurd hfailed hending
    · rw [houtcome]
      exact hlater count hleft

theorem scripted_delivers {ending : StreamEnd} (hending : ending ≠ .failed .interrupted)
    (script : List (Option Nat)) (rest : Bytes) :
    Delivers (scripted ending) (script, rest) rest ending := by
  induction script generalizing rest with
  | nil =>
    generalize hlength : rest.length = length
    induction length using Nat.strong_induction_on generalizing rest with
    | _ length ih =>
      refine delivers_of_deliver hending List.length (fun slice hslice => List.length_pos_iff.mpr hslice)
        (fun slice => rfl) ?_
      intro count hleft
      exact ih (length - (count + 1)) (by omega) _ (by rw [List.length_drop, hlength])
  | cons entry script ih =>
    cases entry with
    | none =>
      refine .step ?_ ?_
      · intro slice _
        exact .inl rfl
      · intro slice _ _
        exact ih rest
    | some limit =>
      exact delivers_of_deliver hending (fun _ => limit + 1)
        (fun slice _ => Nat.succ_pos limit) (fun slice => rfl) (fun count _ => ih _)

theorem readWiping_returns_seventy :
    ∃ fuel log, ∀ more, fuel ≤ more →
      readWiping (scripted .eof) 0 "/etc/myapp/key.bin" more
        ([some 0, none, some 0, none, some 30], List.replicate 70 7) =
          (some (.ok (List.replicate 70 7)), log) :=
  (readWiping_returns (scripted .eof) "/etc/myapp/key.bin"
    (roomy_of_lt (by decide) (by decide)) (scripted_delivers (by simp) _ _)).1

end KeyVault
