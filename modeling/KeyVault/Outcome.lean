import KeyVault.LittleEndian

/-! How a call of the vault ends: `Error` values, unwinding, and the machine
arithmetic and slice accesses that can unwind. `usize` is 64 bits wide. -/
namespace KeyVault

abbrev Bytes := List UInt8

/-- A `core::time::Duration`, in nanoseconds. -/
abbrev Duration := Nat

namespace Duration

def MAX : Duration := 2 ^ 64 * 1000000000 - 1

def saturatingAdd (left right : Duration) : Duration := min (left + right) MAX

def saturatingSub (left right : Duration) : Duration := left - right

def checkedMul (value : Duration) (factor : Nat) : Option Duration :=
  if value * factor ≤ MAX then some (value * factor) else none

def fromSecs (seconds : Nat) : Duration := seconds * 1000000000

end Duration

inductive Error where
  | acquisition (source reason : String)
  | keyNotFound
  | fragment (reason : String)
  | defragment (reason : String)
  | decoy (reason : String)
  | codex (reason : String)
  | lockedOut
  | rateLimited (retryAfter : Duration)
  | memoryLock (reason : String)
  | invalidConfig (reason : String)
  | internal (reason : String)
deriving DecidableEq, Repr

/-- Why a call did not return a value: it returned `Err`, or it unwound. -/
inductive Exit where
  | error (error : Error)
  | panic
deriving DecidableEq, Repr

abbrev Result (α : Type) := Except Exit α

def fail {α : Type} (error : Error) : Result α := .error (.error error)

def require (condition : Prop) [Decidable condition] (error : Error) : Result Unit :=
  if condition then .ok () else fail error

def u32Max : Nat := 2 ^ 32 - 1

def usizeSize : Nat := 2 ^ 64

/-- The longest slice or buffer, `isize::MAX` bytes. -/
def isizeMax : Nat := 2 ^ 63 - 1

abbrev Usize := Fin usizeSize

theorem four_lt_usizeSize : 4 < usizeSize := by decide

/-! A range of sizes made from two `usize` values: the lower end raised to 1, the
upper end to the lower one. -/

theorem one_le_raised (low : Usize) : 1 ≤ max low.val 1 := Nat.le_max_right ..

theorem raised_le (low high : Usize) : max low.val 1 ≤ max high.val (max low.val 1) :=
  Nat.le_max_right ..

theorem raised_lt (low high : Usize) : max high.val (max low.val 1) < usizeSize := by
  have hsize := four_lt_usizeSize
  omega

/-- `+` on `usize`; overflow unwinds. -/
def usizeAdd (left right : Nat) : Result Nat :=
  if left + right < usizeSize then .ok (left + right) else .error .panic

def usizeMul (left right : Nat) : Result Nat :=
  if left * right < usizeSize then .ok (left * right) else .error .panic

def usizeSub (left right : Nat) : Result Nat :=
  if right ≤ left then .ok (left - right) else .error .panic

/-- `&bytes[start..stop]`; a range outside the slice unwinds. -/
def slice (bytes : Bytes) (start stop : Nat) : Result Bytes :=
  if start ≤ stop ∧ stop ≤ bytes.length then .ok ((bytes.drop start).take (stop - start))
  else .error .panic

def index {α : Type} (list : List α) (position : Nat) : Result α :=
  match list[position]? with
  | some value => .ok value
  | none => .error .panic

def u32ToLeBytes (value : Nat) : Bytes := LittleEndian.encode 4 value

/-- `u32::from_le_bytes(bytes.try_into().map_err(..)?)`. -/
def u32FromLeBytes (bytes : Bytes) (mismatch : Error) : Result Nat :=
  if bytes.length = 4 then .ok (LittleEndian.decode bytes) else fail mismatch

def u32Words (values : List Nat) : Bytes := LittleEndian.encodeAll 4 values

def u32Slice (bytes : Bytes) (start stop : Nat) (mismatch : Error) : Result Nat := do
  let raw ← slice bytes start stop
  u32FromLeBytes raw mismatch

def wordAt (layout : Bytes) (position : Nat) : Nat :=
  LittleEndian.decode ((layout.drop (position * 4)).take 4)

theorem bind_eq_ok {α β : Type} {x : Result α} {f : α → Result β} {value : β} :
    x >>= f = .ok value ↔ ∃ first, x = .ok first ∧ f first = .ok value := by
  cases x with
  | error exit => simp [bind, Except.bind]
  | ok first => simp [bind, Except.bind]

@[simp] theorem ok_bind {α β : Type} (value : α) (f : α → Result β) :
    (Except.ok value : Result α) >>= f = f value := rfl

@[simp] theorem require_eq_ok {condition : Prop} [Decidable condition] {error : Error}
    {value : Unit} : require condition error = .ok value ↔ condition := by
  unfold require
  split <;> simp_all [fail]

theorem usizeAdd_eq_ok {left right value : Nat} :
    usizeAdd left right = .ok value ↔ left + right < usizeSize ∧ left + right = value := by
  unfold usizeAdd
  split <;> simp_all

theorem usizeMul_eq_ok {left right value : Nat} :
    usizeMul left right = .ok value ↔ left * right < usizeSize ∧ left * right = value := by
  unfold usizeMul
  split <;> simp_all

theorem usizeSub_eq_ok {left right value : Nat} :
    usizeSub left right = .ok value ↔ right ≤ left ∧ left - right = value := by
  unfold usizeSub
  split <;> simp_all

theorem slice_eq_ok {bytes part : Bytes} {start stop : Nat} :
    slice bytes start stop = .ok part ↔
      (start ≤ stop ∧ stop ≤ bytes.length) ∧ (bytes.drop start).take (stop - start) = part := by
  unfold slice
  split <;> simp_all

theorem require_of {condition : Prop} [Decidable condition] (h : condition) (error : Error) :
    require condition error = .ok () := require_eq_ok.mpr h

@[simp] theorem usizeAdd_of_lt {left right : Nat} (h : left + right < usizeSize) :
    usizeAdd left right = .ok (left + right) := by
  simp [usizeAdd, h]

@[simp] theorem usizeMul_of_lt {left right : Nat} (h : left * right < usizeSize) :
    usizeMul left right = .ok (left * right) := by
  simp [usizeMul, h]

@[simp] theorem slice_of_le {bytes : Bytes} {start stop : Nat} (hle : start ≤ stop)
    (hstop : stop ≤ bytes.length) :
    slice bytes start stop = .ok ((bytes.drop start).take (stop - start)) := by
  simp [slice, hle, hstop]

@[simp] theorem index_of_getElem? {α : Type} {list : List α} {position : Nat} {value : α}
    (h : list[position]? = some value) : index list position = .ok value := by
  simp [index, h]

theorem index_eq_ok {α : Type} {list : List α} {position : Nat} {value : α} :
    index list position = .ok value ↔ list[position]? = some value := by
  unfold index
  split <;> simp_all

@[simp] theorem length_u32ToLeBytes (value : Nat) : (u32ToLeBytes value).length = 4 :=
  LittleEndian.length_encode 4 value

@[simp] theorem length_u32Words (values : List Nat) :
    (u32Words values).length = values.length * 4 := LittleEndian.length_encodeAll 4 values

@[simp] theorem u32FromLeBytes_u32ToLeBytes {value : Nat} (h : value ≤ u32Max)
    (mismatch : Error) : u32FromLeBytes (u32ToLeBytes value) mismatch = .ok value := by
  have hlt : value < 256 ^ 4 := by
    have hmax : u32Max < 256 ^ 4 := by norm_num [u32Max]
    omega
  have hdecode : LittleEndian.decode (u32ToLeBytes value) = value :=
    LittleEndian.decode_encode_of_lt 4 value hlt
  simp [u32FromLeBytes, hdecode]

theorem wordAt_le (layout : Bytes) (position : Nat) : wordAt layout position ≤ u32Max := by
  have hlt := LittleEndian.decode_lt ((layout.drop (position * 4)).take 4)
  have hlength : ((layout.drop (position * 4)).take 4).length ≤ 4 := List.length_take_le ..
  have hpow : 256 ^ ((layout.drop (position * 4)).take 4).length ≤ 256 ^ 4 :=
    Nat.pow_le_pow_right (by decide) hlength
  have hmax : 256 ^ 4 = u32Max + 1 := by decide
  unfold wordAt
  omega

theorem u32Slice_of_le {layout : Bytes} {position start stop : Nat} (hstart : start = position * 4)
    (hstop : stop = position * 4 + 4) (hfits : stop ≤ layout.length) (mismatch : Error) :
    u32Slice layout start stop mismatch = .ok (wordAt layout position) := by
  subst hstart hstop
  have hlength : ((layout.drop (position * 4)).take 4).length = 4 := by
    rw [List.length_take, List.length_drop]
    omega
  unfold u32Slice
  rw [slice_of_le (Nat.le_add_right _ _) hfits, ok_bind, Nat.add_sub_cancel_left, u32FromLeBytes,
    if_pos hlength]
  rfl

theorem wordAt_u32Words {values : List Nat} {position value : Nat}
    (h : values[position]? = some value) (hvalue : value ≤ u32Max) :
    wordAt (u32Words values) position = value := by
  have hlt : value < 256 ^ 4 := by
    have hmax : u32Max < 256 ^ 4 := by norm_num [u32Max]
    omega
  unfold wordAt u32Words
  rw [LittleEndian.take_drop_encodeAll h, LittleEndian.decode_encode_of_lt 4 value hlt]

theorem u32Slice_u32Words {values : List Nat} {position value start stop : Nat}
    (h : values[position]? = some value) (hvalue : value ≤ u32Max) (hstart : start = position * 4)
    (hstop : stop = position * 4 + 4) (mismatch : Error) :
    u32Slice (u32Words values) start stop mismatch = .ok value := by
  subst hstart hstop
  have hlt : position < values.length := (List.getElem?_eq_some_iff.mp h).1
  have hfits : position * 4 + 4 ≤ (u32Words values).length := by
    rw [length_u32Words]
    omega
  unfold u32Slice
  rw [slice_of_le (Nat.le_add_right _ _) hfits, ok_bind, Nat.add_sub_cancel_left]
  unfold u32Words
  rw [LittleEndian.take_drop_encodeAll h]
  exact u32FromLeBytes_u32ToLeBytes hvalue mismatch

end KeyVault
