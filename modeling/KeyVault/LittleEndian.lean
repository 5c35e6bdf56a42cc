import Mathlib.Data.Nat.Digits.Defs

/-! Fixed-width little-endian integers as lists of bytes. Decoding is Mathlib's
`Nat.ofDigits` in base 256, so only the fixed-width encoder is new. -/
namespace LittleEndian

/-- The `width` low bytes of `value`, least significant first. -/
def encode : Nat → Nat → List UInt8
  | 0, _ => []
  | width + 1, value => UInt8.ofNat value :: encode width (value / 256)

def decode (bytes : List UInt8) : Nat :=
  Nat.ofDigits 256 (bytes.map UInt8.toNat)

@[simp] theorem length_encode (width value : Nat) : (encode width value).length = width := by
  induction width generalizing value with
  | zero => rfl
  | succ width ih => simp [encode, ih]

@[simp] theorem decode_nil : decode [] = 0 := rfl

theorem decode_cons (byte : UInt8) (bytes : List UInt8) :
    decode (byte :: bytes) = byte.toNat + 256 * decode bytes := by
  simp [decode, Nat.ofDigits_cons]

theorem decode_lt (bytes : List UInt8) : decode bytes < 256 ^ bytes.length := by
  have hlt := Nat.ofDigits_lt_base_pow_length (l := bytes.map UInt8.toNat)
    (show 1 < 256 by decide) (by
      intro digit hdigit
      obtain ⟨byte, -, rfl⟩ := List.mem_map.mp hdigit
      exact byte.toNat_lt)
  rw [List.length_map] at hlt
  exact hlt

theorem decode_encode_mod (width value : Nat) :
    decode (encode width value) = value % 256 ^ width := by
  induction width generalizing value with
  | zero => simp [encode, Nat.mod_one]
  | succ width ih =>
    have hbyte : (UInt8.ofNat value).toNat = value % 256 := UInt8.toNat_ofNat'
    rw [encode, decode_cons, ih, hbyte, pow_succ', Nat.mod_mul]

theorem decode_encode_of_lt (width value : Nat) (h : value < 256 ^ width) :
    decode (encode width value) = value := by
  rw [decode_encode_mod, Nat.mod_eq_of_lt h]

def encodeAll (width : Nat) (values : List Nat) : List UInt8 :=
  values.flatMap (encode width)

@[simp] theorem encodeAll_nil (width : Nat) : encodeAll width [] = [] := rfl

@[simp] theorem encodeAll_cons (width value : Nat) (values : List Nat) :
    encodeAll width (value :: values) = encode width value ++ encodeAll width values := rfl

@[simp] theorem length_encodeAll (width : Nat) (values : List Nat) :
    (encodeAll width values).length = values.length * width := by
  induction values with
  | nil => simp
  | cons value values ih =>
    rw [encodeAll_cons, List.length_append, length_encode, ih, List.length_cons, Nat.succ_mul,
      Nat.add_comm]

theorem take_drop_encodeAll {width : Nat} {values : List Nat} {position value : Nat}
    (h : values[position]? = some value) :
    ((encodeAll width values).drop (position * width)).take width = encode width value := by
  induction values generalizing position with
  | nil => simp at h
  | cons first values ih =>
    rw [encodeAll_cons]
    cases position with
    | zero =>
      simp only [List.getElem?_cons_zero, Option.some.injEq] at h
      subst h
      rw [Nat.zero_mul, List.drop_zero, List.take_left' (length_encode width first)]
    | succ position =>
      simp only [List.getElem?_cons_succ] at h
      rw [Nat.succ_mul, Nat.add_comm, ← List.drop_drop,
        List.drop_left' (length_encode width first)]
      exact ih h

end LittleEndian
