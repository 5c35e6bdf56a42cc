import KeyVault.Pairings
import KeyVault.VaultState

/-! The built-in codices: a table of 256 bytes, built from a list of swap pairs or from a
shuffle of all bytes. -/
namespace KeyVault

open Pairings

abbrev ByteTable (α : Type) := Vector α 256

namespace ByteTable

variable {α : Type}

def read (table : ByteTable α) (byte : UInt8) : α :=
  have hplace : byte.toNat < 256 := byte.toNat_lt
  table[byte.toNat]

def write (table : ByteTable α) (byte : UInt8) (value : α) : ByteTable α :=
  table.set byte.toNat value byte.toNat_lt

def filled (value : α) : ByteTable α := Vector.replicate 256 value

theorem read_filled (value : α) (byte : UInt8) : (filled value).read byte = value := by
  simp [filled, read]

theorem read_write (table : ByteTable α) (byte : UInt8) (value : α) :
    (table.write byte value).read = Function.update table.read byte value := by
  funext other
  by_cases hsame : other = byte
  · rw [hsame, Function.update_self]
    simp [read, write]
  · have hplace : byte.toNat ≠ other.toNat := fun h => hsame (UInt8.toNat_inj.mp h.symm)
    rw [Function.update_of_ne hsame]
    simp [read, write, hplace]

theorem read_injective : Function.Injective (read : ByteTable α → UInt8 → α) := by
  intro table table' h
  apply Vector.ext
  intro place hplace
  have hbyte : (UInt8.ofNat place).toNat = place := UInt8.toNat_ofNat_of_lt' hplace
  have := congrFun h (UInt8.ofNat place)
  simpa [read, hbyte] using this

def identity : ByteTable UInt8 := Vector.ofFn fun place => UInt8.ofNat place.val

theorem read_identity : identity.read = id := by
  funext byte
  simp [identity, read]

end ByteTable

structure StaticCodex where
  table : ByteTable UInt8
deriving DecidableEq

namespace StaticCodex

def encode (codex : StaticCodex) (byte : UInt8) : UInt8 := codex.table.read byte

def decode (codex : StaticCodex) (byte : UInt8) : UInt8 := codex.table.read byte

def codex (c : StaticCodex) : Codex := ⟨c.encode, c.decode⟩

/-- The loop of `from_swaps`. -/
def applySwaps (table : ByteTable UInt8) (used : ByteTable Bool) :
    List (UInt8 × UInt8) → Result (ByteTable UInt8)
  | [] => .ok table
  | (a, b) :: swaps =>
      if a = b then applySwaps table (used.write a true) swaps
      else if used.read a || used.read b then
        fail (.codex "byte appears in more than one swap pair")
      else
        applySwaps ((table.write a b).write b a) ((used.write a true).write b true) swaps

def fromSwaps (swaps : List (UInt8 × UInt8)) : Result StaticCodex := do
  let table ← applySwaps .identity (.filled false) swaps
  return ⟨table⟩

/-- `perm[0]` and `perm[1]`, `perm[2]` and `perm[3]`, and so on. -/
def pairAdjacent (table : ByteTable UInt8) : List UInt8 → ByteTable UInt8
  | a :: b :: perm => pairAdjacent ((table.write a b).write b a) perm
  | _ => table

def randomInvolution (rng : Rng) : Result (StaticCodex × Rng) :=
  match fisherYates ((List.range 256).map UInt8.ofNat) rng with
  | (.error exit, _) => .error exit
  | (.ok rng, perm) => .ok (⟨pairAdjacent .identity perm⟩, rng)

end StaticCodex

structure DynamicCodex where
  inner : StaticCodex

namespace DynamicCodex

def new (rng : Rng) : Result (DynamicCodex × Rng) := do
  let (inner, rng) ← StaticCodex.randomInvolution rng
  return (⟨inner⟩, rng)

def encode (codex : DynamicCodex) (byte : UInt8) : UInt8 := codex.inner.encode byte

def decode (codex : DynamicCodex) (byte : UInt8) : UInt8 := codex.inner.decode byte

end DynamicCodex

/-! ### Tables from swap pairs -/

def properSwaps (swaps : List (UInt8 × UInt8)) : List (UInt8 × UInt8) :=
  swaps.filter fun pair => decide (pair.1 ≠ pair.2)

/-- No byte of a self-swap is in a proper pair further on in the list. -/
def SelfSwapsLast : List (UInt8 × UInt8) → Prop
  | [] => True
  | (a, b) :: swaps => (a = b → a ∉ ends (properSwaps swaps)) ∧ SelfSwapsLast swaps

namespace StaticCodex

variable {swaps swaps' : List (UInt8 × UInt8)} {table table' : ByteTable UInt8} {used : ByteTable Bool}

theorem properSwaps_cons_self {a b : UInt8} (h : a = b) :
    properSwaps ((a, b) :: swaps) = properSwaps swaps := by
  simp [properSwaps, h]

theorem properSwaps_cons_proper {a b : UInt8} (h : a ≠ b) :
    properSwaps ((a, b) :: swaps) = (a, b) :: properSwaps swaps := by
  simp [properSwaps, h]

theorem read_write_pair (table : ByteTable UInt8) (a b : UInt8) :
    ((table.write a b).write b a).read = exchange table.read (a, b) := by
  rw [ByteTable.read_write, ByteTable.read_write]
  rfl

theorem applySwaps_read (h : applySwaps table used swaps = .ok table') :
    table'.read = exchangeAll table.read (properSwaps swaps) := by
  induction swaps generalizing table used with
  | nil =>
    cases h
    rfl
  | cons pair swaps ih =>
    obtain ⟨a, b⟩ := pair
    unfold applySwaps at h
    by_cases hself : a = b
    · rw [if_pos hself] at h
      rw [properSwaps_cons_self hself]
      exact ih h
    · rw [if_neg hself] at h
      split at h
      · cases h
      · rw [properSwaps_cons_proper hself, ih h, read_write_pair]
        rfl

theorem forall_update_eq_false {f : UInt8 → Bool} {a : UInt8} {bytes : List UInt8} :
    (∀ byte ∈ bytes, Function.update f a true byte = false) ↔
      a ∉ bytes ∧ ∀ byte ∈ bytes, f byte = false := by
  constructor
  · intro h
    have hnot : a ∉ bytes := fun ha => by simpa using h a ha
    refine ⟨hnot, ?_⟩
    intro byte hbyte
    have hne : byte ≠ a := fun hsame => hnot (hsame ▸ hbyte)
    rw [← h byte hbyte, Function.update_of_ne hne]
  · rintro ⟨hnot, h⟩ byte hbyte
    have hne : byte ≠ a := fun hsame => hnot (hsame ▸ hbyte)
    rw [Function.update_of_ne hne]
    exact h byte hbyte

/-- What the scan accepts: the used flags stand for the bytes it has passed. -/
theorem applySwaps_ok_iff :
    (∃ table', applySwaps table used swaps = .ok table') ↔
      (ends (properSwaps swaps)).Nodup ∧
        (∀ byte ∈ ends (properSwaps swaps), used.read byte = false) ∧ SelfSwapsLast swaps := by
  induction swaps generalizing table used with
  | nil => simp [applySwaps, properSwaps, ends, SelfSwapsLast]
  | cons pair swaps ih =>
    obtain ⟨a, b⟩ := pair
    unfold applySwaps SelfSwapsLast
    by_cases hself : a = b
    · rw [if_pos hself, ih, properSwaps_cons_self hself, ByteTable.read_write, forall_update_eq_false]
      simp only [hself, forall_const]
      tauto
    · rw [if_neg hself, properSwaps_cons_proper hself]
      by_cases hfree : (used.read a || used.read b) = true
      · rw [if_pos hfree]
        rw [Bool.or_eq_true] at hfree
        constructor
        · rintro ⟨table', h⟩
          cases h
        · rintro ⟨-, hunused, -⟩
          have ha := hunused a (by simp)
          have hb := hunused b (by simp)
          simp [ha, hb] at hfree
      · rw [if_neg hfree, ih, ByteTable.read_write, ByteTable.read_write, forall_update_eq_false,
          forall_update_eq_false]
        simp only [Bool.or_eq_true, not_or, Bool.not_eq_true] at hfree
        simp only [ends_cons, List.nodup_cons, List.mem_cons, not_or, forall_eq_or_imp, hfree, hself,
          not_false_eq_true, true_and, false_implies]
        tauto

theorem fromSwaps_ok_iff : (∃ codex, fromSwaps swaps = .ok codex) ↔
    (ends (properSwaps swaps)).Nodup ∧ SelfSwapsLast swaps := by
  have hscan : (∃ table, applySwaps .identity (.filled false) swaps = .ok table) ↔ _ :=
    applySwaps_ok_iff
  simp only [ByteTable.read_filled, implies_true, true_and] at hscan
  rw [← hscan]
  unfold fromSwaps
  cases applySwaps .identity (.filled false) swaps with
  | error exit => simp [bind, Except.bind]
  | ok table => simp [bind, Except.bind, pure, Except.pure]

theorem encode_fromSwaps {codex : StaticCodex} (h : fromSwaps swaps = .ok codex) :
    codex.encode = exchangeAll id (properSwaps swaps) := by
  obtain ⟨table, htable, hcodex⟩ := bind_eq_ok.mp h
  cases hcodex
  show table.read = _
  rw [applySwaps_read htable, ByteTable.read_identity]

theorem fromSwaps_error {exit : Exit} (h : fromSwaps swaps = .error exit) :
    exit = .error (.codex "byte appears in more than one swap pair") := by
  have hscan : ∀ table used, applySwaps table used swaps = .error exit →
      exit = .error (.codex "byte appears in more than one swap pair") := by
    clear h
    induction swaps with
    | nil =>
      intro table used h
      cases h
    | cons pair swaps ih =>
      intro table used h
      obtain ⟨a, b⟩ := pair
      unfold applySwaps at h
      split at h
      · exact ih _ _ h
      · split at h
        · cases h
          rfl
        · exact ih _ _ h
  unfold fromSwaps at h
  cases htable : applySwaps .identity (.filled false) swaps with
  | error exit' =>
    rw [htable] at h
    cases h
    exact hscan _ _ htable
  | ok table =>
    rw [htable] at h
    cases h

/-! ### Tables from a shuffle -/

theorem read_pairAdjacent (perm : List UInt8) (table : ByteTable UInt8) :
    (pairAdjacent table perm).read = exchangeAll table.read (adjacentPairs perm) := by
  fun_induction pairAdjacent table perm with
  | case1 table a b perm ih =>
    rw [ih, read_write_pair]
    rfl
  | case2 perm table hshort =>
    have hnone : adjacentPairs perm = [] := by
      unfold adjacentPairs
      split
      · exact absurd rfl (hshort _ _ _)
      · rfl
    rw [hnone]
    rfl

theorem encode_pairAdjacent (perm : List UInt8) :
    (StaticCodex.mk (pairAdjacent .identity perm)).encode = exchangeAll id (adjacentPairs perm) := by
  show (pairAdjacent .identity perm).read = _
  rw [read_pairAdjacent, ByteTable.read_identity]

theorem allBytes_nodup : ((List.range 256).map UInt8.ofNat).Nodup := by
  apply List.nodup_range.map_on
  intro left hleft right hright hsame
  have := congrArg UInt8.toNat hsame
  rwa [UInt8.toNat_ofNat_of_lt' (List.mem_range.mp hleft),
    UInt8.toNat_ofNat_of_lt' (List.mem_range.mp hright)] at this

theorem mem_allBytes (byte : UInt8) : byte ∈ (List.range 256).map UInt8.ofNat :=
  List.mem_map.mpr ⟨byte.toNat, List.mem_range.mpr byte.toNat_lt, UInt8.ofNat_toNat⟩

theorem encode_randomInvolution {rng rng' : Rng} {codex : StaticCodex}
    (h : randomInvolution rng = .ok (codex, rng')) :
    ∃ pairs, codex.encode = exchangeAll id pairs ∧ (ends pairs).Nodup ∧ ∀ byte, byte ∈ ends pairs := by
  have hperm := fisherYates_perm ((List.range 256).map UInt8.ofNat) rng
  unfold randomInvolution at h
  split at h
  · cases h
  · rename_i rng₁ perm hshuffle
    cases h
    rw [hshuffle] at hperm
    have hends : ends (adjacentPairs perm) = perm := by
      apply ends_adjacentPairs
      rw [hperm.length_eq, List.length_map, List.length_range]
    refine ⟨adjacentPairs perm, encode_pairAdjacent perm, ?_, ?_⟩
    · rw [hends]
      exact hperm.nodup_iff.mpr allBytes_nodup
    · intro byte
      rw [hends]
      exact hperm.mem_iff.mpr (mem_allBytes byte)

theorem mem_ends_properSwaps {byte : UInt8} : byte ∈ ends (properSwaps swaps) ↔
    ∃ pair ∈ swaps, pair.1 ≠ pair.2 ∧ (byte = pair.1 ∨ byte = pair.2) := by
  simp only [mem_ends, properSwaps, List.mem_filter, decide_eq_true_eq, and_assoc]

theorem fromSwaps_involution {codex : StaticCodex} (h : fromSwaps swaps = .ok codex) :
    (∀ byte, codex.encode (codex.encode byte) = byte) ∧
      (∀ pair ∈ swaps, pair.1 ≠ pair.2 →
        codex.encode pair.1 = pair.2 ∧ codex.encode pair.2 = pair.1) ∧
      ∀ byte, (∀ pair ∈ swaps, pair.1 ≠ pair.2 → byte ≠ pair.1 ∧ byte ≠ pair.2) →
        codex.encode byte = byte := by
  have hnodup := (fromSwaps_ok_iff.mp ⟨codex, h⟩).1
  rw [encode_fromSwaps h]
  refine ⟨exchangeAll_involutive hnodup, ?_, ?_⟩
  · intro pair hpair hproper
    exact exchangeAll_of_mem id hnodup (List.mem_filter.mpr ⟨hpair, by simpa using hproper⟩)
  · intro byte hout
    apply exchangeAll_of_not_mem id
    intro hmem
    obtain ⟨pair, hpair, hproper, hend⟩ := mem_ends_properSwaps.mp hmem
    have hnot := hout pair hpair hproper
    tauto

theorem randomInvolution_involution {rng rng' : Rng} {codex : StaticCodex}
    (h : randomInvolution rng = .ok (codex, rng')) (byte : UInt8) :
    codex.encode (codex.encode byte) = byte ∧ codex.encode byte ≠ byte := by
  obtain ⟨pairs, hencode, hnodup, hall⟩ := encode_randomInvolution h
  rw [hencode]
  exact ⟨exchangeAll_involutive hnodup byte, exchangeAll_ne_self id hnodup (hall byte)⟩

end StaticCodex

/-- The built-in codices undo themselves: from any swap pairs that are accepted, and from any
shuffle, which leaves no byte as it is. -/
theorem codices_involutive :
    (∀ (swaps : List (UInt8 × UInt8)) (codex : StaticCodex), StaticCodex.fromSwaps swaps = .ok codex →
      (∀ byte, codex.encode (codex.encode byte) = byte ∧ codex.decode byte = codex.encode byte) ∧
      (∀ pair ∈ swaps, pair.1 ≠ pair.2 →
        codex.encode pair.1 = pair.2 ∧ codex.encode pair.2 = pair.1) ∧
      ∀ byte, (∀ pair ∈ swaps, pair.1 ≠ pair.2 → byte ≠ pair.1 ∧ byte ≠ pair.2) →
        codex.encode byte = byte) ∧
    (∀ (rng rng' : Rng) (codex : StaticCodex), StaticCodex.randomInvolution rng = .ok (codex, rng') →
      ∀ byte, codex.encode (codex.encode byte) = byte ∧ codex.encode byte ≠ byte) ∧
    ∀ (rng rng' : Rng) (codex : DynamicCodex), DynamicCodex.new rng = .ok (codex, rng') →
      ∀ byte, codex.encode (codex.encode byte) = byte ∧ codex.encode byte ≠ byte := by
  refine ⟨?_, ?_, ?_⟩
  · intro swaps codex h
    obtain ⟨hinvolutive, hpairs, hfixed⟩ := StaticCodex.fromSwaps_involution h
    exact ⟨fun byte => ⟨hinvolutive byte, rfl⟩, hpairs, hfixed⟩
  · intro rng rng' codex h
    exact StaticCodex.randomInvolution_involution h
  · intro rng rng' codex h
    obtain ⟨⟨inner, rng₁⟩, hinner, hresult⟩ := bind_eq_ok.mp h
    cases hresult
    exact StaticCodex.randomInvolution_involution hinner

theorem codices_involutive_constant : ∃ codex rng',
    DynamicCodex.new (.constant 5) = .ok (codex, rng') ∧ codex.encode (codex.encode 7) = 7 ∧
      codex.encode 7 ≠ 7 := by
  have hok : (DynamicCodex.new (.constant 5)).toBool = true := by decide +kernel
  cases hnew : DynamicCodex.new (.constant 5) with
  | error exit =>
    rw [hnew] at hok
    cases hok
  | ok out => exact ⟨out.1, out.2, rfl, codices_involutive.2.2 _ _ _ hnew 7⟩

/-! ### The order of the pairs -/

def OrderFree (swaps : List (UInt8 × UInt8)) : Prop :=
  ∀ swaps', swaps'.Perm swaps → StaticCodex.fromSwaps swaps' = StaticCodex.fromSwaps swaps

section Order

variable {swaps swaps' later : List (UInt8 × UInt8)}

theorem properSwaps_perm (h : swaps'.Perm swaps) : (properSwaps swaps').Perm (properSwaps swaps) :=
  h.filter _

theorem selfSwapsLast_of_apart
    (h : ∀ pair ∈ swaps, pair.1 = pair.2 → pair.1 ∉ ends (properSwaps swaps)) :
    SelfSwapsLast swaps := by
  induction swaps with
  | nil => trivial
  | cons pair swaps ih =>
    obtain ⟨a, b⟩ := pair
    have hmono : ∀ byte, byte ∈ ends (properSwaps swaps) →
        byte ∈ ends (properSwaps ((a, b) :: swaps)) := by
      intro byte hbyte
      obtain ⟨pair, hpair, hrest⟩ := StaticCodex.mem_ends_properSwaps.mp hbyte
      exact StaticCodex.mem_ends_properSwaps.mpr ⟨pair, List.mem_cons_of_mem _ hpair, hrest⟩
    refine ⟨?_, ih ?_⟩
    · intro hself hmem
      exact h (a, b) (List.mem_cons_self ..) hself (hmono a hmem)
    · intro pair hpair hself hmem
      exact h pair (List.mem_cons_of_mem _ hpair) hself (hmono _ hmem)

theorem not_mem_of_selfSwapsLast (h : SelfSwapsLast (swaps ++ later)) {byte : UInt8}
    (hself : (byte, byte) ∈ swaps) : byte ∉ ends (properSwaps later) := by
  induction swaps with
  | nil => cases hself
  | cons pair swaps ih =>
    rcases List.mem_cons.mp hself with rfl | hself
    · intro hmem
      apply h.1 rfl
      obtain ⟨pair, hpair, hrest⟩ := StaticCodex.mem_ends_properSwaps.mp hmem
      exact StaticCodex.mem_ends_properSwaps.mpr ⟨pair, List.mem_append_right _ hpair, hrest⟩
    · exact ih h.2 hself

theorem selfSwapsLast_append (hproper : ∀ pair ∈ swaps, pair.1 ≠ pair.2)
    (h : SelfSwapsLast later) : SelfSwapsLast (swaps ++ later) := by
  induction swaps with
  | nil => exact h
  | cons pair swaps ih =>
    obtain ⟨hpair, hrest⟩ := List.forall_mem_cons.mp hproper
    exact ⟨fun hself => absurd hself hpair, ih hrest⟩

theorem fromSwaps_congr (h : swaps'.Perm swaps)
    (haccepted : (∃ codex, StaticCodex.fromSwaps swaps' = .ok codex) ↔
      ∃ codex, StaticCodex.fromSwaps swaps = .ok codex) :
    StaticCodex.fromSwaps swaps' = StaticCodex.fromSwaps swaps := by
  cases hleft : StaticCodex.fromSwaps swaps' with
  | error exit =>
    cases hright : StaticCodex.fromSwaps swaps with
    | error exit' => rw [StaticCodex.fromSwaps_error hleft, StaticCodex.fromSwaps_error hright]
    | ok codex => simp [hleft, hright] at haccepted
  | ok codex =>
    cases hright : StaticCodex.fromSwaps swaps with
    | error exit' => simp [hleft, hright] at haccepted
    | ok codex' =>
      have hnodup := (StaticCodex.fromSwaps_ok_iff.mp ⟨codex, hleft⟩).1
      have hsame : codex.encode = codex'.encode := by
        rw [StaticCodex.encode_fromSwaps hleft, StaticCodex.encode_fromSwaps hright]
        exact exchangeAll_congr id hnodup (properSwaps_perm h)
      have htables : codex.table = codex'.table := ByteTable.read_injective hsame
      obtain ⟨table⟩ := codex
      obtain ⟨table'⟩ := codex'
      rw [show table = table' from htables]

end Order

/-- The order does not matter if two proper pairs share a byte, since then no order is
accepted, or if no byte of a self-swap is in a proper pair; it does matter otherwise. -/
theorem orderFree_iff (swaps : List (UInt8 × UInt8)) :
    OrderFree swaps ↔ ¬(ends (properSwaps swaps)).Nodup ∨
      ∀ pair ∈ swaps, pair.1 = pair.2 → pair.1 ∉ ends (properSwaps swaps) := by
  constructor
  · intro hfree
    by_contra hboth
    simp only [not_or, not_not, not_forall] at hboth
    obtain ⟨hnodup, ⟨a, b⟩, hpair, hself, hmem⟩ := hboth
    dsimp only at hself hmem
    subst hself
    -- all self-swaps behind the proper pairs, and all of them in front
    let selfSwaps := swaps.filter fun pair => !decide (pair.1 ≠ pair.2)
    have hbehind : (properSwaps swaps ++ selfSwaps).Perm swaps := List.filter_append_perm _ _
    have hfront : (selfSwaps ++ properSwaps swaps).Perm swaps := List.perm_append_comm.trans hbehind
    have hself : ∀ pair ∈ selfSwaps, pair.1 = pair.2 := by
      intro pair hpair
      simpa using (List.mem_filter.mp hpair).2
    obtain ⟨codex, hcodex⟩ : ∃ codex, StaticCodex.fromSwaps (properSwaps swaps ++ selfSwaps) = .ok codex := by
      apply StaticCodex.fromSwaps_ok_iff.mpr
      refine ⟨(ends_perm (properSwaps_perm hbehind)).nodup_iff.mpr hnodup, ?_⟩
      apply selfSwapsLast_append
      · intro pair hpair
        simpa using (List.mem_filter.mp hpair).2
      · apply selfSwapsLast_of_apart
        intro pair _ _ hends
        obtain ⟨other, hother, hproper, -⟩ := StaticCodex.mem_ends_properSwaps.mp hends
        exact hproper (hself other hother)
    rw [hfree _ hbehind, ← hfree _ hfront] at hcodex
    have hlast := (StaticCodex.fromSwaps_ok_iff.mp ⟨codex, hcodex⟩).2
    apply not_mem_of_selfSwapsLast hlast (List.mem_filter.mpr ⟨hpair, by simp⟩)
    obtain ⟨pair, hproper, hend⟩ := mem_ends.mp hmem
    apply StaticCodex.mem_ends_properSwaps.mpr
    exact ⟨pair, hproper, by simpa using (List.mem_filter.mp hproper).2, hend⟩
  · intro hapart swaps' hperm
    have hends := ends_perm (properSwaps_perm hperm)
    apply fromSwaps_congr hperm
    rw [StaticCodex.fromSwaps_ok_iff, StaticCodex.fromSwaps_ok_iff, hends.nodup_iff]
    rcases hapart with hshared | hapart
    · simp [hshared]
    · have hlast : SelfSwapsLast swaps := selfSwapsLast_of_apart hapart
      have hlast' : SelfSwapsLast swaps' := by
        apply selfSwapsLast_of_apart
        intro pair hpair hself hmem
        exact hapart pair (hperm.mem_iff.mp hpair) hself (hends.mem_iff.mp hmem)
      simp [hlast, hlast']

/-- The self-swap of 5 is refused in front of the pair it is a part of, and accepted behind
it. -/
theorem selfSwap_not_orderFree : ¬OrderFree [(5, 5), (5, 9)] := by
  intro hfree
  have hsame := hfree [(5, 9), (5, 5)] (List.Perm.swap ..)
  have hleft : (StaticCodex.fromSwaps [(5, 9), (5, 5)]).toBool = true := by decide +kernel
  have hright : (StaticCodex.fromSwaps [(5, 5), (5, 9)]).toBool = false := by decide +kernel
  rw [hsame, hright] at hleft
  cases hleft

end KeyVault
