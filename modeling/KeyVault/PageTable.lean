import KeyVault.StrideLoop
import KeyVault.VaultState

/-! The process-wide page table of `memory`: which pages hold key material, how many
buffers use each, and what the operating system was asked to do with it. A region may
end at the very top of the address space, and every call to the operating system may
fail. -/
namespace KeyVault

open StrideLoop

/-- The width of an address and of a page; a page is a power of two that fits into an
address. -/
structure Platform where
  bits : Nat
  pageBits : Nat
  small : pageBits < bits

namespace Platform

variable (plat : Platform)

def page : Nat := 2 ^ plat.pageBits

def size : Nat := 2 ^ plat.bits

def complement (value : Nat) : Nat := plat.size - 1 - value

def saturatingAdd (left right : Nat) : Nat := min (left + right) (plat.size - 1)

def pageSpan (addr len : Nat) : Nat × Nat :=
  (addr &&& plat.complement (plat.page - 1),
    plat.saturatingAdd addr (len - 1) &&& plat.complement (plat.page - 1))

theorem page_pos : 0 < plat.page := Nat.two_pow_pos _

theorem land_complement {addr : Nat} (h : addr < plat.size) :
    addr &&& plat.complement (plat.page - 1) = addr / plat.page * plat.page := by
  have hmask : plat.complement (plat.page - 1) = (2 ^ (plat.bits - plat.pageBits) - 1) * plat.page := by
    have hsplit : plat.size = 2 ^ (plat.bits - plat.pageBits) * plat.page := by
      unfold size page
      rw [← pow_add, Nat.sub_add_cancel (Nat.le_of_lt plat.small)]
    have hpos := plat.page_pos
    unfold complement
    rw [hsplit, Nat.sub_mul]
    omega
  rw [hmask]
  unfold page
  apply Nat.eq_of_testBit_eq
  intro i
  rw [Nat.testBit_and, Nat.testBit_mul_two_pow, Nat.testBit_mul_two_pow, Nat.testBit_div_two_pow,
    Nat.testBit_two_pow_sub_one]
  by_cases hi : plat.pageBits ≤ i
  · rw [Nat.sub_add_cancel hi]
    by_cases htop : i < plat.bits
    · have hlow : i - plat.pageBits < plat.bits - plat.pageBits := by omega
      simp [hi, hlow]
    · have hhigh : addr.testBit i = false := by
        apply Nat.testBit_lt_two_pow
        exact Nat.lt_of_lt_of_le h (Nat.pow_le_pow_right (by decide) (Nat.le_of_not_lt htop))
      simp [hhigh]
  · simp [hi]

end Platform

/-- Bytes in use: at least one, and all of them below the top of the address space. -/
structure Region (plat : Platform) where
  addr : Nat
  len : Nat
  pos : 0 < len
  fits : addr + len ≤ plat.size

namespace Region

variable {plat : Platform} (region : Region plat)

def Touches (addr : Nat) : Prop :=
  plat.page ∣ addr ∧ addr < region.addr + region.len ∧ region.addr < addr + plat.page

instance (addr : Nat) : Decidable (region.Touches addr) :=
  inferInstanceAs (Decidable (_ ∧ _ ∧ _))

def further : Nat := (region.addr + region.len - 1) / plat.page - region.addr / plat.page

def pages : List Nat :=
  List.range' (region.addr / plat.page * plat.page) (region.further + 1) plat.page

theorem last_page : region.addr / plat.page * plat.page + region.further * plat.page =
    (region.addr + region.len - 1) / plat.page * plat.page := by
  have hle : region.addr / plat.page ≤ (region.addr + region.len - 1) / plat.page :=
    Nat.div_le_div_right (by have := region.pos; omega)
  unfold further
  rw [← Nat.add_mul, Nat.add_sub_of_le hle]

theorem pageSpan_eq : plat.pageSpan region.addr region.len =
    (region.addr / plat.page * plat.page,
      region.addr / plat.page * plat.page + region.further * plat.page) := by
  have hpos := region.pos
  have hfits := region.fits
  have hlast : plat.saturatingAdd region.addr (region.len - 1) = region.addr + region.len - 1 := by
    unfold Platform.saturatingAdd
    omega
  unfold Platform.pageSpan
  rw [plat.land_complement (by omega), hlast, plat.land_complement (by omega), last_page]

theorem nodup_pages : region.pages.Nodup := List.nodup_range' plat.page (by exact plat.page_pos)

theorem mem_pages {addr : Nat} : addr ∈ region.pages ↔ region.Touches addr := by
  have hpage := plat.page_pos
  have hpos := region.pos
  have hle : region.addr / plat.page ≤ (region.addr + region.len - 1) / plat.page :=
    Nat.div_le_div_right (by omega)
  unfold pages further
  rw [List.mem_range']
  constructor
  · rintro ⟨i, hi, rfl⟩
    have hnumber : region.addr / plat.page * plat.page + plat.page * i =
        plat.page * (region.addr / plat.page + i) := by
      rw [Nat.mul_add, Nat.mul_comm plat.page (region.addr / plat.page)]
    have hend : plat.page * (region.addr / plat.page + i) ≤ region.addr + region.len - 1 := by
      calc plat.page * (region.addr / plat.page + i)
          ≤ plat.page * ((region.addr + region.len - 1) / plat.page) :=
            Nat.mul_le_mul_left _ (by omega)
        _ ≤ region.addr + region.len - 1 := Nat.mul_div_le _ _
    have hstart : region.addr < region.addr / plat.page * plat.page + plat.page :=
      Nat.lt_div_mul_add hpage
    refine ⟨⟨_, hnumber⟩, ?_, by omega⟩
    rw [hnumber]
    omega
  · rintro ⟨⟨number, rfl⟩, hbefore, hafter⟩
    have hlast : number ≤ (region.addr + region.len - 1) / plat.page := by
      rw [Nat.le_div_iff_mul_le hpage, Nat.mul_comm]
      omega
    have hfirst : region.addr / plat.page < number + 1 := by
      rw [Nat.div_lt_iff_lt_mul hpage, Nat.add_mul, Nat.one_mul, Nat.mul_comm number]
      exact hafter
    refine ⟨number - region.addr / plat.page, by omega, ?_⟩
    rw [Nat.mul_comm _ plat.page, ← Nat.mul_add, Nat.add_sub_of_le (by omega)]

theorem walk_pages {σ : Type} (body : Nat → σ → σ) (s : σ) :
    walk plat.size plat.page (plat.pageSpan region.addr region.len).2 body plat.size
        (plat.pageSpan region.addr region.len).1 s =
      some (region.pages.foldl (fun s addr => body addr s) s) := by
  have hpos := region.pos
  have hfits := region.fits
  have hpage := plat.page_pos
  have hend : region.addr / plat.page * plat.page + region.further * plat.page < plat.size := by
    rw [last_page]
    have := Nat.div_mul_le_self (region.addr + region.len - 1) plat.page
    omega
  rw [pageSpan_eq]
  apply walk_eq body hpage hend
  have hfurther : region.further ≤ region.further * plat.page := Nat.le_mul_of_pos_right _ hpage
  omega

end Region

/-! ### The table -/

structure PageState where
  /-- Live buffers that touch the page. -/
  refs : Nat
  /-- The page is locked by this module. -/
  locked : Bool
  /-- The page is excluded from dumps by this module. -/
  noDump : Bool
deriving DecidableEq, Repr

/-- `PAGES`, and what the operating system does with each page because of it. -/
structure PageMemory where
  table : AList fun _ : Nat => PageState
  osLocked : Nat → Bool
  osExcluded : Nat → Bool

def PageMemory.new : PageMemory := ⟨∅, fun _ => false, fun _ => false⟩

/-- How the operating system answers during one call, page by page. -/
structure PageAnswers where
  locks : Nat → Bool
  excludes : Nat → Bool

namespace PageMemory

/-- Ask for the lock of a page; a refused request changes nothing. -/
def lockPages (m : PageMemory) (answers : PageAnswers) (addr : Nat) : Bool × PageMemory :=
  if answers.locks addr then (true, { m with osLocked := Function.update m.osLocked addr true })
  else (false, m)

def excludeFromDumps (m : PageMemory) (answers : PageAnswers) (addr : Nat) : Bool × PageMemory :=
  if answers.excludes addr then
    (true, { m with osExcluded := Function.update m.osExcluded addr true })
  else (false, m)

def unlockPages (m : PageMemory) (addr : Nat) : PageMemory :=
  { m with osLocked := Function.update m.osLocked addr false }

def includeInDumps (m : PageMemory) (addr : Nat) : PageMemory :=
  { m with osExcluded := Function.update m.osExcluded addr false }

def acquirePage (answers : PageAnswers) (addr : Nat) (acc : Bool × PageMemory) :
    Bool × PageMemory :=
  let state := (acc.2.table.lookup addr).getD ⟨0, false, false⟩
  let lock := if state.locked then (true, acc.2) else acc.2.lockPages answers addr
  let exclusion := if state.noDump then (true, lock.2) else lock.2.excludeFromDumps answers addr
  (acc.1 && lock.1,
    { exclusion.2 with
      table := exclusion.2.table.insert addr ⟨state.refs + 1, lock.1, exclusion.1⟩ })

def releasePage (addr : Nat) (m : PageMemory) : PageMemory :=
  match m.table.lookup addr with
  | none => m
  | some state =>
      if state.refs - 1 = 0 then
        let m := { m with table := m.table.erase addr }
        let m := if state.locked then m.unlockPages addr else m
        if state.noDump then m.includeInDumps addr else m
      else { m with table := m.table.insert addr { state with refs := state.refs - 1 } }

/-- Take one reference on every page of the region; `true` if all of them are locked. -/
def acquireRegion {plat : Platform} (m : PageMemory) (answers : PageAnswers)
    (region : Region plat) : Option (Bool × PageMemory) :=
  let span := plat.pageSpan region.addr region.len
  walk plat.size plat.page span.2 (acquirePage answers) plat.size span.1 (true, m)

def releaseRegion {plat : Platform} (m : PageMemory) (region : Region plat) : Option PageMemory :=
  let span := plat.pageSpan region.addr region.len
  walk plat.size plat.page span.2 releasePage plat.size span.1 m

end PageMemory

/-! ### One page -/

structure PageView where
  state : Option PageState
  locked : Bool
  excluded : Bool

namespace PageView

def acquired (answers : PageAnswers) (addr : Nat) (c : PageView) : PageView :=
  let state := c.state.getD ⟨0, false, false⟩
  { state := some ⟨state.refs + 1, state.locked || answers.locks addr,
      state.noDump || answers.excludes addr⟩
    locked := if state.locked then c.locked else answers.locks addr || c.locked
    excluded := if state.noDump then c.excluded else answers.excludes addr || c.excluded }

def released (c : PageView) : PageView :=
  match c.state with
  | none => c
  | some state =>
      if state.refs - 1 = 0 then
        { state := none
          locked := !state.locked && c.locked
          excluded := !state.noDump && c.excluded }
      else { c with state := some { state with refs := state.refs - 1 } }

/-- The page is in the table exactly when `count` is not 0, with that count, and its
flags say what the operating system does. -/
structure Counted (count : Nat) (c : PageView) : Prop where
  unused : count = 0 → c.state = none ∧ c.locked = false ∧ c.excluded = false
  used : 0 < count → c.state = some ⟨count, c.locked, c.excluded⟩

theorem Counted.acquired {count : Nat} {c : PageView} (h : Counted count c)
    (answers : PageAnswers) (addr : Nat) : Counted (count + 1) (c.acquired answers addr) := by
  refine ⟨fun hzero => absurd hzero (Nat.succ_ne_zero count), fun _ => ?_⟩
  rcases Nat.eq_zero_or_pos count with rfl | hpos
  · obtain ⟨hstate, hlocked, hexcluded⟩ := h.unused rfl
    simp [PageView.acquired, hstate, hlocked, hexcluded]
  · simp only [PageView.acquired, h.used hpos, Option.getD_some]
    cases c.locked <;> cases c.excluded <;> simp

theorem Counted.released {count : Nat} {c : PageView} (h : Counted (count + 1) c) :
    Counted count c.released := by
  have hstate := h.used (Nat.succ_pos count)
  unfold PageView.released
  rw [hstate]
  dsimp only
  rw [Nat.add_sub_cancel]
  split
  · rename_i hzero
    refine ⟨fun _ => ⟨rfl, ?_, ?_⟩, fun hpos => by omega⟩
    · cases c.locked <;> rfl
    · cases c.excluded <;> rfl
  · rename_i hpos
    exact ⟨fun hzero => absurd hzero hpos, fun _ => rfl⟩

theorem locked_acquired {c : PageView} (answers : PageAnswers) (addr : Nat)
    (h : c.locked = true) : (c.acquired answers addr).locked = true := by
  simp [PageView.acquired, h]

theorem Counted.locked_released {count : Nat} {c : PageView} (h : Counted (count + 1) c)
    (hpos : 0 < count) (hlocked : c.locked = true) : c.released.locked = true := by
  unfold PageView.released
  rw [h.used (Nat.succ_pos count)]
  dsimp only
  rw [Nat.add_sub_cancel, if_neg (by omega)]
  exact hlocked

end PageView

namespace PageMemory

def view (m : PageMemory) (addr : Nat) : PageView :=
  ⟨m.table.lookup addr, m.osLocked addr, m.osExcluded addr⟩

def locksPage (answers : PageAnswers) (addr : Nat) (c : PageView) : Bool :=
  (c.state.getD ⟨0, false, false⟩).locked || answers.locks addr

theorem locked_of_locksPage {count : Nat} {c : PageView} (h : PageView.Counted count c)
    {answers : PageAnswers} {addr : Nat} (hlocks : locksPage answers addr c = true) :
    (c.acquired answers addr).locked = true := by
  have hstate := (h.acquired answers addr).used (Nat.succ_pos count)
  have hflag : locksPage answers addr c = (c.acquired answers addr).locked :=
    congrArg PageState.locked (Option.some.inj hstate)
  rw [← hflag, hlocks]

theorem acquirePage_fst (answers : PageAnswers) (addr : Nat) (acc : Bool × PageMemory) :
    (acquirePage answers addr acc).1 = (acc.1 && locksPage answers addr (acc.2.view addr)) := by
  unfold acquirePage locksPage lockPages view
  dsimp only
  cases ((acc.2.table.lookup addr).getD ⟨0, false, false⟩).locked with
  | true => rfl
  | false =>
    simp only [Bool.false_eq_true, if_false, Bool.false_or]
    cases answers.locks addr <;> rfl

theorem acquirePage_snd (answers : PageAnswers) (addr : Nat) (acc : Bool × PageMemory) :
    (acquirePage answers addr acc).2 = (acquirePage answers addr (true, acc.2)).2 := rfl

theorem acquirePage_os (answers : PageAnswers) (addr : Nat) (m : PageMemory) :
    (acquirePage answers addr (true, m)).2 =
      { table := m.table.insert addr ⟨((m.table.lookup addr).getD ⟨0, false, false⟩).refs + 1,
          ((m.table.lookup addr).getD ⟨0, false, false⟩).locked || answers.locks addr,
          ((m.table.lookup addr).getD ⟨0, false, false⟩).noDump || answers.excludes addr⟩
        osLocked := Function.update m.osLocked addr ((m.view addr).acquired answers addr).locked
        osExcluded :=
          Function.update m.osExcluded addr ((m.view addr).acquired answers addr).excluded } := by
  unfold acquirePage PageView.acquired view lockPages excludeFromDumps
  dsimp only
  generalize (m.table.lookup addr).getD ⟨0, false, false⟩ = state
  cases state.locked <;> cases answers.locks addr <;> cases state.noDump <;>
    cases answers.excludes addr <;> simp

theorem view_acquirePage (answers : PageAnswers) (addr : Nat) (m : PageMemory) :
    (acquirePage answers addr (true, m)).2.view =
      Function.update m.view addr ((m.view addr).acquired answers addr) := by
  rw [acquirePage_os]
  funext other
  by_cases hother : other = addr
  · subst hother
    simp [view, PageView.acquired]
  · simp [view, hother, AList.lookup_insert_ne hother]

theorem view_releasePage (addr : Nat) (m : PageMemory) :
    (releasePage addr m).view = Function.update m.view addr (m.view addr).released := by
  have hself : (m.view addr).state = m.table.lookup addr := rfl
  unfold releasePage PageView.released
  rw [hself]
  cases m.table.lookup addr with
  | none => exact (Function.update_eq_self addr m.view).symm
  | some state =>
    dsimp only
    funext other
    by_cases hother : other = addr
    · subst hother
      rw [Function.update_self]
      unfold view unlockPages includeInDumps
      cases state.locked <;> cases state.noDump <;> split <;> simp
    · rw [Function.update_of_ne hother]
      unfold view unlockPages includeInDumps
      cases state.locked <;> cases state.noDump <;> split <;>
        simp [hother, AList.lookup_insert_ne hother, AList.lookup_erase_ne hother]

section Regions

variable {plat : Platform}

theorem acquireRegion_spec (m : PageMemory) (answers : PageAnswers) (region : Region plat) :
    ∃ m', m.acquireRegion answers region =
        some (region.pages.all fun addr => locksPage answers addr (m.view addr), m') ∧
      ∀ addr, m'.view addr =
        if region.Touches addr then (m.view addr).acquired answers addr else m.view addr := by
  have hbody : ∀ addr m, (acquirePage answers addr (true, m)).2.view =
      Function.update m.view addr ((fun addr c => PageView.acquired answers addr c) addr (m.view addr)) :=
    fun addr m => view_acquirePage answers addr m
  have hall := foldl_all hbody (locksPage answers) region.nodup_pages true m
  refine ⟨region.pages.foldl (fun m addr => (acquirePage answers addr (true, m)).2) m, ?_, ?_⟩
  · unfold acquireRegion
    rw [region.walk_pages (acquirePage answers) (true, m)]
    rw [Bool.true_and] at hall
    rw [← hall]
    congr 1
    apply List.foldl_ext
    intro acc addr _
    exact Prod.ext (acquirePage_fst answers addr acc) (acquirePage_snd answers addr acc)
  · intro addr
    rw [view_foldl hbody region.nodup_pages m addr]
    simp only [region.mem_pages]

theorem releaseRegion_spec (m : PageMemory) (region : Region plat) :
    ∃ m', m.releaseRegion region = some m' ∧ ∀ addr, m'.view addr =
      if region.Touches addr then (m.view addr).released else m.view addr := by
  have hbody : ∀ addr m, (releasePage addr m).view =
      Function.update m.view addr ((fun _ c => PageView.released c) addr (m.view addr)) :=
    fun addr m => view_releasePage addr m
  refine ⟨_, region.walk_pages releasePage m, ?_⟩
  intro addr
  rw [view_foldl hbody region.nodup_pages m addr]
  simp only [region.mem_pages]

end Regions

end PageMemory

/-! ### Runs -/

structure HeldPages (plat : Platform) where
  memory : PageMemory
  held : List (Region plat × Bool)

inductive PageOp (plat : Platform) where
  | acquire (region : Region plat) (answers : PageAnswers)
  | release (position : Nat)

namespace HeldPages

variable {plat : Platform}

def new : HeldPages plat := ⟨.new, []⟩

def step (s : HeldPages plat) : PageOp plat → Option (HeldPages plat)
  | .acquire region answers =>
      (s.memory.acquireRegion answers region).map fun out =>
        ⟨out.2, s.held ++ [(region, out.1)]⟩
  | .release position =>
      match s.held[position]? with
      | none => none
      | some (region, _) =>
          (s.memory.releaseRegion region).map fun m => ⟨m, s.held.eraseIdx position⟩

def run (ops : List (PageOp plat)) : Option (HeldPages plat) := ops.foldlM step new

/-- The number of held regions that touch the page. -/
def touching (s : HeldPages plat) (addr : Nat) : Nat :=
  s.held.countP fun entry => entry.1.Touches addr

structure Sound (s : HeldPages plat) : Prop where
  counted : ∀ addr, PageView.Counted (s.touching addr) (s.memory.view addr)
  locked : ∀ region, (region, true) ∈ s.held → ∀ addr, region.Touches addr →
    s.memory.osLocked addr = true

theorem sound_new : Sound (new : HeldPages plat) where
  counted addr := ⟨fun _ => ⟨rfl, rfl, rfl⟩, fun hpos => absurd hpos (Nat.lt_irrefl 0)⟩
  locked region hmem := by cases hmem

variable {s : HeldPages plat}

theorem Sound.acquire (h : Sound s) (region : Region plat) (answers : PageAnswers) :
    ∃ s', s.step (.acquire region answers) = some s' ∧ Sound s' := by
  obtain ⟨m, hacquire, hview⟩ := s.memory.acquireRegion_spec answers region
  refine ⟨_, by rw [step, hacquire]; rfl, ?_, ?_⟩
  · intro addr
    unfold touching
    rw [List.countP_append, List.countP_singleton, hview]
    by_cases htouches : region.Touches addr
    · simp only [htouches, decide_true, if_true]
      exact (h.counted addr).acquired answers addr
    · simp only [htouches, decide_false, Bool.false_eq_true, if_false, Nat.add_zero]
      exact h.counted addr
  · intro other hmem addr htouches
    show (m.view addr).locked = true
    rw [hview]
    rcases List.mem_append.mp hmem with hmem | hmem
    · have hlocked := h.locked other hmem addr htouches
      split
      · exact PageView.locked_acquired answers addr hlocked
      · exact hlocked
    · -- the new region: `all_locked` says that each of its pages is locked
      obtain ⟨rfl, hall⟩ := Prod.mk.inj (List.mem_singleton.mp hmem)
      have hlocks := List.all_eq_true.mp hall.symm addr (other.mem_pages.mpr htouches)
      rw [if_pos htouches]
      exact PageMemory.locked_of_locksPage (h.counted addr) hlocks

theorem touching_eraseIdx {position : Nat} {region : Region plat} {result : Bool}
    (hheld : s.held[position]? = some (region, result)) (m : PageMemory) (addr : Nat) :
    s.touching addr = (⟨m, s.held.eraseIdx position⟩ : HeldPages plat).touching addr +
      if region.Touches addr then 1 else 0 := by
  obtain ⟨hlt, hget⟩ := List.getElem?_eq_some_iff.mp hheld
  have hperm := List.getElem_cons_eraseIdx_perm hlt
  unfold touching
  rw [← hperm.countP_eq, hget, List.countP_cons]
  simp only [decide_eq_true_eq]

theorem Sound.release (h : Sound s) {position : Nat} (hposition : position < s.held.length) :
    ∃ s', s.step (.release position) = some s' ∧ Sound s' := by
  obtain ⟨⟨region, result⟩, hheld⟩ : ∃ entry, s.held[position]? = some entry :=
    ⟨_, List.getElem?_eq_getElem hposition⟩
  obtain ⟨m, hrelease, hview⟩ := s.memory.releaseRegion_spec region
  have hcount := touching_eraseIdx hheld m
  refine ⟨⟨m, s.held.eraseIdx position⟩, ?_, ?_, ?_⟩
  · simp only [step, hheld, hrelease, Option.map_some]
  · intro addr
    have hbefore := h.counted addr
    rw [hcount] at hbefore
    rw [hview]
    by_cases htouches : region.Touches addr
    · rw [if_pos htouches] at hbefore ⊢
      exact hbefore.released
    · rw [if_neg htouches] at hbefore ⊢
      exact hbefore
  · intro other hmem addr htouches
    have hlocked : (s.memory.view addr).locked = true :=
      h.locked other (List.mem_of_mem_eraseIdx hmem) addr htouches
    show (m.view addr).locked = true
    rw [hview]
    by_cases hown : region.Touches addr
    · -- the other region keeps the page in use
      have hbefore := h.counted addr
      rw [hcount, if_pos hown] at hbefore
      rw [if_pos hown]
      apply hbefore.locked_released _ hlocked
      exact List.countP_pos_iff.mpr ⟨_, hmem, decide_eq_true htouches⟩
    · rw [if_neg hown]
      exact hlocked

theorem sound_step {s' : HeldPages plat} {op : PageOp plat} (h : Sound s)
    (hstep : s.step op = some s') : Sound s' := by
  cases op with
  | acquire region answers =>
    obtain ⟨after, hafter, hsound⟩ := h.acquire region answers
    rw [hafter] at hstep
    cases hstep
    exact hsound
  | release position =>
    by_cases hposition : position < s.held.length
    · obtain ⟨after, hafter, hsound⟩ := h.release hposition
      rw [hafter] at hstep
      cases hstep
      exact hsound
    · simp only [step, List.getElem?_eq_none (Nat.le_of_not_lt hposition)] at hstep
      cases hstep

theorem sound_run {ops : List (PageOp plat)} (hrun : run ops = some s) : Sound s :=
  Interleaving.foldlM_invariant (fun _ _ _ => sound_step) sound_new hrun

theorem table_eq_empty {table : AList fun _ : Nat => PageState}
    (h : ∀ addr, table.lookup addr = none) : table = ∅ := by
  apply AList.ext
  apply List.eq_nil_iff_forall_not_mem.mpr
  rintro ⟨addr, state⟩ hmem
  have hlookup := AList.mem_lookup_iff.mpr hmem
  rw [h addr] at hlookup
  cases hlookup

theorem Sound.refs_eq (h : Sound s) {addr : Nat} {state : PageState}
    (hstate : s.memory.table.lookup addr = some state) : state.refs = s.touching addr := by
  have hview : (s.memory.view addr).state = some state := hstate
  rcases Nat.eq_zero_or_pos (s.touching addr) with hzero | hpos
  · rw [((h.counted addr).unused hzero).1] at hview
    cases hview
  · rw [(h.counted addr).used hpos] at hview
    cases hview
    rfl

/-- What the table promises. -/
structure PagesCounted (s : HeldPages plat) : Prop where
  /-- A page is in the table while a held region touches it. -/
  present : ∀ addr, (s.memory.table.lookup addr).isSome = true ↔
    ∃ entry ∈ s.held, entry.1.Touches addr
  refs : ∀ addr state, s.memory.table.lookup addr = some state → state.refs = s.touching addr
  /-- The flags say what the operating system does; a page that is not in the table is
  neither locked nor excluded. -/
  flags : ∀ addr, s.memory.osLocked addr = ((s.memory.table.lookup addr).map (·.locked)).getD false ∧
    s.memory.osExcluded addr = ((s.memory.table.lookup addr).map (·.noDump)).getD false
  /-- What `acquire_region` has promised holds until the region is released. -/
  locked : ∀ region, (region, true) ∈ s.held → ∀ addr, region.Touches addr →
    s.memory.osLocked addr = true
  /-- Both loops return, and visit each page of the region once and no other. -/
  acquires : ∀ (region : Region plat) answers, s.memory.acquireRegion answers region =
    some (region.pages.foldl (fun acc addr => PageMemory.acquirePage answers addr acc)
      (true, s.memory))
  releases : ∀ region : Region plat, s.memory.releaseRegion region =
    some (region.pages.foldl (fun m addr => PageMemory.releasePage addr m) s.memory)
  visited : ∀ region : Region plat, region.pages.Nodup ∧
    ∀ addr, addr ∈ region.pages ↔ region.Touches addr
  /-- Nothing is left behind. -/
  empty : s.held = [] → s.memory.table = ∅ ∧
    ∀ addr, s.memory.osLocked addr = false ∧ s.memory.osExcluded addr = false

/-- The page table counts references, whatever regions are acquired and released in
whatever order and whatever the operating system answers. -/
theorem pages_counted {ops : List (PageOp plat)} (hrun : run ops = some s) : PagesCounted s := by
  have hsound := sound_run hrun
  have hunused : ∀ addr, s.touching addr = 0 → s.memory.table.lookup addr = none ∧
      s.memory.osLocked addr = false ∧ s.memory.osExcluded addr = false :=
    fun addr => (hsound.counted addr).unused
  have hused : ∀ addr, 0 < s.touching addr → s.memory.table.lookup addr =
      some ⟨s.touching addr, s.memory.osLocked addr, s.memory.osExcluded addr⟩ :=
    fun addr => (hsound.counted addr).used
  have hpositive : ∀ addr, 0 < s.touching addr ↔ ∃ entry ∈ s.held, entry.1.Touches addr := by
    intro addr
    unfold touching
    rw [List.countP_pos_iff]
    simp only [decide_eq_true_eq]
  refine ⟨?_, ?_, ?_, hsound.locked, ?_, ?_, ?_, ?_⟩
  · intro addr
    rw [← hpositive]
    rcases Nat.eq_zero_or_pos (s.touching addr) with hzero | hpos
    · simp [(hunused addr hzero).1, hzero]
    · simp [hused addr hpos, hpos]
  · exact fun addr state => hsound.refs_eq
  · intro addr
    rcases Nat.eq_zero_or_pos (s.touching addr) with hzero | hpos
    · obtain ⟨hnone, hlocked, hexcluded⟩ := hunused addr hzero
      simp [hnone, hlocked, hexcluded]
    · simp [hused addr hpos]
  · intro region answers
    exact region.walk_pages (PageMemory.acquirePage answers) (true, s.memory)
  · intro region
    exact region.walk_pages PageMemory.releasePage s.memory
  · intro region
    exact ⟨region.nodup_pages, fun addr => region.mem_pages⟩
  · intro hempty
    have hnone : ∀ addr, s.touching addr = 0 := by
      intro addr
      unfold touching
      rw [hempty]
      rfl
    exact ⟨table_eq_empty fun addr => (hunused addr (hnone addr)).1,
      fun addr => (hunused addr (hnone addr)).2⟩

theorem touching_le_page (hdisjoint : s.held.Pairwise fun left right =>
      left.1.addr + left.1.len ≤ right.1.addr ∨ right.1.addr + right.1.len ≤ left.1.addr)
    (addr : Nat) : s.touching addr ≤ plat.page := by
  -- each buffer has a byte of its own on the page
  have hbytes : ((s.held.filter fun entry => entry.1.Touches addr).map
      fun entry => max entry.1.addr addr).Nodup := by
    rw [List.Nodup, List.pairwise_map]
    apply (hdisjoint.filter fun entry => decide (entry.1.Touches addr)).imp_of_mem
    intro left right hleft hright hapart
    obtain ⟨-, hleftEnd, -⟩ := of_decide_eq_true (List.mem_filter.mp hleft).2
    obtain ⟨-, hrightEnd, -⟩ := of_decide_eq_true (List.mem_filter.mp hright).2
    have hleftPos := left.1.pos
    have hrightPos := right.1.pos
    omega
  have hsubset : ((s.held.filter fun entry => entry.1.Touches addr).map
      fun entry => max entry.1.addr addr) ⊆ List.range' addr plat.page := by
    intro byte hbyte
    obtain ⟨entry, hentry, rfl⟩ := List.mem_map.mp hbyte
    obtain ⟨-, hend, hstart⟩ := of_decide_eq_true (List.mem_filter.mp hentry).2
    have hpage := plat.page_pos
    rw [List.mem_range'_1]
    omega
  have hlength := (List.subperm_of_subset hbytes hsubset).length_le
  rw [List.length_map, List.length_range'] at hlength
  unfold touching
  rw [List.countP_eq_length_filter]
  exact hlength

/-- The count of a page is a `usize`, as long as the buffers in use do not overlap: each has a
byte of its own on the page. -/
theorem refs_lt_size {ops : List (PageOp plat)} (hrun : run ops = some s)
    (hdisjoint : s.held.Pairwise fun left right =>
      left.1.addr + left.1.len ≤ right.1.addr ∨ right.1.addr + right.1.len ≤ left.1.addr)
    {addr : Nat} {state : PageState} (hstate : s.memory.table.lookup addr = some state) :
    state.refs < plat.size := by
  rw [(sound_run hrun).refs_eq hstate]
  exact Nat.lt_of_le_of_lt (touching_le_page hdisjoint addr)
    (Nat.pow_lt_pow_right Nat.one_lt_two plat.small)

end HeldPages

def desktop : Platform := ⟨64, 12, by decide⟩

def topRegion : Region desktop := ⟨2 ^ 64 - 16, 16, by decide, by decide⟩

def topPages : Region desktop := ⟨2 ^ 64 - 8193, 8193, by decide, by decide⟩

/-- The first attempt to lock the last page fails; the second region has it locked, and
keeps it when the first is gone. -/
def topOps : List (PageOp desktop) :=
  [.acquire topRegion ⟨fun _ => false, fun _ => true⟩,
    .acquire topPages ⟨fun _ => true, fun _ => false⟩,
    .release 0]

theorem pages_counted_topOps : ∃ s, HeldPages.run topOps = some s ∧
    s.held.map Prod.snd = [true] ∧
    (s.memory.table.lookup (2 ^ 64 - 4096)).map (·.refs) = some 1 ∧ s.PagesCounted := by
  have hrun : (HeldPages.run topOps).map (fun s => (s.held.map Prod.snd,
      (s.memory.table.lookup (2 ^ 64 - 4096)).map (·.refs))) = some ([true], some 1) := by
    decide +kernel
  obtain ⟨s, hs, hfacts⟩ := Option.map_eq_some_iff.mp hrun
  obtain ⟨hheld, hrefs⟩ := Prod.mk.inj hfacts
  exact ⟨s, hs, hheld, hrefs, HeldPages.pages_counted hs⟩

end KeyVault
