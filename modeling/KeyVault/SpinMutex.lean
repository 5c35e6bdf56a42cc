import KeyVault.Interleaving
import KeyVault.ReleaseAcquire

/-! The lock of builds without `std`: a flag taken by `compare_exchange_weak` under
acquire ordering and given back by a store under release ordering. Any number of calls
take the lock, run a critical section of single reads and writes of the data behind it,
and drop the guard; between them the threads may synchronize in any other way. -/
namespace KeyVault

open Interleaving ReleaseAcquire

/-- The two locations of a `Mutex`. -/
inductive MutexCell where
  | locked
  | value
deriving DecidableEq

inductive DataAccess (V : Type) where
  | read
  | write (value : V)

def DataAccess.Ret {V : Type} : DataAccess V → Type
  | .read => V
  | .write _ => Unit

abbrev accessSignature (V : Type) : Signature := ⟨DataAccess V, DataAccess.Ret⟩

/-- What a call does between taking the lock and dropping the guard. -/
abbrev CriticalSection (V R : Type) := Program (accessSignature V) R

namespace CriticalSection

def read {V : Type} : CriticalSection V V := .perform (S := accessSignature V) .read

def write {V : Type} (value : V) : CriticalSection V Unit :=
  .perform (S := accessSignature V) (.write value)

end CriticalSection

def DataAccess.leaves {V : Type} : DataAccess V → V → V
  | .read, found => found
  | .write value, _ => value

def DataAccess.answer {V : Type} : (op : DataAccess V) → V → op.Ret
  | .read, found => found
  | .write _, _ => ()

def DataAccess.perform {V : Type} (op : DataAccess V) (value : V) : Option (op.Ret × V) :=
  some (op.answer value, op.leaves value)

def CriticalSection.run {V R : Type} (body : CriticalSection V R) (value : V) : Option (R × V) :=
  Program.run (S := accessSignature V) DataAccess.perform body value

abbrev sectionSignature (V R : Type) : Signature := ⟨CriticalSection V R, fun _ => R⟩

/-- What a lock is for: whole critical sections as atomic steps. -/
def atomicSections (V R : Type) :
    Machine (sectionSignature V R) V (CriticalSection V R) R Empty where
  perform body value := CriticalSection.run body value
  program body := Program.perform (S := sectionSignature V R) body
  external event := nomatch event

/-- Where a call is: at the `compare_exchange_weak` of `lock`, in the loop that waits for
the flag to read `false`, past `lock` with the guard in hand (with nothing left to do it
is about to drop the guard), or back. -/
inductive LockPhase (V R : Type) where
  | trying
  | spinning
  | inside (rest : CriticalSection V R)
  | returned (result : R)

namespace LockPhase

variable {V R : Type}

def result? : LockPhase V R → Option R
  | .returned result => some result
  | _ => none

def guards : LockPhase V R → Bool
  | .inside _ => true
  | _ => false

end LockPhase

structure LockCall (V R : Type) where
  request : CriticalSection V R
  phase : LockPhase V R
  view : View MutexCell

def LockCall.activation {V R : Type} (call : LockCall V R) :
    Activation (sectionSignature V R) (CriticalSection V R) R :=
  ⟨call.request,
    match call.phase.result? with
    | some result => .done result
    | none => Program.perform (S := sectionSignature V R) call.request⟩

structure SpinMutex (V R : Type) where
  memory : Memory MutexCell Bool V
  calls : List (LockCall V R)

inductive LockAction (V R : Type) where
  | call (request : CriticalSection V R)
  /-- The caller's thread synchronizes with the thread of another call by other means. -/
  | observe (caller other : ℕ)
  | exchange (caller place : ℕ)
  /-- `compare_exchange_weak` fails: it read `true`, or it fails for no reason. -/
  | fail (caller place : ℕ)
  | look (caller place : ℕ)
  | access (caller : ℕ)
  | drop (caller place : ℕ)

namespace SpinMutex

variable {V R : Type}

def new (value : V) : SpinMutex V R where
  memory :=
    { writes := fun cell place =>
        if cell = .locked ∧ place = 0 then some ⟨false, fun _ => 0⟩ else none
      versions := fun cell => if cell = .value then [value] else [] }
  calls := []

def setCall (s : SpinMutex V R) (caller : ℕ) (call : LockCall V R) : SpinMutex V R :=
  { s with calls := s.calls.set caller call }

def step (s : SpinMutex V R) : LockAction V R → Option (SpinMutex V R)
  | .call request => some { s with calls := s.calls ++ [⟨request, .trying, fun _ => 0⟩] }
  | .observe caller other => do
      let call ← s.calls[caller]?
      let seen ← s.calls[other]?
      return s.setCall caller { call with view := call.view ⊔ seen.view }
  | .exchange caller place =>
      match s.calls[caller]? with
      | some ⟨request, .trying, view⟩ => do
          let (view, memory) ←
            s.memory.compareExchange .acquire .locked false true place view
          return { s with memory := memory }.setCall caller ⟨request, .inside request, view⟩
      | _ => none
  | .fail caller place =>
      match s.calls[caller]? with
      | some ⟨request, .trying, view⟩ => do
          let (_, view) ← s.memory.load .relaxed .locked place view
          return s.setCall caller ⟨request, .spinning, view⟩
      | _ => none
  | .look caller place =>
      match s.calls[caller]? with
      | some ⟨request, .spinning, view⟩ => do
          let (held, view) ← s.memory.load .relaxed .locked place view
          return s.setCall caller ⟨request, if held then .spinning else .trying, view⟩
      | _ => none
  | .access caller =>
      match s.calls[caller]? with
      | some ⟨request, .inside (.step op next), view⟩ => do
          let (found, view, memory) ← s.memory.access .value (DataAccess.leaves op) view
          return { s with memory := memory }.setCall caller
            ⟨request, .inside (next (DataAccess.answer op found)), view⟩
      | _ => none
  | .drop caller place =>
      match s.calls[caller]? with
      | some ⟨request, .inside (.done result), view⟩ => do
          let (view, memory) ← s.memory.store .release .locked false place view
          return { s with memory := memory }.setCall caller ⟨request, .returned result, view⟩
      | _ => none

def follow (s : SpinMutex V R) (schedule : List (LockAction V R)) : Option (SpinMutex V R) :=
  schedule.foldlM step s

inductive Reaches : SpinMutex V R → SpinMutex V R → Prop where
  | refl (s : SpinMutex V R) : Reaches s s
  | tail {s s' s'' : SpinMutex V R} {action : LockAction V R} :
      Reaches s s' → s'.step action = some s'' → Reaches s s''

def Holds (s : SpinMutex V R) (caller : ℕ) : Prop :=
  ∃ call, s.calls[caller]? = some call ∧ call.phase.guards = true

def results (s : SpinMutex V R) : List (Option R) := s.calls.map (·.phase.result?)

def value (s : SpinMutex V R) : Option V := (s.memory.versions .value).getLast?

variable {s s' s'' : SpinMutex V R} {caller : ℕ} {call : LockCall V R}

theorem Reaches.trans (h : Reaches s s') (h' : Reaches s' s'') : Reaches s s'' := by
  induction h' with
  | refl => exact h
  | tail _ hstep ih => exact .tail ih hstep

theorem follow_reaches {schedule : List (LockAction V R)} (h : s.follow schedule = some s') :
    Reaches s s' :=
  foldlM_invariant (I := Reaches s) (fun _ _ _ hs hstep => .tail hs hstep) (.refl s) h

theorem setCall_self (h : s.calls[caller]? = some call) (new : LockCall V R) :
    (s.setCall caller new).calls[caller]? = some new :=
  List.getElem?_set_self (List.getElem?_eq_some_iff.mp h).1

theorem setCall_other {other : ℕ} (h : other ≠ caller) (new : LockCall V R) :
    (s.setCall caller new).calls[other]? = s.calls[other]? :=
  List.getElem?_set_ne (Ne.symm h)

/-! ### What each action does -/

theorem step_observe_iff {other : ℕ} : s.step (.observe caller other) = some s' ↔
    ∃ call seen, s.calls[caller]? = some call ∧ s.calls[other]? = some seen ∧
      s' = s.setCall caller { call with view := call.view ⊔ seen.view } := by
  simp only [step, Option.bind_eq_bind, Option.bind_eq_some_iff, Option.pure_def,
    Option.some.injEq, eq_comm (a := s'), exists_and_left]

theorem step_exchange_iff {place : ℕ} : s.step (.exchange caller place) = some s' ↔
    ∃ request view view' memory, s.calls[caller]? = some ⟨request, .trying, view⟩ ∧
      s.memory.compareExchange .acquire .locked false true place view = some (view', memory) ∧
      s' = { s with memory := memory }.setCall caller ⟨request, .inside request, view'⟩ := by
  constructor
  · intro h
    simp only [step] at h
    split at h
    · rename_i request view hcall
      simp only [Option.bind_eq_bind, Option.bind_eq_some_iff, Option.pure_def,
        Option.some.injEq] at h
      obtain ⟨⟨view', memory⟩, hswap, rfl⟩ := h
      exact ⟨request, view, view', memory, hcall, hswap, rfl⟩
    · cases h
  · rintro ⟨request, view, view', memory, hcall, hswap, rfl⟩
    simp only [step, hcall, hswap, Option.bind_eq_bind, Option.bind_some, Option.pure_def]

theorem step_waits {action : LockAction V R} {place : ℕ}
    (haction : action = .fail caller place ∨ action = .look caller place)
    (h : s.step action = some s') :
    ∃ call phase held view', s.calls[caller]? = some call ∧ call.phase.guards = false ∧
      phase.guards = false ∧ call.phase.result? = none ∧ phase.result? = none ∧
      s.memory.load .relaxed .locked place call.view = some (held, view') ∧
      s' = s.setCall caller ⟨call.request, phase, view'⟩ := by
  rcases haction with rfl | rfl
  · simp only [step] at h
    split at h
    · rename_i request view hcall
      simp only [Option.bind_eq_bind, Option.bind_eq_some_iff, Option.pure_def,
        Option.some.injEq] at h
      obtain ⟨⟨held, view'⟩, hload, rfl⟩ := h
      exact ⟨_, .spinning, held, view', hcall, rfl, rfl, rfl, rfl, hload, rfl⟩
    · cases h
  · simp only [step] at h
    split at h
    · rename_i request view hcall
      simp only [Option.bind_eq_bind, Option.bind_eq_some_iff, Option.pure_def,
        Option.some.injEq] at h
      obtain ⟨⟨held, view'⟩, hload, rfl⟩ := h
      refine ⟨_, if held then .spinning else .trying, held, view', hcall, rfl, ?_, rfl, ?_,
        hload, rfl⟩
      · cases held <;> rfl
      · cases held <;> rfl
    · cases h

theorem step_look_of {place : ℕ} {request : CriticalSection V R} {view view' : View MutexCell}
    {held : Bool} (hcall : s.calls[caller]? = some ⟨request, .spinning, view⟩)
    (hload : s.memory.load .relaxed .locked place view = some (held, view')) :
    s.step (.look caller place) =
      some (s.setCall caller ⟨request, if held then .spinning else .trying, view'⟩) := by
  simp only [step, hcall, hload, Option.bind_eq_bind, Option.bind_some, Option.pure_def]

theorem step_access_iff : s.step (.access caller) = some s' ↔
    ∃ request op next view found view' memory,
      s.calls[caller]? = some ⟨request, .inside (.step op next), view⟩ ∧
      s.memory.access .value (DataAccess.leaves op) view = some (found, view', memory) ∧
      s' = { s with memory := memory }.setCall caller
        ⟨request, .inside (next (DataAccess.answer op found)), view'⟩ := by
  constructor
  · intro h
    simp only [step] at h
    split at h
    · rename_i request op next view hcall
      simp only [Option.bind_eq_bind, Option.bind_eq_some_iff, Option.pure_def,
        Option.some.injEq] at h
      obtain ⟨⟨found, view', memory⟩, haccess, rfl⟩ := h
      exact ⟨request, op, next, view, found, view', memory, hcall, haccess, rfl⟩
    · cases h
  · rintro ⟨request, op, next, view, found, view', memory, hcall, haccess, rfl⟩
    simp only [step, hcall, haccess, Option.bind_eq_bind, Option.bind_some, Option.pure_def]

theorem step_drop_iff {place : ℕ} : s.step (.drop caller place) = some s' ↔
    ∃ request result view view' memory,
      s.calls[caller]? = some ⟨request, .inside (.done result), view⟩ ∧
      s.memory.store .release .locked false place view = some (view', memory) ∧
      s' = { s with memory := memory }.setCall caller ⟨request, .returned result, view'⟩ := by
  constructor
  · intro h
    simp only [step] at h
    split at h
    · rename_i request result view hcall
      simp only [Option.bind_eq_bind, Option.bind_eq_some_iff, Option.pure_def,
        Option.some.injEq] at h
      obtain ⟨⟨view', memory⟩, hstore, rfl⟩ := h
      exact ⟨request, result, view, view', memory, hcall, hstore, rfl⟩
    · cases h
  · rintro ⟨request, result, view, view', memory, hcall, hstore, rfl⟩
    simp only [step, hcall, hstore, Option.bind_eq_bind, Option.bind_some, Option.pure_def]

/-! ### The flag and the guard -/

structure CallSound (s : SpinMutex V R) (top : ℕ) (newest : Message MutexCell Bool)
    (call : LockCall V R) : Prop where
  locked_le : call.view .locked ≤ top
  value_lt : call.view .value < (s.memory.versions .value).length
  guard : call.phase.guards = true →
    newest.value = true ∧ call.view .locked = top ∧ s.memory.Current .value call.view

/-- The newest write of the flag is `newest` at `top`. Every older `false` has been taken;
while the newest is `false` nobody has the guard and that write publishes every access. -/
structure FlagSound (s : SpinMutex V R) (top : ℕ) (newest : Message MutexCell Bool) : Prop where
  newest_at : s.memory.writes .locked top = some newest
  none_above : ∀ place, top < place → s.memory.writes .locked place = none
  taken : ∀ place message, s.memory.writes .locked place = some message →
    message.value = false → place ≠ top → s.memory.writes .locked (place + 1) ≠ none
  accessed : 0 < (s.memory.versions .value).length
  published : newest.value = false → s.memory.Current .value newest.view
  free : newest.value = false → ∀ caller, ¬ s.Holds caller
  held : newest.value = true → ∃ caller, s.Holds caller
  one : ∀ caller other, s.Holds caller → s.Holds other → caller = other
  calls : ∀ (caller : ℕ) (call : LockCall V R), s.calls[caller]? = some call →
    CallSound s top newest call

theorem FlagSound.le_top {top : ℕ} {newest message : Message MutexCell Bool}
    (h : FlagSound s top newest) {place : ℕ}
    (hwrite : s.memory.writes .locked place = some message) : place ≤ top := by
  by_contra hlt
  rw [h.none_above place (by omega)] at hwrite
  cases hwrite

theorem holds_setCall_iff {other : ℕ} (hcall : s.calls[caller]? = some call)
    {new : LockCall V R} : (s.setCall caller new).Holds other ↔
      if other = caller then new.phase.guards = true else s.Holds other := by
  unfold Holds
  by_cases hother : other = caller
  · subst hother
    simp only [setCall_self hcall, Option.some.injEq, exists_eq_left', ↓reduceIte]
  · simp only [setCall_other hother, hother, ↓reduceIte]

theorem FlagSound.waits {top : ℕ} {newest : Message MutexCell Bool} (h : FlagSound s top newest)
    (hcall : s.calls[caller]? = some call) {new : LockCall V R}
    (hguards : new.phase.guards = call.phase.guards) (hnew : CallSound s top newest new) :
    FlagSound (s.setCall caller new) top newest := by
  have hholds : ∀ other, (s.setCall caller new).Holds other ↔ s.Holds other := by
    intro other
    rw [holds_setCall_iff hcall]
    split
    · rename_i hother
      rw [hother, hguards]
      unfold Holds
      rw [hcall]
      simp
    · exact Iff.rfl
  exact
    { newest_at := h.newest_at
      none_above := h.none_above
      taken := h.taken
      accessed := h.accessed
      published := h.published
      free := fun hvalue other hother => h.free hvalue other ((hholds other).mp hother)
      held := fun hvalue => by
        obtain ⟨other, hother⟩ := h.held hvalue
        exact ⟨other, (hholds other).mpr hother⟩
      one := fun first second hfirst hsecond =>
        h.one first second ((hholds first).mp hfirst) ((hholds second).mp hsecond)
      calls := fun other other_call hother => by
        by_cases hsame : other = caller
        · subst hsame
          rw [setCall_self hcall] at hother
          cases hother
          exact ⟨hnew.locked_le, hnew.value_lt, hnew.guard⟩
        · rw [setCall_other hsame] at hother
          have hold := h.calls other other_call hother
          exact ⟨hold.locked_le, hold.value_lt, hold.guard⟩ }

theorem FlagSound.moves {top top' : ℕ} {newest newest' : Message MutexCell Bool}
    (h : FlagSound s top newest) (hcall : s.calls[caller]? = some call)
    (hothers : ∀ other, other ≠ caller → ¬ s.Holds other)
    {memory : Memory MutexCell Bool V} {new : LockCall V R} (htop : top ≤ top')
    (hlength : (s.memory.versions .value).length ≤ (memory.versions .value).length)
    (hnewest : memory.writes .locked top' = some newest')
    (habove : ∀ place, top' < place → memory.writes .locked place = none)
    (htaken : ∀ place message, memory.writes .locked place = some message →
      message.value = false → place ≠ top' → memory.writes .locked (place + 1) ≠ none)
    (hpublished : newest'.value = false → memory.Current .value newest'.view)
    (hguards : new.phase.guards = newest'.value)
    (hnew : CallSound { s with memory := memory } top' newest' new) :
    FlagSound ({ s with memory := memory }.setCall caller new) top' newest' := by
  have hholds : ∀ other, ({ s with memory := memory }.setCall caller new).Holds other ↔
      other = caller ∧ newest'.value = true := by
    intro other
    rw [holds_setCall_iff (s := { s with memory := memory }) hcall, hguards]
    by_cases hsame : other = caller
    · simp [hsame]
    · simp only [hsame, ↓reduceIte, false_and, iff_false]
      exact hothers other hsame
  exact
    { newest_at := hnewest
      none_above := habove
      taken := htaken
      accessed := h.accessed.trans_le hlength
      published := hpublished
      free := fun hvalue other hother => by
        rw [hholds, hvalue] at hother
        exact absurd hother.2 (by simp)
      held := fun hvalue => ⟨caller, (hholds caller).mpr ⟨rfl, hvalue⟩⟩
      one := fun first second hfirst hsecond =>
        ((hholds first).mp hfirst).1.trans ((hholds second).mp hsecond).1.symm
      calls := fun other other_call hother => by
        by_cases hsame : other = caller
        · subst hsame
          rw [setCall_self (s := { s with memory := memory }) hcall] at hother
          cases hother
          exact ⟨hnew.locked_le, hnew.value_lt, hnew.guard⟩
        · rw [setCall_other (s := { s with memory := memory }) hsame] at hother
          have hold := h.calls other other_call hother
          refine ⟨hold.locked_le.trans htop, hold.value_lt.trans_le hlength, fun hguard => ?_⟩
          exact absurd ⟨other_call, hother, hguard⟩ (hothers other hsame) }

theorem flagSound_new (value : V) :
    FlagSound (new value : SpinMutex V R) 0 ⟨false, fun _ => 0⟩ where
  newest_at := rfl
  none_above place hplace := by
    show (if _ then _ else none) = none
    rw [if_neg]
    omega
  taken place message hwrite hvalue hplace := by
    simp [new, hplace] at hwrite
  accessed := Nat.one_pos
  published _ := rfl
  free _ caller := by simp [Holds, new]
  held h := nomatch h
  one caller other h := by simp [Holds, new] at h
  calls caller call h := by simp [new] at h

theorem FlagSound.called {top : ℕ} {newest : Message MutexCell Bool} (h : FlagSound s top newest)
    (request : CriticalSection V R) :
    FlagSound { s with calls := s.calls ++ [⟨request, .trying, fun _ => 0⟩] } top newest := by
  have hcalls : ∀ {other : ℕ} {found : LockCall V R},
      (s.calls ++ [⟨request, .trying, fun _ => 0⟩])[other]? = some found →
        s.calls[other]? = some found ∨ found = ⟨request, .trying, fun _ => 0⟩ := by
    intro other found hfound
    rw [List.getElem?_append] at hfound
    split at hfound
    · exact .inl hfound
    · right
      simpa using List.mem_of_getElem? hfound
  have hholds : ∀ other, Holds { s with calls := s.calls ++ [⟨request, .trying, fun _ => 0⟩] }
      other → s.Holds other := by
    rintro other ⟨found, hfound, hguards⟩
    rcases hcalls hfound with hold | rfl
    · exact ⟨found, hold, hguards⟩
    · cases hguards
  exact
    { newest_at := h.newest_at
      none_above := h.none_above
      taken := h.taken
      accessed := h.accessed
      published := h.published
      free := fun hvalue other hother => h.free hvalue other (hholds other hother)
      held := fun hvalue => by
        obtain ⟨other, found, hfound, hguards⟩ := h.held hvalue
        refine ⟨other, found, ?_, hguards⟩
        exact (List.getElem?_append_left (List.getElem?_eq_some_iff.mp hfound).1).trans hfound
      one := fun first second hfirst hsecond =>
        h.one first second (hholds first hfirst) (hholds second hsecond)
      calls := fun other found hfound => by
        rcases hcalls hfound with hold | rfl
        · have hsound := h.calls other found hold
          exact ⟨hsound.locked_le, hsound.value_lt, hsound.guard⟩
        · exact ⟨Nat.zero_le _, h.accessed, fun hguards => nomatch hguards⟩ }

theorem FlagSound.observe {top : ℕ} {newest : Message MutexCell Bool}
    (h : FlagSound s top newest) {other : ℕ} {seen : LockCall V R}
    (hcall : s.calls[caller]? = some call) (hseen : s.calls[other]? = some seen) :
    FlagSound (s.setCall caller { call with view := call.view ⊔ seen.view }) top newest := by
  have hsound := h.calls caller call hcall
  have hother := h.calls other seen hseen
  refine h.waits hcall rfl ⟨?_, ?_, fun hguards => ?_⟩
  · exact sup_le hsound.locked_le hother.locked_le
  · exact max_lt hsound.value_lt hother.value_lt
  · obtain ⟨hvalue, hlocked, hcurrent⟩ := hsound.guard hguards
    refine ⟨hvalue, ?_, ?_⟩
    · show max _ _ = top
      rw [hlocked]
      exact max_eq_left hother.locked_le
    · show max _ _ + 1 = _
      have hlast := hother.value_lt
      unfold Memory.Current at hcurrent
      rw [max_eq_left (by omega)]
      exact hcurrent

theorem FlagSound.wait {top : ℕ} {newest : Message MutexCell Bool} (h : FlagSound s top newest)
    {action : LockAction V R} {place : ℕ}
    (haction : action = .fail caller place ∨ action = .look caller place)
    (hstep : s.step action = some s') : FlagSound s' top newest := by
  obtain ⟨call, phase, held, view', hcall, hguards, hphase, -, -, hload, rfl⟩ :=
    step_waits haction hstep
  obtain ⟨message, hwrite, -, -, rfl⟩ := Memory.load_eq_some.mp hload
  refine h.waits hcall (hphase.trans hguards.symm) ⟨?_, ?_, fun hguard => ?_⟩
  · simpa using h.le_top hwrite
  · exact (h.calls caller call hcall).value_lt
  · exact absurd hguard (by simp [hphase])

/-- Only the newest `false` can be taken, and taking it acquires what it publishes. -/
theorem FlagSound.exchange {top place : ℕ} {newest : Message MutexCell Bool}
    (h : FlagSound s top newest) (hstep : s.step (.exchange caller place) = some s') :
    newest.value = false ∧ ∃ published, FlagSound s' (top + 1) ⟨true, published⟩ := by
  obtain ⟨request, view, view', memory, hcall, hswap, rfl⟩ :=
    step_exchange_iff.mp hstep
  obtain ⟨message, hwrite, -, hfalse, hnext, rfl, rfl⟩ := Memory.compareExchange_eq_some.mp hswap
  obtain rfl : place = top := by
    by_contra hplace
    exact h.taken place message hwrite hfalse hplace hnext
  obtain rfl : newest = message := by
    rw [h.newest_at] at hwrite
    exact Option.some.inj hwrite
  have hsound := h.calls caller _ hcall
  have hpublished := h.published hfalse
  refine ⟨hfalse, _, h.moves hcall (fun other _ => h.free hfalse other) (Nat.le_succ place)
    (Nat.le_refl _) (Memory.write_self ..) ?_ ?_ nofun rfl ⟨?_, ?_, fun _ => ⟨rfl, ?_, ?_⟩⟩⟩
  · intro other hother
    rw [Memory.write_other _ _ (by omega)]
    exact h.none_above other (by omega)
  · intro other found hfound hvalue hother
    rw [Memory.write_other _ _ hother] at hfound
    have hle := h.le_top hfound
    by_cases hlast : other = place
    · subst hlast
      simp
    · rw [Memory.write_other _ _ (by omega)]
      exact h.taken other found hfound hvalue hlast
  · simp
  · show max (view .value) (newest.view .value) < (s.memory.versions .value).length
    exact max_lt hsound.value_lt (by rw [← hpublished]; omega)
  · simp
  · show max (view .value) (newest.view .value) + 1 = (s.memory.versions .value).length
    have hlast : view .value < (s.memory.versions .value).length := hsound.value_lt
    rw [← hpublished] at hlast ⊢
    rw [max_eq_right (by omega)]

theorem FlagSound.others {top : ℕ} {newest : Message MutexCell Bool} (h : FlagSound s top newest)
    (hcall : s.calls[caller]? = some call) (hguards : call.phase.guards = true) (other : ℕ)
    (hother : other ≠ caller) : ¬ s.Holds other :=
  fun hholds => hother (h.one other caller hholds ⟨call, hcall, hguards⟩)

theorem FlagSound.access {top : ℕ} {newest : Message MutexCell Bool} (h : FlagSound s top newest)
    (hstep : s.step (.access caller) = some s') : FlagSound s' top newest := by
  obtain ⟨request, op, next, view, found, view', memory, hcall, haccess, rfl⟩ :=
    step_access_iff.mp hstep
  obtain ⟨-, rfl, rfl⟩ := Memory.access_eq_some.mp haccess
  obtain ⟨hvalue, hlocked, hcurrent⟩ := (h.calls caller _ hcall).guard rfl
  refine h.moves hcall (h.others hcall rfl) (Nat.le_refl top) ?_ h.newest_at h.none_above h.taken
    ?_ hvalue.symm ⟨?_, ?_, fun _ => ⟨hvalue, ?_, ?_⟩⟩
  · simp
  · simp [hvalue]
  · simpa using hlocked.le
  · simp
  · simpa using hlocked
  · simp [Memory.Current]

/-- The store that drops the guard is the newest write again and publishes every access. -/
theorem FlagSound.drop {top place : ℕ} {newest : Message MutexCell Bool}
    (h : FlagSound s top newest) (hstep : s.step (.drop caller place) = some s') :
    ∃ published, FlagSound s' place ⟨false, published⟩ := by
  obtain ⟨request, result, view, view', memory, hcall, hstore, rfl⟩ :=
    step_drop_iff.mp hstep
  obtain ⟨hseen, -, rfl, rfl⟩ := Memory.store_eq_some.mp hstore
  obtain ⟨hvalue, hlocked, hcurrent⟩ := (h.calls caller _ hcall).guard rfl
  have hlater : top < place := by
    have hview : view .locked = top := hlocked
    omega
  refine ⟨_, h.moves hcall (h.others hcall rfl) hlater.le (Nat.le_refl _)
    (Memory.write_self ..) ?_ ?_ ?_ rfl ⟨?_, ?_, nofun⟩⟩
  · intro other hother
    rw [Memory.write_other _ _ (by omega)]
    exact h.none_above other (by omega)
  · intro other found hfound hfalse hother
    rw [Memory.write_other _ _ hother] at hfound
    have hle := h.le_top hfound
    by_cases hnext : other + 1 = place
    · rw [hnext]
      simp
    · rw [Memory.write_other _ _ hnext]
      refine h.taken other found hfound hfalse ?_
      rintro rfl
      rw [h.newest_at] at hfound
      cases hfound
      rw [hvalue] at hfalse
      cases hfalse
  · intro _
    simpa [Memory.Current, MemoryOrder.releases] using hcurrent
  · simp
  · exact (h.calls caller _ hcall).value_lt

theorem flagSound_step {action : LockAction V R} (hstep : s.step action = some s')
    (h : ∃ top newest, FlagSound s top newest) : ∃ top newest, FlagSound s' top newest := by
  obtain ⟨top, newest, h⟩ := h
  cases action with
  | call request =>
    cases hstep
    exact ⟨top, newest, h.called request⟩
  | observe caller other =>
    obtain ⟨call, seen, hcall, hseen, rfl⟩ := step_observe_iff.mp hstep
    exact ⟨top, newest, h.observe hcall hseen⟩
  | exchange caller place =>
    obtain ⟨-, published, h⟩ := h.exchange hstep
    exact ⟨_, _, h⟩
  | fail caller place => exact ⟨top, newest, h.wait (.inl rfl) hstep⟩
  | look caller place => exact ⟨top, newest, h.wait (.inr rfl) hstep⟩
  | access caller => exact ⟨top, newest, h.access hstep⟩
  | drop caller place =>
    obtain ⟨published, h⟩ := h.drop hstep
    exact ⟨_, _, h⟩

theorem flagSound_run (h : Reaches s s') (hs : ∃ top newest, FlagSound s top newest) :
    ∃ top newest, FlagSound s' top newest := by
  induction h with
  | refl => exact hs
  | tail _ hstep ih => exact flagSound_step hstep ih

/-- At most one call has the guard at a time, and no access through it is a data race: every
earlier access happened before it, so it finds what the last one left. -/
theorem guard_exclusive {start : V} (h : Reaches (new start) s) :
    (∀ caller other, s.Holds caller → s.Holds other → caller = other) ∧
      ∀ (caller : ℕ) (call : LockCall V R), s.calls[caller]? = some call →
        call.phase.guards = true →
          s.memory.Current .value call.view ∧
            (s.memory.versions .value)[call.view .value]? = s.value := by
  obtain ⟨top, newest, hsound⟩ := flagSound_run h ⟨0, _, flagSound_new start⟩
  refine ⟨hsound.one, fun caller call hcall hguards => ?_⟩
  have hcurrent := ((hsound.calls caller call hcall).guard hguards).2.2
  exact ⟨hcurrent, hcurrent.finds_last⟩

/-- Two calls that each count the data up: the second finds the flag taken, waits, and is
past `lock` again before the first is back. -/
def counting : List (LockAction ℕ ℕ) :=
  let count : CriticalSection ℕ ℕ := do
    let found ← CriticalSection.read
    CriticalSection.write (found + 1)
    return found
  [.call count, .call count, .exchange 0 0, .fail 1 1, .access 0, .look 1 1, .access 0,
    .drop 0 4, .look 1 1, .look 1 4, .exchange 1 4, .access 1]

theorem guard_exclusive_counting : ∃ s : SpinMutex ℕ ℕ, s.Holds 1 ∧ s.value = some 8 ∧
    ∀ other, s.Holds other → 1 = other := by
  have hrun : ((new 7).follow counting).map (fun s =>
      (s.value, s.calls.map (·.phase.guards))) = some (some 8, [false, true]) := by
    decide +kernel
  obtain ⟨s, hs, hlast⟩ := Option.map_eq_some_iff.mp hrun
  obtain ⟨hvalue, hguards⟩ := Prod.mk.inj hlast
  have hholds : s.Holds 1 := by
    have hat : (s.calls.map (·.phase.guards))[1]? = some true := by rw [hguards]; rfl
    simpa [Holds] using hat
  exact ⟨s, hholds, hvalue, fun other => (guard_exclusive (follow_reaches hs)).1 1 other hholds⟩

/-! ### Critical sections are atomic -/

/-- The calls are where the atomic machine has them, and what is left of the section under
the lock does to the data what the whole section does to the data the lock was taken on. -/
structure Matches (s : SpinMutex V R)
    (c : Config (sectionSignature V R) V (CriticalSection V R) R) : Prop where
  calls : c.calls = s.calls.map LockCall.activation
  idle : (∀ caller, ¬ s.Holds caller) → s.value = some c.shared
  busy : ∀ (caller : ℕ) request rest view, s.calls[caller]? = some ⟨request, .inside rest, view⟩ →
    ∃ now, s.value = some now ∧ rest.run now = request.run c.shared

variable {c : Config (sectionSignature V R) V (CriticalSection V R) R}

theorem matches_new (value : V) : Matches (new value : SpinMutex V R) (.start value) where
  calls := rfl
  idle _ := rfl
  busy caller request rest view h := by simp [new] at h

theorem Matches.results (h : Matches s c) : c.results = s.results := by
  simp only [Config.results, SpinMutex.results, h.calls, List.map_map]
  refine List.map_congr_left fun call _ => ?_
  simp only [Function.comp_apply, LockCall.activation]
  cases call.phase.result? <;> rfl

theorem map_setCall {β : Type} (f : LockCall V R → β) (hcall : s.calls[caller]? = some call)
    {new : LockCall V R} (h : f new = f call) :
    (s.setCall caller new).calls.map f = s.calls.map f := by
  apply List.ext_getElem?
  intro other
  rw [List.getElem?_map, List.getElem?_map]
  by_cases hsame : other = caller
  · rw [hsame, setCall_self hcall, hcall, Option.map_some, Option.map_some, h]
  · rw [setCall_other hsame]

theorem activation_congr {request : CriticalSection V R} {phase phase' : LockPhase V R}
    (h : phase.result? = phase'.result?) (view view' : View MutexCell) :
    (⟨request, phase, view⟩ : LockCall V R).activation =
      (⟨request, phase', view'⟩ : LockCall V R).activation := by
  simp only [LockCall.activation, h]

theorem Matches.unseen (h : Matches s c) (hcall : s.calls[caller]? = some call)
    {phase : LockPhase V R} {view : View MutexCell} (hresult : phase.result? = call.phase.result?)
    (hphase : phase = call.phase ∨ phase.guards = false ∧ call.phase.guards = false) :
    Matches (s.setCall caller ⟨call.request, phase, view⟩) c := by
  have hguards : phase.guards = call.phase.guards := by
    rcases hphase with hsame | ⟨hnew, hold⟩
    · rw [hsame]
    · rw [hnew, hold]
  refine ⟨?_, fun hnobody => ?_, fun other request rest seen hother => ?_⟩
  · rw [h.calls, map_setCall _ hcall (activation_congr hresult ..)]
  · refine h.idle fun other hholds => hnobody other ?_
    rw [holds_setCall_iff hcall]
    split
    · rename_i hsame
      obtain ⟨found, hfound, hfoundGuards⟩ := hholds
      rw [hsame, hcall] at hfound
      cases hfound
      exact hguards.trans hfoundGuards
    · exact hholds
  · by_cases hsame : other = caller
    · subst hsame
      rw [setCall_self hcall] at hother
      cases hother
      rcases hphase with hsame | ⟨hnew, -⟩
      · exact h.busy other call.request rest call.view (hcall.trans (by rw [hsame]))
      · cases hnew
    · rw [setCall_other hsame] at hother
      exact h.busy other request rest seen hother

theorem Matches.inside (h : Matches s c) (hcall : s.calls[caller]? = some call)
    (hothers : ∀ other, other ≠ caller → ¬ s.Holds other) (hresult : call.phase.result? = none)
    {memory : Memory MutexCell Bool V} {rest : CriticalSection V R} {view : View MutexCell}
    {now : V} (hnow : (memory.versions .value).getLast? = some now)
    (hrest : rest.run now = call.request.run c.shared) :
    Matches ({ s with memory := memory }.setCall caller ⟨call.request, .inside rest, view⟩) c := by
  refine ⟨?_, fun hnobody => ?_, fun other request rest' seen hother => ?_⟩
  · have hsame : (LockPhase.inside rest : LockPhase V R).result? = call.phase.result? :=
      hresult.symm
    rw [h.calls, map_setCall (s := { s with memory := memory }) _ hcall
      (activation_congr hsame ..)]
  · refine absurd ?_ (hnobody caller)
    rw [holds_setCall_iff (s := { s with memory := memory }) hcall, if_pos rfl]
    rfl
  · by_cases hsame : other = caller
    · subst hsame
      rw [setCall_self (s := { s with memory := memory }) hcall] at hother
      cases hother
      exact ⟨now, hnow, hrest⟩
    · rw [setCall_other (s := { s with memory := memory }) hsame] at hother
      exact absurd ⟨_, hother, rfl⟩ (hothers other hsame)

theorem Matches.exchange {top place : ℕ} {newest : Message MutexCell Bool}
    (hsound : FlagSound s top newest) (h : Matches s c)
    (hstep : s.step (.exchange caller place) = some s') : Matches s' c := by
  have hnobody := hsound.free (hsound.exchange hstep).1
  obtain ⟨request, view, view', memory, hcall, hswap, rfl⟩ :=
    step_exchange_iff.mp hstep
  obtain ⟨message, -, -, -, -, -, rfl⟩ := Memory.compareExchange_eq_some.mp hswap
  exact h.inside hcall (fun other _ => hnobody other) rfl (h.idle hnobody) rfl

theorem Matches.access {top : ℕ} {newest : Message MutexCell Bool}
    (hsound : FlagSound s top newest) (h : Matches s c)
    (hstep : s.step (.access caller) = some s') : Matches s' c := by
  obtain ⟨request, op, next, view, found, view', memory, hcall, haccess, rfl⟩ :=
    step_access_iff.mp hstep
  obtain ⟨hfound, -, rfl⟩ := Memory.access_eq_some.mp haccess
  obtain ⟨now, hnow, hrest⟩ := h.busy caller request _ view hcall
  have hcurrent := ((hsound.calls caller _ hcall).guard rfl).2.2
  obtain rfl : found = now := by
    rw [hcurrent.finds_last] at hfound
    exact Option.some.inj (hfound.symm.trans hnow)
  have hleft : (Function.update s.memory.versions .value
      (s.memory.versions .value ++ [op.leaves found]) .value).getLast? =
        some (op.leaves found) := by simp
  exact h.inside hcall (hsound.others hcall rfl) rfl hleft hrest

/-- Dropping the guard: the atomic machine does the whole section at this point. -/
theorem Matches.drop {top place : ℕ} {newest : Message MutexCell Bool}
    (hsound : FlagSound s top newest) (h : Matches s c)
    (hstep : s.step (.drop caller place) = some s') :
    ∃ c', (atomicSections V R).Reaches c c' ∧ Matches s' c' := by
  obtain ⟨request, result, view, view', memory, hcall, hstore, rfl⟩ :=
    step_drop_iff.mp hstep
  have hversions : memory.versions = s.memory.versions := by
    rw [(Memory.store_eq_some.mp hstore).2.2.2]
    rfl
  obtain ⟨now, hnow, hrest⟩ := h.busy caller request _ view hcall
  have hat : c.calls[caller]? = some ⟨request, .step request .done⟩ := by
    rw [h.calls, List.getElem?_map, hcall]
    rfl
  have hexec := Machine.step_exec_iff (m := atomicSections V R).mpr
    ⟨request, request, .done, result, now, hat, hrest.symm, rfl⟩
  refine ⟨_, .tail (.refl c) trivial hexec, ?_, fun _ => ?_,
    fun other request' rest seen hother => ?_⟩
  · show c.calls.set caller ⟨request, .done result⟩ = (s.calls.set caller _).map _
    rw [List.map_set, h.calls]
    rfl
  · show (memory.versions .value).getLast? = some now
    rw [hversions]
    exact hnow
  · by_cases hsame : other = caller
    · rw [hsame, setCall_self (s := { s with memory := memory }) hcall] at hother
      cases hother
    · rw [setCall_other (s := { s with memory := memory }) hsame] at hother
      exact absurd ⟨_, hother, rfl⟩ (hsound.others hcall rfl other hsame)

/-- Whatever the mutex does, the atomic machine can follow. -/
theorem matches_step {action : LockAction V R} (hsound : ∃ top newest, FlagSound s top newest)
    (h : Matches s c) (hstep : s.step action = some s') :
    ∃ c', (atomicSections V R).Reaches c c' ∧ Matches s' c' := by
  obtain ⟨top, newest, hsound⟩ := hsound
  cases action with
  | call request =>
    cases hstep
    have hinvoke : (atomicSections V R).step c (.invoke request) =
      some { c with calls := c.calls ++ [⟨request, .step request .done⟩] } := rfl
    refine ⟨_, .tail (.refl c) trivial hinvoke, ?_, fun hnobody => ?_,
      fun other request' rest seen hother => ?_⟩
    · show c.calls ++ [_] = (s.calls ++ [_]).map _
      rw [List.map_append, h.calls]
      rfl
    · refine h.idle fun other hholds => hnobody other ?_
      obtain ⟨found, hfound, hguards⟩ := hholds
      refine ⟨found, ?_, hguards⟩
      exact (List.getElem?_append_left (List.getElem?_eq_some_iff.mp hfound).1).trans hfound
    · refine h.busy other request' rest seen ?_
      rw [List.getElem?_append] at hother
      split at hother
      · exact hother
      · exact absurd (List.mem_of_getElem? hother) (by simp)
  | observe caller other =>
    obtain ⟨call, seen, hcall, -, rfl⟩ := step_observe_iff.mp hstep
    exact ⟨c, .refl c, h.unseen hcall rfl (.inl rfl)⟩
  | exchange caller place => exact ⟨c, .refl c, h.exchange hsound hstep⟩
  | fail caller place =>
    obtain ⟨call, phase, held, view', hcall, hold, hnew, hbefore, hafter, -, rfl⟩ :=
      step_waits (.inl rfl) hstep
    exact ⟨c, .refl c, h.unseen hcall (hafter.trans hbefore.symm) (.inr ⟨hnew, hold⟩)⟩
  | look caller place =>
    obtain ⟨call, phase, held, view', hcall, hold, hnew, hbefore, hafter, -, rfl⟩ :=
      step_waits (.inr rfl) hstep
    exact ⟨c, .refl c, h.unseen hcall (hafter.trans hbefore.symm) (.inr ⟨hnew, hold⟩)⟩
  | access caller => exact ⟨c, .refl c, h.access hsound hstep⟩
  | drop caller place => exact h.drop hsound hstep

theorem matches_run (hsound : ∃ top newest, FlagSound s top newest) (h : Matches s c)
    (hrun : Reaches s s') : ∃ c', (atomicSections V R).Reaches c c' ∧ Matches s' c' := by
  induction hrun with
  | refl => exact ⟨c, .refl c, h⟩
  | tail hrun hstep ih =>
    obtain ⟨mid, hmid, hmatches⟩ := ih
    obtain ⟨c', hlast, hmatches'⟩ := matches_step (flagSound_run hrun hsound) hmatches hstep
    exact ⟨c', hmid.trans hlast, hmatches'⟩

/-- Critical sections are atomic: the calls on the mutex return what they return when each
section is one step, in an order that keeps to the order in which calls return and begin,
and while nobody has the guard the data is what those steps made of it. -/
theorem sections_atomic {start : V} (hfirst : Reaches (new start) s) (hlater : Reaches s s') :
    ∃ c c', (atomicSections V R).Reaches (.start start) c ∧
      (atomicSections V R).Reaches c c' ∧
      c.results = s.results ∧ c'.results = s'.results ∧
      c'.calls.map (·.request) = s'.calls.map (·.request) ∧
      ((∀ caller, ¬ s'.Holds caller) → s'.value = some c'.shared) := by
  have hsound : ∃ top newest, FlagSound (new start : SpinMutex V R) top newest :=
    ⟨0, _, flagSound_new start⟩
  obtain ⟨c, hc, hmatches⟩ := matches_run hsound (matches_new start) hfirst
  obtain ⟨c', hc', hmatches'⟩ := matches_run (flagSound_run hfirst hsound) hmatches hlater
  refine ⟨c, c', hc, hc', hmatches.results, hmatches'.results, ?_, hmatches'.idle⟩
  rw [hmatches'.calls, List.map_map]
  rfl

theorem sections_atomic_counting : ∃ c : Config (sectionSignature ℕ ℕ) ℕ (CriticalSection ℕ ℕ) ℕ,
    (atomicSections ℕ ℕ).Reaches (.start 7) c ∧ c.results = [some 7, none] := by
  have hrun : ((new 7).follow counting).map results = some [some 7, none] := by decide +kernel
  obtain ⟨s, hs, hresults⟩ := Option.map_eq_some_iff.mp hrun
  obtain ⟨c, c', hfirst, hlater, -, hsame, -⟩ := sections_atomic (.refl _) (follow_reaches hs)
  exact ⟨c', hfirst.trans hlater, hsame.trans hresults⟩

/-! ### No call is ever stuck for good -/

theorem inside_returns {request rest : CriticalSection V R} {view : View MutexCell}
    (hsound : ∃ top newest, FlagSound s top newest)
    (hcall : s.calls[caller]? = some ⟨request, .inside rest, view⟩) :
    ∃ s' result view', Reaches s s' ∧
      s'.calls = s.calls.set caller ⟨request, .returned result, view'⟩ := by
  induction rest generalizing s view with
  | done result =>
    obtain ⟨top, newest, hsound⟩ := hsound
    have hlocked : view .locked = top := ((hsound.calls caller _ hcall).guard rfl).2.1
    have hstore : s.memory.store .release .locked false (top + 1) view = some (_, _) :=
      Memory.store_eq_some.mpr ⟨by omega, hsound.none_above (top + 1) (by omega), rfl, rfl⟩
    have hstep := step_drop_iff.mpr ⟨request, result, view, _, _, hcall, hstore, rfl⟩
    exact ⟨_, result, _, .tail (.refl s) hstep, rfl⟩
  | step op next ih =>
    obtain ⟨top, newest, hat⟩ := hsound
    have hlt : view .value < (s.memory.versions .value).length :=
      (hat.calls caller _ hcall).value_lt
    have haccess : s.memory.access .value op.leaves view = some (_, _, _) :=
      Memory.access_eq_some.mpr ⟨List.getElem?_eq_getElem hlt, rfl, rfl⟩
    have hstep := step_access_iff.mpr ⟨request, op, next, view, _, _, _, hcall, haccess, rfl⟩
    obtain ⟨s', result, view', hrest, hcalls⟩ :=
      ih _ (flagSound_step hstep ⟨top, newest, hat⟩) (setCall_self hcall _)
    refine ⟨s', result, view', (Reaches.tail (.refl s) hstep).trans hrest, ?_⟩
    rw [hcalls]
    exact List.set_set ..

theorem waiting_enters (hsound : ∃ top newest, FlagSound s top newest)
    (hnobody : ∀ other, ¬ s.Holds other) (hcall : s.calls[caller]? = some call)
    (hwaits : call.phase.result? = none) :
    ∃ s' view', Reaches s s' ∧
      s'.calls = s.calls.set caller ⟨call.request, .inside call.request, view'⟩ := by
  obtain ⟨top, newest, hat⟩ := hsound
  have hfalse : newest.value = false := by
    by_contra hheld
    obtain ⟨other, hother⟩ := hat.held (by simpa using hheld)
    exact hnobody other hother
  obtain ⟨request, phase, view⟩ := call
  have hseen : view .locked ≤ top := (hat.calls caller _ hcall).locked_le
  -- from the `compare_exchange_weak`, reading the newest write
  have enters : ∀ {s : SpinMutex V R} {view : View MutexCell}, FlagSound s top newest →
      view .locked ≤ top → s.calls[caller]? = some ⟨request, .trying, view⟩ →
        ∃ s' view', Reaches s s' ∧
          s'.calls = s.calls.set caller ⟨request, .inside request, view'⟩ := by
    intro s view hat hseen hcall
    have hswap : s.memory.compareExchange .acquire .locked false true top view = some (_, _) :=
      Memory.compareExchange_eq_some.mpr
        ⟨newest, hat.newest_at, hseen, hfalse, hat.none_above (top + 1) (by omega), rfl, rfl⟩
    have hstep := step_exchange_iff.mpr ⟨request, view, _, _, hcall, hswap, rfl⟩
    exact ⟨_, _, .tail (.refl s) hstep, rfl⟩
  cases phase with
  | trying => exact enters hat hseen hcall
  | spinning =>
    have hload : s.memory.load .relaxed .locked top view = some (false, _) :=
      Memory.load_eq_some.mpr ⟨newest, hat.newest_at, hseen, hfalse, rfl⟩
    have hstep := step_look_of hcall hload
    obtain ⟨s', view', hreaches, hcalls⟩ := enters (hat.wait (.inr rfl) hstep)
      (by simp) (setCall_self hcall _)
    refine ⟨s', view', (Reaches.tail (.refl s) hstep).trans hreaches, ?_⟩
    rw [hcalls]
    exact List.set_set ..
  | inside rest => exact absurd ⟨_, hcall, rfl⟩ (hnobody caller)
  | returned result => cases hwaits

theorem one_returns (hsound : ∃ top newest, FlagSound s top newest)
    (hsome : ∃ call ∈ s.calls, call.phase.result? = none) :
    ∃ s' caller call result view', Reaches s s' ∧ s.calls[caller]? = some call ∧
      call.phase.result? = none ∧
      s'.calls = s.calls.set caller ⟨call.request, .returned result, view'⟩ := by
  by_cases hholder : ∃ caller, s.Holds caller
  · obtain ⟨caller, ⟨request, phase, view⟩, hcall, hguards⟩ := hholder
    cases phase with
    | inside rest =>
      obtain ⟨s', result, view', hreaches, hcalls⟩ := inside_returns hsound hcall
      exact ⟨s', caller, _, result, view', hreaches, hcall, rfl, hcalls⟩
    | _ => cases hguards
  · obtain ⟨call, hmem, hwaits⟩ := hsome
    obtain ⟨caller, hcall⟩ := List.mem_iff_getElem?.mp hmem
    obtain ⟨mid, view', henters, hmid⟩ :=
      waiting_enters hsound (not_exists.mp hholder) hcall hwaits
    have hat : mid.calls[caller]? = some ⟨call.request, .inside call.request, view'⟩ := by
      rw [hmid]
      exact List.getElem?_set_self (List.getElem?_eq_some_iff.mp hcall).1
    obtain ⟨s', result, view'', hreturns, hcalls⟩ :=
      inside_returns (flagSound_run henters hsound) hat
    refine ⟨s', caller, call, result, view'', henters.trans hreturns, hcall, hwaits, ?_⟩
    rw [hcalls, hmid]
    exact List.set_set ..

/-- The lock is never lost: from wherever the calls are, all of them can still return. -/
theorem all_can_return {start : V} (h : Reaches (new start) s) :
    ∃ s', Reaches s s' ∧ s'.calls.map (·.request) = s.calls.map (·.request) ∧
      ∀ call ∈ s'.calls, call.phase.result? ≠ none := by
  have hsound := flagSound_run h ⟨0, _, flagSound_new start⟩
  clear h
  -- by induction on the number of calls that are not back
  induction hcount : (s.calls.map fun call => call.phase.result?.isNone.toNat).sum
    using Nat.strong_induction_on generalizing s with
  | _ count ih =>
    by_cases hall : ∀ call ∈ s.calls, call.phase.result? ≠ none
    · exact ⟨s, .refl s, rfl, hall⟩
    · obtain ⟨mid, caller, call, result, view', hmid, hcall, hwaits, hcalls⟩ :=
        one_returns hsound (by simpa using hall)
      have hsum := Config.sum_map_set (fun call : LockCall V R => call.phase.result?.isNone.toNat)
        hcall ⟨call.request, .returned result, view'⟩
      have hfewer : (mid.calls.map fun call => call.phase.result?.isNone.toNat).sum < count := by
        rw [← hcalls, hcount, hwaits] at hsum
        exact Nat.lt_of_succ_le hsum.le
      obtain ⟨s', hlater, hrequests, hback⟩ :=
        ih _ hfewer (flagSound_run hmid hsound) rfl
      refine ⟨s', hmid.trans hlater, hrequests.trans ?_, hback⟩
      rw [hcalls]
      exact map_setCall (·.request) hcall rfl

theorem all_can_return_counting : ∃ s s' : SpinMutex ℕ ℕ, s.results = [some 7, none] ∧
    Reaches s s' ∧ ∀ call ∈ s'.calls, call.phase.result? ≠ none := by
  have hrun : ((new 7).follow counting).map results = some [some 7, none] := by decide +kernel
  obtain ⟨s, hs, hresults⟩ := Option.map_eq_some_iff.mp hrun
  obtain ⟨s', hlater, -, hback⟩ := all_can_return (follow_reaches hs)
  exact ⟨s, s', hresults, hlater, hback⟩

end SpinMutex

end KeyVault
