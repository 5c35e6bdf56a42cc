import Mathlib.Logic.Function.Basic
import Mathlib.Data.List.Basic
import Mathlib.Data.List.TakeWhile

/-! Lockout controls over sliding windows, for any type of names. Failures are
recorded per name with the time they happened. Enough recent failures of one name
set a global flag, or lock that name until a deadline. A lock that is over stays
until someone looks at the name; it is removed then, together with the failures
of that name. -/
namespace Lockouts

variable {ν : Type}

/-- A threshold of `0` switches its control off. -/
structure Policy where
  maxFailures : Nat
  window : Nat
  keyThreshold : Nat
  keyWindow : Nat
  /-- When a lock that begins now ends, if it ends. -/
  lockEnd : Nat → Option Nat

@[ext]
structure Controls (ν : Type) where
  lockedOut : Bool
  failures : ν → List Nat
  locks : ν → Option (Option Nat)

inductive Occurrence (ν : Type) where
  /-- A failure of `name`; `perKey` says whether it counts towards its lock. -/
  | failure (name : ν) (perKey : Bool)
  | look (name : ν)
  | clearKey (name : ν)
  | clearAll
deriving DecidableEq

def Before (now : Nat) (deadline : Option Nat) : Prop := ∀ stop ∈ deadline, now < stop

instance (now : Nat) (deadline : Option Nat) : Decidable (Before now deadline) :=
  match deadline with
  | none => .isTrue fun _ h => by cases h
  | some stop => decidable_of_iff (now < stop) ⟨fun h _ hstop => by cases hstop; exact h, fun h => h stop rfl⟩

/-! ### Windows -/

def recent (now window : Nat) (times : List Nat) : List Nat :=
  times.filter fun time => decide (now - time ≤ window)

def forget (now keep : Nat) (times : List Nat) : List Nat :=
  times.dropWhile fun time => decide (keep < now - time)

theorem filter_dropWhile_of_disjoint {α : Type} {p q : α → Bool} (h : ∀ x, q x = true → p x = false)
    (items : List α) : (items.dropWhile q).filter p = items.filter p := by
  induction items with
  | nil => rfl
  | cons item items ih =>
    by_cases hq : q item = true
    · rw [List.dropWhile_cons_of_pos hq, ih, List.filter_cons_of_neg (by simp [h item hq])]
    · rw [List.dropWhile_cons_of_neg hq]

theorem recent_forget {now window keep : Nat} (h : window ≤ keep) (times : List Nat) :
    recent now window (forget now keep times) = recent now window times := by
  apply filter_dropWhile_of_disjoint
  intro time hold
  simp only [decide_eq_true_eq, decide_eq_false_iff_not] at hold ⊢
  omega

theorem recent_append (now window : Nat) (times later : List Nat) :
    recent now window (times ++ later) = recent now window times ++ recent now window later :=
  List.filter_append times later

@[simp] theorem recent_now (now window : Nat) : recent now window [now] = [now] := by
  simp [recent]

theorem recent_recent {now later window : Nat} (h : now ≤ later) (times : List Nat) :
    recent later window (recent now window times) = recent later window times := by
  unfold recent
  rw [List.filter_filter]
  apply List.filter_congr
  intro time _
  rw [← Bool.decide_and, decide_eq_decide]
  constructor
  · exact And.left
  · intro hlater
    exact ⟨hlater, by omega⟩

theorem recent_congr_later {now later window : Nat} {left right : List Nat} (h : now ≤ later)
    (hsame : recent now window left = recent now window right) :
    recent later window left = recent later window right := by
  rw [← recent_recent h left, hsame, recent_recent h right]

/-! ### The controls -/

section Policy

variable (p : Policy)

def Policy.counts (perKey : Bool) : Prop := perKey = true ∧ 0 < p.keyThreshold

instance (perKey : Bool) : Decidable (p.counts perKey) :=
  inferInstanceAs (Decidable (perKey = true ∧ 0 < p.keyThreshold))

/-- How long times are kept when a failure is recorded. -/
def Policy.horizon (perKey : Bool) : Nat :=
  if p.counts perKey then max p.window p.keyWindow else p.window

def Policy.record (now : Nat) (perKey : Bool) (times : List Nat) : List Nat :=
  forget now (p.horizon perKey) times ++ [now]

def Policy.Fires (now : Nat) (perKey : Bool) (times : List Nat) : Prop :=
  p.counts perKey ∧ p.keyThreshold ≤ (recent now p.keyWindow (p.record now perKey times)).length

instance (now : Nat) (perKey : Bool) (times : List Nat) : Decidable (p.Fires now perKey times) :=
  inferInstanceAs (Decidable (_ ∧ _))

def Policy.Trips (now : Nat) (perKey : Bool) (times : List Nat) : Prop :=
  0 < p.maxFailures ∧ p.maxFailures ≤ (recent now p.window (p.record now perKey times)).length

instance (now : Nat) (perKey : Bool) (times : List Nat) : Decidable (p.Trips now perKey times) :=
  inferInstanceAs (Decidable (_ ∧ _))

theorem Policy.window_le_horizon (perKey : Bool) : p.window ≤ p.horizon perKey := by
  unfold Policy.horizon
  split
  · exact Nat.le_max_left _ _
  · exact Nat.le_refl _

theorem Policy.keyWindow_le_horizon {perKey : Bool} (h : p.counts perKey) :
    p.keyWindow ≤ p.horizon perKey := by
  unfold Policy.horizon
  rw [if_pos h]
  exact Nat.le_max_right _ _

theorem Policy.recent_record {now window : Nat} {perKey : Bool} (h : window ≤ p.horizon perKey)
    (times : List Nat) :
    recent now window (p.record now perKey times) = recent now window times ++ [now] := by
  unfold Policy.record
  rw [recent_append, recent_forget h, recent_now]

end Policy

/-! ### Times that come in out of order -/

def within (start window : Nat) (times : List Nat) : List Nat :=
  times.filter fun time => decide (start ≤ time ∧ time ≤ start + window)

theorem within_append (start window : Nat) (times later : List Nat) :
    within start window (times ++ later) = within start window times ++ within start window later :=
  List.filter_append times later

theorem length_within_le {start window now : Nat} (hnow : now ≤ start + window) (times : List Nat) :
    (within start window times).length ≤ (recent now window times).length := by
  unfold within recent
  rw [← List.countP_eq_length_filter, ← List.countP_eq_length_filter]
  apply List.countP_mono_left
  intro time _ hinside
  simp only [decide_eq_true_eq] at hinside ⊢
  omega

/-- `kept` is what is left of the times recorded so far. A `dropped` time is out of the
window now, a time that put it out of the window is still kept, and if more than two
failures are needed it is out of the window of every time that is still `waiting` to be
recorded. -/
structure Forgot (p : Policy) (clock : Nat) (waiting : Nat → Prop) (dropped kept : List Nat) :
    Prop where
  past : ∀ old ∈ dropped, old + p.window < clock
  chained : ∀ old ∈ dropped, ∃ time ∈ kept, old + p.window < time
  spared : 2 < p.maxFailures → ∀ old ∈ dropped, ∀ time, waiting time → old + p.window < time

section Forgot

variable {p : Policy} {clock now : Nat} {waiting waiting' : Nat → Prop} {dropped kept : List Nat}
  {perKey : Bool}

theorem forgot_nil (p : Policy) (clock : Nat) (waiting : Nat → Prop) : Forgot p clock waiting [] [] where
  past := by simp
  chained := by simp
  spared := by simp

theorem Forgot.later {clock' : Nat} (h : Forgot p clock waiting dropped kept) (hclock : clock ≤ clock')
    (hwaiting : ∀ time, waiting' time → waiting time ∨ clock ≤ time) :
    Forgot p clock' waiting' dropped kept where
  past old hold := Nat.lt_of_lt_of_le (h.past old hold) hclock
  chained := h.chained
  spared hmany old hold time htime := by
    rcases hwaiting time htime with hbefore | hnew
    · exact h.spared hmany old hold time hbefore
    · exact Nat.lt_of_lt_of_le (h.past old hold) hnew

def Policy.evicted (p : Policy) (now : Nat) (perKey : Bool) (times : List Nat) : List Nat :=
  times.takeWhile fun time => decide (p.horizon perKey < now - time)

theorem Policy.evicted_append_record (p : Policy) (now : Nat) (perKey : Bool) (times : List Nat) :
    p.evicted now perKey times ++ p.record now perKey times = times ++ [now] := by
  unfold Policy.evicted Policy.record forget
  rw [← List.append_assoc, List.takeWhile_append_dropWhile]

theorem Policy.window_lt_of_evicted {old : Nat} {times : List Nat}
    (h : old ∈ p.evicted now perKey times) : old + p.window < now := by
  have hold := List.mem_takeWhile_imp h
  have hle := p.window_le_horizon perKey
  simp only [decide_eq_true_eq] at hold
  omega

theorem Forgot.record (h : Forgot p clock waiting dropped kept) (hnow : now ≤ clock)
    (hwaiting : ∀ time, waiting' time → waiting time)
    (hspares : 2 < p.maxFailures → ∀ old ∈ p.evicted now perKey kept, ∀ time, waiting' time →
      old + p.window < time) :
    Forgot p clock waiting' (dropped ++ p.evicted now perKey kept) (p.record now perKey kept) where
  past := by
    intro old hold
    rcases List.mem_append.mp hold with hold | hold
    · exact h.past old hold
    · exact Nat.lt_of_lt_of_le (Policy.window_lt_of_evicted hold) hnow
  chained := by
    have hpushed : now ∈ p.record now perKey kept := List.mem_append_right _ (List.mem_singleton_self _)
    intro old hold
    rcases List.mem_append.mp hold with hold | hold
    · -- the time that dropped `old` is still there, or this failure has dropped it in turn
      obtain ⟨time, htime, hlt⟩ := h.chained old hold
      have hsplit : time ∈ p.evicted now perKey kept ++ p.record now perKey kept := by
        rw [p.evicted_append_record]
        exact List.mem_append_left _ htime
      rcases List.mem_append.mp hsplit with hgone | hkept
      · have := Policy.window_lt_of_evicted hgone
        exact ⟨now, hpushed, by omega⟩
      · exact ⟨time, hkept, hlt⟩
    · exact ⟨now, hpushed, Policy.window_lt_of_evicted hold⟩
  spared := by
    intro hmany old hold time htime
    rcases List.mem_append.mp hold with hold | hold
    · exact h.spared hmany old hold time (hwaiting time htime)
    · exact hspares hmany old hold time htime

/-- If enough of all times ever recorded, this one among them, lie in one interval as long
as the window, recording it sets the flag. -/
theorem Forgot.trips (h : Forgot p clock waiting dropped kept) (hpos : 0 < p.maxFailures)
    (hwaiting : waiting now) {start : Nat} (hnow : now ≤ start + p.window)
    (hmany : p.maxFailures ≤ (within start p.window (dropped ++ kept ++ [now])).length) :
    p.Trips now perKey kept := by
  refine ⟨hpos, ?_⟩
  rw [p.recent_record (p.window_le_horizon perKey), List.length_append, List.length_singleton]
  have hkept := length_within_le hnow kept
  have hlast : (within start p.window [now]).length ≤ 1 := List.length_filter_le ..
  rw [within_append, within_append, List.length_append, List.length_append] at hmany
  by_cases hfew : p.maxFailures ≤ 2
  · -- two are enough: a time that dropped one of them is later than `now`
    by_cases hnone : within start p.window dropped = []
    · rw [hnone, List.length_nil] at hmany
      omega
    · obtain ⟨old, hold⟩ := List.exists_mem_of_ne_nil _ hnone
      obtain ⟨hdropped, hinside⟩ := List.mem_filter.mp hold
      obtain ⟨time, htime, hlt⟩ := h.chained old hdropped
      simp only [decide_eq_true_eq] at hinside
      have hrecent : time ∈ recent now p.window kept := by
        rw [recent, List.mem_filter, decide_eq_true_eq]
        exact ⟨htime, by omega⟩
      have := List.length_pos_of_mem hrecent
      omega
  · have hnone : within start p.window dropped = [] := by
      rw [within, List.filter_eq_nil_iff]
      intro old hold
      have := h.spared (by omega) old hold now hwaiting
      simp only [decide_eq_true_eq]
      omega
    rw [hnone, List.length_nil] at hmany
    omega

end Forgot

namespace Controls

def Held (s : Controls ν) (now : Nat) (name : ν) : Prop :=
  ∃ deadline, s.locks name = some deadline ∧ Before now deadline

def Expired (s : Controls ν) (now : Nat) (name : ν) : Prop :=
  ∃ stop, s.locks name = some (some stop) ∧ stop ≤ now

instance (s : Controls ν) (now : Nat) (name : ν) : Decidable (s.Held now name) :=
  match h : s.locks name with
  | none => .isFalse fun ⟨_, hlock, _⟩ => by rw [h] at hlock; cases hlock
  | some deadline => decidable_of_iff (Before now deadline)
      ⟨fun hbefore => ⟨deadline, h, hbefore⟩, fun ⟨_, hlock, hbefore⟩ => by
        rw [h] at hlock; cases hlock; exact hbefore⟩

instance (s : Controls ν) (now : Nat) (name : ν) : Decidable (s.Expired now name) :=
  match h : s.locks name with
  | none => .isFalse fun ⟨_, hlock, _⟩ => by rw [h] at hlock; cases hlock
  | some none => .isFalse fun ⟨_, hlock, _⟩ => by rw [h] at hlock; cases hlock
  | some (some stop) => decidable_of_iff (stop ≤ now)
      ⟨fun hover => ⟨stop, h, hover⟩, fun ⟨_, hlock, hover⟩ => by
        rw [h] at hlock; cases hlock; exact hover⟩

section Observations

variable {s a b : Controls ν} {now : Nat} {name : ν}

theorem not_expired_of_held (h : s.Held now name) : ¬ s.Expired now name := by
  rintro ⟨stop, hlock, hover⟩
  obtain ⟨deadline, hheld, hbefore⟩ := h
  rw [hlock, Option.some.injEq] at hheld
  subst hheld
  have := hbefore stop rfl
  omega

def HeldUntil (s : Controls ν) (name : ν) (stop : Option Nat) : Prop :=
  ∃ deadline, s.locks name = some deadline ∧ ∀ time, Before time stop → Before time deadline

theorem HeldUntil.held {stop : Option Nat} (h : s.HeldUntil name stop) (hnow : Before now stop) :
    s.Held now name := by
  obtain ⟨deadline, hlock, houtlasts⟩ := h
  exact ⟨deadline, hlock, houtlasts now hnow⟩

structure SameRecent (window now : Nat) (a b : Controls ν) : Prop where
  flag : a.lockedOut = b.lockedOut
  recent : ∀ name, recent now window (a.failures name) = recent now window (b.failures name)

theorem SameRecent.later {window later : Nat} (h : SameRecent window now a b)
    (hle : now ≤ later) : SameRecent window later a b where
  flag := h.flag
  recent := fun name => recent_congr_later hle (h.recent name)

theorem SameRecent.symm {window : Nat} (h : SameRecent window now a b) :
    SameRecent window now b a := ⟨h.flag.symm, fun name => (h.recent name).symm⟩

theorem SameRecent.trans {window : Nat} (h : SameRecent window now a b)
    (h' : SameRecent window now b s) : SameRecent window now a s :=
  ⟨h.flag.trans h'.flag, fun name => (h.recent name).trans (h'.recent name)⟩

end Observations

variable [DecidableEq ν]

def after (p : Policy) (s : Controls ν) (now : Nat) : Occurrence ν → Controls ν
  | .failure name perKey =>
      { lockedOut := s.lockedOut || decide (p.Trips now perKey (s.failures name))
        failures := Function.update s.failures name (p.record now perKey (s.failures name))
        locks := if p.Fires now perKey (s.failures name) then
            Function.update s.locks name (some (p.lockEnd now))
          else s.locks }
  | .look name =>
      if s.Expired now name then
        { s with
          failures := Function.update s.failures name []
          locks := Function.update s.locks name none }
      else s
  | .clearKey name =>
      { s with
        failures := Function.update s.failures name []
        locks := Function.update s.locks name none }
  | .clearAll => ⟨false, fun _ => [], fun _ => none⟩

/-- A failure recorded at `now` whose lock, if there is one, begins at `later`. -/
def failed (p : Policy) (s : Controls ν) (name : ν) (now later : Nat) : Controls ν where
  lockedOut := s.lockedOut || decide (p.Trips now true (s.failures name))
  failures := Function.update s.failures name (p.record now true (s.failures name))
  locks := if p.Fires now true (s.failures name) then
      Function.update s.locks name (some (p.lockEnd later))
    else s.locks

section Steps

variable {p q : Policy} {s a b : Controls ν} {now : Nat} {name other : ν} {perKey : Bool}

theorem failures_failure_self : (s.after p now (.failure name perKey)).failures name =
    p.record now perKey (s.failures name) := Function.update_self ..

theorem failures_failure_other (h : other ≠ name) :
    (s.after p now (.failure name perKey)).failures other = s.failures other :=
  Function.update_of_ne h ..

theorem look_of_expired (h : s.Expired now name) :
    s.after p now (.look name) =
      { s with
        failures := Function.update s.failures name []
        locks := Function.update s.locks name none } := if_pos h

theorem look_of_not_expired (h : ¬ s.Expired now name) : s.after p now (.look name) = s :=
  if_neg h

theorem lockedOut_look : (s.after p now (.look name)).lockedOut = s.lockedOut := by
  by_cases h : s.Expired now name
  · rw [look_of_expired h]
  · rw [look_of_not_expired h]

theorem heldUntil_of_fires (h : p.Fires now perKey (s.failures name)) :
    (s.after p now (.failure name perKey)).HeldUntil name (p.lockEnd now) := by
  refine ⟨p.lockEnd now, ?_, fun _ hbefore => hbefore⟩
  simp only [after]
  rw [if_pos h, Function.update_self]

theorem HeldUntil.after {stop : Option Nat} {o : Occurrence ν} (h : s.HeldUntil name stop)
    (hnow : Before now stop) (hkey : o ≠ .clearKey name) (hall : o ≠ .clearAll)
    (hrenew : ∀ time, Before time stop → Before time (p.lockEnd now)) :
    (s.after p now o).HeldUntil name stop := by
  cases o with
  | failure failed perKey =>
    unfold HeldUntil
    simp only [Controls.after]
    by_cases hfires : p.Fires now perKey (s.failures failed)
    · rw [if_pos hfires]
      by_cases hsame : name = failed
      · subst hsame
        exact ⟨p.lockEnd now, Function.update_self .., hrenew⟩
      · rw [Function.update_of_ne hsame]
        exact h
    · rw [if_neg hfires]
      exact h
  | look seen =>
    by_cases hexpired : s.Expired now seen
    · -- the lock of `name` is not over, so it is another one that goes
      have hother : name ≠ seen := by
        rintro rfl
        exact not_expired_of_held (h.held hnow) hexpired
      rw [look_of_expired hexpired]
      unfold HeldUntil
      dsimp only
      rw [Function.update_of_ne hother]
      exact h
    · rw [look_of_not_expired hexpired]
      exact h
  | clearKey cleared =>
    have hother : name ≠ cleared := by
      rintro rfl
      exact hkey rfl
    unfold HeldUntil
    simp only [Controls.after]
    rw [Function.update_of_ne hother]
    exact h
  | clearAll => exact absurd rfl hall

theorem SameRecent.failure (h : SameRecent q.window now a b) (hmax : p.maxFailures = q.maxFailures)
    (hwindow : p.window = q.window) :
    SameRecent q.window now (a.after p now (.failure name perKey))
      (b.after q now (.failure name perKey)) := by
  have hp : Lockouts.recent now q.window (p.record now perKey (a.failures name)) =
      Lockouts.recent now q.window (a.failures name) ++ [now] :=
    p.recent_record (hwindow ▸ p.window_le_horizon perKey) _
  have hq : Lockouts.recent now q.window (q.record now perKey (b.failures name)) =
      Lockouts.recent now q.window (b.failures name) ++ [now] :=
    q.recent_record (q.window_le_horizon perKey) _
  refine ⟨?_, ?_⟩
  · have htrips : p.Trips now perKey (a.failures name) ↔ q.Trips now perKey (b.failures name) := by
      unfold Policy.Trips
      rw [hmax, hwindow, hp, hq, h.recent name]
    simp only [after, h.flag, decide_eq_decide.mpr htrips]
  · intro other
    by_cases hsame : other = name
    · subst hsame
      rw [failures_failure_self, failures_failure_self, hp, hq, h.recent other]
    · rw [failures_failure_other hsame, failures_failure_other hsame]
      exact h.recent other

theorem sameRecent_look {window : Nat}
    (hold : s.Expired now name → Lockouts.recent now window (s.failures name) = []) :
    SameRecent window now (s.after p now (.look name)) s := by
  by_cases hexpired : s.Expired now name
  · rw [look_of_expired hexpired]
    refine ⟨rfl, ?_⟩
    intro other
    by_cases hsame : other = name
    · subst hsame
      dsimp only
      rw [Function.update_self, hold hexpired]
      rfl
    · dsimp only
      rw [Function.update_of_ne hsame]
  · rw [look_of_not_expired hexpired]
    exact ⟨rfl, fun _ => rfl⟩

theorem SameRecent.after {o : Occurrence ν} (h : SameRecent q.window now a b)
    (hmax : p.maxFailures = q.maxFailures) (hwindow : p.window = q.window)
    (ha : ∀ name, o = .look name → a.Expired now name →
      Lockouts.recent now q.window (a.failures name) = [])
    (hb : ∀ name, o = .look name → b.Expired now name →
      Lockouts.recent now q.window (b.failures name) = []) :
    SameRecent q.window now (a.after p now o) (b.after q now o) := by
  cases o with
  | failure name perKey => exact h.failure hmax hwindow
  | look name =>
    have hleft := sameRecent_look (p := p) (ha name rfl)
    have hright := sameRecent_look (p := q) (hb name rfl)
    exact hleft.trans (h.trans hright.symm)
  | clearKey name =>
    refine ⟨h.flag, ?_⟩
    intro other
    simp only [Controls.after]
    by_cases hsame : other = name
    · subst hsame
      rw [Function.update_self, Function.update_self]
    · rw [Function.update_of_ne hsame, Function.update_of_ne hsame]
      exact h.recent other
  | clearAll => exact ⟨rfl, fun _ => rfl⟩

theorem locks_after_of_off {o : Occurrence ν} (hoff : p.keyThreshold = 0)
    (h : s.locks = fun _ => none) : (s.after p now o).locks = fun _ => none := by
  have hcleared : ∀ name, Function.update s.locks name none = fun _ => none := by
    intro name
    rw [h]
    funext other
    by_cases hsame : other = name
    · rw [hsame, Function.update_self]
    · rw [Function.update_of_ne hsame]
  cases o with
  | failure name perKey =>
    have hfires : ¬ p.Fires now perKey (s.failures name) := by
      rintro ⟨⟨-, hpos⟩, -⟩
      omega
    simp only [Controls.after]
    rw [if_neg hfires]
    exact h
  | look name =>
    by_cases hexpired : s.Expired now name
    · rw [look_of_expired hexpired]
      exact hcleared name
    · rw [look_of_not_expired hexpired]
      exact h
  | clearKey name => exact hcleared name
  | clearAll => rfl

theorem flag_after_of_off {o : Occurrence ν} (hoff : p.maxFailures = 0)
    (h : s.lockedOut = false) : (s.after p now o).lockedOut = false := by
  cases o with
  | failure name perKey =>
    have htrips : ¬ p.Trips now perKey (s.failures name) := by
      rintro ⟨hpos, -⟩
      omega
    simp only [Controls.after, h, decide_eq_false htrips, Bool.or_false]
  | look name =>
    by_cases hexpired : s.Expired now name
    · rw [look_of_expired hexpired]
      exact h
    · rw [look_of_not_expired hexpired]
      exact h
  | clearKey name => exact h
  | clearAll => rfl

end Steps

end Controls

end Lockouts
