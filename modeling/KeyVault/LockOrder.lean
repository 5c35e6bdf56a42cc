import KeyVault.CallHistory
import Mathlib.Logic.Hydra

/-! Calls that share several locks. A call holds the locks it has taken and not given back,
by its own history. If every call takes locks upward in one order, gives back what it holds
and holds nothing at its end, then no lock has two holders and no calls wait for each other,
whatever their number and schedule. -/
namespace Interleaving

inductive LockOp (Λ Op : Type) where
  | lock (l : Λ)
  | unlock (l : Λ)
  | inner (op : Op)

def lockSignature (Λ : Type) (S : Signature) : Signature where
  Op := LockOp Λ S.Op
  Ret
    | .lock _ => Unit
    | .unlock _ => Unit
    | .inner op => S.Ret op

def access {Λ : Type} {S : Signature} (op : S.Op) : Program (lockSignature Λ S) (S.Ret op) :=
  .step (.inner op) fun ret => .done ret

def underLock {Λ α : Type} {S : Signature} (l : Λ) (body : Program (lockSignature Λ S) α) :
    Program (lockSignature Λ S) α :=
  .step (.lock l) fun _ => body >>= fun value => .step (.unlock l) fun _ => .done value

/-- The data, and for each lock whether it is taken. -/
structure Locking (Λ σ : Type) where
  data : σ
  taken : Λ → Bool

variable {Λ σ κ α ε : Type} {S : Signature} [DecidableEq Λ]

/-- A lock that is taken lets nobody in; the operations in between act on the data. -/
def Locking.perform (sem : (op : S.Op) → σ → Option (S.Ret op × σ)) :
    (op : LockOp Λ S.Op) → Locking Λ σ →
      Option ((lockSignature Λ S).Ret op × Locking Λ σ)
  | .lock l, s =>
      if s.taken l then none
      else some ((), { s with taken := Function.update s.taken l true })
  | .unlock l, s => some ((), { s with taken := Function.update s.taken l false })
  | .inner op, s => (sem op s.data).map fun out => (out.1, { s with data := out.2 })

def lockMachine (sem : (op : S.Op) → σ → Option (S.Ret op × σ))
    (program : κ → Program (lockSignature Λ S) α) (external : ε → σ → Option σ) :
    Machine (lockSignature Λ S) (Locking Λ σ) κ α ε where
  perform := Locking.perform sem
  program := program
  external event s := (external event s.data).map fun data => { s with data := data }

def unlocked (s : σ) : Config (lockSignature Λ S) (Locking Λ σ) κ α :=
  .start ⟨s, fun _ => false⟩

/-! ### The locks a call holds -/

def heldAfter (held : List Λ) (event : Event (lockSignature Λ S)) : List Λ :=
  match event.op with
  | .lock l => l :: held
  | .unlock l => held.erase l
  | .inner _ => held

def heldLocks (history : List (Event (lockSignature Λ S))) : List Λ :=
  history.foldl heldAfter []

@[simp] theorem heldLocks_nil : heldLocks ([] : List (Event (lockSignature Λ S))) = [] := rfl

@[simp] theorem heldLocks_snoc (history : List (Event (lockSignature Λ S)))
    (event : Event (lockSignature Λ S)) :
    heldLocks (history ++ [event]) = heldAfter (heldLocks history) event := by
  simp [heldLocks]

@[simp] theorem heldAfter_lock (held : List Λ) (l : Λ) (ret : Unit) :
    heldAfter (S := S) held ⟨.lock l, ret⟩ = l :: held := rfl

@[simp] theorem heldAfter_unlock (held : List Λ) (l : Λ) (ret : Unit) :
    heldAfter (S := S) held ⟨.unlock l, ret⟩ = held.erase l := rfl

@[simp] theorem heldAfter_inner (held : List Λ) (op : S.Op) (ret : S.Ret op) :
    heldAfter held ⟨.inner op, ret⟩ = held := rfl

def Config.locksOf (c : Config (lockSignature Λ S) (Locking Λ σ) κ α) (caller : Nat) : List Λ :=
  heldLocks (eventsBy c.log caller)

/-! ### The rule -/

/-- Locks are taken upward in `rank`, only held locks are given back, and other operations
are performed under the locks they ask for. -/
def InOrder (rank : Λ → ℕ) (asks : S.Op → List Λ → Prop)
    (history : List (Event (lockSignature Λ S))) : LockOp Λ S.Op → Prop
  | .lock l => ∀ h ∈ heldLocks history, rank h < rank l
  | .unlock l => l ∈ heldLocks history
  | .inner op => asks op (heldLocks history)

def Holding (held : List Λ) (history : List (Event (lockSignature Λ S))) (_ : α) : Prop :=
  heldLocks history = held

def KeepsOrder (rank : Λ → ℕ) (asks : S.Op → List Λ → Prop) (held : List Λ)
    (p : Program (lockSignature Λ S) α) : Prop :=
  ∀ history, heldLocks history = held →
    p.Obeys (S := lockSignature Λ S) (InOrder rank asks) (Holding held) history

section KeepsOrder

variable {rank : Λ → ℕ} {asks : S.Op → List Λ → Prop} {held : List Λ} {β : Type}

theorem keepsOrder_done (value : α) :
    KeepsOrder rank asks held (.done value : Program (lockSignature Λ S) α) := fun _ h => h

theorem keepsOrder_bind {p : Program (lockSignature Λ S) α}
    {f : α → Program (lockSignature Λ S) β} (hp : KeepsOrder rank asks held p)
    (hf : ∀ value, KeepsOrder rank asks held (f value)) : KeepsOrder rank asks held (p >>= f) :=
  fun history h => Program.obeys_bind (hp history h) fun later value hlater =>
    hf value later hlater

theorem keepsOrder_access {op : S.Op} (h : asks op held) :
    KeepsOrder rank asks held (access op : Program (lockSignature Λ S) (S.Ret op)) := by
  intro history hhistory
  refine ⟨?_, fun ret => ?_⟩
  · show asks op (heldLocks history)
    rw [hhistory]
    exact h
  · show heldLocks (history ++ [⟨.inner op, ret⟩]) = held
    rw [heldLocks_snoc]
    exact hhistory

theorem keepsOrder_underLock {l : Λ} {p : Program (lockSignature Λ S) α}
    (habove : ∀ h ∈ held, rank h < rank l) (hp : KeepsOrder rank asks (l :: held) p) :
    KeepsOrder rank asks held (underLock l p) := by
  intro history hhistory
  refine ⟨?_, fun ret => ?_⟩
  · show ∀ h ∈ heldLocks history, rank h < rank l
    rw [hhistory]
    exact habove
  · have htaken : heldLocks (history ++ [⟨.lock l, ret⟩]) = l :: held := by
      rw [heldLocks_snoc, hhistory]
      rfl
    refine Program.obeys_bind (hp _ htaken) fun later value hlater => ⟨?_, fun ret => ?_⟩
    · show l ∈ heldLocks later
      rw [show heldLocks later = l :: held from hlater]
      exact List.mem_cons_self
    · show heldLocks (later ++ [⟨.unlock l, ret⟩]) = held
      rw [heldLocks_snoc, show heldLocks later = l :: held from hlater]
      exact List.erase_cons_head ..

end KeepsOrder

def Program.expand {S T : Signature} (carryOut : (op : S.Op) → Program T (S.Ret op)) :
    Program S α → Program T α
  | .done value => .done value
  | .step op next => carryOut op >>= fun ret => (next ret).expand carryOut

omit [DecidableEq Λ] in
theorem Program.uses_expand {S T : Signature} {P : S.Op → Prop} {Q : T.Op → Prop}
    {carryOut : (op : S.Op) → Program T (S.Ret op)} (h : ∀ op, P op → (carryOut op).Uses Q)
    {p : Program S α} (hp : p.Uses P) : (p.expand carryOut).Uses Q := by
  induction p with
  | done value => trivial
  | step op next ih => exact Program.uses_bind (h op hp.1) fun ret => ih ret (hp.2 ret)

variable {rank : Λ → ℕ} {asks : S.Op → List Λ → Prop}

theorem keepsOrder_expand {T : Signature}
    {carryOut : (op : T.Op) → Program (lockSignature Λ S) (T.Ret op)}
    (h : ∀ op, KeepsOrder rank asks [] (carryOut op)) (p : Program T α) :
    KeepsOrder rank asks [] (p.expand carryOut) := by
  induction p with
  | done value => exact keepsOrder_done value
  | step op next ih => exact keepsOrder_bind (h op) ih

/-! ### Mutual exclusion -/

/-- A lock has at most one holder, and has one exactly while it is taken. -/
structure Exclusive (taken : Λ → Bool) (held : ℕ → List Λ) : Prop where
  nodup : ∀ caller, (held caller).Nodup
  unique : ∀ l caller other, l ∈ held caller → l ∈ held other → caller = other
  taken : ∀ l, taken l = true ↔ ∃ caller, l ∈ held caller

section Exclusion

variable {taken : Λ → Bool} {held : ℕ → List Λ} {caller : ℕ} {l : Λ}

omit [DecidableEq Λ] in
theorem exclusive_nobody : Exclusive (fun _ : Λ => false) fun _ => [] where
  nodup _ := List.nodup_nil
  unique _ _ _ h := absurd h List.not_mem_nil
  taken l := by simp

omit [DecidableEq Λ] in
theorem mem_update_cons {l' : Λ} {other : ℕ} :
    l' ∈ Function.update held caller (l :: held caller) other ↔
      (l' = l ∧ other = caller) ∨ l' ∈ held other := by
  by_cases hsame : other = caller
  · subst hsame
    simp
  · simp [hsame]

theorem Exclusive.lock (h : Exclusive taken held) (hfree : taken l = false) (caller : ℕ) :
    Exclusive (Function.update taken l true)
      (Function.update held caller (l :: held caller)) := by
  have hnobody : ∀ other, l ∉ held other := fun other hmem => by
    rw [(h.taken l).mpr ⟨other, hmem⟩] at hfree
    cases hfree
  constructor
  · intro other
    by_cases hsame : other = caller
    · subst hsame
      rw [Function.update_self]
      exact List.nodup_cons.mpr ⟨hnobody other, h.nodup other⟩
    · rw [Function.update_of_ne hsame]
      exact h.nodup other
  · intro l' first second hfirst hsecond
    rw [mem_update_cons] at hfirst hsecond
    rcases hfirst with ⟨rfl, rfl⟩ | hfirst <;> rcases hsecond with ⟨hl, rfl⟩ | hsecond
    · rfl
    · exact absurd hsecond (hnobody second)
    · exact absurd (hl ▸ hfirst) (hnobody first)
    · exact h.unique l' first second hfirst hsecond
  · intro l'
    simp only [mem_update_cons]
    by_cases hl : l' = l
    · subst hl
      rw [Function.update_self]
      exact iff_of_true rfl ⟨caller, .inl ⟨rfl, rfl⟩⟩
    · rw [Function.update_of_ne hl, h.taken l']
      simp [hl]

theorem Exclusive.unlock (h : Exclusive taken held) (hheld : l ∈ held caller) :
    Exclusive (Function.update taken l false)
      (Function.update held caller ((held caller).erase l)) := by
  have hmem : ∀ l' other, l' ∈ Function.update held caller ((held caller).erase l) other ↔
      l' ≠ l ∧ l' ∈ held other := by
    intro l' other
    by_cases hsame : other = caller
    · subst hsame
      rw [Function.update_self, (h.nodup other).mem_erase_iff]
    · rw [Function.update_of_ne hsame]
      refine ⟨fun hother => ⟨?_, hother⟩, And.right⟩
      rintro rfl
      exact hsame (h.unique l' other caller hother hheld)
  constructor
  · intro other
    by_cases hsame : other = caller
    · subst hsame
      rw [Function.update_self]
      exact (h.nodup other).erase l
    · rw [Function.update_of_ne hsame]
      exact h.nodup other
  · intro l' first second hfirst hsecond
    exact h.unique l' first second ((hmem l' first).mp hfirst).2 ((hmem l' second).mp hsecond).2
  · intro l'
    simp only [hmem]
    by_cases hl : l' = l
    · simp [hl]
    · rw [Function.update_of_ne hl, h.taken l']
      simp [hl]

end Exclusion

variable {sem : (op : S.Op) → σ → Option (S.Ret op × σ)}
  {program : κ → Program (lockSignature Λ S) α} {external : ε → σ → Option σ}
  {c c' : Config (lockSignature Λ S) (Locking Λ σ) κ α} {caller : ℕ}

abbrev Ordered (rank : Λ → ℕ) (asks : S.Op → List Λ → Prop)
    (c : Config (lockSignature Λ S) (Locking Λ σ) κ α) : Prop :=
  Machine.Orderly (fun _ => InOrder rank asks) (fun _ => Holding []) c

theorem ordered_run (hprogram : ∀ request, KeepsOrder rank asks [] (program request))
    (hrun : (lockMachine sem program external).Reaches c c') (h : Ordered rank asks c) :
    Ordered rank asks c' :=
  hrun.orderly (fun request => hprogram request [] rfl) h

theorem locksOf_new (hordered : Ordered rank asks c) : c.locksOf c.calls.length = [] := by
  have hnone : eventsBy c.log c.calls.length = [] := by
    refine List.eq_nil_iff_forall_not_mem.mpr fun event hevent => ?_
    obtain ⟨entry, hentry, hcaller, -⟩ := mem_eventsBy.mp hevent
    obtain ⟨rest, hcall⟩ := hordered.logged entry hentry
    have hlt := (List.getElem?_eq_some_iff.mp hcall).1
    omega
  rw [Config.locksOf, hnone]
  rfl

theorem lockMachine_step
    (hstep : (lockMachine sem program external).step c (.exec caller) = some c') :
    ∃ request op next ret, c.calls[caller]? = some ⟨request, .step op next⟩ ∧
      Locking.perform sem op c.shared = some (ret, c'.shared) ∧
      c'.calls = c.calls.set caller ⟨request, next ret⟩ ∧
      c'.log = c.log ++ [⟨caller, request, ⟨op, ret⟩⟩] ∧
      c'.locksOf = Function.update c.locksOf caller (heldAfter (c.locksOf caller) ⟨op, ret⟩) := by
  obtain ⟨request, op, next, ret, s, hcall, hperform, rfl⟩ := Machine.step_exec_iff.mp hstep
  refine ⟨request, op, next, ret, hcall, hperform, rfl, rfl, ?_⟩
  funext other
  by_cases hsame : other = caller
  · subst hsame
    simp only [Config.locksOf, eventsBy_snoc_self, heldLocks_snoc, Function.update_self]
  · rw [Function.update_of_ne hsame]
    simp only [Config.locksOf, eventsBy_snoc_other c.log (Ne.symm hsame)]

theorem perform_lock {l : Λ} {s s' : Locking Λ σ} {ret : Unit}
    (h : Locking.perform (S := S) sem (.lock l) s = some (ret, s')) :
    s.taken l = false ∧ s' = ⟨s.data, Function.update s.taken l true⟩ := by
  simp only [Locking.perform] at h
  split at h
  · cases h
  · rename_i hfree
    cases h
    exact ⟨by simpa using hfree, rfl⟩

theorem perform_inner {op : S.Op} {s s' : Locking Λ σ} {ret : S.Ret op}
    (h : Locking.perform sem (.inner op) s = some (ret, s')) :
    sem op s.data = some (ret, s'.data) ∧ s'.taken = s.taken := by
  obtain ⟨out, hout, heq⟩ := Option.map_eq_some_iff.mp h
  cases heq
  exact ⟨hout, rfl⟩

abbrev Config.Excludes (c : Config (lockSignature Λ S) (Locking Λ σ) κ α) : Prop :=
  Exclusive c.shared.taken c.locksOf

theorem excludes_unlocked (s : σ) :
    (unlocked s : Config (lockSignature Λ S) (Locking Λ σ) κ α).Excludes :=
  exclusive_nobody

theorem excludes_step {action : Action κ ε} (hordered : Ordered rank asks c) (h : c.Excludes)
    (hstep : (lockMachine sem program external).step c action = some c') : c'.Excludes := by
  cases action with
  | invoke request =>
    rw [Machine.step_invoke_iff] at hstep
    subst hstep
    exact h
  | exec caller =>
    obtain ⟨request, op, next, ret, hcall, hperform, -, -, hlocks⟩ := lockMachine_step hstep
    have hrule := (hordered.obeys caller _ hcall).1
    unfold Config.Excludes
    rw [hlocks]
    cases op with
    | lock l =>
      obtain ⟨hfree, hshared⟩ := perform_lock hperform
      rw [hshared]
      exact h.lock hfree caller
    | unlock l =>
      obtain ⟨rfl, hshared⟩ := Prod.mk.inj (Option.some.inj hperform)
      rw [← hshared]
      exact h.unlock hrule
    | inner op =>
      obtain ⟨-, htaken⟩ := perform_inner hperform
      show Exclusive c'.shared.taken (Function.update c.locksOf caller (c.locksOf caller))
      rw [htaken, Function.update_eq_self]
      exact h
  | external event =>
    obtain ⟨s, hs, rfl⟩ := Machine.step_external_iff.mp hstep
    obtain ⟨data, -, rfl⟩ := Option.map_eq_some_iff.mp hs
    exact h

/-- No lock ever has two holders. -/
theorem excludes_run (hprogram : ∀ request, KeepsOrder rank asks [] (program request))
    (hrun : (lockMachine sem program external).Reaches c c') (hordered : Ordered rank asks c)
    (h : c.Excludes) : c'.Excludes := by
  induction hrun with
  | refl => exact h
  | tail hrun _ hstep ih => exact excludes_step (ordered_run hprogram hrun hordered) ih hstep

/-! ### No calls wait for each other -/

/-- A call is about to do something that has no outcome: the process is gone. -/
def Stops (sem : (op : S.Op) → σ → Option (S.Ret op × σ))
    (c : Config (lockSignature Λ S) (Locking Λ σ) κ α) : Prop :=
  ∃ call ∈ c.calls, ∃ op, call.rest.next? = some (.inner op) ∧ sem op c.shared.data = none

def LockOp.lock? {Λ Op : Type} : LockOp Λ Op → Option Λ
  | .lock l => some l
  | .unlock _ | .inner _ => none

def Config.nextLock (c : Config (lockSignature Λ S) (Locking Λ σ) κ α) (caller : ℕ) : Option Λ :=
  c.calls[caller]?.bind fun call => call.rest.next?.bind LockOp.lock?

def WaitsFor (c : Config (lockSignature Λ S) (Locking Λ σ) κ α) (caller : ℕ) (l : Λ) : Prop :=
  c.shared.taken l = true ∧ c.nextLock caller = some l

section Progress

variable (sem program external)

theorem steps_or_waits {call : Activation (lockSignature Λ S) κ α}
    (hcall : c.calls[caller]? = some call) (hrest : call.rest.result? = none) :
    (∃ c', (lockMachine sem program external).step c (.exec caller) = some c') ∨
      (∃ l, WaitsFor c caller l) ∨ Stops sem c := by
  obtain ⟨request, rest⟩ := call
  cases rest with
  | done value => cases hrest
  | step op next =>
    have hsteps : ∀ ret s, Locking.perform sem op c.shared = some (ret, s) →
        ∃ c', (lockMachine sem program external).step c (.exec caller) = some c' :=
      fun ret s hperform =>
        ⟨_, Machine.step_exec_iff.mpr ⟨request, op, next, ret, s, hcall, hperform, rfl⟩⟩
    cases op with
    | lock l =>
      by_cases htaken : c.shared.taken l = true
      · refine .inr (.inl ⟨l, htaken, ?_⟩)
        rw [Config.nextLock, hcall]
        rfl
      · refine .inl (hsteps () ⟨c.shared.data, Function.update c.shared.taken l true⟩ ?_)
        simp [Locking.perform, htaken]
    | unlock l => exact .inl (hsteps () _ rfl)
    | inner op =>
      cases hsem : sem op c.shared.data with
      | none => exact .inr (.inr ⟨_, List.mem_of_getElem? hcall, op, rfl, hsem⟩)
      | some out =>
        refine .inl (hsteps out.1 ⟨out.2, c.shared.taken⟩ ?_)
        simp [Locking.perform, hsem]

/-- Whoever holds the lock that a call waits for waits, if at all, for a higher lock. -/
theorem waits_above (hordered : Ordered rank asks c) (hexclusive : c.Excludes) {l : Λ}
    (hwaits : WaitsFor c caller l) : ∃ holder call, c.calls[holder]? = some call ∧
      call.rest.result? = none ∧ ∀ l', WaitsFor c holder l' → rank l < rank l' := by
  obtain ⟨holder, hholds⟩ := (hexclusive.taken l).mp hwaits.1
  -- a call with a lock in its history exists and has not returned
  have hsome : ∃ event, event ∈ eventsBy c.log holder := by
    by_contra hnone
    have hempty : eventsBy c.log holder = [] := List.eq_nil_iff_forall_not_mem.mpr (by simpa using hnone)
    rw [Config.locksOf, hempty] at hholds
    cases hholds
  obtain ⟨event, hevent⟩ := hsome
  obtain ⟨entry, hentry, rfl, -⟩ := mem_eventsBy.mp hevent
  obtain ⟨rest, hcall⟩ := hordered.logged entry hentry
  refine ⟨entry.caller, _, hcall, ?_, fun l' hother => ?_⟩
  · cases rest with
    | done value =>
      have hnothing : heldLocks (eventsBy c.log entry.caller) = [] := hordered.obeys _ _ hcall
      rw [Config.locksOf, hnothing] at hholds
      cases hholds
    | step op next => rfl
  · have hnext := hother.2
    rw [Config.nextLock, hcall] at hnext
    cases rest with
    | done value => cases hnext
    | step op next =>
      cases op with
      | lock l'' =>
        obtain rfl : l'' = l' := Option.some.inj hnext
        exact (hordered.obeys _ _ hcall).1 l hholds
      | _ => cases hnext

theorem can_go_on (hordered : Ordered rank asks c) (hexclusive : c.Excludes)
    {call : Activation (lockSignature Λ S) κ α} (hcall : call ∈ c.calls)
    (hrest : call.rest.result? = none) :
    (∃ caller c', (lockMachine sem program external).step c (.exec caller) = some c') ∨
      Stops sem c := by
  by_contra hstuck
  obtain ⟨hnobody, hruns⟩ := not_or.mp hstuck
  have hwait : ∀ caller call, c.calls[caller]? = some call → call.rest.result? = none →
      ∃ l, WaitsFor c caller l := by
    intro caller call hcall hrest
    rcases steps_or_waits sem program external hcall hrest with hsteps | hwaits | hstops
    · exact absurd ⟨caller, hsteps⟩ hnobody
    · exact hwaits
    · exact absurd hstops hruns
  obtain ⟨first, hfirst⟩ := List.mem_iff_getElem?.mp hcall
  -- of the calls that wait, take one that waits for the highest lock
  let height (caller : ℕ) : ℕ := (c.nextLock caller).elim 0 rank
  have hheight : ∀ {caller l}, WaitsFor c caller l → height caller = rank l := by
    rintro caller l ⟨-, hnext⟩
    simp [height, hnext]
  let waiting := (Finset.range c.calls.length).filter fun caller =>
    ∃ call, c.calls[caller]? = some call ∧ call.rest.result? = none
  have hmem : ∀ {caller call}, c.calls[caller]? = some call → call.rest.result? = none →
      caller ∈ waiting := fun hcall hrest => by
    simp only [waiting, Finset.mem_filter, Finset.mem_range]
    exact ⟨(List.getElem?_eq_some_iff.mp hcall).1, _, hcall, hrest⟩
  obtain ⟨top, htop, hmax⟩ := Finset.exists_max_image waiting height ⟨first, hmem hfirst hrest⟩
  obtain ⟨-, call, hat, hback⟩ := Finset.mem_filter.mp htop
  obtain ⟨l, hwaits⟩ := hwait top call hat hback
  obtain ⟨holder, call', hholder, hback', habove⟩ := waits_above hordered hexclusive hwaits
  obtain ⟨l', hwaits'⟩ := hwait holder call' hholder hback'
  have hle := hmax holder (hmem hholder hback')
  rw [hheight hwaits, hheight hwaits'] at hle
  exact absurd (habove l' hwaits') (by omega)

end Progress

/-! ### Every call comes back -/

def Continues {T : Signature} (later earlier : Program T α) : Prop :=
  ∃ op next ret, earlier = .step op next ∧ later = next ret

theorem continues_wellFounded {T : Signature} : WellFounded (Continues (T := T) (α := α)) := by
  constructor
  intro p
  induction p with
  | done value => exact ⟨_, fun _ ⟨_, _, _, h, _⟩ => nomatch h⟩
  | step op next ih =>
    refine ⟨_, fun later ⟨op', next', ret, h, hlater⟩ => ?_⟩
    cases h
    subst hlater
    exact ih ret

/-- Only calls that have begun go on. -/
abbrev Proceeds (m : Machine S σ κ α ε) : Config S σ κ α → Config S σ κ α → Prop :=
  m.Runs fun _ action => ∃ caller, action = .exec caller

/-- No schedule of the calls that have begun goes on for ever. -/
theorem proceeds_wellFounded {T : Signature} {τ : Type} (m : Machine T τ κ α ε) :
    WellFounded fun later earlier : Config T τ κ α =>
      ∃ caller, m.step earlier (.exec caller) = some later := by
  have hcut : WellFounded (Relation.CutExpand (Continues (T := T) (α := α))) :=
    continues_wellFounded.cutExpand
  let left (c : Config T τ κ α) : Multiset (Program T α) := (c.calls.map (·.rest) : List _)
  refine Subrelation.wf ?_ (InvImage.wf left hcut)
  rintro later earlier ⟨caller, hstep⟩
  obtain ⟨request, op, next, ret, s, hcall, -, rfl⟩ := Machine.step_exec_iff.mp hstep
  let others : Multiset (Program T α) := ((earlier.calls.eraseIdx caller).map (·.rest) : List _)
  have hearlier : left earlier = {.step op next} + others := by
    rw [Multiset.singleton_add]
    refine Multiset.coe_eq_coe.mpr ?_
    simp only [List.map_eq_flatMap]
    exact Ledger.perm_flatMap_getElem? hcall fun call => [call.rest]
  have hlater : left ⟨s, earlier.calls.set caller ⟨request, next ret⟩,
      earlier.log ++ [⟨caller, request, ⟨op, ret⟩⟩]⟩ = {next ret} + others := by
    rw [Multiset.singleton_add]
    refine Multiset.coe_eq_coe.mpr ?_
    simp only [List.map_eq_flatMap]
    exact Ledger.perm_flatMap_set hcall (fun call => [call.rest]) ⟨request, next ret⟩
  show Relation.CutExpand Continues (left _) (left earlier)
  rw [hearlier, hlater]
  exact Relation.cutExpand_single_add ⟨op, next, ret, rfl, rfl⟩ others

theorem all_return (hprogram : ∀ request, KeepsOrder rank asks [] (program request))
    (hordered : Ordered rank asks c) (hexclusive : c.Excludes) :
    ∃ c', Proceeds (lockMachine sem program external) c c' ∧
      ((∀ call ∈ c'.calls, call.rest.result? ≠ none) ∨ Stops sem c') := by
  induction c using (proceeds_wellFounded (lockMachine sem program external)).induction with
  | _ c ih =>
    by_cases hback : ∀ call ∈ c.calls, call.rest.result? ≠ none
    · exact ⟨c, .refl c, .inl hback⟩
    · push Not at hback
      obtain ⟨call, hcall, hrest⟩ := hback
      rcases can_go_on sem program external hordered hexclusive hcall hrest with
        ⟨caller, mid, hstep⟩ | hstops
      · have hto : (lockMachine sem program external).Reaches c mid := .tail (.refl c) trivial hstep
        obtain ⟨c', hlater, hend⟩ := ih mid ⟨caller, hstep⟩ (ordered_run hprogram hto hordered)
          (excludes_run hprogram hto hordered hexclusive)
        exact ⟨c', (Machine.Runs.tail (.refl c) ⟨caller, rfl⟩ hstep).trans hlater, hend⟩
      · exact ⟨c, .refl c, .inr hstops⟩

end Interleaving
