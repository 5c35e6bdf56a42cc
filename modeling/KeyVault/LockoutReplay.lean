import KeyVault.MissedLockouts

/-! Reports of failures and clears, and what their steps leave of the lockout state: the
flag, the locks and the tracker are what the log last wrote to each. A call on its own
leaves what `solo` says. -/
namespace KeyVault

open Interleaving Atomic Lockouts

def clockReadings (history : List VaultEvent) : List Duration :=
  history.filterMap fun
    | ⟨.readClock, time⟩ => some time
    | _ => none

/-- What a call makes of the flag, the locks and the tracker when it runs alone, with the
clock readings it got: a report reads the clock for its failure, and once more for the
deadline of a lock. -/
def solo (env : Environment) (s : Controls String) (request : Request) (readings : List Duration) :
    Controls String :=
  match request with
  | .reportFailure name _ =>
      s.failed env.config.policy name (readings.headD 0) (readings[1]?.getD 0)
  | .clearLockout => s.after env.config.policy 0 .clearAll
  | _ => s

def Request.isClear : Request → Bool
  | .clearLockout => true
  | _ => false

def LockoutCalls (_ : VaultConfiguration) : Action Request Surroundings → Prop
  | .invoke request => request.isReport = true ∨ request.isClear = true
  | .exec _ | .external _ => True

/-! ### The state as its log leaves it -/

def VaultOp.flagWrite : VaultOp → Option Bool
  | .swapLockedOut => some true
  | .storeUnlocked => some false
  | _ => none

def VaultOp.lockWrite (name : String) : VaultOp → Option (Option (Option Duration))
  | .lockKey locked deadline => if locked = name then some (some deadline) else none
  | .clearKeyLocks => some none
  | _ => none

def VaultOp.failuresAfter (env : Environment) (failures : String → List Duration) :
    VaultOp → String → List Duration
  | .trackFailure name now _ =>
      Function.update failures name (env.config.policy.record now true (failures name))
  | .clearFailures => fun _ => []
  | _ => failures

def failuresOf (env : Environment) (failures : String → List Duration) (log : List VaultEntry) :
    String → List Duration :=
  log.foldl (fun failures entry => entry.event.op.failuresAfter env failures) failures

structure Replayed (env : Environment) (v : Vault) (c : VaultConfiguration) : Prop where
  orderly : Machine.Orderly (Request.LockReady env) (Request.LockEnds env) c
  requests : ∀ call ∈ c.calls, call.request.isReport = true ∨ call.request.isClear = true
  flag : c.shared.lockedOut = lastWrite (·.event.op.flagWrite) v.lockedOut c.log
  locks : ∀ name, c.shared.controls.locks name =
    lastWrite (·.event.op.lockWrite name) (v.controls.locks name) c.log
  failures : c.shared.controls.failures = failuresOf env v.controls.failures c.log
  counted : ∀ before entry after name now counts, c.log = before ++ entry :: after →
    trackedBy entry.event = some (name, now, counts) →
    (counts.TripsVault env.config ↔
        env.config.policy.Trips now true (failuresOf env v.controls.failures before name)) ∧
      (counts.TripsKey env.config ↔
        env.config.policy.Fires now true (failuresOf env v.controls.failures before name))

section Replay

variable {env : Environment} {v : Vault} {c c' : VaultConfiguration}

theorem failuresOf_snoc (failures : String → List Duration) (log : List VaultEntry)
    (entry : VaultEntry) : failuresOf env failures (log ++ [entry]) =
      entry.event.op.failuresAfter env (failuresOf env failures log) :=
  List.foldl_concat ..

theorem isClear_iff {request : Request} : request.isClear = true ↔ request = .clearLockout := by
  cases request <;> simp [Request.isClear]

theorem lockKey_inserts {name : String} {deadline : Option Duration} {newly : Bool} {s s' : Vault}
    (h : s.lockKey env name deadline = some (newly, s')) :
    s'.keyLocks = s.keyLocks.insert name deadline := by
  unfold Vault.lockKey at h
  dsimp only at h
  repeat' split at h
  all_goals cases h
  all_goals rfl

theorem perform_writes {request : Request} {history : List VaultEvent} {op : VaultOp} {ret : op.Ret}
    {s s' : Vault} (hrequest : request.isReport = true ∨ request.isClear = true)
    (hready : request.LockReady env history op)
    (hperform : Vault.perform env op s = some (ret, s')) :
    s'.lockedOut = op.flagWrite.getD s.lockedOut ∧
      (∀ name, s'.controls.locks name = (op.lockWrite name).getD (s.controls.locks name)) ∧
      s'.controls.failures = op.failuresAfter env s.controls.failures := by
  have hframe := Vault.perform_frame hperform
  rcases hrequest with hreport | hclear
  · obtain ⟨reported, note, rfl⟩ := isReport_iff.mp hreport
    cases op with
    | readClock | notify | swapLockedOut =>
      cases hperform
      exact ⟨rfl, fun _ => rfl, rfl⟩
    | trackFailure name now perKey =>
      obtain ⟨rfl, rfl, -⟩ := hready
      exact ⟨hframe.lockedOut rfl, fun _ => by unfold Vault.controls; rw [(hframe.keyLocks rfl).1]; rfl,
        (perform_trackFailure hperform).1⟩
    | lockKey name deadline =>
      refine ⟨hframe.lockedOut rfl, ?_, ?_⟩
      · intro other
        unfold Vault.controls
        rw [lockKey_inserts hperform]
        show (fun other => (s.keyLocks.insert name deadline).lookup other) other = _
        rw [locks_insert]
        by_cases hother : other = name
        · subst hother
          simp [VaultOp.lockWrite]
        · rw [Function.update_of_ne hother]
          simp [VaultOp.lockWrite, Ne.symm hother]
          rfl
      · unfold Vault.controls
        rw [hframe.failureTracker rfl]
        rfl
    | _ => cases hready
  · rw [isClear_iff.mp hclear] at hready
    cases op with
    | storeUnlocked | clearKeyLocks | clearFailures =>
      cases hperform
      exact ⟨rfl, fun _ => rfl, rfl⟩
    | _ => cases hready

theorem replayed_start (env : Environment) (v : Vault) : Replayed env v (Config.start v) where
  orderly := Machine.orderly_start v
  requests := by simp [Config.start]
  flag := rfl
  locks _ := rfl
  failures := rfl
  counted := by simp [Config.start]

theorem Replayed.invoke (h : Replayed env v c) {request : Request}
    (hrequest : request.isReport = true ∨ request.isClear = true) :
    Replayed env v { c with calls := c.calls ++ [⟨request, (vaultMachine env).program request⟩] } := by
  refine ⟨h.orderly.invoke request (lock_obeys env request), ?_, h.flag, h.locks, h.failures,
    h.counted⟩
  intro call hcall
  rcases List.mem_append.mp hcall with hold | hnew
  · exact h.requests call hold
  · rw [List.mem_singleton.mp hnew]
    exact hrequest

theorem Replayed.exec (h : Replayed env v c) {caller : Nat}
    (hstep : (vaultMachine env).step c (.exec caller) = some c') : Replayed env v c' := by
  have horderly := h.orderly.exec hstep
  obtain ⟨request, op, next, ret, s, hcall, hperform, rfl⟩ := Machine.step_exec_iff.mp hstep
  have hrequest := h.requests _ (List.mem_of_getElem? hcall)
  have hready := (h.orderly.obeys caller _ hcall).1
  obtain ⟨hflag, hlocks, hfailures⟩ := perform_writes hrequest hready hperform
  refine ⟨horderly, ?_, ?_, ?_, ?_, ?_⟩
  · intro call hmem
    rcases List.mem_or_eq_of_mem_set hmem with hold | rfl
    · exact h.requests call hold
    · exact hrequest
  · rw [lastWrite_snoc, ← h.flag]
    exact hflag
  · intro name
    rw [lastWrite_snoc, ← h.locks name]
    exact hlocks name
  · rw [failuresOf_snoc, ← h.failures]
    exact hfailures
  · intro before entry after name now counts hlog htracked
    rcases split_snoc hlog with ⟨rfl, rfl⟩ | ⟨rest, hbefore⟩
    · obtain ⟨perKey, hevent⟩ := trackedBy_eq_some htracked
      cases hevent
      rcases hrequest with hreport | hclear
      · obtain ⟨reported, note, rfl⟩ := isReport_iff.mp hreport
        obtain ⟨rfl, rfl, -⟩ := hready
        rw [← h.failures]
        exact (perform_trackFailure hperform).2
      · rw [isClear_iff.mp hclear] at hready
        cases hready
    · exact h.counted before entry rest name now counts hbefore htracked

theorem replayed_run
    (hrun : (vaultMachine env).Runs LockoutCalls (Config.start v) c) : Replayed env v c := by
  apply hrun.invariant (replayed_start env v)
  intro before action after h hok hstep
  cases action with
  | invoke request =>
    rw [Machine.step_invoke_iff] at hstep
    subst hstep
    exact h.invoke hok
  | exec caller => exact h.exec hstep
  | external event =>
    obtain ⟨s, hact, rfl⟩ := Machine.step_external_iff.mp hstep
    obtain ⟨clock, unixTime, handles, -, -, rfl⟩ := Surroundings.act_frame hact
    exact ⟨⟨h.orderly.obeys, h.orderly.logged, h.orderly.permitted⟩, h.requests, h.flag, h.locks,
      h.failures, h.counted⟩

end Replay

/-! ### A call on its own -/

section Steps

variable {env : Environment} {name : String} {counts : FailureCounts} {steps : List VaultEvent}

theorem clockReadings_append (history later : List VaultEvent) :
    clockReadings (history ++ later) = clockReadings history ++ clockReadings later :=
  List.filterMap_append

theorem FlagSteps.clockReadings (h : FlagSteps env counts steps) : clockReadings steps = [] := by
  cases h <;> rfl

theorem FlagSteps.swaps_iff (h : FlagSteps env counts steps) :
    (∃ event ∈ steps, event.op = .swapLockedOut) ↔ counts.TripsVault env.config := by
  cases h with
  | below hbelow => simp [hbelow]
  | raised htrips wasLocked event => simp [htrips]

theorem FlagSteps.not_lockKey (h : FlagSteps env counts steps) {event : VaultEvent}
    (hmem : event ∈ steps) (locked : String) (deadline : Option Duration) :
    event.op ≠ .lockKey locked deadline := by
  cases h with
  | below hbelow => cases hmem
  | raised htrips wasLocked notified =>
    simp only [List.mem_cons, List.not_mem_nil, or_false] at hmem
    rcases hmem with rfl | rfl <;> simp

theorem LockSteps.not_swap (h : LockSteps env name counts steps) {event : VaultEvent}
    (hmem : event ∈ steps) : event.op ≠ .swapLockedOut := by
  cases h with
  | below hbelow => cases hmem
  | locked htrips reading deadline hreading newlyLocked notified =>
    cases hreading <;>
      simp only [List.nil_append, List.cons_append, List.mem_cons, List.not_mem_nil, or_false] at hmem
    · rcases hmem with rfl | rfl <;> simp
    · rcases hmem with rfl | rfl | rfl <;> simp

theorem LockSteps.lockKey_mem (h : LockSteps env name counts steps) {event : VaultEvent}
    (hmem : event ∈ steps) {locked : String} {deadline : Option Duration}
    (hop : event.op = .lockKey locked deadline) :
    locked = name ∧ counts.TripsKey env.config ∧
      deadline = env.config.policy.lockEnd ((KeyVault.clockReadings steps)[0]?.getD 0) := by
  cases h with
  | below hbelow => cases hmem
  | locked htrips reading until_ hreading newlyLocked notified =>
    cases hreading with
    | never hduration =>
      simp only [List.nil_append, List.mem_cons, List.not_mem_nil, or_false] at hmem
      rcases hmem with rfl | rfl
      · cases hop
        exact ⟨rfl, htrips, by simp [VaultConfig.policy, hduration]⟩
      · cases hop
    | after duration now hduration =>
      simp only [List.cons_append, List.nil_append, List.mem_cons, List.not_mem_nil, or_false] at hmem
      rcases hmem with rfl | rfl | rfl
      · cases hop
      · cases hop
        exact ⟨rfl, htrips, by simp [VaultConfig.policy, hduration, KeyVault.clockReadings]⟩
      · cases hop

theorem LockSteps.locks (h : LockSteps env name counts steps) (htrips : counts.TripsKey env.config) :
    ∃ event ∈ steps, ∃ deadline, event.op = .lockKey name deadline := by
  cases h with
  | below hbelow => exact absurd htrips hbelow
  | locked _ reading deadline hreading newlyLocked notified =>
    exact ⟨happened (.lockKey name deadline) newlyLocked, by simp, deadline, rfl⟩

theorem FlagSteps.flagWrites (h : FlagSteps env counts steps) (flag : Bool) :
    lastWrite (fun event : VaultEvent => event.op.flagWrite) flag steps =
      (flag || decide (counts.TripsVault env.config)) := by
  cases h with
  | below hbelow => simp [lastWrite, hbelow]
  | raised htrips wasLocked event => simp [lastWrite, VaultOp.flagWrite, htrips]

theorem LockSteps.flagWrites (h : LockSteps env name counts steps) (flag : Bool) :
    lastWrite (fun event : VaultEvent => event.op.flagWrite) flag steps = flag := by
  cases h with
  | below hbelow => rfl
  | locked htrips reading deadline hreading newlyLocked event => cases hreading <;> rfl

theorem FlagSteps.lockWrites (h : FlagSteps env counts steps) (other : String)
    (lock : Option (Option Duration)) :
    lastWrite (fun event : VaultEvent => event.op.lockWrite other) lock steps = lock := by
  cases h <;> rfl

theorem LockSteps.lockWrites (h : LockSteps env name counts steps) (other : String)
    (lock : Option (Option Duration)) :
    lastWrite (fun event : VaultEvent => event.op.lockWrite other) lock steps =
      if counts.TripsKey env.config ∧ name = other then
        some (env.config.policy.lockEnd ((KeyVault.clockReadings steps)[0]?.getD 0)) else lock := by
  cases h with
  | below hbelow => simp [lastWrite, hbelow]
  | locked htrips reading deadline hreading newlyLocked event =>
    by_cases hother : name = other
    · cases hreading with
      | never hduration =>
        simp [lastWrite, VaultOp.lockWrite, htrips, hother, VaultConfig.policy, hduration]
      | after duration now hduration =>
        simp [lastWrite, VaultOp.lockWrite, htrips, hother, VaultConfig.policy, hduration,
          KeyVault.clockReadings]
    · cases hreading <;> simp [lastWrite, VaultOp.lockWrite, hother]

theorem FlagSteps.failures (h : FlagSteps env counts steps) (failures : String → List Duration) :
    steps.foldl (fun failures event => event.op.failuresAfter env failures) failures = failures := by
  cases h <;> rfl

theorem LockSteps.failures (h : LockSteps env name counts steps)
    (failures : String → List Duration) :
    steps.foldl (fun failures event => event.op.failuresAfter env failures) failures = failures := by
  cases h with
  | below hbelow => rfl
  | locked htrips reading deadline hreading newlyLocked event => cases hreading <;> rfl

end Steps

/-- A run of one call, with the clock moving on between its steps, leaves what `solo` says. -/
theorem solo_run {env : Environment} {v : Vault} {c : VaultConfiguration} {request : Request}
    {response : Response} (hrun : (vaultMachine env).Runs LockoutCalls (Config.start v) c)
    (hcalls : c.calls = [⟨request, .done response⟩]) :
    c.shared.controls = solo env v.controls request (clockReadings (eventsBy c.log 0)) := by
  have h := replayed_run hrun
  have hcall : c.Returned 0 request response := by
    rw [Config.Returned, hcalls]
    rfl
  have hevents : c.log.map (·.event) = eventsBy c.log 0 := by
    rw [eventsBy, List.filter_eq_self.mpr]
    intro entry hentry
    obtain ⟨rest, hrest⟩ := h.orderly.logged entry hentry
    have hlt := (List.getElem?_eq_some_iff.mp hrest).1
    rw [hcalls, List.length_singleton] at hlt
    simp only [decide_eq_true_eq]
    omega
  have hflag : c.shared.controls.lockedOut =
      lastWrite (·.op.flagWrite) v.lockedOut (eventsBy c.log 0) := by
    rw [← hevents, lastWrite_map]
    exact h.flag
  have hlocks : ∀ name, c.shared.controls.locks name =
      lastWrite (·.op.lockWrite name) (v.controls.locks name) (eventsBy c.log 0) := by
    intro name
    rw [← hevents, lastWrite_map]
    exact h.locks name
  have hfailures : c.shared.controls.failures = (eventsBy c.log 0).foldl
      (fun failures event => event.op.failuresAfter env failures) v.controls.failures := by
    rw [← hevents, List.foldl_map]
    exact h.failures
  rcases h.requests _ (List.mem_of_getElem? hcall) with hreport | hclear
  · obtain ⟨name, note, rfl⟩ := isReport_iff.mp hreport
    have hpath : ReportPath env name (eventsBy c.log 0) := h.orderly.returned hcall
    generalize eventsBy c.log 0 = history at hevents hpath hflag hlocks hfailures ⊢
    cases hpath with
    | reported now counts event flag lock hflagged hlocked =>
      obtain ⟨clock, rest, hlog, hclock, hrest⟩ := List.map_eq_cons_iff.mp hevents
      obtain ⟨track, later, rfl, htrack, -⟩ := List.map_eq_cons_iff.mp hrest
      obtain ⟨htrips, hfires⟩ := h.counted [clock] track later name now counts hlog
        (by rw [htrack]; rfl)
      have hearlier : failuresOf env v.controls.failures [clock] = v.controls.failures := by
        simp [failuresOf, hclock, VaultOp.failuresAfter]
      rw [hearlier] at htrips hfires
      have hreadings : clockReadings (recordedSteps env name now counts event ++ flag ++ lock) =
          now :: clockReadings lock := by
        rw [clockReadings_append, clockReadings_append, hflagged.clockReadings]
        rfl
      rw [hreadings]
      apply Controls.ext
      · rw [hflag, lastWrite_append, lastWrite_append, hlocked.flagWrites, hflagged.flagWrites]
        simp only [htrips]
        rfl
      · rw [hfailures, List.foldl_append, List.foldl_append, hlocked.failures, hflagged.failures]
        rfl
      · funext other
        rw [hlocks other, lastWrite_append, lastWrite_append, hlocked.lockWrites, hflagged.lockWrites]
        simp only [hfires]
        show _ = (v.controls.failed env.config.policy name now _).locks other
        unfold Controls.failed
        dsimp only
        by_cases hfired : env.config.policy.Fires now true (v.controls.failures name)
        · rw [if_pos hfired]
          by_cases hother : name = other
          · subst hother
            simp [hfired]
          · rw [if_neg (by simp [hother]), Function.update_of_ne (Ne.symm hother)]
            rfl
        · rw [if_neg hfired, if_neg (by simp [hfired])]
          rfl
  · obtain rfl := isClear_iff.mp hclear
    have hsteps : eventsBy c.log 0 = clearSteps := h.orderly.returned hcall
    rw [hsteps] at hflag hlocks hfailures
    apply Controls.ext
    · exact hflag
    · exact hfailures
    · funext name
      exact hlocks name

end KeyVault
