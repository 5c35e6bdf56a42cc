import KeyVault.FailurePaths

/-! Reports of failures that run concurrently. A report reads the clock before it takes the
lock of the tracker, so times can be recorded out of order, and a report that was faster
can evict times that a slower one still needs. -/
namespace KeyVault

open Interleaving Atomic Lockouts

abbrev VaultCall := Activation vaultSignature Request Response

def VaultOp.recordsFor (name : String) : VaultOp → Option Duration
  | .trackFailure tracked time _ => if tracked = name then some time else none
  | _ => none

def timesFor (name : String) (log : List VaultEntry) : List Duration :=
  log.filterMap fun entry => entry.event.op.recordsFor name

/-- If enough times recorded for one name lie in one interval as long as the window, the
vault is locked out. -/
def NoneMissed (env : Environment) (c : VaultConfiguration) : Prop :=
  ∀ name start, env.config.maxFailuresBeforeLockout.toNat ≤
    (within start env.config.failureWindow (timesFor name c.log)).length → c.shared.lockedOut = true

/-- The failure a call has read the clock for and is about to record. -/
def nextRecord (call : VaultCall) : Option (String × Duration) :=
  match call.rest.next? with
  | some (.trackFailure name time _) => some (name, time)
  | _ => none

/-- The next step of a call evicts no time that lies in the window of a failure which
another call is about to record for the same name. -/
def SparesWaiting (env : Environment) (c : VaultConfiguration) (caller : Nat) : Prop :=
  ∀ record ∈ c.calls[caller]?.bind nextRecord,
    ∀ old ∈ env.config.policy.evicted record.2 true (c.shared.controls.failures record.1),
      ∀ waiting ∈ c.calls.filterMap nextRecord, waiting.1 = record.1 →
        old + env.config.failureWindow < waiting.2

instance (env : Environment) (c : VaultConfiguration) (caller : Nat) :
    Decidable (SparesWaiting env c caller) :=
  inferInstanceAs (Decidable (∀ record ∈ c.calls[caller]?.bind nextRecord, ∀ old ∈ _,
    ∀ waiting ∈ c.calls.filterMap nextRecord, waiting.1 = record.1 → old + _ < waiting.2))

def Request.isReport : Request → Bool
  | .reportFailure _ _ => true
  | _ => false

/-- Reports only, and unless two failures are enough for a lockout no time is evicted that
is still needed. -/
def Unhurried (env : Environment) (c : VaultConfiguration) : Action Request Surroundings → Prop
  | .invoke request => request.isReport = true
  | .exec caller => env.config.maxFailuresBeforeLockout.toNat ≤ 2 ∨ SparesWaiting env c caller
  | .external _ => True

instance (env : Environment) (c : VaultConfiguration) : DecidablePred (Unhurried env c)
  | .invoke request => inferInstanceAs (Decidable (request.isReport = true))
  | .exec caller => inferInstanceAs (Decidable (_ ∨ SparesWaiting env c caller))
  | .external _ => .isTrue trivial

/-! ### The invariant -/

def Alarmed (env : Environment) (log : List VaultEntry) (name : String) : Prop :=
  ∃ entry ∈ log, ∃ time perKey counts,
    entry.event = happened (.trackFailure name time perKey) counts ∧ counts.TripsVault env.config

/-- What the tracker still knows of the times recorded for each name, and that a report has
noticed if there were enough of them. -/
structure Tallied (env : Environment) (c : VaultConfiguration) : Prop where
  remembers : ∀ name, ∃ dropped,
    timesFor name c.log = dropped ++ c.shared.controls.failures name ∧
    Forgot env.config.policy c.shared.clock (fun time => (name, time) ∈ c.calls.filterMap nextRecord)
      dropped (c.shared.controls.failures name)
  alarmed : ∀ name start, env.config.policy.maxFailures ≤
    (within start env.config.policy.window (timesFor name c.log)).length → Alarmed env c.log name

structure Watched (env : Environment) (c : VaultConfiguration) : Prop where
  orderly : Machine.Orderly (Request.LockReady env) (Request.LockEnds env) c
  reports : ∀ call ∈ c.calls, call.request.isReport = true
  read : ∀ record ∈ c.calls.filterMap nextRecord, record.2 ≤ c.shared.clock
  flagged : ∀ entry ∈ c.log, entry.event.op = .swapLockedOut → c.shared.lockedOut = true
  tallied : Tallied env c

section Steps

variable {env : Environment} {c c' : VaultConfiguration}

theorem nextRecord_eq_some {call : VaultCall} {name : String} {time : Duration}
    (h : nextRecord call = some (name, time)) :
    ∃ perKey next, call.rest = .step (.trackFailure name time perKey) next := by
  obtain ⟨request, rest⟩ := call
  unfold nextRecord at h
  cases rest with
  | done response => cases h
  | step op next =>
    cases op with
    | trackFailure tracked now perKey =>
      cases h
      exact ⟨perKey, next, rfl⟩
    | _ => cases h

theorem timesFor_snoc (name : String) (log : List VaultEntry)
    (entry : VaultEntry) :
    timesFor name (log ++ [entry]) = timesFor name log ++ (entry.event.op.recordsFor name).toList := by
  unfold timesFor
  rw [List.filterMap_append]
  cases h : entry.event.op.recordsFor name <;> simp [h]

theorem watched_start (hpos : 0 < env.config.maxFailuresBeforeLockout.toNat)
    (clock unixTime : Duration) (handles : Nat) :
    Watched env (Config.start (Vault.new clock unixTime handles)) where
  orderly := Machine.orderly_start _
  reports := by simp [Config.start]
  read := by simp [Config.start]
  flagged := by simp [Config.start]
  tallied :=
    { remembers := fun name => ⟨[], rfl, forgot_nil ..⟩
      alarmed := fun name start hmany => absurd hmany (Nat.not_le_of_lt hpos) }

theorem report_cases {name : String} {history : List VaultEvent} {op : VaultOp}
    (h : ReportReady env name history op) :
    (∃ time, op = .trackFailure name time (decide (env.config.keyLockoutThreshold > 0))) ∨
      op.writes .failureTracker = false ∧ ∀ other, op.recordsFor other = none := by
  cases op with
  | trackFailure tracked time perKey =>
    obtain ⟨rfl, rfl, -⟩ := h
    exact .inl ⟨time, rfl⟩
  | readClock | notify | swapLockedOut | lockKey => exact .inr ⟨rfl, fun _ => rfl⟩
  | _ => cases h

theorem report_flags {name : String} {history : List VaultEvent} {op : VaultOp}
    (h : ReportReady env name history op) : op = .swapLockedOut ∨ op.writes .lockedOut = false := by
  cases op with
  | swapLockedOut => exact .inl rfl
  | readClock | notify | trackFailure | lockKey => exact .inr rfl
  | _ => cases h

theorem isReport_iff {request : Request} :
    request.isReport = true ↔ ∃ name note, request = .reportFailure name note := by
  cases request <;> simp [Request.isReport]

theorem Watched.invoke (h : Watched env c) {request : Request} (hreport : request.isReport = true) :
    Watched env { c with calls := c.calls ++ [⟨request, (vaultMachine env).program request⟩] } := by
  obtain ⟨name, note, rfl⟩ := isReport_iff.mp hreport
  have hwaiting : (c.calls ++ [(⟨.reportFailure name note,
      (vaultMachine env).program (.reportFailure name note)⟩ : VaultCall)]).filterMap nextRecord =
      c.calls.filterMap nextRecord := by
    rw [List.filterMap_append, List.filterMap_cons_none rfl, List.filterMap_nil, List.append_nil]
  refine ⟨h.orderly.invoke _ (lock_obeys env _), ?_, ?_, h.flagged, ?_, h.tallied.alarmed⟩
  · intro call hcall
    rcases List.mem_append.mp hcall with hold | hnew
    · exact h.reports call hold
    · rw [List.mem_singleton.mp hnew]
      rfl
  · dsimp only
    rw [hwaiting]
    exact h.read
  · intro other
    dsimp only
    rw [hwaiting]
    exact h.tallied.remembers other

theorem Watched.external (h : Watched env c) {event : Surroundings}
    (hstep : (vaultMachine env).step c (.external event) = some c') : Watched env c' := by
  obtain ⟨s, hact, rfl⟩ := Machine.step_external_iff.mp hstep
  obtain ⟨clock, unixTime, handles, hclock, -, rfl⟩ := Surroundings.act_frame hact
  refine ⟨⟨h.orderly.obeys, h.orderly.logged, h.orderly.permitted⟩, h.reports, ?_, h.flagged, ?_,
    h.tallied.alarmed⟩
  · intro record hrecord
    exact Nat.le_trans (h.read record hrecord) hclock
  · intro name
    obtain ⟨dropped, htimes, hforgot⟩ := h.tallied.remembers name
    exact ⟨dropped, htimes, hforgot.later hclock fun time htime => .inl htime⟩

/-- Whoever waits to record a failure after a step did so before it, or has just read the
clock. -/
theorem nextRecord_after {caller : Nat} {request : Request} {op : VaultOp}
    {next : vaultSignature.Ret op → Program vaultSignature Response} {ret : vaultSignature.Ret op}
    {s : Vault} (hreport : request.isReport = true)
    (hcall : c.calls[caller]? = some ⟨request, .step op next⟩)
    (hperform : Vault.perform env op c.shared = some (ret, s))
    (horderly : Machine.Orderly (Request.LockReady env) (Request.LockEnds env)
      (⟨s, c.calls.set caller ⟨request, next ret⟩, c.log ++ [⟨caller, request, ⟨op, ret⟩⟩]⟩ :
        VaultConfiguration))
    {record : String × Duration}
    (hrecord : record ∈ (c.calls.set caller ⟨request, next ret⟩).filterMap nextRecord) :
    record ∈ c.calls.filterMap nextRecord ∨ op = .readClock ∧ record.2 = c.shared.clock := by
  obtain ⟨call, hmem, hnext⟩ := List.mem_filterMap.mp hrecord
  rcases List.mem_or_eq_of_mem_set hmem with hold | rfl
  · exact .inl (List.mem_filterMap.mpr ⟨call, hold, hnext⟩)
  · right
    obtain ⟨name, note, rfl⟩ := isReport_iff.mp hreport
    obtain ⟨perKey, later, hrest⟩ := nextRecord_eq_some hnext
    have hlt := (List.getElem?_eq_some_iff.mp hcall).1
    have hobeys := horderly.obeys caller _ (List.getElem?_set_self hlt)
    dsimp only at hrest hobeys
    rw [hrest] at hobeys
    obtain ⟨-, -, hhistory⟩ := hobeys.1
    rw [eventsBy_snoc_self, List.append_eq_singleton_iff] at hhistory
    rcases hhistory with ⟨-, hevent⟩ | ⟨-, hevent⟩
    · cases hevent
      exact ⟨rfl, (congrArg Prod.fst (Option.some.inj hperform)).symm⟩
    · cases hevent

theorem Alarmed.append {log more : List VaultEntry} {name : String}
    (h : Alarmed env log name) : Alarmed env (log ++ more) name := by
  obtain ⟨entry, hentry, hevent⟩ := h
  exact ⟨entry, List.mem_append_left _ hentry, hevent⟩

theorem Tallied.keep (h : Tallied env c) {op : VaultOp} {s : Vault} {calls : List VaultCall}
    (hframe : Vault.Frame op c.shared s) (hkept : op.writes .failureTracker = false)
    {entry : VaultEntry} (hrecords : ∀ name, entry.event.op.recordsFor name = none)
    (hwaiting : ∀ record ∈ calls.filterMap nextRecord,
      record ∈ c.calls.filterMap nextRecord ∨ record.2 = c.shared.clock) :
    Tallied env ⟨s, calls, c.log ++ [entry]⟩ := by
  have htimes : ∀ name, timesFor name (c.log ++ [entry]) = timesFor name c.log := by
    intro name
    rw [timesFor_snoc, hrecords name, Option.toList_none, List.append_nil]
  have hfailures : s.controls.failures = c.shared.controls.failures := by
    unfold Vault.controls
    rw [hframe.failureTracker hkept]
  constructor
  · intro name
    obtain ⟨dropped, hdropped, hforgot⟩ := h.remembers name
    dsimp only
    rw [htimes name, hframe.clock, hfailures]
    refine ⟨dropped, hdropped, hforgot.later (Nat.le_refl _) ?_⟩
    intro time htime
    rcases hwaiting _ htime with hold | hread
    · exact .inl hold
    · exact .inr (Nat.le_of_eq hread.symm)
  · intro name start hmany
    dsimp only at hmany
    rw [htimes name] at hmany
    exact (h.alarmed name start hmany).append

theorem Watched.track (h : Watched env c) (hpos : 0 < env.config.policy.maxFailures) {caller : Nat}
    {name : String} {now : Duration} {counts : FailureCounts} {s : Vault} {calls : List VaultCall}
    (hperform : Vault.perform env
      (.trackFailure name now (decide (env.config.keyLockoutThreshold > 0))) c.shared =
        some (counts, s))
    (hnext : (name, now) ∈ c.calls[caller]?.bind nextRecord)
    (hok : env.config.maxFailuresBeforeLockout.toNat ≤ 2 ∨ SparesWaiting env c caller)
    (hwaiting : ∀ record ∈ calls.filterMap nextRecord, record ∈ c.calls.filterMap nextRecord)
    {request : Request} :
    Tallied env ⟨s, calls, c.log ++ [⟨caller, request, happened (.trackFailure name now
      (decide (env.config.keyLockoutThreshold > 0))) counts⟩]⟩ := by
  obtain ⟨hfailures, htrips, -⟩ := perform_trackFailure hperform
  obtain ⟨call, hcall, hrecord⟩ := Option.bind_eq_some_iff.mp hnext
  have hself : (name, now) ∈ c.calls.filterMap nextRecord :=
    List.mem_filterMap.mpr ⟨call, List.mem_of_getElem? hcall, hrecord⟩
  constructor
  · intro other
    dsimp only
    rw [timesFor_snoc, (Vault.perform_frame hperform).clock, hfailures]
    by_cases hother : other = name
    · subst hother
      obtain ⟨dropped, htimes, hforgot⟩ := h.tallied.remembers other
      rw [Function.update_self]
      refine ⟨dropped ++ env.config.policy.evicted now true (c.shared.controls.failures other), ?_,
        hforgot.record (h.read _ hself) (fun time => hwaiting (other, time)) ?_⟩
      · rw [htimes, List.append_assoc, List.append_assoc, Policy.evicted_append_record]
        simp [VaultOp.recordsFor]
      · intro hmany old hold time htime
        rcases hok with hfew | hspares
        · exact absurd hfew (Nat.not_le_of_lt hmany)
        · exact hspares (other, now) hnext old hold (other, time) (hwaiting _ htime) rfl
    · obtain ⟨dropped, htimes, hforgot⟩ := h.tallied.remembers other
      rw [Function.update_of_ne hother]
      refine ⟨dropped, ?_, hforgot.later (Nat.le_refl _) fun time htime => .inl (hwaiting _ htime)⟩
      rw [htimes]
      simp [VaultOp.recordsFor, Ne.symm hother]
  · intro other start hmany
    dsimp only at hmany ⊢
    rw [timesFor_snoc] at hmany
    by_cases hsame : name = other ∧ start ≤ now ∧ now ≤ start + env.config.policy.window
    · obtain ⟨rfl, hinside⟩ := hsame
      obtain ⟨dropped, htimes, hforgot⟩ := h.tallied.remembers name
      rw [htimes] at hmany
      have hfires : env.config.policy.Trips now true (c.shared.controls.failures name) := by
        apply hforgot.trips hpos hself hinside.2
        simpa [VaultOp.recordsFor] using hmany
      exact ⟨_, List.mem_append_right _ (List.mem_singleton_self _), now, _, counts, rfl,
        htrips.mpr hfires⟩
    · -- the new time is not one of those that lie in the interval
      have hadded : within start env.config.policy.window (VaultOp.recordsFor other
          (.trackFailure name now (decide (env.config.keyLockoutThreshold > 0)))).toList = [] := by
        show within start env.config.policy.window (if name = other then some now else none).toList = []
        by_cases hname : name = other
        · have houtside := not_and.mp hsame hname
          simp [hname, within, houtside]
        · rw [if_neg hname]
          rfl
      rw [within_append, hadded, List.append_nil] at hmany
      exact (h.tallied.alarmed other start hmany).append

theorem Watched.exec (h : Watched env c) (hpos : 0 < env.config.policy.maxFailures) {caller : Nat}
    (hok : env.config.maxFailuresBeforeLockout.toNat ≤ 2 ∨ SparesWaiting env c caller)
    (hstep : (vaultMachine env).step c (.exec caller) = some c') : Watched env c' := by
  have horderly := h.orderly.exec hstep
  obtain ⟨request, op, next, ret, s, hcall, hperform, rfl⟩ := Machine.step_exec_iff.mp hstep
  have hreport := h.reports _ (List.mem_of_getElem? hcall)
  have hwaiting : ∀ record ∈ (c.calls.set caller ⟨request, next ret⟩).filterMap nextRecord,
      record ∈ c.calls.filterMap nextRecord ∨ op = .readClock ∧ record.2 = c.shared.clock :=
    fun record => nextRecord_after hreport hcall hperform horderly
  obtain ⟨reported, note, rfl⟩ := isReport_iff.mp hreport
  have hready : ReportReady env reported (eventsBy c.log caller) op :=
    (h.orderly.obeys caller _ hcall).1
  have hframe : Vault.Frame op c.shared s := Vault.perform_frame hperform
  refine ⟨horderly, ?_, ?_, ?_, ?_⟩
  · intro call hmem
    rcases List.mem_or_eq_of_mem_set hmem with hold | rfl
    · exact h.reports call hold
    · rfl
  · intro record hrecord
    dsimp only
    rw [hframe.clock]
    rcases hwaiting record hrecord with hold | ⟨-, hread⟩
    · exact h.read record hold
    · exact Nat.le_of_eq hread
  · intro entry hentry hswap
    rcases report_flags hready with rfl | hkept
    · cases hperform
      rfl
    · dsimp only
      rw [hframe.lockedOut hkept]
      rcases List.mem_append.mp hentry with hold | hnew
      · exact h.flagged entry hold hswap
      · rw [List.mem_singleton.mp hnew] at hswap
        dsimp only at hswap
        rw [hswap] at hkept
        cases hkept
  · rcases report_cases hready with ⟨time, rfl⟩ | ⟨hkept, hrecords⟩
    · apply h.track hpos hperform (by rw [hcall]; rfl) hok
      intro record hrecord
      apply (hwaiting record hrecord).resolve_right
      rintro ⟨hread, -⟩
      cases hread
    · apply h.tallied.keep hframe hkept hrecords
      intro record hrecord
      rcases hwaiting record hrecord with hold | ⟨-, hread⟩
      · exact .inl hold
      · exact .inr hread

theorem watched_run (hpos : 0 < env.config.maxFailuresBeforeLockout.toNat)
    {clock unixTime : Duration} {handles : Nat}
    (hrun : (vaultMachine env).Runs (Unhurried env) (Config.start (Vault.new clock unixTime handles)) c) :
    Watched env c := by
  apply hrun.invariant (watched_start hpos clock unixTime handles)
  intro before action after h hok hstep
  cases action with
  | invoke request =>
    rw [Machine.step_invoke_iff] at hstep
    subst hstep
    exact h.invoke hok
  | exec caller => exact h.exec hpos hok hstep
  | external event => exact h.external hstep

theorem ReportPath.flags {name tracked : String} {history : List VaultEvent} {time : Duration}
    {perKey : Bool} {counts : FailureCounts} (h : ReportPath env name history)
    (hmem : happened (.trackFailure tracked time perKey) counts ∈ history)
    (htrips : counts.TripsVault env.config) : ∃ event ∈ history, event.op = .swapLockedOut := by
  cases h with
  | reported now counted event flag lock hflag hlock =>
    have hcounted : (tracked, time, counts) ∈ (recordedSteps env name now counted event ++ flag ++
        lock).filterMap trackedBy := List.mem_filterMap.mpr ⟨_, hmem, rfl⟩
    rw [List.filterMap_append, List.filterMap_append, hflag.trackedBy, hlock.trackedBy,
      List.append_nil, List.append_nil, filterMap_recordedSteps, List.mem_singleton] at hcounted
    cases hcounted
    cases hflag with
    | below hbelow => exact absurd htrips hbelow
    | raised _ wasLocked event => exact ⟨happened .swapLockedOut wasLocked, by simp, rfl⟩

/-- No lockout is missed in a run in which no time is evicted that a waiting report
still needs. -/
theorem noneMissed_of_unhurried (hpos : 0 < env.config.maxFailuresBeforeLockout.toNat)
    {clock unixTime : Duration} {handles : Nat}
    (hrun : (vaultMachine env).Runs (Unhurried env) (Config.start (Vault.new clock unixTime handles)) c)
    (hended : ∀ call ∈ c.calls, call.rest.result?.isSome) : NoneMissed env c := by
  have h := watched_run hpos hrun
  intro name start hmany
  obtain ⟨entry, hentry, time, perKey, counts, hevent, htrips⟩ := h.tallied.alarmed name start hmany
  obtain ⟨rest, hcall⟩ := h.orderly.logged entry hentry
  have hmem := List.mem_of_getElem? hcall
  obtain ⟨reported, note, hrequest⟩ := isReport_iff.mp (h.reports _ hmem)
  have hdone := hended _ hmem
  cases rest with
  | step op next => cases hdone
  | done response =>
    have hends := h.orderly.returned hcall
    dsimp only at hrequest
    rw [hrequest] at hends
    obtain ⟨event, hevents, hswap⟩ := ReportPath.flags hends
      (mem_eventsBy.mpr ⟨entry, hentry, rfl, hevent⟩) htrips
    obtain ⟨swap, hswapped, -, rfl⟩ := mem_eventsBy.mp hevents
    exact h.flagged swap hswapped hswap

end Steps

def threeFailures : Environment :=
  Environment.plain { maxFailuresBeforeLockout := 3, failureWindow := 10 }

def overtaken : List (Action Request Surroundings) :=
  [.invoke (.reportFailure "k" none), .exec 0, .exec 0, .exec 0, .external (.tick 1),
    .invoke (.reportFailure "k" none), .exec 1, .exec 1, .exec 1, .external (.tick 5),
    .invoke (.reportFailure "k" none), .exec 2, .external (.tick 8),
    .invoke (.reportFailure "k" none), .exec 3, .exec 3, .exec 3, .exec 3, .exec 3,
    .exec 2, .exec 2, .exec 2, .exec 2]

theorem noneMissed_of_unhurried_overtaken : ∃ c,
    (vaultMachine threeFailures).followWhile (Unhurried threeFailures)
      (Config.start (Vault.new 0 0 0)) overtaken = some c ∧
    timesFor "k" c.log = [0, 1, 8, 5] ∧ NoneMissed threeFailures c := by
  have hfollow : ((vaultMachine threeFailures).followWhile (Unhurried threeFailures)
      (Config.start (Vault.new 0 0 0)) overtaken).map
      (fun c => (c.calls.all (·.rest.result?.isSome), timesFor "k" c.log)) =
      some (true, [0, 1, 8, 5]) := by
    decide +kernel
  obtain ⟨c, hc, hseen⟩ := Option.map_eq_some_iff.mp hfollow
  simp only [Prod.mk.injEq, List.all_eq_true] at hseen
  exact ⟨c, hc, hseen.2,
    noneMissed_of_unhurried (by decide) (Machine.followWhile_runs hc) hseen.1⟩

/-- As before, but the fourth report comes so late that it evicts the first two. -/
def stalled : List (Action Request Surroundings) :=
  [.invoke (.reportFailure "k" none), .exec 0, .exec 0, .exec 0, .external (.tick 1),
    .invoke (.reportFailure "k" none), .exec 1, .exec 1, .exec 1, .external (.tick 5),
    .invoke (.reportFailure "k" none), .exec 2, .external (.tick 20),
    .invoke (.reportFailure "k" none), .exec 3, .exec 3, .exec 3, .exec 2, .exec 2]

theorem stalled_not_noneMissed : ∃ c,
    (vaultMachine threeFailures).follow (Config.start (Vault.new 0 0 0)) stalled = some c ∧
    (∀ call ∈ c.calls, call.rest.result?.isSome) ∧ timesFor "k" c.log = [0, 1, 20, 5] ∧
    c.shared.lockedOut = false ∧ ¬NoneMissed threeFailures c := by
  have hfollow : ((vaultMachine threeFailures).follow (Config.start (Vault.new 0 0 0)) stalled).map
      (fun c => (c.calls.all (·.rest.result?.isSome), timesFor "k" c.log, c.shared.lockedOut)) =
      some (true, [0, 1, 20, 5], false) := by
    decide +kernel
  obtain ⟨c, hc, hseen⟩ := Option.map_eq_some_iff.mp hfollow
  simp only [Prod.mk.injEq, List.all_eq_true] at hseen
  obtain ⟨hended, htimes, hopen⟩ := hseen
  refine ⟨c, hc, hended, htimes, hopen, ?_⟩
  intro hnone
  have hlocked := hnone "k" 0 (by rw [htimes]; decide)
  rw [hopen] at hlocked
  cases hlocked

end KeyVault
