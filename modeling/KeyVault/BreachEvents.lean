import KeyVault.FailureWindow

/-! What threshold breaches report. A breach event says whether it started the
lockout. The vault-wide flag is swapped, so it knows; the per-key answer is whether
`key_locks` had an entry, and an entry stays there after its lockout is over until
somebody looks. -/
namespace KeyVault

open Interleaving Atomic Lockouts

def MonitorEvent.isBreach : MonitorEvent → Bool
  | .thresholdBreach _ _ _ _ _ => true
  | _ => false

def Served.breaches (step : Served) : List MonitorEvent :=
  (step.after.monitorEvents.drop step.before.monitorEvents.length).filter MonitorEvent.isBreach

/-- Whether a read of a key of that name would have been refused for the name's own
lockout just before the call. -/
def Served.keyLockedBefore (env : Environment) (step : Served) (name : String) : Option Bool :=
  (runAlone env (keyLocked name) step.before).map Prod.fst

def Served.lockedOutBefore (env : Environment) (step : Served) : Option Bool :=
  (runAlone env isLockedOut step.before).map Prod.fst

/-- A breach event that says a lockout started exactly when none was in place. -/
def Served.StartsExactly (env : Environment) (step : Served) : MonitorEvent → Prop
  | .thresholdBreach name _ _ triggered .key =>
      triggered = true ↔ step.keyLockedBefore env name = some false
  | .thresholdBreach _ _ _ triggered .vault =>
      triggered = true ↔ step.lockedOutBefore env = some false
  | _ => True

def Served.Exact (env : Environment) (step : Served) : Prop :=
  ∀ event ∈ step.breaches, step.StartsExactly env event

/-- A failure that reaches the per-key threshold of its name while `key_locks` still
holds a lockout of that name that is over. -/
def Served.MeetsStaleLock (env : Environment) (step : Served) : Prop :=
  ∃ name note, step.request = .reportFailure name note ∧
    env.config.policy.Fires step.time true (step.before.controls.failures name) ∧
    step.before.controls.Expired step.time name

/-! ### What `handle_failure` reports -/

def Vault.failureCounts (env : Environment) (v : Vault) (name : String) (perKey : Bool) :
    FailureCounts :=
  (recordEntries env.config v.clock (decide (env.config.policy.counts perKey))
    (v.controls.failures name)).2

def vaultBreach (env : Environment) (v : Vault) (name : String) (perKey : Bool) :
    List MonitorEvent :=
  if env.config.policy.Trips v.clock perKey (v.controls.failures name) then
    [.thresholdBreach name (v.failureCounts env name perKey).inWindow env.config.failureWindow
      (!v.lockedOut) .vault]
  else []

def keyBreach (env : Environment) (v : Vault) (name : String) (perKey : Bool) :
    List MonitorEvent :=
  if env.config.policy.Fires v.clock perKey (v.controls.failures name) then
    [.thresholdBreach name (v.failureCounts env name perKey).inKeyWindow
      env.config.keyLockoutWindow (decide (name ∉ v.keyLocks)) .key]
  else []

def breachesOf (env : Environment) (v : Vault) : Option (Occurrence String) → List MonitorEvent
  | some (.failure name perKey) => vaultBreach env v name perKey ++ keyBreach env v name perKey
  | _ => []

section Failure

variable {env : Environment} {v v' : Vault} {name : String} {perKey : Bool}

theorem applyVaultThreshold_events {counts : FailureCounts}
    (hrun : runAlone env (applyVaultThreshold env name counts) v = some ((), v')) :
    v'.monitorEvents = v.monitorEvents ++
        (if env.config.maxFailuresBeforeLockout > 0 ∧
            counts.inWindow ≥ env.config.maxFailuresBeforeLockout then
          [.thresholdBreach name counts.inWindow env.config.failureWindow (!v.lockedOut) .vault]
        else []) ∧
      v'.keyLocks = v.keyLocks := by
  unfold applyVaultThreshold at hrun
  dsimp only at hrun
  split at hrun
  · rename_i hreached
    simp only [runAlone_bind, runAlone_swapLockedOut, Option.bind_some, runAlone_notify] at hrun
    cases hrun
    rw [if_pos hreached]
    exact ⟨rfl, rfl⟩
  · rename_i hreached
    cases hrun
    rw [if_neg hreached, List.append_nil]
    exact ⟨rfl, rfl⟩

theorem lockKey_newly {deadline : Option Duration} {newly : Bool}
    (h : v.lockKey env name deadline = some (newly, v')) :
    newly = decide (name ∉ v.keyLocks) ∧ v'.monitorEvents = v.monitorEvents := by
  unfold Vault.lockKey at h
  dsimp only at h
  by_cases hmem : name ∈ v.keyLocks
  · rw [if_pos hmem] at h
    cases h
    exact ⟨(decide_eq_false (not_not_intro hmem)).symm, rfl⟩
  · rw [if_neg hmem] at h
    split at h
    · cases h
      exact ⟨(decide_eq_true hmem).symm, rfl⟩
    · cases h

theorem applyKeyThreshold_events {counts : FailureCounts} {keyThreshold : UInt32}
    (hrun : runAlone env (applyKeyThreshold env name keyThreshold counts) v = some ((), v')) :
    v'.monitorEvents = v.monitorEvents ++
      if keyThreshold > 0 ∧ counts.inKeyWindow ≥ keyThreshold then
        [.thresholdBreach name counts.inKeyWindow env.config.keyLockoutWindow
          (decide (name ∉ v.keyLocks)) .key]
      else [] := by
  unfold applyKeyThreshold at hrun
  by_cases hreached : keyThreshold > 0 ∧ counts.inKeyWindow ≥ keyThreshold
  · rw [if_pos hreached] at hrun
    simp only [runAlone_bind, runAlone_lockoutDeadline, Option.bind_some, runAlone_lockKey,
      runAlone_notify, Option.bind_eq_some_iff, Prod.exists] at hrun
    obtain ⟨newly, locked, hlock, hnotify⟩ := hrun
    obtain ⟨hnewly, hevents⟩ := lockKey_newly hlock
    cases hnotify
    rw [if_pos hreached, ← hnewly]
    dsimp only
    rw [hevents]
  · rw [if_neg hreached, runAlone_pure] at hrun
    cases hrun
    rw [if_neg hreached, List.append_nil]

theorem handleFailure_breaches {note : Option String}
    (hrun : runAlone env (handleFailure env name note perKey) v = some ((), v')) :
    v'.monitorEvents = v.monitorEvents ++ .decryptionFailure name
      (v.failureCounts env name perKey).inWindow (v.failureCounts env name perKey).windowElapsed
      (note.getD "") :: (vaultBreach env v name perKey ++ keyBreach env v name perKey) := by
  obtain ⟨-, htrips, -⟩ := recordEntries_spec env.config v.clock perKey (v.controls.failures name)
  have hfires := keyThreshold_reached env.config v.clock perKey (v.controls.failures name)
  have htrack : v.trackFailure env name v.clock (decide (env.config.policy.counts perKey)) =
      (v.failureCounts env name perKey, { v with
        failureTracker := v.failureTracker.insert name (recordEntries env.config v.clock
          (decide (env.config.policy.counts perKey)) (v.controls.failures name)).1 }) := rfl
  unfold vaultBreach keyBreach
  change (_ ∧ (v.failureCounts env name perKey).inWindow ≥ _) ↔ _ at htrips
  change (_ ∧ (v.failureCounts env name perKey).inKeyWindow ≥ _) ↔ _ at hfires
  unfold handleFailure recordFailure at hrun
  simp only [runAlone_bind, runAlone_readClock, runAlone_trackFailure, runAlone_notify,
    Option.bind_some, Option.bind_eq_some_iff, Prod.exists, keyThreshold_pos, htrack] at hrun
  obtain ⟨_, flagged, hflag, hkey⟩ := hrun
  obtain ⟨hvault, hlocks⟩ := applyVaultThreshold_events hflag
  rw [applyKeyThreshold_events hkey, hvault, hlocks]
  simp only [htrips, hfires, List.append_assoc]
  rfl

end Failure

/-! ### What a call reports -/

section Served

variable {env : Environment} {v v' : Vault} {time : Duration} {request : Request} {step : Served}

theorem filter_breaches (name : String) (perKey : Bool) :
    (vaultBreach env v name perKey ++ keyBreach env v name perKey).filter MonitorEvent.isBreach =
      vaultBreach env v name perKey ++ keyBreach env v name perKey := by
  rw [List.filter_append]
  unfold vaultBreach keyBreach
  congr 1
  · split <;> rfl
  · split <;> rfl

theorem breaches_eq {events : List MonitorEvent}
    (h : step.after.monitorEvents = step.before.monitorEvents ++ events) :
    step.breaches = events.filter MonitorEvent.isBreach := by
  unfold Served.breaches
  rw [h, List.drop_left]

def Request.Silent : Request → Prop
  | .reportFailure _ _ | .reportAnomalousAccess _ _ | .unlockWithMaster _ _ => False
  | _ => True

theorem silent_of_mayUse {op : VaultOp} (hrequest : request.Silent) (hop : request.MayUse op) :
    op.notices = [] := by
  cases op with
  | notify event => cases request <;> first | exact hop.elim | exact hrequest.elim
  | _ => rfl

theorem silent_events {response : Response} (hrequest : request.Silent)
    (hrun : runAlone env (request.program env) v = some (response, v')) :
    v'.monitorEvents = v.monitorEvents := by
  apply runAlone_keeps (program_uses env request) _ hrun
  intro op s ret s' hop hstep
  rw [(Vault.perform_trails hstep).1, silent_of_mayUse hrequest hop, List.append_nil]

theorem silent_breachesOf (hrequest : request.Silent) :
    breachesOf env v (request.occurrence env v) = [] := by
  cases hoccurrence : request.occurrence env v with
  | none => rfl
  | some o =>
    cases effect_of_occurrence hoccurrence with
    | reported name note => exact hrequest.elim
    | mismatched hmismatched => exact hrequest.elim
    | _ => rfl

theorem unlockWithMaster_events {attempt : Bytes} {opens : Bool} {result : Result Unit}
    (hrun : runAlone env (unlockWithMaster env attempt opens) v = some (result, v')) :
    ∃ events, v'.monitorEvents = v.monitorEvents ++ events ∧
      events.filter MonitorEvent.isBreach =
        breachesOf env v (Request.occurrence env v (.unlockWithMaster attempt opens)) := by
  unfold unlockWithMaster at hrun
  cases hmaster : env.master with
  | none =>
    have hnone : masterOutcome env v attempt opens = none := by
      unfold masterOutcome
      rw [hmaster]
      rfl
    rw [hmaster] at hrun
    cases hrun
    exact ⟨[], (List.append_nil _).symm, by simp only [Request.occurrence, hnone]; rfl⟩
  | some verifier =>
    have hattempt : masterOutcome env v attempt opens =
        some (v.attemptMaster env verifier attempt opens).1 := by
      unfold masterOutcome
      rw [hmaster]
      rfl
    rw [hmaster] at hrun
    simp only [runAlone_bind, runAlone_attemptMaster, Option.bind_some] at hrun
    obtain ⟨backoff, hframe⟩ := v.attemptMaster_frame env verifier attempt opens
    rw [hframe] at hrun
    generalize (v.attemptMaster env verifier attempt opens).1 = outcome at hrun hattempt
    simp only [Request.occurrence, hattempt]
    cases outcome with
    | refused exit =>
      cases hrun
      exact ⟨[], (List.append_nil _).symm, rfl⟩
    | checked matched =>
      obtain ⟨trail, haudit⟩ := runAlone_emitAudit env { v with masterBackoff := backoff }
        masterName (.masterUnlockAttempt matched) ""
      simp only [runAlone_bind, haudit, Option.bind_some] at hrun
      cases matched with
      | true =>
        cases hrun
        exact ⟨[], (List.append_nil _).symm, rfl⟩
      | false =>
        simp only [Bool.false_eq_true, if_false, runAlone_bind, Option.bind_eq_some_iff,
          Prod.exists, runAlone_pure] at hrun
        obtain ⟨_, failed, hfailure, hdone⟩ := hrun
        cases hdone
        -- neither the backoff nor the audit event is part of what the breaches depend on
        have hbreaches := handleFailure_breaches hfailure
        exact ⟨_, hbreaches, filter_breaches masterName false⟩

theorem serve_breaches (hserve : serve env v time request = some step) :
    step.breaches = breachesOf env step.before (request.occurrence env step.before) := by
  obtain ⟨-, -, -, hbefore, hrun⟩ := serve_eq_some hserve
  rw [← hbefore] at hrun
  have hsilent : request.Silent →
      step.breaches = breachesOf env step.before (request.occurrence env step.before) := by
    intro hrequest
    rw [silent_breachesOf hrequest]
    exact breaches_eq (by rw [silent_events hrequest hrun, List.append_nil])
  cases request with
  | reportFailure name note =>
    obtain ⟨_, -, hcall⟩ := runAlone_respond hrun
    rw [breaches_eq (handleFailure_breaches hcall)]
    exact filter_breaches name true
  | reportAnomalousAccess name note =>
    obtain ⟨_, -, hcall⟩ := runAlone_respond hrun
    change runAlone env (notify (.anomalousAccess name (note.getD ""))) step.before = _ at hcall
    rw [runAlone_notify, Option.some.injEq, Prod.mk.injEq] at hcall
    rw [breaches_eq (congrArg Vault.monitorEvents hcall.2).symm]
    rfl
  | unlockWithMaster attempt opens =>
    obtain ⟨_, -, hcall⟩ := runAlone_respond hrun
    obtain ⟨events, hevents, hfilter⟩ := unlockWithMaster_events hcall
    rw [breaches_eq hevents, hfilter]
  | _ => exact hsilent trivial

theorem keyLockedBefore_eq (h : step.before.Counted env) (name : String) :
    step.keyLockedBefore env name =
      some (decide (step.before.controls.Held step.before.clock name)) := by
  unfold Served.keyLockedBefore
  rw [runAlone_keyLocked h, Option.map_some, (keyLockedSlow_spec h name).1]

/-- The entry of `key_locks` answers for the lockout unless it is out of date. -/
theorem notMem_iff_not_held (v : Vault) (now : Duration) (name : String) :
    (name ∉ v.keyLocks ↔ ¬ v.controls.Held now name) ↔ ¬ v.controls.Expired now name := by
  have hmem : name ∈ v.keyLocks ↔ ∃ deadline, v.controls.locks name = some deadline := by
    rw [← AList.lookup_isSome, Option.isSome_iff_exists]
    rfl
  rw [not_iff_not, hmem]
  constructor
  · intro h hexpired
    obtain ⟨stop, hlock, -⟩ := id hexpired
    exact Controls.not_expired_of_held (h.mp ⟨some stop, hlock⟩) hexpired
  · intro hfresh
    constructor
    · intro h
      obtain ⟨deadline, hlock⟩ := h
      refine ⟨deadline, hlock, ?_⟩
      intro stop hstop
      by_contra hover
      rw [Option.mem_def.mp hstop] at hlock
      exact hfresh ⟨stop, hlock, Nat.le_of_not_lt hover⟩
    · intro h
      obtain ⟨deadline, hlock, -⟩ := h
      exact ⟨deadline, hlock⟩

theorem vaultBreach_exact (name : String) (perKey : Bool) :
    ∀ event ∈ vaultBreach env step.before name perKey, step.StartsExactly env event := by
  intro event hevent
  unfold vaultBreach at hevent
  split at hevent
  · rw [List.mem_singleton.mp hevent]
    show _ ↔ some step.before.lockedOut = some false
    cases step.before.lockedOut <;> simp
  · cases hevent

theorem keyBreach_exact_iff (h : step.before.Counted env) (name : String) (perKey : Bool) :
    (∀ event ∈ keyBreach env step.before name perKey, step.StartsExactly env event) ↔
      (env.config.policy.Fires step.before.clock perKey (step.before.controls.failures name) →
        ¬ step.before.controls.Expired step.before.clock name) := by
  unfold keyBreach
  split
  · rename_i hfires
    simp only [List.mem_singleton, forall_eq, Served.StartsExactly, keyLockedBefore_eq h,
      decide_eq_true_eq, Option.some.injEq, decide_eq_false_iff_not, hfires, true_imp_iff]
    exact notMem_iff_not_held step.before step.before.clock name
  · rename_i hquiet
    simp [hquiet]

theorem breachesOf_exact_iff (h : step.before.Counted env) (o : Option (Occurrence String)) :
    (∀ event ∈ breachesOf env step.before o, step.StartsExactly env event) ↔
      ∀ name perKey, o = some (.failure name perKey) →
        env.config.policy.Fires step.before.clock perKey (step.before.controls.failures name) →
        ¬ step.before.controls.Expired step.before.clock name := by
  by_cases hfailure : ∃ name perKey, o = some (.failure name perKey)
  · obtain ⟨name, perKey, rfl⟩ := hfailure
    unfold breachesOf
    simp only [List.mem_append, or_imp, forall_and]
    rw [keyBreach_exact_iff h]
    constructor
    · intro hexact other counted hsame
      cases hsame
      exact hexact.2
    · intro hfresh
      exact ⟨vaultBreach_exact name perKey, hfresh name perKey rfl⟩
  · have hnone : breachesOf env step.before o = [] := by
      unfold breachesOf
      split
      · exact absurd ⟨_, _, rfl⟩ hfailure
      · rfl
    rw [hnone]
    constructor
    · intro _ name perKey hsame
      exact absurd ⟨name, perKey, hsame⟩ hfailure
    · intro _ event hevent
      cases hevent

theorem serve_exact_iff (h : v.Counted env) (hserve : serve env v time request = some step) :
    step.Exact env ↔ ¬ step.MeetsStaleLock env := by
  obtain ⟨-, htime, hrequest, hbefore, -⟩ := serve_eq_some hserve
  have hclock : step.before.clock = step.time := by rw [hbefore, htime]
  have hcounted : step.before.Counted env := by
    rw [hbefore]
    exact ⟨h.active, h.bounded⟩
  unfold Served.Exact Served.MeetsStaleLock
  rw [serve_breaches hserve, breachesOf_exact_iff hcounted, hrequest, hclock]
  constructor
  · intro hfresh hstale
    obtain ⟨name, note, rfl, hfires, hexpired⟩ := hstale
    exact hfresh name true rfl hfires hexpired
  · intro hfresh name perKey hoccurrence hfires hexpired
    cases effect_of_occurrence hoccurrence with
    | reported name note => exact hfresh ⟨name, note, rfl, hfires, hexpired⟩
    | mismatched hmismatched => exact absurd hfires.1.1 Bool.false_ne_true

def MonitorEvent.isVaultWide : MonitorEvent → Bool
  | .thresholdBreach _ _ _ _ .vault => true
  | _ => false

theorem serve_vaultWide_exact (hserve : serve env v time request = some step) :
    ∀ event ∈ step.breaches, event.isVaultWide = true → step.StartsExactly env event := by
  intro event hevent hwide
  rw [serve_breaches hserve] at hevent
  unfold breachesOf at hevent
  split at hevent
  · rcases List.mem_append.mp hevent with hvault | hkey
    · exact vaultBreach_exact _ _ event hvault
    · unfold keyBreach at hkey
      split at hkey
      · rw [List.mem_singleton.mp hkey] at hwide
        cases hwide
      · cases hkey
  · cases hevent

end Served

/-- In a run of calls made one at a time every breach event says exactly whether it
started a lockout, if and only if no failure reaches a per-key threshold while the
name's last lockout is over but still in `key_locks`. Vault-wide events always do. -/
theorem breaches_exact_iff {env : Environment} {clock unixTime : Duration} {handles : Nat}
    {v : Vault} {steps : List Served}
    (h : Serves env (Vault.new clock unixTime handles) steps v) :
    ((∀ step ∈ steps, step.Exact env) ↔ ∀ step ∈ steps, ¬ step.MeetsStaleLock env) ∧
      ∀ step ∈ steps, ∀ event ∈ step.breaches,
        event.isVaultWide = true → step.StartsExactly env event := by
  have heach := h.history (I := fun steps v => v.Counted env ∧ ∀ step ∈ steps,
      (step.Exact env ↔ ¬ step.MeetsStaleLock env) ∧
        ∀ event ∈ step.breaches, event.isVaultWide = true → step.StartsExactly env event)
    ⟨counted_new env clock unixTime handles, by simp⟩ (by
      intro earlier v time request step _ hearlier hserve
      refine ⟨(serve_spec hearlier.1 hserve).1, ?_⟩
      intro other hother
      rcases List.mem_append.mp hother with hbefore | hlast
      · exact hearlier.2 other hbefore
      · rw [List.mem_singleton.mp hlast]
        exact ⟨serve_exact_iff hearlier.1 hserve, serve_vaultWide_exact hserve⟩)
  exact ⟨forall₂_congr fun step hstep => (heach.2 step hstep).1,
    fun step hstep => (heach.2 step hstep).2⟩

def lockTenSeconds : Environment :=
  .plain { keyLockoutThreshold := 1, keyLockoutDuration := some (.fromSecs 10) }

/-- The second failure comes when the first lockout is still in place. -/
theorem breaches_exact_iff_within : ∃ steps v,
    serveAll lockTenSeconds (Vault.new 0 0 0)
        [(0, .reportFailure "k" none), (.fromSecs 9, .reportFailure "k" none)] =
      some (steps, v) ∧
      steps.map Served.breaches =
        [[.thresholdBreach "k" 1 (.fromSecs 60) true .key],
          [.thresholdBreach "k" 2 (.fromSecs 60) false .key]] ∧
      ((∀ step ∈ steps, step.Exact lockTenSeconds) ↔
        ∀ step ∈ steps, ¬ step.MeetsStaleLock lockTenSeconds) := by
  have hruns : (serveAll lockTenSeconds (Vault.new 0 0 0)
      [(0, .reportFailure "k" none), (.fromSecs 9, .reportFailure "k" none)]).map
        (fun out => out.1.map Served.breaches) =
      some [[.thresholdBreach "k" 1 (.fromSecs 60) true .key],
        [.thresholdBreach "k" 2 (.fromSecs 60) false .key]] := by
    decide +kernel
  obtain ⟨⟨steps, v⟩, hserves, hbreaches⟩ := Option.map_eq_some_iff.mp hruns
  exact ⟨steps, v, hserves, hbreaches, (breaches_exact_iff (serves_of_serveAll hserves)).1⟩

/-- The second failure comes when the first lockout is over and nobody has looked: it
starts a new lockout, and its event says that it did not. -/
theorem staleLock_not_exact : ∃ steps v,
    serveAll lockTenSeconds (Vault.new 0 0 0)
        [(0, .reportFailure "k" none), (.fromSecs 20, .reportFailure "k" none)] =
      some (steps, v) ∧
      ∃ step ∈ steps, step.breaches = [.thresholdBreach "k" 2 (.fromSecs 60) false .key] ∧
        step.keyLockedBefore lockTenSeconds "k" = some false ∧ ¬ step.Exact lockTenSeconds := by
  have hruns : (serveAll lockTenSeconds (Vault.new 0 0 0)
      [(0, .reportFailure "k" none), (.fromSecs 20, .reportFailure "k" none)]).map
        (fun out => out.1.map fun step =>
          (step.breaches, step.keyLockedBefore lockTenSeconds "k")) =
      some [([.thresholdBreach "k" 1 (.fromSecs 60) true .key], some false),
        ([.thresholdBreach "k" 2 (.fromSecs 60) false .key], some false)] := by
    decide +kernel
  obtain ⟨⟨steps, v⟩, hserves, hsteps⟩ := Option.map_eq_some_iff.mp hruns
  have hlast : ([.thresholdBreach "k" 2 (.fromSecs 60) false .key], some false) ∈
      steps.map fun step => (step.breaches, step.keyLockedBefore lockTenSeconds "k") := by
    rw [hsteps]
    exact List.mem_cons_of_mem _ (List.mem_cons_self ..)
  obtain ⟨step, hstep, hreport⟩ := List.mem_map.mp hlast
  rw [Prod.mk.injEq] at hreport
  refine ⟨steps, v, hserves, step, hstep, hreport.1, hreport.2, ?_⟩
  intro hexact
  have hevent := hexact (.thresholdBreach "k" 2 (.fromSecs 60) false .key)
    (by rw [hreport.1]; exact List.mem_singleton_self _)
  exact absurd (hevent.mpr hreport.2) Bool.false_ne_true

end KeyVault
