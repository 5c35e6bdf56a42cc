import KeyVault.CallPaths
import KeyVault.SequentialCalls

/-! The paths through `report_failure` and `clear_lockout`, step by step. A report first
records its failure and then acts on the counts it got; nothing holds the three parts of
the lockout state together in between. -/
namespace KeyVault

open Interleaving Atomic Lockouts

def FailureCounts.TripsVault (config : VaultConfig) (counts : FailureCounts) : Prop :=
  config.maxFailuresBeforeLockout > 0 ∧ counts.inWindow ≥ config.maxFailuresBeforeLockout

def FailureCounts.TripsKey (config : VaultConfig) (counts : FailureCounts) : Prop :=
  config.keyLockoutThreshold > 0 ∧ counts.inKeyWindow ≥ config.keyLockoutThreshold

instance (config : VaultConfig) (counts : FailureCounts) : Decidable (counts.TripsVault config) :=
  inferInstanceAs (Decidable (_ ∧ _))

instance (config : VaultConfig) (counts : FailureCounts) : Decidable (counts.TripsKey config) :=
  inferInstanceAs (Decidable (_ ∧ _))

section Paths

variable (env : Environment) (name : String)

def recordedSteps (time : Duration) (counts : FailureCounts) (event : MonitorEvent) :
    List VaultEvent :=
  [happened .readClock time,
    happened (.trackFailure name time (decide (env.config.keyLockoutThreshold > 0))) counts,
    happened (.notify event) ()]

inductive FlagSteps (counts : FailureCounts) : List VaultEvent → Prop where
  | below (hbelow : ¬counts.TripsVault env.config) : FlagSteps counts []
  | raised (htrips : counts.TripsVault env.config) (wasLocked : Bool) (event : MonitorEvent) :
      FlagSteps counts [happened .swapLockedOut wasLocked, happened (.notify event) ()]

inductive DeadlineSteps : List VaultEvent → Option Duration → Prop where
  | never (hduration : env.config.keyLockoutDuration = none) : DeadlineSteps [] none
  | after (duration now : Duration) (hduration : env.config.keyLockoutDuration = some duration) :
      DeadlineSteps [happened .readClock now] (some (now.saturatingAdd duration))

inductive LockSteps (counts : FailureCounts) : List VaultEvent → Prop where
  | below (hbelow : ¬counts.TripsKey env.config) : LockSteps counts []
  | locked (htrips : counts.TripsKey env.config) (reading : List VaultEvent)
      (deadline : Option Duration) (hreading : DeadlineSteps env reading deadline)
      (newlyLocked : Bool) (event : MonitorEvent) :
      LockSteps counts (reading ++
        [happened (.lockKey name deadline) newlyLocked, happened (.notify event) ()])

inductive ReportPath : List VaultEvent → Prop where
  | reported (time : Duration) (counts : FailureCounts) (event : MonitorEvent)
      (flag lock : List VaultEvent) (hflag : FlagSteps env counts flag)
      (hlock : LockSteps env name counts lock) :
      ReportPath (recordedSteps env name time counts event ++ flag ++ lock)

/-- What a report has done when it takes a step of the lockout state. -/
def ReportReady : List VaultEvent → VaultOp → Prop
  | history, .trackFailure tracked time perKey =>
      tracked = name ∧ perKey = decide (env.config.keyLockoutThreshold > 0) ∧
        history = [happened .readClock time]
  | history, .swapLockedOut =>
      ∃ time counts event, history = recordedSteps env name time counts event ∧
        counts.TripsVault env.config
  | history, .lockKey locked deadline =>
      locked = name ∧ ∃ time counts event flag reading,
        history = recordedSteps env name time counts event ++ flag ++ reading ∧
        FlagSteps env counts flag ∧ counts.TripsKey env.config ∧ DeadlineSteps env reading deadline
  | _, .readClock | _, .notify _ => True
  | _, _ => False

def clearSteps : List VaultEvent :=
  [happened .storeUnlocked (), happened .clearKeyLocks (), happened .clearFailures ()]

def ClearReady : List VaultEvent → VaultOp → Prop
  | history, .storeUnlocked => history = []
  | history, .clearKeyLocks => history = [happened .storeUnlocked ()]
  | history, .clearFailures =>
      history = [happened .storeUnlocked (), happened .clearKeyLocks ()]
  | _, _ => False

def Request.LockReady : Request → List VaultEvent → VaultOp → Prop
  | .reportFailure name _, history, op => ReportReady env name history op
  | .clearLockout, history, op => ClearReady history op
  | request, _, op => request.MayUse op

def Request.LockEnds : Request → List VaultEvent → Response → Prop
  | .reportFailure name _, history, _ => ReportPath env name history
  | .clearLockout, history, _ => history = clearSteps
  | _, _, _ => True

end Paths

section Obeys

variable {env : Environment} {name : String} {counts : FailureCounts} {history : List VaultEvent}

theorem applyVaultThreshold_obeys
    (hready : counts.TripsVault env.config → ReportReady env name history .swapLockedOut) :
    Program.Obeys (S := vaultSignature) (ReportReady env name)
      (fun later _ => ∃ flag, later = history ++ flag ∧ FlagSteps env counts flag) history
      (applyVaultThreshold env name counts) := by
  unfold applyVaultThreshold
  dsimp only
  split
  · rename_i htrips
    refine obeys_perform_bind (hready htrips) fun (wasLocked : Bool) => ?_
    exact ⟨trivial, fun _ => ⟨_, List.append_assoc .., .raised htrips wasLocked _⟩⟩
  · rename_i hbelow
    exact ⟨[], (List.append_nil _).symm, .below hbelow⟩

theorem lockoutDeadline_obeys :
    Program.Obeys (S := vaultSignature) (ReportReady env name)
      (fun later deadline => ∃ reading, later = history ++ reading ∧
        DeadlineSteps env reading deadline) history (lockoutDeadline env) := by
  unfold lockoutDeadline
  cases hduration : env.config.keyLockoutDuration with
  | none => exact ⟨[], (List.append_nil _).symm, .never hduration⟩
  | some duration =>
    refine obeys_perform_bind trivial fun (now : Duration) => ?_
    exact ⟨[happened .readClock now], rfl, .after duration now hduration⟩

theorem applyKeyThreshold_obeys
    (hready : ∀ reading deadline, counts.TripsKey env.config → DeadlineSteps env reading deadline →
      ReportReady env name (history ++ reading) (.lockKey name deadline)) :
    Program.Obeys (S := vaultSignature) (ReportReady env name)
      (fun later _ => ∃ lock, later = history ++ lock ∧ LockSteps env name counts lock) history
      (applyKeyThreshold env name env.config.keyLockoutThreshold counts) := by
  unfold applyKeyThreshold
  split
  · rename_i htrips
    refine Program.obeys_bind lockoutDeadline_obeys ?_
    rintro _ deadline ⟨reading, rfl, hreading⟩
    refine obeys_perform_bind (hready reading deadline htrips hreading)
      fun (newlyLocked : Bool) => ?_
    refine ⟨trivial, fun _ => ?_⟩
    rw [List.append_assoc, List.append_assoc]
    exact ⟨_, rfl, .locked htrips reading deadline hreading newlyLocked _⟩
  · rename_i hbelow
    exact ⟨[], (List.append_nil _).symm, .below hbelow⟩

theorem reportFailure_obeys (env : Environment) (name : String) (note : Option String) :
    Program.Obeys (S := vaultSignature) (ReportReady env name)
      (fun history _ => ReportPath env name history) [] (reportFailure env name note) := by
  unfold reportFailure handleFailure recordFailure
  dsimp only
  rw [if_pos rfl, Program.bind_assoc]
  refine obeys_perform_bind trivial fun (time : Duration) => ?_
  refine obeys_perform_bind ⟨rfl, rfl, rfl⟩ fun (counts : FailureCounts) => ?_
  refine obeys_perform_bind trivial fun _ => ?_
  refine Program.obeys_bind (applyVaultThreshold_obeys fun htrips => ⟨time, counts, _, rfl, htrips⟩) ?_
  rintro _ _ ⟨flag, rfl, hflag⟩
  refine (applyKeyThreshold_obeys ?_).mono (fun _ _ h => h) ?_
  · intro reading deadline htrips hreading
    exact ⟨rfl, time, counts, _, flag, reading, rfl, hflag, htrips, hreading⟩
  · rintro _ _ ⟨lock, rfl, hlock⟩
    exact .reported time counts _ flag lock hflag hlock

theorem clearLockout_obeys :
    Program.Obeys (S := vaultSignature) ClearReady (fun history _ => history = clearSteps) []
      clearLockout :=
  ⟨rfl, fun _ => ⟨rfl, fun _ => ⟨rfl, fun _ => rfl⟩⟩⟩

theorem lock_obeys (env : Environment) (request : Request) :
    Program.Obeys (S := vaultSignature) (request.LockReady env) (request.LockEnds env) []
      (request.program env) := by
  cases request with
  | reportFailure name note =>
    exact Program.obeys_bind (reportFailure_obeys env name note) fun _ _ hpath => hpath
  | clearLockout => exact Program.obeys_bind clearLockout_obeys fun _ _ hpath => hpath
  | _ => exact obeys_of_uses (program_uses env _) (fun _ _ hop => hop) fun _ _ => trivial

end Obeys

def trackedBy : VaultEvent → Option (String × Duration × FailureCounts)
  | ⟨.trackFailure name time _, counts⟩ => some (name, time, counts)
  | _ => none

section Tracked

variable {env : Environment} {name : String} {counts : FailureCounts} {steps : List VaultEvent}

theorem trackedBy_eq_some {event : VaultEvent} {now : Duration}
    (h : trackedBy event = some (name, now, counts)) :
    ∃ perKey, event = happened (.trackFailure name now perKey) counts := by
  obtain ⟨op, ret⟩ := event
  cases op with
  | trackFailure tracked time perKey =>
    cases h
    exact ⟨perKey, rfl⟩
  | _ => cases h

theorem FlagSteps.trackedBy (h : FlagSteps env counts steps) : steps.filterMap trackedBy = [] := by
  cases h <;> rfl

theorem LockSteps.trackedBy (h : LockSteps env name counts steps) :
    steps.filterMap trackedBy = [] := by
  cases h with
  | below hbelow => rfl
  | locked htrips reading deadline hreading newlyLocked event => cases hreading <;> rfl

theorem filterMap_recordedSteps (time : Duration) (event : MonitorEvent) :
    (recordedSteps env name time counts event).filterMap KeyVault.trackedBy = [(name, time, counts)] :=
  rfl

end Tracked

theorem perform_trackFailure {env : Environment} {v v' : Vault} {name : String} {now : Duration}
    {counts : FailureCounts}
    (h : Vault.perform env (.trackFailure name now (decide (env.config.keyLockoutThreshold > 0))) v =
      some (counts, v')) :
    v'.controls.failures = Function.update v.controls.failures name
        (env.config.policy.record now true (v.controls.failures name)) ∧
      (counts.TripsVault env.config ↔ env.config.policy.Trips now true (v.controls.failures name)) ∧
      (counts.TripsKey env.config ↔ env.config.policy.Fires now true (v.controls.failures name)) := by
  have hperKey : decide (env.config.keyLockoutThreshold > 0) =
      decide (env.config.policy.counts true) := decide_eq_decide.mpr (keyThreshold_pos env.config true)
  obtain ⟨hentries, htrips, -⟩ := recordEntries_spec env.config now true (v.controls.failures name)
  have hfires := keyThreshold_reached env.config now true (v.controls.failures name)
  rw [hperKey] at h
  obtain ⟨rfl, rfl⟩ := Prod.mk.inj (Option.some.inj h)
  refine ⟨?_, htrips, hfires⟩
  rw [← hentries]
  exact failures_insert v name _

end KeyVault
