import KeyVault.Lockouts
import KeyVault.VaultFootprint

/-! Calls made one at a time, at times that never go back. What such a call does
to the vault's lockout state is one occurrence of the lockout controls, or none:
the vault refines the controls. -/
namespace KeyVault

open Interleaving Atomic Lockouts

/-! ### The controls a vault shows -/

def VaultConfig.policy (config : VaultConfig) : Policy where
  maxFailures := config.maxFailuresBeforeLockout.toNat
  window := config.failureWindow
  keyThreshold := config.keyLockoutThreshold.toNat
  keyWindow := config.keyLockoutWindow
  lockEnd now := config.keyLockoutDuration.map (Duration.saturatingAdd now)

def Vault.controls (v : Vault) : Controls String where
  lockedOut := v.lockedOut
  failures name := (v.failureTracker.lookup name).getD []
  locks name := v.keyLocks.lookup name

/-- The counter is the number of entries of `key_locks`, as it is whenever no call
is in progress. -/
structure Vault.Counted (env : Environment) (v : Vault) : Prop where
  active : v.keyLocksActive = mapLen v.keyLocks
  bounded : mapLen v.keyLocks < 2 ^ env.usizeBits

theorem counted_new (env : Environment) (clock unixTime : Duration) (handles : Nat) :
    (Vault.new clock unixTime handles).Counted env := ⟨rfl, Nat.two_pow_pos _⟩

def Request.looksAt (v : Vault) : Request → Option String
  | .withKey handle _ _ | .rotate handle _ _ _ =>
      if v.lockedOut then none else (v.keys.lookup handle).map (·.name)
  | .isKeyLockedOut handle => (v.keys.lookup handle).map (·.name)
  | _ => none

def masterOutcome (env : Environment) (v : Vault) (attempt : Bytes) (opens : Bool) :
    Option MasterAttempt :=
  env.master.map fun verifier => (v.attemptMaster env verifier attempt opens).1

def Request.occurrence (env : Environment) (v : Vault) : Request → Option (Occurrence String)
  | .reportFailure name _ => some (.failure name true)
  | .clearKeyLockout name => some (.clearKey name)
  | .clearLockout => some .clearAll
  | .unlockWithMaster attempt opens =>
      match masterOutcome env v attempt opens with
      | some (.checked true) => some .clearAll
      | some (.checked false) => some (.failure masterName false)
      | _ => none
  | request => (request.looksAt v).map .look

inductive Effect (env : Environment) (v : Vault) : Request → Occurrence String → Prop where
  | reported (name : String) (note : Option String) :
      Effect env v (.reportFailure name note) (.failure name true)
  | cleared (name : String) : Effect env v (.clearKeyLockout name) (.clearKey name)
  | clearedAll : Effect env v .clearLockout .clearAll
  | unlocked {attempt : Bytes} {opens : Bool}
      (hmatched : masterOutcome env v attempt opens = some (.checked true)) :
      Effect env v (.unlockWithMaster attempt opens) .clearAll
  | mismatched {attempt : Bytes} {opens : Bool}
      (hmismatched : masterOutcome env v attempt opens = some (.checked false)) :
      Effect env v (.unlockWithMaster attempt opens) (.failure masterName false)
  | looked {request : Request} {name : String} (hlooks : request.looksAt v = some name) :
      Effect env v request (.look name)

theorem effect_of_occurrence {env : Environment} {v : Vault} {request : Request}
    {o : Occurrence String} (h : request.occurrence env v = some o) : Effect env v request o := by
  cases request with
  | reportFailure name note =>
    cases h
    exact .reported name note
  | clearKeyLockout name =>
    cases h
    exact .cleared name
  | clearLockout =>
    cases h
    exact .clearedAll
  | unlockWithMaster attempt opens =>
    simp only [Request.occurrence] at h
    split at h
    · rename_i hmatched
      cases h
      exact .unlocked hmatched
    · rename_i hmismatched
      cases h
      exact .mismatched hmismatched
    · cases h
  | _ =>
    simp only [Request.occurrence] at h
    obtain ⟨name, hlooks, rfl⟩ := Option.map_eq_some_iff.mp h
    exact .looked hlooks

def controlsAfter (env : Environment) (v : Vault) (occurrence : Option (Occurrence String)) :
    Controls String :=
  match occurrence with
  | none => v.controls
  | some o => v.controls.after env.config.policy v.clock o

section Lookups

variable (v : Vault) (name : String)

theorem failures_insert (times : List Duration) :
    (fun other => ((v.failureTracker.insert name times).lookup other).getD []) =
      Function.update v.controls.failures name times := by
  show (Option.getD · []) ∘ (fun other => (v.failureTracker.insert name times).lookup other) = _
  rw [lookup_insert_eq_update, Function.comp_update]
  rfl

theorem failures_erase :
    (fun other => ((v.failureTracker.erase name).lookup other).getD []) =
      Function.update v.controls.failures name [] := by
  show (Option.getD · []) ∘ (fun other => (v.failureTracker.erase name).lookup other) = _
  rw [lookup_erase_eq_update, Function.comp_update]
  rfl

theorem locks_insert (deadline : Option Duration) :
    (fun other => (v.keyLocks.insert name deadline).lookup other) =
      Function.update v.controls.locks name (some deadline) :=
  lookup_insert_eq_update v.keyLocks name deadline

theorem locks_erase :
    (fun other => (v.keyLocks.erase name).lookup other) =
      Function.update v.controls.locks name none :=
  lookup_erase_eq_update v.keyLocks name

end Lookups

/-! ### The counter -/

theorem fetchSub_of_pos {env : Environment} {active : Nat} (hpos : 0 < active)
    (hlt : active < 2 ^ env.usizeBits) : Vault.fetchSub env active = active - 1 := by
  unfold Vault.fetchSub
  have hwrap : active + (2 ^ env.usizeBits - 1) = active - 1 + 2 ^ env.usizeBits := by omega
  rw [hwrap, Nat.add_mod_right, Nat.mod_eq_of_lt (by omega)]

section Counter

variable {env : Environment} {v : Vault}

theorem Vault.Counted.erase (h : v.Counted env) {name : String} (hmem : name ∈ v.keyLocks) :
    Vault.fetchSub env v.keyLocksActive = mapLen (v.keyLocks.erase name) ∧
      mapLen (v.keyLocks.erase name) < 2 ^ env.usizeBits := by
  have hlen := mapLen_erase_of_mem hmem
  have hbounded := h.bounded
  rw [h.active, fetchSub_of_pos (by omega) hbounded]
  omega

/-- With nobody else at work the fast path of `key_locked` only saves time. -/
theorem runAlone_keyLocked (h : v.Counted env) (name : String) :
    runAlone env (keyLocked name) v = some (v.keyLockedSlow env name) := by
  unfold keyLocked
  rw [runAlone_bind, runAlone_loadKeyLocksActive]
  dsimp only [Option.bind_some]
  by_cases hactive : v.keyLocksActive = 0
  · rw [if_pos hactive, runAlone_pure]
    have hempty : v.keyLocks.lookup name = none := by
      rw [AList.lookup_eq_none]
      intro hmem
      have hpos := List.length_pos_of_mem (AList.mem_keys.mp hmem)
      have hlen := h.active
      unfold mapLen at hlen
      omega
    unfold Vault.keyLockedSlow
    rw [hempty]
  · rw [if_neg hactive, runAlone_keyLockedSlow]

theorem keyLocked_answer (env : Environment) (v : Vault) (name : String) : ∃ locked w,
    runAlone env (keyLocked name) v = some (locked, w) ∧ w.keys = v.keys ∧
      (locked = true ↔ v.keyLocksActive ≠ 0 ∧ v.UnderLockout name) := by
  unfold keyLocked
  simp only [runAlone_bind, runAlone_loadKeyLocksActive, Option.bind_some]
  by_cases hactive : v.keyLocksActive = 0
  · rw [if_pos hactive]
    exact ⟨false, v, rfl, rfl, by simp [hactive]⟩
  · obtain ⟨keyLocks, active, tracker, hframe⟩ := v.keyLockedSlow_frame env name
    rw [if_neg hactive, runAlone_keyLockedSlow]
    refine ⟨(v.keyLockedSlow env name).1, (v.keyLockedSlow env name).2, rfl, by rw [hframe], ?_⟩
    simp [v.keyLockedSlow_iff env name, hactive]

theorem keyLockedSlow_spec (h : v.Counted env) (name : String) :
    (v.keyLockedSlow env name).1 = decide (v.controls.Held v.clock name) ∧
      (v.keyLockedSlow env name).2.controls =
        v.controls.after env.config.policy v.clock (.look name) ∧
      (v.keyLockedSlow env name).2.Counted env := by
  refine ⟨?_, ?_⟩
  · rw [Bool.eq_iff_iff, v.keyLockedSlow_iff env name, decide_eq_true_eq]
    rfl
  unfold Vault.keyLockedSlow
  have hlocks : v.controls.locks name = v.keyLocks.lookup name := rfl
  cases hlookup : v.keyLocks.lookup name with
  | none =>
    rw [hlookup] at hlocks
    refine ⟨?_, h⟩
    rw [Controls.look_of_not_expired]
    rintro ⟨stop, hlock, -⟩
    rw [hlocks] at hlock
    cases hlock
  | some deadline =>
    rw [hlookup] at hlocks
    cases deadline with
    | none =>
      have hheld : v.controls.Held v.clock name := ⟨none, hlocks, fun _ hstop => by cases hstop⟩
      refine ⟨?_, h⟩
      rw [Controls.look_of_not_expired (Controls.not_expired_of_held hheld)]
    | some stop =>
      dsimp only
      by_cases hbefore : v.clock < stop
      · have hheld : v.controls.Held v.clock name := by
          refine ⟨some stop, hlocks, ?_⟩
          rintro _ ⟨⟩
          exact hbefore
        rw [if_pos hbefore]
        refine ⟨?_, h⟩
        rw [Controls.look_of_not_expired (Controls.not_expired_of_held hheld)]
      · have hexpired : v.controls.Expired v.clock name := ⟨stop, hlocks, Nat.le_of_not_lt hbefore⟩
        have hmem : name ∈ v.keyLocks := AList.lookup_isSome.mp (by rw [hlookup]; rfl)
        obtain ⟨hactive, hbounded⟩ := h.erase hmem
        rw [if_neg hbefore]
        refine ⟨?_, ⟨hactive, hbounded⟩⟩
        rw [Controls.look_of_expired hexpired]
        unfold Vault.controls
        dsimp only
        rw [failures_erase, locks_erase]
        rfl

theorem Vault.Counted.lockKey (h : v.Counted env) {name : String} {deadline : Option Duration}
    {newly : Bool} {v' : Vault} (hlock : v.lockKey env name deadline = some (newly, v')) :
    v'.Counted env ∧ ∃ active,
      v' = { v with keyLocks := v.keyLocks.insert name deadline, keyLocksActive := active } := by
  unfold Vault.lockKey at hlock
  dsimp only at hlock
  by_cases hmem : name ∈ v.keyLocks
  · rw [if_pos hmem] at hlock
    cases hlock
    have hlen := mapLen_insert_of_mem hmem deadline
    exact ⟨⟨h.active.trans hlen.symm, hlen ▸ h.bounded⟩, _, rfl⟩
  · rw [if_neg hmem] at hlock
    split at hlock
    · rename_i hroom
      cases hlock
      have hlen := mapLen_insert_of_notMem hmem deadline
      refine ⟨⟨?_, hlen ▸ hroom⟩, _, rfl⟩
      dsimp only
      rw [hlen, Vault.fetchAdd, h.active, Nat.mod_eq_of_lt hroom]
    · cases hlock

end Counter

/-! ### Failures -/

theorem le_countWithin (threshold : UInt32) (now window : Duration) (entries : List Duration) :
    threshold ≤ countWithin now window entries ↔
      threshold.toNat ≤ (recent now window entries).length := by
  have hthreshold : threshold.toNat ≤ u32Max := Nat.le_of_lt_succ threshold.toNat_lt
  have hsame : (recent now window entries).length =
      (entries.filter fun t => decide (now.saturatingSub t ≤ window)).length := rfl
  unfold countWithin
  dsimp only
  rw [hsame, UInt32.le_iff_toNat_le]
  generalize (entries.filter fun t => decide (now.saturatingSub t ≤ window)).length = n
  by_cases hn : n ≤ u32Max
  · rw [if_pos hn, UInt32.toNat_ofNat_of_lt' (Nat.lt_succ_of_le hn)]
  · have hmax : (UInt32.ofNat u32Max).toNat = u32Max := rfl
    rw [if_neg hn, hmax]
    omega

theorem keyThreshold_pos (config : VaultConfig) (perKey : Bool) :
    (if perKey then config.keyLockoutThreshold else 0) > 0 ↔ config.policy.counts perKey := by
  cases perKey with
  | false => simp [Policy.counts]
  | true => simp [Policy.counts, VaultConfig.policy, GT.gt, UInt32.lt_iff_toNat_lt]

theorem recordEntries_spec (config : VaultConfig) (now : Duration) (perKey : Bool)
    (entries : List Duration) :
    (recordEntries config now (decide (config.policy.counts perKey)) entries).1 =
        config.policy.record now perKey entries ∧
      ((config.maxFailuresBeforeLockout > 0 ∧
        (recordEntries config now (decide (config.policy.counts perKey)) entries).2.inWindow ≥
          config.maxFailuresBeforeLockout) ↔ config.policy.Trips now perKey entries) ∧
      (config.policy.counts perKey →
        (recordEntries config now (decide (config.policy.counts perKey)) entries).2.inKeyWindow =
          countWithin now config.keyLockoutWindow (config.policy.record now perKey entries)) := by
  have hentries : (recordEntries config now (decide (config.policy.counts perKey)) entries).1 =
      config.policy.record now perKey entries := by
    unfold recordEntries Policy.record Policy.horizon
    simp only [decide_eq_true_eq]
    rfl
  refine ⟨hentries, ?_, ?_⟩
  · have hcount :
        (recordEntries config now (decide (config.policy.counts perKey)) entries).2.inWindow =
          countWithin now config.failureWindow (config.policy.record now perKey entries) := by
      rw [← hentries]
      rfl
    rw [hcount, ge_iff_le, le_countWithin, GT.gt, UInt32.lt_iff_toNat_lt]
    rfl
  · intro hcounts
    rw [← hentries]
    unfold recordEntries
    simp only [hcounts, decide_true, if_true]

theorem keyThreshold_reached (config : VaultConfig) (now : Duration) (perKey : Bool)
    (entries : List Duration) :
    ((if perKey then config.keyLockoutThreshold else 0) > 0 ∧
      (recordEntries config now (decide (config.policy.counts perKey)) entries).2.inKeyWindow ≥
        (if perKey then config.keyLockoutThreshold else 0)) ↔
      config.policy.Fires now perKey entries := by
  obtain ⟨-, -, hcount⟩ := recordEntries_spec config now perKey entries
  unfold Policy.Fires
  rw [keyThreshold_pos]
  refine and_congr_right fun hcounts => ?_
  rw [hcount hcounts, if_pos hcounts.1, ge_iff_le, le_countWithin]
  rfl

section Failure

variable {env : Environment} {v v' : Vault} {name : String}

theorem runAlone_lockoutDeadline :
    runAlone env (lockoutDeadline env) v = some (env.config.policy.lockEnd v.clock, v) := by
  unfold lockoutDeadline VaultConfig.policy
  cases env.config.keyLockoutDuration <;> rfl

theorem runAlone_applyVaultThreshold (counts : FailureCounts) : ∃ events,
    runAlone env (applyVaultThreshold env name counts) v = some ((), { v with
      lockedOut := v.lockedOut || decide (env.config.maxFailuresBeforeLockout > 0 ∧
        counts.inWindow ≥ env.config.maxFailuresBeforeLockout)
      monitorEvents := events }) := by
  unfold applyVaultThreshold
  dsimp only
  split
  · rename_i hreached
    simp only [runAlone_bind, runAlone_swapLockedOut, Option.bind_some, runAlone_notify,
      decide_eq_true hreached, Bool.or_true]
    exact ⟨_, rfl⟩
  · rename_i hreached
    simp only [runAlone_pure, decide_eq_false hreached, Bool.or_false]
    exact ⟨v.monitorEvents, rfl⟩

theorem applyKeyThreshold_spec {counts : FailureCounts} {keyThreshold : UInt32}
    (h : v.Counted env)
    (hrun : runAlone env (applyKeyThreshold env name keyThreshold counts) v = some ((), v')) :
    v'.Counted env ∧ ∃ keyLocks active events,
      v' = { v with keyLocks := keyLocks, keyLocksActive := active, monitorEvents := events } ∧
      (fun other => keyLocks.lookup other) =
        if keyThreshold > 0 ∧ counts.inKeyWindow ≥ keyThreshold then
          Function.update v.controls.locks name (some (env.config.policy.lockEnd v.clock))
        else v.controls.locks := by
  unfold applyKeyThreshold at hrun
  by_cases hreached : keyThreshold > 0 ∧ counts.inKeyWindow ≥ keyThreshold
  · rw [if_pos hreached] at hrun
    simp only [runAlone_bind, runAlone_lockoutDeadline, Option.bind_some, runAlone_lockKey,
      runAlone_notify, Option.bind_eq_some_iff, Prod.exists] at hrun
    obtain ⟨newly, locked, hlock, hnotify⟩ := hrun
    obtain ⟨hcounted, active, rfl⟩ := h.lockKey hlock
    cases hnotify
    refine ⟨⟨hcounted.active, hcounted.bounded⟩, _, _, _, rfl, ?_⟩
    rw [if_pos hreached]
    exact locks_insert v name _
  · rw [if_neg hreached, runAlone_pure] at hrun
    cases hrun
    refine ⟨h, v.keyLocks, v.keyLocksActive, v.monitorEvents, rfl, ?_⟩
    rw [if_neg hreached]
    rfl

theorem handleFailure_spec {note : Option String} {perKey : Bool} (h : v.Counted env)
    (hrun : runAlone env (handleFailure env name note perKey) v = some ((), v')) :
    v'.Counted env ∧
      v'.controls = v.controls.after env.config.policy v.clock (.failure name perKey) := by
  obtain ⟨hentries, htrips, -⟩ :=
    recordEntries_spec env.config v.clock perKey (v.controls.failures name)
  have hfires := keyThreshold_reached env.config v.clock perKey (v.controls.failures name)
  have htrack : v.trackFailure env name v.clock (decide (env.config.policy.counts perKey)) =
      ((recordEntries env.config v.clock (decide (env.config.policy.counts perKey))
          (v.controls.failures name)).2,
        { v with
          failureTracker := v.failureTracker.insert name
            (env.config.policy.record v.clock perKey (v.controls.failures name)) }) := by
    rw [← hentries]
    rfl
  generalize (recordEntries env.config v.clock (decide (env.config.policy.counts perKey))
    (v.controls.failures name)).2 = counts at htrips hfires htrack
  unfold handleFailure recordFailure at hrun
  simp only [runAlone_bind, runAlone_readClock, runAlone_trackFailure, runAlone_notify,
    Option.bind_some, Option.bind_eq_some_iff, Prod.exists, keyThreshold_pos, htrack] at hrun
  obtain ⟨_, flagged, hflag, hkey⟩ := hrun
  obtain ⟨events, hvault⟩ := runAlone_applyVaultThreshold counts
  rw [hvault] at hflag
  cases hflag
  have hspec := fun hcounted => applyKeyThreshold_spec hcounted hkey
  obtain ⟨hcounted, keyLocks, active, events', rfl, hlocks⟩ := hspec ⟨h.active, h.bounded⟩
  refine ⟨hcounted, ?_⟩
  unfold Vault.controls at hlocks ⊢
  dsimp only at hlocks ⊢
  rw [hlocks, failures_insert]
  simp only [Controls.after, hfires, decide_eq_decide.mpr htrips]
  rfl

end Failure

/-! ### Whole calls -/

theorem runAlone_emitAudit (env : Environment) (v : Vault) (keyName : String) (kind : AccessKind)
    (note : String) : ∃ trail,
    runAlone env (emitAudit env keyName kind note) v = some ((), { v with auditTrail := trail }) := by
  unfold emitAudit
  split
  · exact ⟨v.auditTrail, rfl⟩
  · exact ⟨_, runAlone_recordAudit env v keyName kind note⟩

theorem register_cases {env : Environment} {v v' : Vault} {name : String} {key : Bytes} {rng : Rng}
    {os : OsAnswers} {result : Result KeyId}
    (h : runAlone env (register env name key rng os) v = some (result, v')) :
    (v' = v ∧ (∃ exit, result = .error exit) ∧
      (v.lockedOut = true ∨ v.keys.hasName name = true ∨
        ∃ exit, fragmentForRegistry env os key rng = .error exit)) ∨
    ∃ fragments trail, v.lockedOut = false ∧ v.keys.hasName name = false ∧
      fragmentForRegistry env os key rng = .ok fragments ∧
      result = .ok (keyIdAfter v.handleCounter) ∧
      v' = { v with
        handleCounter := v.handleCounter + 1
        keys := v.keys.insert (keyIdAfter v.handleCounter)
          ⟨name, fragments, ⟨v.unixTime, key.length, none⟩⟩
        auditTrail := trail } := by
  unfold register isLockedOut at h
  simp only [runAlone_bind, runAlone_loadLockedOut, Option.bind_some] at h
  by_cases hlocked : v.lockedOut = true
  · rw [if_pos hlocked] at h
    cases h
    exact .inl ⟨rfl, ⟨_, rfl⟩, .inl hlocked⟩
  · rw [if_neg hlocked] at h
    simp only [runAlone_bind, runAlone_loadKeys, Option.bind_some] at h
    by_cases hname : v.keys.hasName name = true
    · rw [if_pos hname] at h
      cases h
      exact .inl ⟨rfl, ⟨_, rfl⟩, .inr (.inl hname)⟩
    · rw [if_neg hname] at h
      cases hfragment : fragmentForRegistry env os key rng with
      | error exit =>
        rw [hfragment] at h
        cases h
        exact .inl ⟨rfl, ⟨exit, rfl⟩, .inr (.inr ⟨exit, rfl⟩)⟩
      | ok fragments =>
        rw [hfragment] at h
        simp only [installKey, runAlone_bind, runAlone_allocateHandle, runAlone_readUnixTime,
          runAlone_insertKey, Option.bind_some, Vault.insertKey, hname, Bool.false_eq_true,
          if_false, if_true] at h
        obtain ⟨⟨_, audited⟩, haudit, hdone⟩ := Option.bind_eq_some_iff.mp h
        obtain ⟨trail, htrail⟩ := runAlone_emitAudit env _ name .register ""
        rw [htrail] at haudit
        cases haudit
        cases hdone
        exact .inr ⟨fragments, trail, Bool.eq_false_of_not_eq_true hlocked,
          Bool.eq_false_of_not_eq_true hname, rfl, rfl, rfl⟩

theorem unregister_keys {env : Environment} {v v' : Vault} {handle : KeyId} {result : Result Unit}
    (h : runAlone env (unregister env handle) v = some (result, v')) :
    v'.keys = v.keys.erase handle ∨ v.keys.lookup handle = none ∧ v'.keys = v.keys := by
  unfold unregister at h
  simp only [runAlone_bind, runAlone_removeKey, Option.bind_some, Vault.removeKey] at h
  cases hlookup : v.keys.lookup handle with
  | none =>
    rw [hlookup] at h
    cases h
    exact .inr ⟨rfl, rfl⟩
  | some entry =>
    rw [hlookup] at h
    obtain ⟨⟨_, audited⟩, haudit, hdone⟩ := Option.bind_eq_some_iff.mp
      ((runAlone_bind env _ _ _).symm.trans h)
    obtain ⟨trail, htrail⟩ := runAlone_emitAudit env _ entry.name .unregister ""
    rw [htrail] at haudit
    cases haudit
    cases hdone
    exact .inl rfl

def VaultOp.Quiet (op : VaultOp) : Prop :=
  op.writes .lockedOut = false ∧ op.writes .failureTracker = false ∧ op.writes .keyLocks = false

section Calls

variable {env : Environment} {v v' : Vault} {α : Type} {value : α}

theorem runAlone_keeps {P : VaultOp → Prop} {β : Type} {f : Vault → β} {p : VaultProgram α}
    (huses : Program.Uses (S := vaultSignature) P p)
    (hop : ∀ op s ret s', P op → Vault.perform env op s = some (ret, s') → f s' = f s)
    (hrun : runAlone env p v = some (value, v')) : f v' = f v := by
  apply huses.run_invariant (I := fun s => f s = f v) _ rfl hrun
  intro op s ret s' hP hs hstep
  rw [hop op s ret s' hP hstep, hs]

theorem runAlone_clock {p : VaultProgram α} (hrun : runAlone env p v = some (value, v')) :
    v'.clock = v.clock := by
  apply runAlone_keeps (Program.uses_of_forall (P := fun _ => True) (fun _ => trivial) p) _ hrun
  intro op s ret s' _ hstep
  exact (Vault.perform_frame hstep).clock

theorem runAlone_quiet {p : VaultProgram α}
    (huses : Program.Uses (S := vaultSignature) VaultOp.Quiet p) (h : v.Counted env)
    (hrun : runAlone env p v = some (value, v')) :
    v'.Counted env ∧ v'.controls = v.controls := by
  have hlocks : v'.keyLocks = v.keyLocks ∧ v'.keyLocksActive = v.keyLocksActive := by
    have hpair := runAlone_keeps (f := fun s => (s.keyLocks, s.keyLocksActive)) huses
      (fun op s ret s' hquiet hstep => ?_) hrun
    · exact Prod.mk.injEq .. ▸ hpair
    · obtain ⟨hmap, hactive⟩ := (Vault.perform_frame hstep).keyLocks hquiet.2.2
      rw [hmap, hactive]
  have hflag := runAlone_keeps (f := Vault.lockedOut) huses
    (fun op s ret s' hquiet hstep => (Vault.perform_frame hstep).lockedOut hquiet.1) hrun
  have htracker := runAlone_keeps (f := Vault.failureTracker) huses
    (fun op s ret s' hquiet hstep => (Vault.perform_frame hstep).failureTracker hquiet.2.1) hrun
  refine ⟨⟨?_, ?_⟩, ?_⟩
  · rw [hlocks.1, hlocks.2, h.active]
  · rw [hlocks.1]
    exact h.bounded
  · unfold Vault.controls
    rw [hlocks.1, hflag, htracker]

theorem runAlone_checkedThen {β : Type} (h : v.Counted env) (handle : KeyId)
    (rest : KeyEntry → VaultProgram (Result β)) :
    runAlone env (checkedThen handle rest) v =
      if v.lockedOut then some (fail .lockedOut, v)
      else match v.keys.lookup handle with
        | none => some (fail .keyNotFound, v)
        | some entry =>
            if (v.keyLockedSlow env entry.name).1 then
              some (fail .lockedOut, (v.keyLockedSlow env entry.name).2)
            else runAlone env (rest entry) (v.keyLockedSlow env entry.name).2 := by
  unfold checkedThen isLockedOut
  simp only [runAlone_bind, runAlone_loadLockedOut, Option.bind_some]
  cases v.lockedOut with
  | true => rfl
  | false =>
    simp only [Bool.false_eq_true, if_false, runAlone_bind, runAlone_loadKeys, Option.bind_some]
    cases v.keys.lookup handle with
    | none => rfl
    | some entry =>
      simp only [runAlone_bind, runAlone_keyLocked h, Option.bind_some]
      split <;> rfl

theorem runAlone_withKey {β : Type} (h : v.Counted env) (handle : KeyId) (opens : Bool)
    (scratch : Bytes) (f : Bytes → β) :
    runAlone env (withKey env handle opens scratch f) v =
      if v.lockedOut then some (fail .lockedOut, v)
      else match v.keys.lookup handle with
        | none => some (fail .keyNotFound, v)
        | some entry =>
            if (v.keyLockedSlow env entry.name).1 then
              some (fail .lockedOut, (v.keyLockedSlow env entry.name).2)
            else runAlone env (readEntry env entry opens scratch f)
              (v.keyLockedSlow env entry.name).2 := by
  rw [withKey_checkedThen]
  exact runAlone_checkedThen h handle _

theorem runAlone_rotate (h : v.Counted env) (handle : KeyId) (key : Bytes) (rng : Rng)
    (os : OsAnswers) :
    runAlone env (rotate env handle key rng os) v =
      if v.lockedOut then some (fail .lockedOut, v)
      else match v.keys.lookup handle with
        | none => some (fail .keyNotFound, v)
        | some entry =>
            if (v.keyLockedSlow env entry.name).1 then
              some (fail .lockedOut, (v.keyLockedSlow env entry.name).2)
            else runAlone env
              (match fragmentForRegistry env os key rng with
                | .error exit => return .error exit
                | .ok fragments => swapKey env handle key.length fragments)
              (v.keyLockedSlow env entry.name).2 := by
  rw [rotate_checkedThen]
  exact runAlone_checkedThen h handle _

theorem runAlone_isKeyLockedOut (h : v.Counted env) (handle : KeyId) :
    runAlone env (isKeyLockedOut handle) v =
      match v.keys.lookup handle with
      | none => some (false, v)
      | some entry => some (v.keyLockedSlow env entry.name) := by
  unfold isKeyLockedOut
  simp only [runAlone_bind, runAlone_loadKeys, Option.bind_some]
  cases v.keys.lookup handle with
  | none => rfl
  | some entry => exact runAlone_keyLocked h entry.name

theorem quiet_emitAudit (name : String) (kind : AccessKind) (note : String) :
    VaultOp.Quiet (.emitAudit name kind note) := ⟨rfl, rfl, rfl⟩

theorem look_spec (h : v.Counted env) {entry : KeyEntry} {refusal : α} {p : VaultProgram α}
    (huses : Program.Uses (S := vaultSignature) VaultOp.Quiet p)
    (hrun : (if (v.keyLockedSlow env entry.name).1 then
        some (refusal, (v.keyLockedSlow env entry.name).2)
      else runAlone env p (v.keyLockedSlow env entry.name).2) = some (value, v')) :
    v'.Counted env ∧
      v'.controls = v.controls.after env.config.policy v.clock (.look entry.name) := by
  obtain ⟨-, hcontrols, hcounted⟩ := keyLockedSlow_spec h entry.name
  split at hrun
  · cases hrun
    exact ⟨hcounted, hcontrols⟩
  · obtain ⟨hafter, hsame⟩ := runAlone_quiet huses hcounted hrun
    exact ⟨hafter, hsame.trans hcontrols⟩

theorem checked_spec (h : v.Counted env) {handle : KeyId} {lockedOut absent : α}
    {rest : KeyEntry → VaultProgram α}
    (huses : ∀ entry, Program.Uses (S := vaultSignature) VaultOp.Quiet (rest entry))
    (hrun : (if v.lockedOut then some (lockedOut, v)
      else match v.keys.lookup handle with
        | none => some (absent, v)
        | some entry =>
            if (v.keyLockedSlow env entry.name).1 then
              some (lockedOut, (v.keyLockedSlow env entry.name).2)
            else runAlone env (rest entry) (v.keyLockedSlow env entry.name).2) =
      some (value, v')) :
    v'.Counted env ∧ v'.controls = controlsAfter env v
      ((if v.lockedOut then none else (v.keys.lookup handle).map (·.name)).map .look) := by
  by_cases hlocked : v.lockedOut = true
  · rw [if_pos hlocked] at hrun ⊢
    cases hrun
    exact ⟨h, rfl⟩
  · rw [if_neg hlocked] at hrun ⊢
    cases hlookup : v.keys.lookup handle with
    | none =>
      rw [hlookup] at hrun
      cases hrun
      exact ⟨h, rfl⟩
    | some entry =>
      rw [hlookup] at hrun
      exact look_spec h (huses entry) hrun

theorem clearKeyLockout_spec (h : v.Counted env) {name : String} {removed : Bool}
    (hrun : runAlone env (clearKeyLockout name) v = some (removed, v')) :
    v'.Counted env ∧
      v'.controls = v.controls.after env.config.policy v.clock (.clearKey name) := by
  unfold clearKeyLockout at hrun
  by_cases hmem : name ∈ v.keyLocks
  · simp only [runAlone_bind, runAlone_unlockKey, Option.bind_some, decide_eq_true hmem, if_true,
      runAlone_subKeyLocksActive, runAlone_forgetFailures, runAlone_pure] at hrun
    cases hrun
    obtain ⟨hactive, hbounded⟩ := h.erase hmem
    refine ⟨⟨hactive, hbounded⟩, ?_⟩
    unfold Vault.controls
    dsimp only
    rw [failures_erase, locks_erase]
    rfl
  · simp only [runAlone_bind, runAlone_unlockKey, Option.bind_some, decide_eq_false hmem,
      Bool.false_eq_true, if_false, runAlone_pure, runAlone_forgetFailures] at hrun
    cases hrun
    have hlen := mapLen_erase_of_notMem hmem
    refine ⟨⟨h.active.trans hlen.symm, hlen.symm ▸ h.bounded⟩, ?_⟩
    unfold Vault.controls
    dsimp only
    rw [failures_erase, locks_erase]
    rfl

theorem clearLockout_spec (hrun : runAlone env clearLockout v = some ((), v')) :
    v'.Counted env ∧ v'.controls = v.controls.after env.config.policy v.clock .clearAll := by
  unfold clearLockout at hrun
  simp only [runAlone_bind, runAlone_storeUnlocked, runAlone_clearKeyLocks, Option.bind_some,
    runAlone_clearFailures] at hrun
  cases hrun
  exact ⟨⟨rfl, Nat.two_pow_pos _⟩, rfl⟩

theorem unlockWithMaster_spec (h : v.Counted env) {attempt : Bytes} {opens : Bool}
    {result : Result Unit}
    (hrun : runAlone env (unlockWithMaster env attempt opens) v = some (result, v')) :
    v'.Counted env ∧
      v'.controls = controlsAfter env v
        (Request.occurrence env v (.unlockWithMaster attempt opens)) ∧
      (result = .ok () ↔ masterOutcome env v attempt opens = some (.checked true)) := by
  unfold unlockWithMaster at hrun
  unfold Request.occurrence masterOutcome
  cases hmaster : env.master with
  | none =>
    rw [hmaster] at hrun
    cases hrun
    exact ⟨h, rfl, by simp [fail]⟩
  | some verifier =>
    rw [hmaster] at hrun
    simp only [runAlone_bind, runAlone_attemptMaster, Option.bind_some] at hrun
    obtain ⟨backoff, hframe⟩ := v.attemptMaster_frame env verifier attempt opens
    rw [hframe] at hrun
    have hbacked : ({ v with masterBackoff := backoff } : Vault).Counted env :=
      ⟨h.active, h.bounded⟩
    dsimp only [Option.map_some]
    cases houtcome : (v.attemptMaster env verifier attempt opens).1 with
    | refused exit =>
      rw [houtcome] at hrun
      cases hrun
      exact ⟨hbacked, rfl, by simp⟩
    | checked matched =>
      rw [houtcome] at hrun
      simp only [runAlone_bind, Option.bind_eq_some_iff, Prod.exists] at hrun
      obtain ⟨_, audited, haudit, hrest⟩ := hrun
      obtain ⟨hcounted, hsame⟩ := runAlone_quiet (uses_emitAudit (quiet_emitAudit _ _ _))
        hbacked haudit
      have hclock := runAlone_clock haudit
      -- the audit event changes nothing the controls see
      have hcontrols : audited.controls = v.controls := hsame
      dsimp only at hclock
      cases matched with
      | true =>
        simp only [if_true, runAlone_bind, Option.bind_eq_some_iff, Prod.exists,
          runAlone_pure] at hrest
        obtain ⟨_, cleared, hclear, hdone⟩ := hrest
        cases hdone
        obtain ⟨hafter, hcleared⟩ := clearLockout_spec hclear
        exact ⟨hafter, by rw [hcleared, hcontrols, hclock]; rfl, by simp⟩
      | false =>
        simp only [Bool.false_eq_true, if_false, runAlone_bind, Option.bind_eq_some_iff,
          Prod.exists, runAlone_pure] at hrest
        obtain ⟨_, failed, hfailure, hdone⟩ := hrest
        cases hdone
        obtain ⟨hafter, hfailed⟩ := handleFailure_spec hcounted hfailure
        exact ⟨hafter, by rw [hfailed, hcontrols, hclock]; rfl, by simp [fail]⟩

def Request.Quiet : Request → Prop
  | .register _ _ _ _ | .unregister _ | .reportAnomalousAccess _ _ | .isLockedOut
  | .fragment _ _ _ | .defragment _ => True
  | _ => False

theorem quiet_of_mayUse {request : Request} {op : VaultOp} (hrequest : request.Quiet)
    (hop : request.MayUse op) : op.Quiet := by
  cases request with
  | register name key rng os => cases op <;> first | exact ⟨rfl, rfl, rfl⟩ | cases hop
  | unregister handle => cases op <;> first | exact ⟨rfl, rfl, rfl⟩ | cases hop
  | reportAnomalousAccess name note => cases op <;> first | exact ⟨rfl, rfl, rfl⟩ | cases hop
  | isLockedOut => cases op <;> first | exact ⟨rfl, rfl, rfl⟩ | cases hop
  | fragment key rng os => cases op <;> first | exact ⟨rfl, rfl, rfl⟩ | cases hop
  | defragment fragments => cases op <;> first | exact ⟨rfl, rfl, rfl⟩ | cases hop
  | _ => cases hrequest

theorem quietRequest_spec {request : Request} {response : Response} (hrequest : request.Quiet)
    (h : v.Counted env) (hrun : runAlone env (request.program env) v = some (response, v')) :
    v'.Counted env ∧ v'.controls = v.controls :=
  runAlone_quiet ((program_uses env request).mono fun _ => quiet_of_mayUse hrequest) h hrun

theorem runAlone_respond {wrap : α → Response} {response : Response} {p : VaultProgram α}
    (hrun : runAlone env (p >>= fun result => .done (wrap result)) v = some (response, v')) :
    ∃ result, response = wrap result ∧ runAlone env p v = some (result, v') := by
  rw [runAlone_bind] at hrun
  obtain ⟨⟨result, after⟩, hcall, hdone⟩ := Option.bind_eq_some_iff.mp hrun
  cases hdone
  exact ⟨result, rfl, hcall⟩

/-- A call made alone is one occurrence of the lockout controls, or none. -/
theorem request_spec {request : Request} {response : Response} (h : v.Counted env)
    (hrun : runAlone env (request.program env) v = some (response, v')) :
    v'.Counted env ∧ v'.controls = controlsAfter env v (request.occurrence env v) := by
  cases request with
  | withKey handle opens scratch =>
    obtain ⟨result, -, hcall⟩ := runAlone_respond hrun
    rw [runAlone_withKey h] at hcall
    exact checked_spec h (fun entry => uses_readEntry fun _ _ => quiet_emitAudit _ _ _) hcall
  | rotate handle key rng os =>
    obtain ⟨result, -, hcall⟩ := runAlone_respond hrun
    rw [runAlone_rotate h] at hcall
    refine checked_spec h (fun entry => ?_) hcall
    split
    · trivial
    · exact uses_swapKey ⟨rfl, rfl, rfl⟩ (fun _ => ⟨rfl, rfl, rfl⟩) quiet_emitAudit
  | isKeyLockedOut handle =>
    obtain ⟨result, -, hcall⟩ := runAlone_respond hrun
    rw [runAlone_isKeyLockedOut h] at hcall
    show _ ∧ _ = controlsAfter env v (((v.keys.lookup handle).map (·.name)).map .look)
    cases hlookup : v.keys.lookup handle with
    | none =>
      rw [hlookup] at hcall
      cases hcall
      exact ⟨h, rfl⟩
    | some entry =>
      rw [hlookup, Option.some.injEq] at hcall
      obtain ⟨-, hcontrols, hcounted⟩ := keyLockedSlow_spec h entry.name
      rw [hcall] at hcontrols hcounted
      exact ⟨hcounted, hcontrols⟩
  | reportFailure name note =>
    obtain ⟨_, -, hcall⟩ := runAlone_respond hrun
    exact handleFailure_spec h hcall
  | clearKeyLockout name =>
    obtain ⟨removed, -, hcall⟩ := runAlone_respond hrun
    exact clearKeyLockout_spec h hcall
  | clearLockout =>
    obtain ⟨_, -, hcall⟩ := runAlone_respond hrun
    exact clearLockout_spec hcall
  | unlockWithMaster attempt opens =>
    obtain ⟨result, -, hcall⟩ := runAlone_respond hrun
    obtain ⟨hcounted, hcontrols, -⟩ := unlockWithMaster_spec h hcall
    exact ⟨hcounted, hcontrols⟩
  | _ =>
    refine quietRequest_spec ?_ h hrun
    trivial

end Calls

end KeyVault
