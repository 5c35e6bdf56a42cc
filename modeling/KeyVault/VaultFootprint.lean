import KeyVault.VaultProgram

/-! Which atomic steps a call can take, said once for every request. Results
about interleavings use this instead of unfolding the programs again. -/
namespace KeyVault

open Interleaving Atomic

/-- The steps a request's program contains, with the arguments they can have. -/
def Request.MayUse : Request → VaultOp → Prop
  | .register name _ _ _, .insertKey _ entry => entry.name = name
  | .register _ _ _ _, .loadLockedOut | .register _ _ _ _, .loadKeys
  | .register _ _ _ _, .allocateHandle | .register _ _ _ _, .readUnixTime
  | .register _ _ _ _, .emitAudit _ _ _ => True
  | .unregister handle, .removeKey id => id = handle
  | .unregister _, .emitAudit _ _ _ => True
  | .withKey _ _ _, .loadLockedOut | .withKey _ _ _, .loadKeys
  | .withKey _ _ _, .loadKeyLocksActive | .withKey _ _ _, .keyLockedSlow _
  | .withKey _ _ _, .emitAudit _ _ _ => True
  | .rotate handle _ _ _, .replaceKey id _ _ => id = handle
  | .rotate _ _ _ _, .loadLockedOut | .rotate _ _ _ _, .loadKeys
  | .rotate _ _ _ _, .loadKeyLocksActive | .rotate _ _ _ _, .keyLockedSlow _
  | .rotate _ _ _ _, .readUnixTime | .rotate _ _ _ _, .emitAudit _ _ _ => True
  | .reportFailure name _, .trackFailure tracked _ _ => tracked = name
  | .reportFailure name _, .lockKey locked _ => locked = name
  | .reportFailure _ _, .readClock | .reportFailure _ _, .notify _
  | .reportFailure _ _, .swapLockedOut => True
  | .reportAnomalousAccess _ _, .notify _ => True
  | .clearKeyLockout name, .unlockKey unlocked => unlocked = name
  | .clearKeyLockout name, .forgetFailures forgotten => forgotten = name
  | .clearKeyLockout _, .subKeyLocksActive => True
  | .clearLockout, .storeUnlocked | .clearLockout, .clearKeyLocks
  | .clearLockout, .clearFailures => True
  | .unlockWithMaster _ _, .trackFailure tracked _ _ => tracked = masterName
  | .unlockWithMaster _ _, .attemptMaster _ _ _ | .unlockWithMaster _ _, .emitAudit _ _ _
  | .unlockWithMaster _ _, .storeUnlocked | .unlockWithMaster _ _, .clearKeyLocks
  | .unlockWithMaster _ _, .clearFailures | .unlockWithMaster _ _, .readClock
  | .unlockWithMaster _ _, .notify _ | .unlockWithMaster _ _, .swapLockedOut => True
  | .isLockedOut, .loadLockedOut => True
  | .isKeyLockedOut _, .loadKeys | .isKeyLockedOut _, .loadKeyLocksActive
  | .isKeyLockedOut _, .keyLockedSlow _ => True
  | .fragment _ _ _, .loadLockedOut | .fragment _ _ _, .emitAudit _ _ _ => True
  | .defragment _, .loadLockedOut | .defragment _, .emitAudit _ _ _ => True
  | _, _ => False

variable {P : VaultOp → Prop}

theorem uses_emitAudit {env : Environment} {keyName : String} {kind : AccessKind} {note : String}
    (h : P (.emitAudit keyName kind note)) :
    Program.Uses (S := vaultSignature) P (emitAudit env keyName kind note) := by
  unfold emitAudit
  split
  · trivial
  · exact ⟨h, fun _ => trivial⟩

theorem uses_keyLocked {name : String} (hload : P .loadKeyLocksActive)
    (hslow : P (.keyLockedSlow name)) :
    Program.Uses (S := vaultSignature) P (keyLocked name) := by
  unfold keyLocked
  refine Program.uses_bind ⟨hload, fun _ => trivial⟩ fun active => ?_
  split
  · trivial
  · exact ⟨hslow, fun _ => trivial⟩

theorem uses_applyVaultThreshold {env : Environment} {name : String} {counts : FailureCounts}
    (hnotify : ∀ event, event.keyName = name → P (.notify event))
    (hswap : env.config.maxFailuresBeforeLockout > 0 → P .swapLockedOut) :
    Program.Uses (S := vaultSignature) P (applyVaultThreshold env name counts) := by
  unfold applyVaultThreshold
  dsimp only
  split
  · rename_i hreached
    exact ⟨hswap hreached.1, fun _ => ⟨hnotify _ rfl, fun _ => trivial⟩⟩
  · trivial

theorem uses_applyKeyThreshold {env : Environment} {name : String} {keyThreshold : UInt32}
    {counts : FailureCounts} (hclock : P .readClock)
    (hnotify : ∀ event, event.keyName = name → P (.notify event))
    (hlock : keyThreshold > 0 → ∀ deadline, P (.lockKey name deadline)) :
    Program.Uses (S := vaultSignature) P
      (applyKeyThreshold env name keyThreshold counts) := by
  unfold applyKeyThreshold lockoutDeadline
  split
  · rename_i hreached
    refine Program.uses_bind ?_ fun deadline => ?_
    · split
      · trivial
      · exact ⟨hclock, fun _ => trivial⟩
    · exact ⟨hlock hreached.1 deadline, fun _ => ⟨hnotify _ rfl, fun _ => trivial⟩⟩
  · trivial

theorem uses_handleFailure {env : Environment} {name : String} {note : Option String}
    {perKey : Bool} (hclock : P .readClock)
    (htrack : ∀ now perKey, P (.trackFailure name now perKey))
    (hnotify : ∀ event, event.keyName = name → P (.notify event))
    (hswap : env.config.maxFailuresBeforeLockout > 0 → P .swapLockedOut)
    (hlock : perKey = true → ∀ deadline, P (.lockKey name deadline)) :
    Program.Uses (S := vaultSignature) P (handleFailure env name note perKey) := by
  unfold handleFailure recordFailure
  refine Program.uses_bind ⟨hclock, fun now => ⟨htrack now _, fun _ => trivial⟩⟩ fun counts => ?_
  refine Program.uses_bind ⟨hnotify _ rfl, fun _ => trivial⟩ fun _ => ?_
  refine Program.uses_bind (uses_applyVaultThreshold hnotify hswap) fun _ => ?_
  refine uses_applyKeyThreshold hclock hnotify fun hthreshold => hlock ?_
  cases perKey with
  | true => rfl
  | false => simp at hthreshold

theorem uses_keyLockedSlow {name : String} (h : P (.keyLockedSlow name)) :
    Program.Uses (S := vaultSignature) P (keyLockedSlow name) := ⟨h, fun _ => trivial⟩

theorem uses_installKey {env : Environment} {name : String} {keyLen : Nat} {fragments : Fragments}
    (hallocate : P .allocateHandle) (htime : P .readUnixTime)
    (hinsert : ∀ id entry, entry.name = name → P (.insertKey id entry))
    (haudit : ∀ kind note, P (.emitAudit name kind note)) :
    Program.Uses (S := vaultSignature) P (installKey env name keyLen fragments) := by
  unfold installKey
  refine Program.uses_bind ⟨hallocate, fun _ => trivial⟩ fun handle => ?_
  refine Program.uses_bind ⟨htime, fun _ => trivial⟩ fun registered => ?_
  refine Program.uses_bind ⟨hinsert handle _ rfl, fun _ => trivial⟩ fun inserted => ?_
  split
  · exact Program.uses_bind (uses_emitAudit (haudit _ _)) fun _ => trivial
  · trivial

theorem uses_register (env : Environment) (name : String) (key : Bytes) (rng : Rng)
    (os : OsAnswers) :
    Program.Uses (S := vaultSignature) (Request.MayUse (.register name key rng os))
      (register env name key rng os) := by
  unfold register isLockedOut
  refine Program.uses_bind ⟨trivial, fun _ => trivial⟩ fun locked => ?_
  split
  · trivial
  · refine Program.uses_bind ⟨trivial, fun _ => trivial⟩ fun snapshot => ?_
    split
    · trivial
    · split
      · trivial
      · exact uses_installKey trivial trivial (fun _ _ hname => hname) fun _ _ => trivial

theorem uses_unregister (env : Environment) (handle : KeyId) :
    Program.Uses (S := vaultSignature) (Request.MayUse (.unregister handle))
      (unregister env handle) := by
  unfold unregister
  refine Program.uses_bind ⟨rfl, fun _ => trivial⟩ fun removed => ?_
  split
  · trivial
  · exact Program.uses_bind (uses_emitAudit trivial) fun _ => trivial

theorem uses_readEntry {α : Type} {env : Environment} {entry : KeyEntry} {opens : Bool}
    {scratch : Bytes} {f : Bytes → α} (haudit : ∀ kind note, P (.emitAudit entry.name kind note)) :
    Program.Uses (S := vaultSignature) P (readEntry env entry opens scratch f) := by
  unfold readEntry
  split
  · trivial
  · exact Program.uses_bind (uses_emitAudit (haudit _ _)) fun _ => trivial

theorem uses_swapKey {env : Environment} {handle : KeyId} {keyLen : Nat} {fragments : Fragments}
    (htime : P .readUnixTime) (hreplace : ∀ metadata, P (.replaceKey handle fragments metadata))
    (haudit : ∀ name kind note, P (.emitAudit name kind note)) :
    Program.Uses (S := vaultSignature) P (swapKey env handle keyLen fragments) := by
  unfold swapKey
  refine Program.uses_bind ⟨htime, fun _ => trivial⟩ fun registered => ?_
  refine Program.uses_bind ⟨hreplace _, fun _ => trivial⟩ fun replaced => ?_
  split
  · trivial
  · exact Program.uses_bind (uses_emitAudit (haudit _ _ _)) fun _ => trivial

theorem uses_checkedThen {α : Type} {handle : KeyId} {rest : KeyEntry → VaultProgram (Result α)}
    {may : VaultOp → Prop} (hflag : may .loadLockedOut) (hkeys : may .loadKeys)
    (hload : may .loadKeyLocksActive) (hslow : ∀ name, may (.keyLockedSlow name))
    (hrest : ∀ entry, Program.Uses (S := vaultSignature) may (rest entry)) :
    Program.Uses (S := vaultSignature) may (checkedThen handle rest) := by
  unfold checkedThen isLockedOut
  refine Program.uses_bind ⟨hflag, fun _ => trivial⟩ fun locked => ?_
  split
  · trivial
  · refine Program.uses_bind ⟨hkeys, fun _ => trivial⟩ fun snapshot => ?_
    split
    · trivial
    · rename_i entry _
      refine Program.uses_bind (uses_keyLocked hload (hslow entry.name)) fun keyLocked => ?_
      split
      · trivial
      · exact hrest entry

theorem uses_withKey {α : Type} (env : Environment) (handle : KeyId) (opens : Bool)
    (scratch : Bytes) (f : Bytes → α) :
    Program.Uses (S := vaultSignature) (Request.MayUse (.withKey handle opens scratch))
      (withKey env handle opens scratch f) := by
  rw [withKey_checkedThen]
  exact uses_checkedThen trivial trivial trivial (fun _ => trivial) fun entry =>
    uses_readEntry fun _ _ => trivial

theorem uses_rotate (env : Environment) (handle : KeyId) (key : Bytes) (rng : Rng)
    (os : OsAnswers) :
    Program.Uses (S := vaultSignature) (Request.MayUse (.rotate handle key rng os))
      (rotate env handle key rng os) := by
  rw [rotate_checkedThen]
  refine uses_checkedThen trivial trivial trivial (fun _ => trivial) fun entry => ?_
  split
  · trivial
  · exact uses_swapKey trivial (fun _ => rfl) fun _ _ _ => trivial

theorem uses_clearKeyLockout (name : String) :
    Program.Uses (S := vaultSignature) (Request.MayUse (.clearKeyLockout name))
      (clearKeyLockout name) := by
  unfold clearKeyLockout
  refine Program.uses_bind ⟨rfl, fun _ => trivial⟩ fun removed => ?_
  split
  · exact ⟨trivial, fun _ => ⟨rfl, fun _ => trivial⟩⟩
  · exact ⟨rfl, fun _ => trivial⟩

theorem uses_unlockWithMaster (env : Environment) (attempt : Bytes) (opens : Bool) :
    Program.Uses (S := vaultSignature) (Request.MayUse (.unlockWithMaster attempt opens))
      (unlockWithMaster env attempt opens) := by
  unfold unlockWithMaster
  split
  · trivial
  · refine Program.uses_bind ⟨trivial, fun _ => trivial⟩ fun outcome => ?_
    split
    · trivial
    · refine Program.uses_bind (uses_emitAudit trivial) fun _ => ?_
      split
      · exact ⟨trivial, fun _ => ⟨trivial, fun _ => ⟨trivial, fun _ => trivial⟩⟩⟩
      · refine Program.uses_bind (uses_handleFailure trivial (fun _ _ => rfl)
          (fun _ _ => trivial) (fun _ => trivial) fun hperKey => ?_) fun _ => trivial
        cases hperKey

theorem program_uses (env : Environment) (request : Request) :
    Program.Uses (S := vaultSignature) request.MayUse (request.program env) := by
  cases request with
  | register name key rng os =>
    exact Program.uses_bind (uses_register env name key rng os) fun _ => trivial
  | unregister handle => exact Program.uses_bind (uses_unregister env handle) fun _ => trivial
  | withKey handle opens scratch =>
    exact Program.uses_bind (uses_withKey env handle opens scratch id) fun _ => trivial
  | rotate handle key rng os =>
    exact Program.uses_bind (uses_rotate env handle key rng os) fun _ => trivial
  | reportFailure name note =>
    exact Program.uses_bind (uses_handleFailure trivial (fun _ _ => rfl) (fun _ _ => trivial)
      (fun _ => trivial) fun _ _ => rfl) fun _ => trivial
  | reportAnomalousAccess name note => exact ⟨trivial, fun _ => trivial⟩
  | clearKeyLockout name =>
    exact Program.uses_bind (uses_clearKeyLockout name) fun _ => trivial
  | clearLockout =>
    exact ⟨trivial, fun _ => ⟨trivial, fun _ => ⟨trivial, fun _ => trivial⟩⟩⟩
  | unlockWithMaster attempt opens =>
    exact Program.uses_bind (uses_unlockWithMaster env attempt opens) fun _ => trivial
  | isLockedOut => exact ⟨trivial, fun _ => trivial⟩
  | isKeyLockedOut handle =>
    unfold Request.program isKeyLockedOut
    refine Program.uses_bind (Program.uses_bind ⟨trivial, fun _ => trivial⟩ fun snapshot => ?_)
      fun _ => trivial
    split
    · trivial
    · exact uses_keyLocked trivial trivial
  | fragment key rng os =>
    unfold Request.program fragment isLockedOut
    refine Program.uses_bind (Program.uses_bind ⟨trivial, fun _ => trivial⟩ fun locked => ?_)
      fun _ => trivial
    split
    · trivial
    · split
      · trivial
      · exact Program.uses_bind (uses_emitAudit trivial) fun _ => trivial
  | defragment fragments =>
    unfold Request.program defragment isLockedOut
    refine Program.uses_bind (Program.uses_bind ⟨trivial, fun _ => trivial⟩ fun locked => ?_)
      fun _ => trivial
    split
    · trivial
    · split
      · trivial
      · exact Program.uses_bind (uses_emitAudit trivial) fun _ => trivial

end KeyVault
