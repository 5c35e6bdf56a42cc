import KeyVault.VaultState

/-! Every vault call as a program over the atomic steps. Work that touches no
shared state (normalization, fragmentation, reassembly) is computed between two
steps. The randomness, the answers of the operating system and the contents of
the thread's scratch buffer are parameters of the request. -/
namespace KeyVault

open Interleaving

namespace Atomic

def loadLockedOut : VaultProgram Bool := .perform (S := vaultSignature) .loadLockedOut
def swapLockedOut : VaultProgram Bool := .perform (S := vaultSignature) .swapLockedOut
def storeUnlocked : VaultProgram Unit := .perform (S := vaultSignature) .storeUnlocked
def loadKeys : VaultProgram KeyMap := .perform (S := vaultSignature) .loadKeys
def readClock : VaultProgram Duration := .perform (S := vaultSignature) .readClock
def readUnixTime : VaultProgram Duration := .perform (S := vaultSignature) .readUnixTime
def trackFailure (name : String) (now : Duration) (perKey : Bool) : VaultProgram FailureCounts :=
  .perform (S := vaultSignature) (.trackFailure name now perKey)
def forgetFailures (name : String) : VaultProgram Unit :=
  .perform (S := vaultSignature) (.forgetFailures name)
def clearFailures : VaultProgram Unit := .perform (S := vaultSignature) .clearFailures
def loadKeyLocksActive : VaultProgram Nat :=
  .perform (S := vaultSignature) .loadKeyLocksActive
def subKeyLocksActive : VaultProgram Unit := .perform (S := vaultSignature) .subKeyLocksActive
def lockKey (name : String) (deadline : Option Duration) : VaultProgram Bool :=
  .perform (S := vaultSignature) (.lockKey name deadline)
def unlockKey (name : String) : VaultProgram Bool :=
  .perform (S := vaultSignature) (.unlockKey name)
def clearKeyLocks : VaultProgram Unit := .perform (S := vaultSignature) .clearKeyLocks
def keyLockedSlow (name : String) : VaultProgram Bool :=
  .perform (S := vaultSignature) (.keyLockedSlow name)
def attemptMaster (verifier : MasterVerifier) (attempt : Bytes) (opens : Bool) :
    VaultProgram MasterAttempt :=
  .perform (S := vaultSignature) (.attemptMaster verifier attempt opens)
def allocateHandle : VaultProgram KeyId := .perform (S := vaultSignature) .allocateHandle
def insertKey (id : KeyId) (entry : KeyEntry) : VaultProgram Bool :=
  .perform (S := vaultSignature) (.insertKey id entry)
def removeKey (id : KeyId) : VaultProgram (Option String) :=
  .perform (S := vaultSignature) (.removeKey id)
def replaceKey (id : KeyId) (fragments : Fragments) (metadata : KeyMetadata) :
    VaultProgram (Option String) :=
  .perform (S := vaultSignature) (.replaceKey id fragments metadata)
def notify (event : MonitorEvent) : VaultProgram Unit :=
  .perform (S := vaultSignature) (.notify event)
def recordAudit (keyName : String) (kind : AccessKind) (note : String) : VaultProgram Unit :=
  .perform (S := vaultSignature) (.emitAudit keyName kind note)

end Atomic

/-! ### Work on key material -/

/-- `codex_apply`: `encode` on every byte. -/
def codexApply (codex : Codex) (key : Bytes) : Bytes := key.map codex.encode

def codexDecodeInPlace (codex : Codex) (bytes : Bytes) : Bytes := bytes.map codex.decode

/-- The first stage of `fragment_pipeline`. -/
def normalize (env : Environment) (opens : Bool) (key : Bytes) : Result Bytes :=
  match env.normalizer with
  | .off => .ok key
  | .plain => .ok (env.blake3 key).toList
  | .keyed secret =>
      match secret.read opens with
      | .error exit => .error exit
      | .ok bytes =>
          if h : bytes.length = 32 then
            .ok (env.blake3Keyed ⟨bytes.toArray, by simpa using h⟩ key).toList
          else fail (.internal "normalization key has the wrong length")
  | .unavailable reason => fail (.internal reason)

def fragmentPipeline (env : Environment) (os : OsAnswers) (key : Bytes) (rng : Rng) :
    Result (Fragments × Rng) := do
  let working ← normalize env os.opens key
  let encoded := match env.codex with
    | some codex => codexApply codex working
    | none => working
  env.fragmenter.fragment encoded rng

def fragmentForRegistry (env : Environment) (os : OsAnswers) (key : Bytes) (rng : Rng) :
    Result Fragments := do
  let (fragments, _) ← fragmentPipeline env os key rng
  if env.config.pageProtection then fragments.intoProtected os else return fragments

/-- Defragment into `out` and decode in place; `out` is returned on every exit. -/
def reassemble (env : Environment) (fragments : Fragments) (opens : Bool) (out : Bytes) :
    Result Unit × Bytes :=
  match (if env.config.pageProtection then fragments.open opens else .ok ()) with
  | .error exit => (.error exit, out)
  | .ok () =>
      match env.fragmenter.defragmentInto fragments out with
      | (.error exit, out) => (.error exit, out)
      | (.ok (), out) =>
          match env.codex with
          | some codex => (.ok (), codexDecodeInPlace codex out)
          | none => (.ok (), out)

/-- Grow the thread's scratch buffer to `length` bytes; a new buffer is zero. -/
def ensureLen (scratch : Bytes) (length : Nat) : Bytes :=
  if length ≤ scratch.length then scratch else List.replicate length 0

/-- Reassemble into the front of the scratch buffer and run `f` over the bytes.
The part that was used is zeroed on every exit; the buffer is returned. -/
def readKey {α : Type} (env : Environment) (fragments : Fragments) (opens : Bool)
    (scratch : Bytes) (f : Bytes → α) : Result α × Bytes :=
  let scratch := ensureLen scratch fragments.totalLen
  let wiped := List.replicate fragments.totalLen 0 ++ scratch.drop fragments.totalLen
  match reassemble env fragments opens (scratch.take fragments.totalLen) with
  | (.error exit, _) => (.error exit, wiped)
  | (.ok (), out) => (.ok (f out), wiped)

/-! ### Calls -/

open Atomic

def emitAudit (env : Environment) (keyName : String) (kind : AccessKind) (note : String) :
    VaultProgram Unit :=
  if env.auditIsNoOp then return () else recordAudit keyName kind note

def isLockedOut : VaultProgram Bool := loadLockedOut

def keyLocked (name : String) : VaultProgram Bool := do
  if (← loadKeyLocksActive) = 0 then
    return false
  keyLockedSlow name

def isKeyLockedOut (handle : KeyId) : VaultProgram Bool := do
  let snapshot ← loadKeys
  match snapshot.lookup handle with
  | none => return false
  | some entry => keyLocked entry.name

def clearKeyLockout (name : String) : VaultProgram Bool := do
  let removed ← unlockKey name
  if removed then
    -- outside the `key_locks` critical section
    subKeyLocksActive
  forgetFailures name
  return removed

def clearLockout : VaultProgram Unit := do
  storeUnlocked
  clearKeyLocks
  clearFailures

def recordFailure (name : String) (perKey : Bool) : VaultProgram FailureCounts := do
  let now ← readClock
  trackFailure name now perKey

/-- The vault-wide half of `handle_failure`. -/
def applyVaultThreshold (env : Environment) (name : String) (counts : FailureCounts) :
    VaultProgram Unit := do
  let threshold := env.config.maxFailuresBeforeLockout
  if threshold > 0 ∧ counts.inWindow ≥ threshold then
    let wasLocked ← swapLockedOut
    notify (.thresholdBreach name counts.inWindow env.config.failureWindow (!wasLocked) .vault)

/-- `key_lockout_duration.map(|d| clock.now().saturating_add(d))`. -/
def lockoutDeadline (env : Environment) : VaultProgram (Option Duration) :=
  match env.config.keyLockoutDuration with
  | none => return none
  | some duration => do
      let now ← readClock
      return some (now.saturatingAdd duration)

/-- The per-key half of `handle_failure`. -/
def applyKeyThreshold (env : Environment) (name : String) (keyThreshold : UInt32)
    (counts : FailureCounts) : VaultProgram Unit := do
  if keyThreshold > 0 ∧ counts.inKeyWindow ≥ keyThreshold then
    let deadline ← lockoutDeadline env
    let newlyLocked ← lockKey name deadline
    notify (.thresholdBreach name counts.inKeyWindow env.config.keyLockoutWindow newlyLocked .key)

def handleFailure (env : Environment) (name : String) (note : Option String) (perKey : Bool) :
    VaultProgram Unit := do
  let keyThreshold := if perKey then env.config.keyLockoutThreshold else 0
  let counts ← recordFailure name (decide (keyThreshold > 0))
  notify (.decryptionFailure name counts.inWindow counts.windowElapsed (note.getD ""))
  applyVaultThreshold env name counts
  applyKeyThreshold env name keyThreshold counts

def reportFailure (env : Environment) (name : String) (note : Option String) :
    VaultProgram Unit :=
  handleFailure env name note true

def reportAnomalousAccess (name : String) (note : Option String) : VaultProgram Unit :=
  notify (.anomalousAccess name (note.getD ""))

def fragment (env : Environment) (os : OsAnswers) (key : Bytes) (rng : Rng) :
    VaultProgram (Result Fragments) := do
  if ← isLockedOut then
    return fail .lockedOut
  match fragmentPipeline env os key rng with
  | .error exit => return .error exit
  | .ok (fragments, _) =>
      emitAudit env "" .oneShotFragment ""
      return .ok fragments

/-- The codex is undone with `codex_apply`, as in the source. -/
def defragment (env : Environment) (fragments : Fragments) : VaultProgram (Result Bytes) := do
  if ← isLockedOut then
    return fail .lockedOut
  match env.fragmenter.defragment fragments with
  | .error exit => return .error exit
  | .ok encoded =>
      let decoded := match env.codex with
        | some codex => codexApply codex encoded
        | none => encoded
      emitAudit env "" .oneShotDefragment ""
      return .ok decoded

/-- `char::escape_debug` inside a string. Of the characters it writes as code
points only the control characters are covered. -/
def escapeDebug (c : Char) : List Char :=
  if c = '\x00' then ['\\', '0']
  else if c = '\t' then ['\\', 't']
  else if c = '\r' then ['\\', 'r']
  else if c = '\n' then ['\\', 'n']
  else if c = '"' ∨ c = '\\' then ['\\', c]
  else if c.toNat < 32 ∨ (127 ≤ c.toNat ∧ c.toNat < 160) then
    ['\\', 'u', '\x7b'] ++ Nat.toDigits 16 c.toNat ++ ['\x7d']
  else [c]

def debugFormat (text : String) : String :=
  String.ofList ('"' :: text.toList.flatMap escapeDebug ++ ['"'])

def duplicateName (name : String) : Error :=
  .invalidConfig ("key name " ++ debugFormat name ++ " is already registered")

/-- The second half of `register`, after the early checks. -/
def installKey (env : Environment) (name : String) (keyLen : Nat) (fragments : Fragments) :
    VaultProgram (Result KeyId) := do
  let handle ← allocateHandle
  let registered ← readUnixTime
  if ← insertKey handle ⟨name, fragments, ⟨registered, keyLen, none⟩⟩ then
    emitAudit env name .register ""
    return .ok handle
  else
    return fail (duplicateName name)

def register (env : Environment) (name : String) (key : Bytes) (rng : Rng) (os : OsAnswers) :
    VaultProgram (Result KeyId) := do
  if ← isLockedOut then
    return fail .lockedOut
  if (← loadKeys).hasName name then
    return fail (duplicateName name)
  match fragmentForRegistry env os key rng with
  | .error exit => return .error exit
  | .ok fragments => installKey env name key.length fragments

def unregister (env : Environment) (handle : KeyId) : VaultProgram (Result Unit) := do
  match ← removeKey handle with
  | none => return fail .keyNotFound
  | some name =>
      emitAudit env name .unregister ""
      return .ok ()

/-- The rest of `with_key` once the lockout checks have passed. -/
def readEntry {α : Type} (env : Environment) (entry : KeyEntry) (opens : Bool)
    (scratch : Bytes) (f : Bytes → α) : VaultProgram (Result α) := do
  match (readKey env entry.fragments opens scratch f).1 with
  | .error exit => return .error exit
  | .ok result =>
      emitAudit env entry.name .read ""
      return .ok result

def withKey {α : Type} (env : Environment) (handle : KeyId) (opens : Bool) (scratch : Bytes)
    (f : Bytes → α) : VaultProgram (Result α) := do
  if ← isLockedOut then
    return fail .lockedOut
  let snapshot ← loadKeys
  match snapshot.lookup handle with
  | none => return fail .keyNotFound
  | some entry =>
      if ← keyLocked entry.name then
        return fail .lockedOut
      readEntry env entry opens scratch f

/-- The second half of `rotate`, after the early checks. -/
def swapKey (env : Environment) (handle : KeyId) (keyLen : Nat) (fragments : Fragments) :
    VaultProgram (Result Unit) := do
  let registered ← readUnixTime
  match ← replaceKey handle fragments ⟨registered, keyLen, none⟩ with
  | none => return fail .keyNotFound
  | some name =>
      emitAudit env name .rotate ""
      return .ok ()

def rotate (env : Environment) (handle : KeyId) (key : Bytes) (rng : Rng) (os : OsAnswers) :
    VaultProgram (Result Unit) := do
  if ← isLockedOut then
    return fail .lockedOut
  let snapshot ← loadKeys
  match snapshot.lookup handle with
  | none => return fail .keyNotFound
  | some entry =>
      if ← keyLocked entry.name then
        return fail .lockedOut
      match fragmentForRegistry env os key rng with
      | .error exit => return .error exit
      | .ok fragments => swapKey env handle key.length fragments

/-- The checks that `with_key` and `rotate` begin with, and what follows them. -/
def checkedThen {α : Type} (handle : KeyId) (rest : KeyEntry → VaultProgram (Result α)) :
    VaultProgram (Result α) := do
  if ← isLockedOut then
    return fail .lockedOut
  let snapshot ← loadKeys
  match snapshot.lookup handle with
  | none => return fail .keyNotFound
  | some entry =>
      if ← keyLocked entry.name then
        return fail .lockedOut
      rest entry

theorem withKey_checkedThen {α : Type} (env : Environment) (handle : KeyId) (opens : Bool)
    (scratch : Bytes) (f : Bytes → α) : withKey env handle opens scratch f =
      checkedThen handle fun entry => readEntry env entry opens scratch f := rfl

theorem rotate_checkedThen (env : Environment) (handle : KeyId) (key : Bytes) (rng : Rng)
    (os : OsAnswers) : rotate env handle key rng os =
      checkedThen handle fun _ =>
        match fragmentForRegistry env os key rng with
        | .error exit => return .error exit
        | .ok fragments => swapKey env handle key.length fragments := rfl

def unlockWithMaster (env : Environment) (attempt : Bytes) (opens : Bool) :
    VaultProgram (Result Unit) := do
  match env.master with
  | none => return fail (.invalidConfig
      "vault has no master key registered; pass with_master_key at build time")
  | some verifier =>
      match ← attemptMaster verifier attempt opens with
      | .refused exit => return .error exit
      | .checked matched =>
          emitAudit env masterName (.masterUnlockAttempt matched) ""
          if matched then
            clearLockout
            return .ok ()
          else
            handleFailure env masterName (some "invalid master credential") false
            return fail (.acquisition "master" "master credential did not match")

/-! ### Calls made one at a time -/

def runAlone {α : Type} (env : Environment) (p : VaultProgram α) (v : Vault) :
    Option (α × Vault) :=
  Program.run (S := vaultSignature) (Vault.perform env) p v

section RunAlone

variable {α β : Type} (env : Environment) (v : Vault)

@[simp] theorem runAlone_pure (value : α) :
    runAlone env (pure value : VaultProgram α) v = some (value, v) := rfl

@[simp] theorem runAlone_bind (p : VaultProgram α) (f : α → VaultProgram β) :
    runAlone env (p >>= f) v =
      (runAlone env p v).bind fun out => runAlone env (f out.1) out.2 :=
  Program.run_bind p f v

@[simp] theorem runAlone_loadLockedOut :
    runAlone env loadLockedOut v = some (v.lockedOut, v) := rfl

@[simp] theorem runAlone_swapLockedOut :
    runAlone env swapLockedOut v = some (v.lockedOut, { v with lockedOut := true }) := rfl

@[simp] theorem runAlone_storeUnlocked :
    runAlone env storeUnlocked v = some ((), { v with lockedOut := false }) := rfl

@[simp] theorem runAlone_loadKeys : runAlone env loadKeys v = some (v.keys, v) := rfl

@[simp] theorem runAlone_readClock : runAlone env readClock v = some (v.clock, v) := rfl

@[simp] theorem runAlone_readUnixTime :
    runAlone env readUnixTime v = some (v.unixTime, v) := rfl

@[simp] theorem runAlone_trackFailure (name : String) (now : Duration) (perKey : Bool) :
    runAlone env (trackFailure name now perKey) v =
      some (v.trackFailure env name now perKey) := rfl

@[simp] theorem runAlone_forgetFailures (name : String) :
    runAlone env (forgetFailures name) v =
      some ((), { v with failureTracker := v.failureTracker.erase name }) := rfl

@[simp] theorem runAlone_clearFailures :
    runAlone env clearFailures v = some ((), { v with failureTracker := ∅ }) := rfl

@[simp] theorem runAlone_loadKeyLocksActive :
    runAlone env loadKeyLocksActive v = some (v.keyLocksActive, v) := rfl

@[simp] theorem runAlone_subKeyLocksActive :
    runAlone env subKeyLocksActive v =
      some ((), { v with keyLocksActive := Vault.fetchSub env v.keyLocksActive }) := rfl

@[simp] theorem runAlone_lockKey (name : String) (deadline : Option Duration) :
    runAlone env (lockKey name deadline) v = v.lockKey env name deadline := by
  show (v.lockKey env name deadline).bind _ = _
  cases v.lockKey env name deadline <;> rfl

@[simp] theorem runAlone_unlockKey (name : String) :
    runAlone env (unlockKey name) v =
      some (decide (name ∈ v.keyLocks), { v with keyLocks := v.keyLocks.erase name }) := rfl

@[simp] theorem runAlone_clearKeyLocks :
    runAlone env clearKeyLocks v = some ((), { v with keyLocks := ∅, keyLocksActive := 0 }) :=
  rfl

@[simp] theorem runAlone_keyLockedSlow (name : String) :
    runAlone env (keyLockedSlow name) v = some (v.keyLockedSlow env name) := rfl

@[simp] theorem runAlone_attemptMaster (verifier : MasterVerifier) (attempt : Bytes)
    (opens : Bool) : runAlone env (attemptMaster verifier attempt opens) v =
      some (v.attemptMaster env verifier attempt opens) := rfl

@[simp] theorem runAlone_allocateHandle :
    runAlone env allocateHandle v =
      some (keyIdAfter v.handleCounter, { v with handleCounter := v.handleCounter + 1 }) := rfl

@[simp] theorem runAlone_insertKey (id : KeyId) (entry : KeyEntry) :
    runAlone env (insertKey id entry) v = some (v.insertKey id entry) := rfl

@[simp] theorem runAlone_removeKey (id : KeyId) :
    runAlone env (removeKey id) v = some (v.removeKey id) := rfl

@[simp] theorem runAlone_notify (event : MonitorEvent) :
    runAlone env (notify event) v =
      some ((), { v with monitorEvents := v.monitorEvents ++ [event] }) := rfl

@[simp] theorem runAlone_recordAudit (keyName : String) (kind : AccessKind) (note : String) :
    runAlone env (recordAudit keyName kind note) v =
      some ((), { v with auditTrail := v.auditTrail ++ [⟨v.unixTime, keyName, kind, note⟩] }) :=
  rfl

end RunAlone

/-! ### Requests -/

inductive Request where
  | register (name : String) (key : Bytes) (rng : Rng) (os : OsAnswers)
  | unregister (handle : KeyId)
  | withKey (handle : KeyId) (opens : Bool) (scratch : Bytes)
  | rotate (handle : KeyId) (key : Bytes) (rng : Rng) (os : OsAnswers)
  | reportFailure (name : String) (note : Option String)
  | reportAnomalousAccess (name : String) (note : Option String)
  | clearKeyLockout (name : String)
  | clearLockout
  | unlockWithMaster (attempt : Bytes) (opens : Bool)
  | isLockedOut
  | isKeyLockedOut (handle : KeyId)
  | fragment (key : Bytes) (rng : Rng) (os : OsAnswers)
  | defragment (fragments : Fragments)

inductive Response where
  | handle (result : Result KeyId)
  | status (result : Result Unit)
  /-- The bytes the callback of `with_key` got, or the key `defragment` returned. -/
  | material (result : Result Bytes)
  | fragments (result : Result Fragments)
  | flag (value : Bool)
  | unit
deriving DecidableEq

/-- The program of a request. The callback of `with_key` hands back the bytes it
was given, so that the response says what it saw. -/
def Request.program (env : Environment) : Request → VaultProgram Response
  | .register name key rng os => return .handle (← KeyVault.register env name key rng os)
  | .unregister handle => return .status (← KeyVault.unregister env handle)
  | .withKey handle opens scratch =>
      return .material (← KeyVault.withKey env handle opens scratch id)
  | .rotate handle key rng os => return .status (← KeyVault.rotate env handle key rng os)
  | .reportFailure name note => do
      KeyVault.reportFailure env name note
      return .unit
  | .reportAnomalousAccess name note => do
      KeyVault.reportAnomalousAccess name note
      return .unit
  | .clearKeyLockout name => return .flag (← KeyVault.clearKeyLockout name)
  | .clearLockout => do
      KeyVault.clearLockout
      return .unit
  | .unlockWithMaster attempt opens =>
      return .status (← KeyVault.unlockWithMaster env attempt opens)
  | .isLockedOut => return .flag (← KeyVault.isLockedOut)
  | .isKeyLockedOut handle => return .flag (← KeyVault.isKeyLockedOut handle)
  | .fragment key rng os => return .fragments (← KeyVault.fragment env os key rng)
  | .defragment fragments => return .material (← KeyVault.defragment env fragments)

def vaultMachine (env : Environment) :
    Machine vaultSignature Vault Request Response Surroundings where
  perform := Vault.perform env
  program := Request.program env
  external := Surroundings.act

abbrev VaultConfiguration := Config vaultSignature Vault Request Response

end KeyVault
