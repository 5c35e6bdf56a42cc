import KeyVault.Interleaving
import KeyVault.StandardFragmenter
import Mathlib.Data.List.AList
import Mathlib.Data.Vector.Basic

/-! The vault's configuration, its shared mutable state, and the atomic steps on
that state: every mutex critical section and every single load, store, swap or
fetch of an atomic is one operation. -/
namespace KeyVault

open Interleaving

def masterName : String := "<master>"

/-- The configuration fields that vault operations read. -/
structure VaultConfig where
  maxFailuresBeforeLockout : UInt32 := 0
  failureWindow : Duration := Duration.fromSecs 60
  keyLockoutThreshold : UInt32 := 0
  keyLockoutWindow : Duration := Duration.fromSecs 60
  keyLockoutDuration : Option Duration := none
  masterBackoffBase : Duration := 0
  masterBackoffMax : Duration := 0
  pageProtection : Bool := false

structure Codex where
  encode : UInt8 → UInt8
  decode : UInt8 → UInt8

structure SecretBytes where
  fragments : Fragments

def SecretBytes.new (bytes : Bytes) (protect : Bool) (os : OsAnswers) : Result SecretBytes :=
  let fragments := Fragments.fromParts [bytes] [] bytes.length
  if protect then (fragments.intoProtected os).map SecretBytes.mk
  else .ok ⟨fragments⟩

def SecretBytes.read (secret : SecretBytes) (opens : Bool) : Result Bytes := do
  secret.fragments.open opens
  return (secret.fragments.chunk 0).getD []

inductive Normalizer where
  | off
  | plain
  | keyed (secret : SecretBytes)
  | unavailable (reason : String)

inductive MasterVerifier where
  | ready (secret : SecretBytes)
  | unavailable (reason : String)

abbrev Digest := Vector UInt8 32

/-- What a vault is built from and never changes. BLAKE3 is a pair of arbitrary
functions, and `usizeBits` is the width of the lockout counter. -/
structure Environment where
  config : VaultConfig
  fragmenter : FragmentStrategy
  normalizer : Normalizer
  codex : Option Codex
  master : Option MasterVerifier
  auditIsNoOp : Bool
  blake3 : Bytes → Digest
  blake3Keyed : Digest → Bytes → Digest
  usizeBits : Nat

/-- A vault on a 64-bit target with normalization switched off and everything
else the builder's default: BLAKE3 is never called. -/
def Environment.plain (config : VaultConfig) : Environment where
  config := config
  fragmenter := StandardFragmenter.new.strategy
  normalizer := .off
  codex := none
  master := none
  auditIsNoOp := true
  blake3 := fun _ => Vector.replicate 32 0
  blake3Keyed := fun _ _ => Vector.replicate 32 0
  usizeBits := 64

inductive AlgorithmHint where
  | symmetric128 | symmetric256 | ed25519 | x25519 | p256 | p384
  | rsa2048 | rsa3072 | rsa4096 | hmac | other
deriving DecidableEq, Repr

structure KeyMetadata where
  registeredSinceEpoch : Duration
  length : Nat
  algorithm : Option AlgorithmHint
deriving DecidableEq, Repr

structure KeyEntry where
  name : String
  fragments : Fragments
  metadata : KeyMetadata
deriving DecidableEq, Repr

/-- A handle is its 64-bit identifier. -/
abbrev KeyId := Nat

abbrev KeyMap := AList fun _ : KeyId => KeyEntry

/-- `values().any(|e| e.name == name)`. -/
def KeyMap.hasName (keys : KeyMap) (name : String) : Bool :=
  keys.entries.any fun entry => entry.2.name == name

inductive LockoutScope where
  | vault
  | key
deriving DecidableEq, Repr

inductive MonitorEvent where
  | decryptionFailure (keyName : String) (consecutiveFailures : UInt32)
      (windowElapsed : Duration) (note : String)
  | thresholdBreach (keyName : String) (failuresInWindow : UInt32) (window : Duration)
      (lockoutTriggered : Bool) (scope : LockoutScope)
  | anomalousAccess (keyName note : String)
deriving DecidableEq, Repr

def MonitorEvent.keyName : MonitorEvent → String
  | .decryptionFailure keyName _ _ _ | .thresholdBreach keyName _ _ _ _
  | .anomalousAccess keyName _ => keyName

inductive AccessKind where
  | register | unregister | read | rotate | oneShotFragment | oneShotDefragment
  | masterUnlockAttempt (matched : Bool)
deriving DecidableEq, Repr

structure AuditEvent where
  timestamp : Duration
  keyName : String
  kind : AccessKind
  note : String
deriving DecidableEq, Repr

structure Backoff where
  failures : Nat := 0
  nextAllowed : Duration := 0
deriving DecidableEq, Repr

structure FailureCounts where
  inWindow : UInt32
  inKeyWindow : UInt32
  windowElapsed : Duration
deriving DecidableEq, Repr

/-- Everything the calls share: the fields of the vault that change, what its
clock shows, the process-wide handle counter (the number of handles allocated so
far), and what the monitor and the audit sink have received. -/
structure Vault where
  clock : Duration
  unixTime : Duration
  keys : KeyMap
  failureTracker : AList fun _ : String => List Duration
  lockedOut : Bool
  keyLocks : AList fun _ : String => Option Duration
  keyLocksActive : Nat
  masterBackoff : Backoff
  handleCounter : Nat
  monitorEvents : List MonitorEvent
  auditTrail : List AuditEvent

def Vault.new (clock unixTime : Duration) (handles : Nat) : Vault where
  clock := clock
  unixTime := unixTime
  keys := ∅
  failureTracker := ∅
  lockedOut := false
  keyLocks := ∅
  keyLocksActive := 0
  masterBackoff := {}
  handleCounter := handles
  monitorEvents := []
  auditTrail := []

section Lookup

variable {α ν : Type} [DecidableEq α]

theorem lookup_insert_eq_update (map : AList fun _ : α => ν) (name : α) (value : ν) :
    (fun other => (map.insert name value).lookup other) =
      Function.update (fun other => map.lookup other) name (some value) := by
  funext other
  by_cases h : other = name
  · subst h
    rw [AList.lookup_insert, Function.update_self]
  · rw [AList.lookup_insert_ne h, Function.update_of_ne h]

theorem lookup_erase_eq_update (map : AList fun _ : α => ν) (name : α) :
    (fun other => (map.erase name).lookup other) =
      Function.update (fun other => map.lookup other) name none := by
  funext other
  by_cases h : other = name
  · subst h
    rw [AList.lookup_erase, Function.update_self]
  · rw [AList.lookup_erase_ne h, Function.update_of_ne h]

end Lookup

abbrev mapLen {ν : Type} (map : AList fun _ : String => ν) : Nat := map.keys.length

@[simp] theorem mapLen_empty {ν : Type} : mapLen (∅ : AList fun _ : String => ν) = 0 := rfl

theorem mapLen_insert_of_mem {ν : Type} {map : AList fun _ : String => ν} {name : String}
    (h : name ∈ map) (value : ν) : mapLen (map.insert name value) = mapLen map := by
  have hkeys : name ∈ map.keys := AList.mem_keys.mp h
  have hpos := List.length_pos_of_mem hkeys
  simp only [mapLen, AList.keys_insert, List.length_cons, List.length_erase_of_mem hkeys]
  omega

theorem mapLen_insert_of_notMem {ν : Type} {map : AList fun _ : String => ν} {name : String}
    (h : name ∉ map) (value : ν) : mapLen (map.insert name value) = mapLen map + 1 := by
  have hkeys : name ∉ map.keys := fun hmem => h (AList.mem_keys.mpr hmem)
  simp only [mapLen, AList.keys_insert, List.length_cons, List.erase_of_not_mem hkeys]

theorem mapLen_erase_of_mem {ν : Type} {map : AList fun _ : String => ν} {name : String}
    (h : name ∈ map) : mapLen (map.erase name) + 1 = mapLen map := by
  have hkeys : name ∈ map.keys := AList.mem_keys.mp h
  have hpos := List.length_pos_of_mem hkeys
  simp only [mapLen, AList.keys_erase, List.length_erase_of_mem hkeys]
  omega

theorem mapLen_erase_of_notMem {ν : Type} {map : AList fun _ : String => ν} {name : String}
    (h : name ∉ map) : mapLen (map.erase name) = mapLen map := by
  have hkeys : name ∉ map.keys := fun hmem => h (AList.mem_keys.mpr hmem)
  simp only [mapLen, AList.keys_erase, List.erase_of_not_mem hkeys]

theorem mapLen_erase {ν : Type} (map : AList fun _ : String => ν) (name : String) :
    mapLen (map.erase name) + (decide (name ∈ map)).toNat = mapLen map := by
  by_cases h : name ∈ map
  · simp only [h, decide_true, Bool.toNat_true]
    exact mapLen_erase_of_mem h
  · simp only [h, decide_false, Bool.toNat_false, Nat.add_zero]
    exact mapLen_erase_of_notMem h

/-- The identifier made from the `allocated`-th value of the counter, which
starts at 1; a wrapped 0 is replaced by 1. -/
def keyIdAfter (allocated : Nat) : KeyId :=
  let raw := (1 + allocated) % 2 ^ 64
  if raw = 0 then 1 else raw

/-- Remove entries from the front while they are older than `keep`. -/
def evict (now keep : Duration) (entries : List Duration) : List Duration :=
  entries.dropWhile fun front => decide (keep < now.saturatingSub front)

def countWithin (now window : Duration) (entries : List Duration) : UInt32 :=
  let n := (entries.filter fun t => decide (now.saturatingSub t ≤ window)).length
  if n ≤ u32Max then UInt32.ofNat n else UInt32.ofNat u32Max

/-- The `failure_tracker` critical section of `record_failure`, on one name's
entries: the entries afterwards and the counts. -/
def recordEntries (config : VaultConfig) (now : Duration) (perKey : Bool)
    (entries : List Duration) : List Duration × FailureCounts :=
  let keep := if perKey then max config.failureWindow config.keyLockoutWindow
    else config.failureWindow
  let entries := evict now keep entries ++ [now]
  let oldest := (entries.find? fun t =>
    decide (now.saturatingSub t ≤ config.failureWindow)).getD now
  (entries,
    { inWindow := countWithin now config.failureWindow entries
      inKeyWindow := if perKey then countWithin now config.keyLockoutWindow entries else 0
      windowElapsed := now.saturatingSub oldest })

/-- `base * 2^(failures - 1)`, capped at the configured maximum. -/
def backoffDelay (config : VaultConfig) (failures : Nat) : Duration :=
  if config.masterBackoffBase = 0 then 0
  else
    let shift := min (failures - 1) 31
    min ((Duration.checkedMul config.masterBackoffBase (1 <<< shift)).getD
      config.masterBackoffMax) config.masterBackoffMax

def splitFirstChunk (bytes : Bytes) : Option (Digest × Bytes) :=
  if h : 32 ≤ bytes.length then
    some (⟨(bytes.take 32).toArray, by simp; omega⟩, bytes.drop 32)
  else none

/-- Compare an attempt with the stored hash key and digest. -/
def verifyMaster (env : Environment) (stored attempt : Bytes) : Bool :=
  match splitFirstChunk stored with
  | none => false
  | some (hashKey, digest) => digest == (env.blake3Keyed hashKey attempt).toList

/-- How the `master_backoff` critical section of an attempt ends. -/
inductive MasterAttempt where
  | refused (exit : Exit)
  | checked (matched : Bool)
deriving DecidableEq, Repr

inductive VaultOp where
  | loadLockedOut
  | swapLockedOut
  | storeUnlocked
  | loadKeys
  | readClock
  | readUnixTime
  | trackFailure (name : String) (now : Duration) (perKey : Bool)
  | forgetFailures (name : String)
  | clearFailures
  | loadKeyLocksActive
  | subKeyLocksActive
  | lockKey (name : String) (deadline : Option Duration)
  | unlockKey (name : String)
  | clearKeyLocks
  | keyLockedSlow (name : String)
  | attemptMaster (verifier : MasterVerifier) (attempt : Bytes) (opens : Bool)
  | allocateHandle
  | insertKey (id : KeyId) (entry : KeyEntry)
  | removeKey (id : KeyId)
  | replaceKey (id : KeyId) (fragments : Fragments) (metadata : KeyMetadata)
  | notify (event : MonitorEvent)
  | emitAudit (keyName : String) (kind : AccessKind) (note : String)

def VaultOp.Ret : VaultOp → Type
  | .loadLockedOut | .swapLockedOut => Bool
  | .loadKeys => KeyMap
  | .readClock | .readUnixTime => Duration
  | .trackFailure _ _ _ => FailureCounts
  | .loadKeyLocksActive => Nat
  | .lockKey _ _ | .unlockKey _ | .keyLockedSlow _ => Bool
  | .attemptMaster _ _ _ => MasterAttempt
  | .allocateHandle => KeyId
  | .insertKey _ _ => Bool
  | .removeKey _ | .replaceKey _ _ _ => Option String
  | .storeUnlocked | .forgetFailures _ | .clearFailures | .subKeyLocksActive
  | .clearKeyLocks | .notify _ | .emitAudit _ _ _ => Unit

inductive Part where
  | keys | lockedOut | failureTracker | keyLocks | handleCounter | masterBackoff
deriving DecidableEq

def VaultOp.writes : VaultOp → Part → Bool
  | .insertKey _ _, .keys | .removeKey _, .keys | .replaceKey _ _ _, .keys => true
  | .swapLockedOut, .lockedOut | .storeUnlocked, .lockedOut => true
  | .trackFailure _ _ _, .failureTracker | .forgetFailures _, .failureTracker
  | .clearFailures, .failureTracker | .keyLockedSlow _, .failureTracker => true
  | .lockKey _ _, .keyLocks | .unlockKey _, .keyLocks | .clearKeyLocks, .keyLocks
  | .keyLockedSlow _, .keyLocks | .subKeyLocksActive, .keyLocks => true
  | .allocateHandle, .handleCounter => true
  | .attemptMaster _ _ _, .masterBackoff => true
  | _, _ => false

def AuditEvent.line (event : AuditEvent) : String × AccessKind := (event.keyName, event.kind)

def VaultOp.notices : VaultOp → List MonitorEvent
  | .notify event => [event]
  | _ => []

def VaultOp.audits : VaultOp → List (String × AccessKind)
  | .emitAudit keyName kind _ => [(keyName, kind)]
  | _ => []

abbrev vaultSignature : Signature := ⟨VaultOp, VaultOp.Ret⟩

abbrev VaultProgram := Program vaultSignature

namespace Vault

variable (env : Environment)

/-- `fetch_add(1)` on a `usize`. -/
def fetchAdd (active : Nat) : Nat := (active + 1) % 2 ^ env.usizeBits

/-- `fetch_sub(1)` on a `usize`, which wraps below zero. -/
def fetchSub (active : Nat) : Nat := (active + (2 ^ env.usizeBits - 1)) % 2 ^ env.usizeBits

def trackFailure (v : Vault) (name : String) (now : Duration) (perKey : Bool) :
    FailureCounts × Vault :=
  let out := recordEntries env.config now perKey ((v.failureTracker.lookup name).getD [])
  (out.2, { v with failureTracker := v.failureTracker.insert name out.1 })

/-- `key_locks.insert` with the counter kept under the same lock. A map of
`usize::MAX` entries cannot grow: its allocation aborts the process. -/
def lockKey (v : Vault) (name : String) (deadline : Option Duration) : Option (Bool × Vault) :=
  let keyLocks := v.keyLocks.insert name deadline
  if name ∈ v.keyLocks then some (false, { v with keyLocks := keyLocks })
  else if mapLen v.keyLocks + 1 < 2 ^ env.usizeBits then
    some (true, { v with
      keyLocks := keyLocks
      keyLocksActive := fetchAdd env v.keyLocksActive })
  else none

/-- The slow half of `key_locked`; an expired lockout is removed together with
the failures recorded for its name. -/
def keyLockedSlow (v : Vault) (name : String) : Bool × Vault :=
  match v.keyLocks.lookup name with
  | none => (false, v)
  | some none => (true, v)
  | some (some deadline) =>
      if v.clock < deadline then (true, v)
      else
        (false, { v with
          keyLocks := v.keyLocks.erase name
          keyLocksActive := fetchSub env v.keyLocksActive
          failureTracker := v.failureTracker.erase name })

def attemptMaster (v : Vault) (verifier : MasterVerifier) (attempt : Bytes) (opens : Bool) :
    MasterAttempt × Vault :=
  let now := v.clock
  if now < v.masterBackoff.nextAllowed then
    (.refused (.error (.rateLimited (v.masterBackoff.nextAllowed.saturatingSub now))), v)
  else
    match verifier with
    | .unavailable reason => (.refused (.error (.internal reason)), v)
    | .ready secret =>
        match secret.read opens with
        | .error exit => (.refused exit, v)
        | .ok stored =>
            if verifyMaster env stored attempt then
              (.checked true, { v with masterBackoff := {} })
            else
              let failures := min (v.masterBackoff.failures + 1) u32Max
              (.checked false, { v with
                masterBackoff :=
                  ⟨failures, now.saturatingAdd (backoffDelay env.config failures)⟩ })

/-- The writer-lock critical section of `register`. -/
def insertKey (v : Vault) (id : KeyId) (entry : KeyEntry) : Bool × Vault :=
  if v.keys.hasName entry.name then (false, v)
  else (true, { v with keys := v.keys.insert id entry })

/-- The writer-lock critical section of `unregister`. -/
def removeKey (v : Vault) (id : KeyId) : Option String × Vault :=
  match v.keys.lookup id with
  | none => (none, v)
  | some entry => (some entry.name, { v with keys := v.keys.erase id })

/-- The writer-lock critical section of `rotate`. -/
def replaceKey (v : Vault) (id : KeyId) (fragments : Fragments) (metadata : KeyMetadata) :
    Option String × Vault :=
  match v.keys.lookup id with
  | none => (none, v)
  | some entry =>
      (some entry.name, { v with
        keys := v.keys.insert id { entry with fragments := fragments, metadata := metadata } })

def perform : (op : VaultOp) → Vault → Option (op.Ret × Vault)
  | .loadLockedOut, v => some (v.lockedOut, v)
  | .swapLockedOut, v => some (v.lockedOut, { v with lockedOut := true })
  | .storeUnlocked, v => some ((), { v with lockedOut := false })
  | .loadKeys, v => some (v.keys, v)
  | .readClock, v => some (v.clock, v)
  | .readUnixTime, v => some (v.unixTime, v)
  | .trackFailure name now perKey, v => some (v.trackFailure env name now perKey)
  | .forgetFailures name, v =>
      some ((), { v with failureTracker := v.failureTracker.erase name })
  | .clearFailures, v => some ((), { v with failureTracker := ∅ })
  | .loadKeyLocksActive, v => some (v.keyLocksActive, v)
  | .subKeyLocksActive, v =>
      some ((), { v with keyLocksActive := fetchSub env v.keyLocksActive })
  | .lockKey name deadline, v => v.lockKey env name deadline
  | .unlockKey name, v =>
      some (decide (name ∈ v.keyLocks), { v with keyLocks := v.keyLocks.erase name })
  | .clearKeyLocks, v => some ((), { v with keyLocks := ∅, keyLocksActive := 0 })
  | .keyLockedSlow name, v => some (v.keyLockedSlow env name)
  | .attemptMaster verifier attempt opens, v => some (v.attemptMaster env verifier attempt opens)
  | .allocateHandle, v =>
      some (keyIdAfter v.handleCounter, { v with handleCounter := v.handleCounter + 1 })
  | .insertKey id entry, v => some (v.insertKey id entry)
  | .removeKey id, v => some (v.removeKey id)
  | .replaceKey id fragments metadata, v => some (v.replaceKey id fragments metadata)
  | .notify event, v => some ((), { v with monitorEvents := v.monitorEvents ++ [event] })
  | .emitAudit keyName kind note, v =>
      some ((), { v with auditTrail := v.auditTrail ++ [⟨v.unixTime, keyName, kind, note⟩] })

/-! Each helper touches only the fields named here. -/

theorem insertKey_frame (v : Vault) (id : KeyId) (entry : KeyEntry) :
    ∃ keys, (v.insertKey id entry).2 = { v with keys := keys } := by
  unfold insertKey
  split
  · exact ⟨v.keys, rfl⟩
  · exact ⟨_, rfl⟩

theorem removeKey_frame (v : Vault) (id : KeyId) :
    ∃ keys, (v.removeKey id).2 = { v with keys := keys } := by
  unfold removeKey
  split
  · exact ⟨v.keys, rfl⟩
  · exact ⟨_, rfl⟩

theorem replaceKey_frame (v : Vault) (id : KeyId) (fragments : Fragments)
    (metadata : KeyMetadata) :
    ∃ keys, (v.replaceKey id fragments metadata).2 = { v with keys := keys } := by
  unfold replaceKey
  split
  · exact ⟨v.keys, rfl⟩
  · exact ⟨_, rfl⟩

theorem attemptMaster_frame (v : Vault) (verifier : MasterVerifier) (attempt : Bytes)
    (opens : Bool) :
    ∃ backoff, (v.attemptMaster env verifier attempt opens).2 =
      { v with masterBackoff := backoff } := by
  unfold attemptMaster
  dsimp only
  repeat' split
  all_goals first | exact ⟨v.masterBackoff, rfl⟩ | exact ⟨_, rfl⟩

theorem keyLockedSlow_frame (v : Vault) (name : String) :
    ∃ keyLocks active tracker, (v.keyLockedSlow env name).2 =
      { v with keyLocks := keyLocks, keyLocksActive := active, failureTracker := tracker } := by
  unfold keyLockedSlow
  repeat' split
  all_goals first
    | exact ⟨v.keyLocks, v.keyLocksActive, v.failureTracker, rfl⟩
    | exact ⟨_, _, _, rfl⟩

/-- `op` leaves every part of the state it does not write as it was. -/
structure Frame (op : VaultOp) (v v' : Vault) : Prop where
  clock : v'.clock = v.clock
  keys : op.writes .keys = false → v'.keys = v.keys
  lockedOut : op.writes .lockedOut = false → v'.lockedOut = v.lockedOut
  failureTracker : op.writes .failureTracker = false → v'.failureTracker = v.failureTracker
  keyLocks : op.writes .keyLocks = false →
    v'.keyLocks = v.keyLocks ∧ v'.keyLocksActive = v.keyLocksActive
  handleCounter : op.writes .handleCounter = false → v'.handleCounter = v.handleCounter
  masterBackoff : op.writes .masterBackoff = false → v'.masterBackoff = v.masterBackoff

theorem lockKey_frame {v v' : Vault} {name : String} {deadline : Option Duration} {newly : Bool}
    (h : v.lockKey env name deadline = some (newly, v')) :
    ∃ keyLocks active, v' = { v with keyLocks := keyLocks, keyLocksActive := active } := by
  unfold lockKey at h
  dsimp only at h
  repeat' split at h
  all_goals cases h
  all_goals exact ⟨_, _, rfl⟩

theorem perform_frame {env : Environment} {op : VaultOp} {ret : op.Ret} {v v' : Vault}
    (h : perform env op v = some (ret, v')) : Frame op v v' := by
  cases op with
  | insertKey id entry =>
    obtain rfl : (v.insertKey id entry).2 = v' := congrArg Prod.snd (Option.some.inj h)
    obtain ⟨keys, hframe⟩ := v.insertKey_frame id entry
    rw [hframe]
    constructor <;> simp [VaultOp.writes]
  | removeKey id =>
    obtain rfl : (v.removeKey id).2 = v' := congrArg Prod.snd (Option.some.inj h)
    obtain ⟨keys, hframe⟩ := v.removeKey_frame id
    rw [hframe]
    constructor <;> simp [VaultOp.writes]
  | replaceKey id fragments metadata =>
    obtain rfl : (v.replaceKey id fragments metadata).2 = v' :=
      congrArg Prod.snd (Option.some.inj h)
    obtain ⟨keys, hframe⟩ := v.replaceKey_frame id fragments metadata
    rw [hframe]
    constructor <;> simp [VaultOp.writes]
  | attemptMaster verifier attempt opens =>
    obtain rfl : (v.attemptMaster env verifier attempt opens).2 = v' :=
      congrArg Prod.snd (Option.some.inj h)
    obtain ⟨backoff, hframe⟩ := v.attemptMaster_frame env verifier attempt opens
    rw [hframe]
    constructor <;> simp [VaultOp.writes]
  | keyLockedSlow name =>
    obtain rfl : (v.keyLockedSlow env name).2 = v' := congrArg Prod.snd (Option.some.inj h)
    obtain ⟨keyLocks, active, tracker, hframe⟩ := v.keyLockedSlow_frame env name
    rw [hframe]
    constructor <;> simp [VaultOp.writes]
  | lockKey name deadline =>
    obtain ⟨keyLocks, active, rfl⟩ := lockKey_frame env h
    constructor <;> simp [VaultOp.writes]
  | _ =>
    cases h
    constructor <;> simp [VaultOp.writes]

theorem perform_trails {env : Environment} {op : VaultOp} {ret : op.Ret} {v v' : Vault}
    (h : perform env op v = some (ret, v')) :
    v'.monitorEvents = v.monitorEvents ++ op.notices ∧
      v'.auditTrail.map AuditEvent.line = v.auditTrail.map AuditEvent.line ++ op.audits := by
  cases op with
  | insertKey id entry =>
    obtain rfl : (v.insertKey id entry).2 = v' := congrArg Prod.snd (Option.some.inj h)
    obtain ⟨keys, hframe⟩ := v.insertKey_frame id entry
    simp [hframe, VaultOp.notices, VaultOp.audits]
  | removeKey id =>
    obtain rfl : (v.removeKey id).2 = v' := congrArg Prod.snd (Option.some.inj h)
    obtain ⟨keys, hframe⟩ := v.removeKey_frame id
    simp [hframe, VaultOp.notices, VaultOp.audits]
  | replaceKey id fragments metadata =>
    obtain rfl : (v.replaceKey id fragments metadata).2 = v' :=
      congrArg Prod.snd (Option.some.inj h)
    obtain ⟨keys, hframe⟩ := v.replaceKey_frame id fragments metadata
    simp [hframe, VaultOp.notices, VaultOp.audits]
  | attemptMaster verifier attempt opens =>
    obtain rfl : (v.attemptMaster env verifier attempt opens).2 = v' :=
      congrArg Prod.snd (Option.some.inj h)
    obtain ⟨backoff, hframe⟩ := v.attemptMaster_frame env verifier attempt opens
    simp [hframe, VaultOp.notices, VaultOp.audits]
  | keyLockedSlow name =>
    obtain rfl : (v.keyLockedSlow env name).2 = v' := congrArg Prod.snd (Option.some.inj h)
    obtain ⟨keyLocks, active, tracker, hframe⟩ := v.keyLockedSlow_frame env name
    simp [hframe, VaultOp.notices, VaultOp.audits]
  | lockKey name deadline =>
    obtain ⟨keyLocks, active, rfl⟩ := lockKey_frame env h
    simp [VaultOp.notices, VaultOp.audits]
  | _ =>
    cases h
    simp [VaultOp.notices, VaultOp.audits, AuditEvent.line]

def UnderLockout (v : Vault) (name : String) : Prop :=
  ∃ deadline, v.keyLocks.lookup name = some deadline ∧ ∀ time ∈ deadline, v.clock < time

theorem keyLockedSlow_iff (v : Vault) (name : String) :
    (v.keyLockedSlow env name).1 = true ↔ v.UnderLockout name := by
  unfold keyLockedSlow UnderLockout
  cases v.keyLocks.lookup name with
  | none => simp
  | some deadline =>
    cases deadline with
    | none => simp
    | some stop => by_cases hbefore : v.clock < stop <;> simp [hbefore]

end Vault

/-! ### Names -/

def Vault.names (v : Vault) (id : KeyId) : Option String := (v.keys.lookup id).map (·.name)

theorem names_insert (v : Vault) (id : KeyId) (entry : KeyEntry) :
    (fun other => ((v.keys.insert id entry).lookup other).map (·.name)) =
      Function.update v.names id (some entry.name) := by
  show (Option.map (·.name)) ∘ (fun other => (v.keys.insert id entry).lookup other) = _
  rw [lookup_insert_eq_update, Function.comp_update]
  rfl

theorem names_erase (v : Vault) (id : KeyId) :
    (fun other => ((v.keys.erase id).lookup other).map (·.name)) =
      Function.update v.names id none := by
  show (Option.map (·.name)) ∘ (fun other => (v.keys.erase id).lookup other) = _
  rw [lookup_erase_eq_update, Function.comp_update]
  rfl

def VaultOp.renames : VaultOp → Bool
  | .insertKey _ _ | .removeKey _ => true
  | _ => false

theorem perform_names {env : Environment} {op : VaultOp} {ret : op.Ret} {v v' : Vault}
    (hop : op.renames = false) (h : Vault.perform env op v = some (ret, v')) :
    v'.names = v.names := by
  cases op with
  | insertKey id entry => cases hop
  | removeKey id => cases hop
  | replaceKey id fragments metadata =>
    obtain rfl : (v.replaceKey id fragments metadata).2 = v' :=
      congrArg Prod.snd (Option.some.inj h)
    unfold Vault.replaceKey
    cases hlookup : v.keys.lookup id with
    | none => rfl
    | some entry =>
      have hname : v.names id = some entry.name := by
        unfold Vault.names
        rw [hlookup]
        rfl
      refine (names_insert v id _).trans ?_
      rw [← hname]
      exact Function.update_eq_self ..
  | _ =>
    unfold Vault.names
    rw [(Vault.perform_frame h).keys rfl]

/-- What happens around the vault: its clock advances, the wall clock is set, or
another part of the process allocates a handle. -/
inductive Surroundings where
  | tick (now : Duration)
  | setUnixTime (time : Duration)
  | allocateHandle

def Surroundings.act : Surroundings → Vault → Option Vault
  | .tick now, v => if v.clock ≤ now then some { v with clock := now } else none
  | .setUnixTime time, v => some { v with unixTime := time }
  | .allocateHandle, v => some { v with handleCounter := v.handleCounter + 1 }

theorem Surroundings.act_frame {event : Surroundings} {v v' : Vault}
    (h : event.act v = some v') :
    ∃ clock unixTime handles, v.clock ≤ clock ∧ v.handleCounter ≤ handles ∧
      v' = { v with clock := clock, unixTime := unixTime, handleCounter := handles } := by
  cases event with
  | tick now =>
    simp only [act] at h
    split at h
    · rename_i hle
      cases h
      exact ⟨now, v.unixTime, v.handleCounter, hle, Nat.le_refl _, rfl⟩
    · cases h
  | setUnixTime time =>
    cases h
    exact ⟨v.clock, time, v.handleCounter, Nat.le_refl _, Nat.le_refl _, rfl⟩
  | allocateHandle =>
    cases h
    exact ⟨v.clock, v.unixTime, v.handleCounter + 1, Nat.le_refl _, Nat.le_succ _, rfl⟩

end KeyVault
