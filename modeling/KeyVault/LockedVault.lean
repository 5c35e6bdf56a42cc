import KeyVault.LockedSections
import KeyVault.VaultProgram

/-! The vault with its mutexes in sight. What is one atomic step of a vault call is here the
code between taking a mutex and giving it back, one access at a time, and a monitor or an
audit sink may call the vault again from its callback. -/
namespace KeyVault

open Interleaving

/-- The mutexes of a vault. `registry` is the one inside the registry cell of builds without
`std`; with `std` the registry is swapped without a lock. -/
inductive VaultLock where
  | writer | registry | masterBackoff | keyLocks | failureTracker
deriving DecidableEq

inductive SectionOp where
  | plain (op : VaultOp)
  | swapKeys (keys : KeyMap)
  | insertLock (name : String) (deadline : Option Duration)
  | addKeyLocksActive
  | getLock (name : String)
  | removeLock (name : String)
  | wipeLocks
  | storeNoLocks
  | loadBackoff
  | storeBackoff (backoff : Backoff)

def SectionOp.Ret : SectionOp → Type
  | .plain op => op.Ret
  | .swapKeys _ => KeyMap
  | .insertLock _ _ | .getLock _ => Option (Option Duration)
  | .loadBackoff => Backoff
  | .addKeyLocksActive | .removeLock _ | .wipeLocks | .storeNoLocks | .storeBackoff _ => Unit

abbrev sectionOps : Signature := ⟨SectionOp, SectionOp.Ret⟩

abbrev LockedProgram := Program (lockSignature VaultLock sectionOps)

/-- `locks.insert(name, until)`: the previous deadline. A map of `usize::MAX` entries cannot
grow. -/
def Vault.insertLock (env : Environment) (v : Vault) (name : String) (deadline : Option Duration) :
    Option (Option (Option Duration) × Vault) :=
  if name ∈ v.keyLocks ∨ mapLen v.keyLocks + 1 < 2 ^ env.usizeBits then
    some (v.keyLocks.lookup name, { v with keyLocks := v.keyLocks.insert name deadline })
  else none

def SectionOp.perform (env : Environment) :
    (op : SectionOp) → Vault → Option (op.Ret × Vault)
  | .plain op, v => Vault.perform env op v
  | .swapKeys keys, v => some (v.keys, { v with keys := keys })
  | .insertLock name deadline, v => v.insertLock env name deadline
  | .addKeyLocksActive, v =>
      some ((), { v with keyLocksActive := Vault.fetchAdd env v.keyLocksActive })
  | .getLock name, v => some (v.keyLocks.lookup name, v)
  | .removeLock name, v => some ((), { v with keyLocks := v.keyLocks.erase name })
  | .wipeLocks, v => some ((), { v with keyLocks := ∅ })
  | .storeNoLocks, v => some ((), { v with keyLocksActive := 0 })
  | .loadBackoff, v => some (v.masterBackoff, v)
  | .storeBackoff backoff, v => some ((), { v with masterBackoff := backoff })

/-! ### Critical sections -/

def accessOf (op : SectionOp) : LockedProgram op.Ret := access (S := sectionOps) op

def clockNow : LockedProgram Duration := accessOf (.plain .readClock)

def loadBackoff : LockedProgram Backoff := accessOf .loadBackoff

def loadRegistry : Bool → LockedProgram KeyMap
  | true => accessOf (.plain .loadKeys)
  | false => underLock .registry (accessOf (.plain .loadKeys))

def swapRegistry (std : Bool) (keys : KeyMap) : LockedProgram KeyMap :=
  match std with
  | true => accessOf (.swapKeys keys)
  | false => underLock .registry (accessOf (.swapKeys keys))

/-- What the three registry writers do under the writer lock: look at the current map and
swap in a new one, or leave it. -/
def updateRegistry {α : Type} (std : Bool) (update : KeyMap → α × Option KeyMap) :
    LockedProgram α :=
  underLock .writer do
    let current ← loadRegistry std
    match update current with
    | (value, none) => return value
    | (value, some keys) =>
        let _ ← swapRegistry std keys
        return value

def insertEntry (id : KeyId) (entry : KeyEntry) (keys : KeyMap) : Bool × Option KeyMap :=
  if keys.hasName entry.name then (false, none) else (true, some (keys.insert id entry))

def removeEntry (id : KeyId) (keys : KeyMap) : Option String × Option KeyMap :=
  match keys.lookup id with
  | none => (none, none)
  | some entry => (some entry.name, some (keys.erase id))

def replaceEntry (id : KeyId) (fragments : Fragments) (metadata : KeyMetadata) (keys : KeyMap) :
    Option String × Option KeyMap :=
  match keys.lookup id with
  | none => (none, none)
  | some entry =>
      (some entry.name,
        some (keys.insert id { entry with fragments := fragments, metadata := metadata }))

def lockKeySection (name : String) (deadline : Option Duration) : LockedProgram Bool :=
  underLock .keyLocks do
    let previous ← accessOf (.insertLock name deadline)
    if previous.isNone then
      accessOf .addKeyLocksActive
    return previous.isNone

def clearKeyLocksSection : LockedProgram Unit :=
  underLock .keyLocks do
    accessOf .wipeLocks
    accessOf .storeNoLocks

/-- `key_locked_slow`. The failures of an expired lockout are forgotten while `key_locks` is
still held. -/
def keyLockedSection (name : String) : LockedProgram Bool :=
  underLock .keyLocks do
    match ← accessOf (.getLock name) with
    | none => return false
    | some none => return true
    | some (some deadline) =>
        if (← clockNow) < deadline then
          return true
        else
          accessOf (.removeLock name)
          accessOf (.plain .subKeyLocksActive)
          underLock .failureTracker (accessOf (.plain (.forgetFailures name)))
          return false

def settleAttempt (env : Environment) (verifier : MasterVerifier) (attempt : Bytes) (opens : Bool)
    (now : Duration) (backoff : Backoff) : LockedProgram MasterAttempt := do
  if now < backoff.nextAllowed then
    return .refused (.error (.rateLimited (backoff.nextAllowed.saturatingSub now)))
  match verifier with
  | .unavailable reason => return .refused (.error (.internal reason))
  | .ready secret =>
      match secret.read opens with
      | .error exit => return .refused exit
      | .ok stored =>
          if verifyMaster env stored attempt then
            accessOf (.storeBackoff {})
            return .checked true
          else
            let failures := min (backoff.failures + 1) u32Max
            accessOf (.storeBackoff
              ⟨failures, now.saturatingAdd (backoffDelay env.config failures)⟩)
            return .checked false

def attemptSection (env : Environment) (verifier : MasterVerifier) (attempt : Bytes)
    (opens : Bool) : LockedProgram MasterAttempt :=
  underLock .masterBackoff do
    let now ← clockNow
    let backoff ← loadBackoff
    settleAttempt env verifier attempt opens now backoff

def carryOut (env : Environment) (std : Bool) : (op : VaultOp) → LockedProgram op.Ret
  | .loadKeys => loadRegistry std
  | .trackFailure name now perKey =>
      underLock .failureTracker (accessOf (.plain (.trackFailure name now perKey)))
  | .forgetFailures name =>
      underLock .failureTracker (accessOf (.plain (.forgetFailures name)))
  | .clearFailures => underLock .failureTracker (accessOf (.plain .clearFailures))
  | .unlockKey name => underLock .keyLocks (accessOf (.plain (.unlockKey name)))
  | .lockKey name deadline => lockKeySection name deadline
  | .clearKeyLocks => clearKeyLocksSection
  | .keyLockedSlow name => keyLockedSection name
  | .attemptMaster verifier attempt opens => attemptSection env verifier attempt opens
  | .insertKey id entry => updateRegistry std (insertEntry id entry)
  | .removeKey id => updateRegistry std (removeEntry id)
  | .replaceKey id fragments metadata =>
      updateRegistry std (replaceEntry id fragments metadata)
  | op => accessOf (.plain op)

/-! ### Callbacks that call the vault -/

abbrev vaultCalls : Signature := ⟨Request, fun _ => Response⟩

/-- The calls a monitor and an audit sink make when they are told something. -/
structure Listeners where
  monitor : MonitorEvent → Program vaultCalls Unit
  audit : String → AccessKind → String → Program vaultCalls Unit

/-- A step with the calls that callbacks make from it, up to `depth` callbacks within each
other. -/
def heard (env : Environment) (listeners : Listeners) : ℕ → (op : VaultOp) → VaultProgram op.Ret
  | depth + 1, .notify event => do
      Atomic.notify event
      (listeners.monitor event).expand (S := vaultCalls) (T := vaultSignature) fun request =>
        (request.program env).expand (T := vaultSignature) (heard env listeners depth)
  | depth + 1, .emitAudit keyName kind note => do
      Atomic.recordAudit keyName kind note
      (listeners.audit keyName kind note).expand (S := vaultCalls) (T := vaultSignature)
        fun request =>
          (request.program env).expand (T := vaultSignature) (heard env listeners depth)
  | _, op => .perform (S := vaultSignature) op

def hearingVault (env : Environment) (listeners : Listeners) (depth : ℕ) :
    Machine vaultSignature Vault Request Response Surroundings where
  perform := Vault.perform env
  program request := (request.program env).expand (T := vaultSignature) (heard env listeners depth)
  external := Surroundings.act

/-- The vault with its mutexes: every step is carried out under its locks. -/
def lockedVault (env : Environment) (std : Bool) (listeners : Listeners) (depth : ℕ) :
    Machine (lockSignature VaultLock sectionOps) (Locking VaultLock Vault) Request Response
      Surroundings :=
  lockMachine (SectionOp.perform env)
    (fun request => ((hearingVault env listeners depth).program request).expand
      (T := lockSignature VaultLock sectionOps) (carryOut env std))
    Surroundings.act

theorem hearingVault_zero (env : Environment) (listeners : Listeners) :
    hearingVault env listeners 0 = vaultMachine env := by
  have hexpand : ∀ {α : Type} (p : VaultProgram α),
      p.expand (T := vaultSignature) (heard env listeners 0) = p := by
    intro α p
    induction p with
    | done value => rfl
    | step op next ih =>
      have hop : heard env listeners 0 op = .perform (S := vaultSignature) op := by cases op <;> rfl
      show heard env listeners 0 op >>= _ = _
      rw [hop]
      exact congrArg (Program.step op) (funext ih)
  unfold hearingVault vaultMachine
  congr 1
  funext request
  exact hexpand _

abbrev LockedConfiguration :=
  Config (lockSignature VaultLock sectionOps) (Locking VaultLock Vault) Request Response

/-! ### The order of the locks -/

/-- `writer` is taken before `registry`, and `key_locks` before `failure_tracker`. -/
def VaultLock.rank : VaultLock → ℕ
  | .writer | .masterBackoff | .keyLocks => 0
  | .registry | .failureTracker => 1

/-- What must be held for an access: the lock of the data it touches, and no lock at all while
a monitor or an audit sink runs. Steps that consist of several accesses are not accesses. -/
def SectionOp.asks (std : Bool) : SectionOp → List VaultLock → Prop
  | .plain op, held =>
      match op with
      | .notify _ | .emitAudit _ _ _ => held = []
      | .trackFailure _ _ _ | .forgetFailures _ | .clearFailures => .failureTracker ∈ held
      | .unlockKey _ => .keyLocks ∈ held
      | .loadKeys => std = false → .registry ∈ held
      | .lockKey _ _ | .clearKeyLocks | .keyLockedSlow _ | .attemptMaster _ _ _
      | .insertKey _ _ | .removeKey _ | .replaceKey _ _ _ => False
      | _ => True
  | .swapKeys _, held => .writer ∈ held ∧ (std = false → .registry ∈ held)
  | .insertLock _ _, held | .getLock _, held | .removeLock _, held | .wipeLocks, held
  | .addKeyLocksActive, held | .storeNoLocks, held => .keyLocks ∈ held
  | .loadBackoff, held | .storeBackoff _, held => .masterBackoff ∈ held

abbrev KeepsLockOrder {α : Type} (std : Bool) (held : List VaultLock) (p : LockedProgram α) :
    Prop :=
  KeepsOrder (S := sectionOps) VaultLock.rank (SectionOp.asks std) held p

section LockOrder

variable {α : Type} {std : Bool} {held : List VaultLock}

theorem accessOf_keepsOrder {op : SectionOp} (h : op.asks std held) :
    KeepsLockOrder std held (accessOf op) :=
  keepsOrder_access (S := sectionOps) h

theorem section_keepsOrder {l : VaultLock} {body : LockedProgram α}
    (h : KeepsLockOrder std [l] body) : KeepsLockOrder std [] (underLock l body) :=
  keepsOrder_underLock (fun _ hmem => absurd hmem List.not_mem_nil) h

theorem loadRegistry_keepsOrder (h : ∀ l ∈ held, l.rank < VaultLock.registry.rank) :
    KeepsLockOrder std held (loadRegistry std) := by
  cases std with
  | true => exact accessOf_keepsOrder fun hstd => by cases hstd
  | false => exact keepsOrder_underLock h (accessOf_keepsOrder fun _ => List.mem_cons_self)

theorem swapRegistry_keepsOrder (h : ∀ l ∈ held, l.rank < VaultLock.registry.rank)
    (hwriter : .writer ∈ held) (keys : KeyMap) :
    KeepsLockOrder std held (swapRegistry std keys) := by
  cases std with
  | true => exact accessOf_keepsOrder ⟨hwriter, fun hstd => by cases hstd⟩
  | false =>
    exact keepsOrder_underLock h
      (accessOf_keepsOrder ⟨List.mem_cons_of_mem _ hwriter, fun _ => List.mem_cons_self⟩)

theorem updateRegistry_keepsOrder (update : KeyMap → α × Option KeyMap) :
    KeepsLockOrder std [] (updateRegistry std update) := by
  have hbelow : ∀ l ∈ [VaultLock.writer], l.rank < VaultLock.registry.rank := by decide
  refine section_keepsOrder (keepsOrder_bind (loadRegistry_keepsOrder hbelow) fun current => ?_)
  split
  · exact keepsOrder_done _
  · exact keepsOrder_bind (swapRegistry_keepsOrder hbelow List.mem_cons_self _) fun _ =>
      keepsOrder_done _

theorem lockKeySection_keepsOrder (name : String) (deadline : Option Duration) :
    KeepsLockOrder std [] (lockKeySection name deadline) := by
  refine section_keepsOrder (keepsOrder_bind (accessOf_keepsOrder List.mem_cons_self)
    fun previous => ?_)
  split
  · exact keepsOrder_bind (accessOf_keepsOrder List.mem_cons_self) fun _ => keepsOrder_done _
  · exact keepsOrder_done _

theorem keyLockedSection_keepsOrder (name : String) :
    KeepsLockOrder std [] (keyLockedSection name) := by
  refine section_keepsOrder (keepsOrder_bind (accessOf_keepsOrder List.mem_cons_self)
    fun found => ?_)
  split
  · exact keepsOrder_done _
  · exact keepsOrder_done _
  · refine keepsOrder_bind (accessOf_keepsOrder trivial) fun now => ?_
    split
    · exact keepsOrder_done _
    · refine keepsOrder_bind (accessOf_keepsOrder List.mem_cons_self) fun _ => ?_
      refine keepsOrder_bind (accessOf_keepsOrder trivial) fun _ => ?_
      refine keepsOrder_bind (keepsOrder_underLock ?_ ?_) fun _ => keepsOrder_done _
      · decide
      · exact accessOf_keepsOrder List.mem_cons_self

theorem attemptSection_keepsOrder (env : Environment) (verifier : MasterVerifier)
    (attempt : Bytes) (opens : Bool) :
    KeepsLockOrder std [] (attemptSection env verifier attempt opens) := by
  refine section_keepsOrder (keepsOrder_bind (accessOf_keepsOrder trivial) fun now => ?_)
  refine keepsOrder_bind (accessOf_keepsOrder List.mem_cons_self) fun backoff => ?_
  unfold settleAttempt
  split
  · exact keepsOrder_done _
  · split
    · exact keepsOrder_done _
    · split
      · exact keepsOrder_done _
      · split
        all_goals exact keepsOrder_bind (accessOf_keepsOrder List.mem_cons_self) fun _ =>
          keepsOrder_done _

theorem carryOut_keepsOrder (env : Environment) (std : Bool) (op : VaultOp) :
    KeepsLockOrder std [] (carryOut env std op) := by
  cases op with
  | loadKeys => exact loadRegistry_keepsOrder fun _ hmem => absurd hmem List.not_mem_nil
  | trackFailure name now perKey =>
    exact section_keepsOrder (accessOf_keepsOrder List.mem_cons_self)
  | forgetFailures name => exact section_keepsOrder (accessOf_keepsOrder List.mem_cons_self)
  | clearFailures => exact section_keepsOrder (accessOf_keepsOrder List.mem_cons_self)
  | unlockKey name => exact section_keepsOrder (accessOf_keepsOrder List.mem_cons_self)
  | lockKey name deadline => exact lockKeySection_keepsOrder name deadline
  | clearKeyLocks =>
    exact section_keepsOrder (keepsOrder_bind (accessOf_keepsOrder List.mem_cons_self) fun _ =>
      accessOf_keepsOrder List.mem_cons_self)
  | keyLockedSlow name => exact keyLockedSection_keepsOrder name
  | attemptMaster verifier attempt opens =>
    exact attemptSection_keepsOrder env verifier attempt opens
  | insertKey id entry => exact updateRegistry_keepsOrder _
  | removeKey id => exact updateRegistry_keepsOrder _
  | replaceKey id fragments metadata => exact updateRegistry_keepsOrder _
  | notify event => exact accessOf_keepsOrder rfl
  | emitAudit keyName kind note => exact accessOf_keepsOrder rfl
  | _ => exact accessOf_keepsOrder trivial

end LockOrder

section Runs

variable {env : Environment} {std : Bool} {listeners : Listeners} {depth : ℕ} {v : Vault}
  {c : LockedConfiguration}

theorem lockedVault_keepsOrder (request : Request) :
    KeepsLockOrder std [] ((lockedVault env std listeners depth).program request) :=
  keepsOrder_expand (S := sectionOps) (carryOut_keepsOrder env std) _

theorem lockedVault_ordered (hrun : (lockedVault env std listeners depth).Reaches (unlocked v) c) :
    Ordered VaultLock.rank (SectionOp.asks std) c :=
  ordered_run (S := sectionOps) lockedVault_keepsOrder hrun (Machine.orderly_start _)

theorem lockedVault_excludes (hrun : (lockedVault env std listeners depth).Reaches (unlocked v) c) :
    c.Excludes :=
  excludes_run (S := sectionOps) lockedVault_keepsOrder hrun (Machine.orderly_start _)
    (excludes_unlocked v)

/-- Whatever the calls and their callbacks, no mutex has two holders, and everything a mutex is
for is touched under it; monitors and audit sinks run while their caller holds no mutex. -/
theorem locks_guard (hrun : (lockedVault env std listeners depth).Reaches (unlocked v) c) :
    (∀ l caller other, l ∈ c.locksOf caller → l ∈ c.locksOf other → caller = other) ∧
      ∀ before entry after (op : SectionOp), c.log = before ++ entry :: after →
        entry.event.op = .inner op → op.asks std (heldLocks (eventsBy before entry.caller)) := by
  refine ⟨(lockedVault_excludes hrun).unique, fun before entry after op hlog hop => ?_⟩
  have hpermitted := (lockedVault_ordered hrun).permitted before entry after hlog
  rw [hop] at hpermitted
  exact hpermitted

def oneStrike : Environment := Environment.plain { keyLockoutThreshold := 1 }

def asking : Listeners := ⟨fun _ => .step .isLockedOut fun _ => .done (), fun _ _ _ => .done ()⟩

/-- Two reports about one key; the first is in the middle of its lockout, and the second has
come to the same lock. -/
def twoReports : List (Action Request Surroundings) :=
  [.invoke (.reportFailure "a" none), .invoke (.reportFailure "a" none)] ++
    List.replicate 8 (.exec 0) ++ List.replicate 6 (.exec 1)

theorem locks_guard_twoReports : ∃ c : LockedConfiguration, c.locksOf 0 = [.keyLocks] ∧
    ∀ other, .keyLocks ∈ c.locksOf other → 0 = other := by
  have hrun : ((lockedVault oneStrike true asking 1).follow (unlocked (Vault.new 0 0 0))
      twoReports).map (·.locksOf 0) = some [.keyLocks] := by decide +kernel
  obtain ⟨c, hc, hlocks⟩ := Option.map_eq_some_iff.mp hrun
  refine ⟨c, hlocks, fun other => ?_⟩
  refine (locks_guard (Machine.follow_reaches hc)).1 .keyLocks 0 other ?_
  rw [hlocks]
  exact List.mem_singleton.mpr rfl

/-- The only access without an outcome is an insertion into a full map of lockouts. -/
theorem aborts_only_full {op : SectionOp} {held : List VaultLock} {v : Vault}
    (hasks : op.asks std held) (h : op.perform env v = none) :
    ∃ name deadline, op = .insertLock name deadline ∧ name ∉ v.keyLocks ∧
      2 ^ env.usizeBits ≤ mapLen v.keyLocks + 1 := by
  cases op with
  | insertLock name deadline =>
    simp only [SectionOp.perform, Vault.insertLock] at h
    split at h
    · cases h
    · rename_i hfull
      obtain ⟨hnew, hroom⟩ := not_or.mp hfull
      exact ⟨name, deadline, rfl, hnew, Nat.le_of_not_lt hroom⟩
  | plain op =>
    cases op with
    | lockKey name deadline => exact absurd hasks id
    | _ => cases h
  | _ => cases h

/-- No calls wait for each other for ever: whatever the calls have done so far, and whatever
their callbacks do to the vault, they can go on until all have returned. Only a process that
has run out of room for lockouts stops before that. -/
theorem calls_all_return (hrun : (lockedVault env std listeners depth).Reaches (unlocked v) c) :
    ∃ c', Proceeds (lockedVault env std listeners depth) c c' ∧
      ((∀ call ∈ c'.calls, call.rest.result? ≠ none) ∨
        ∃ call ∈ c'.calls, ∃ name deadline,
          call.rest.next? = some (.inner (.insertLock name deadline)) ∧
            name ∉ c'.shared.data.keyLocks ∧
            2 ^ env.usizeBits ≤ mapLen c'.shared.data.keyLocks + 1) := by
  obtain ⟨c', hproceeds, hend⟩ := all_return (S := sectionOps) lockedVault_keepsOrder
    (lockedVault_ordered hrun) (lockedVault_excludes hrun)
  refine ⟨c', hproceeds, hend.imp_right ?_⟩
  rintro ⟨call, hcall, op, hnext, hnone⟩
  have hordered := lockedVault_ordered (hrun.trans hproceeds.reaches)
  obtain ⟨caller, hat⟩ := List.mem_iff_getElem?.mp hcall
  obtain ⟨request, rest⟩ := call
  cases rest with
  | done value => cases hnext
  | step first later =>
    cases hnext
    obtain ⟨name, deadline, rfl, hnew, hfull⟩ :=
      aborts_only_full (hordered.obeys caller _ hat).1 hnone
    exact ⟨_, hcall, name, deadline, rfl, hnew, hfull⟩

theorem calls_all_return_twoReports : ∃ c c' : LockedConfiguration,
    WaitsFor c 1 VaultLock.keyLocks ∧ Proceeds (lockedVault oneStrike true asking 1) c c' ∧
      ((∀ call ∈ c'.calls, call.rest.result? ≠ none) ∨
        ∃ name, name ∉ c'.shared.data.keyLocks ∧ 2 ^ 64 ≤ mapLen c'.shared.data.keyLocks + 1) := by
  have hrun : ((lockedVault oneStrike true asking 1).follow (unlocked (Vault.new 0 0 0))
      twoReports).map (fun c => (c.shared.taken .keyLocks, c.nextLock 1)) =
        some (true, some .keyLocks) := by decide +kernel
  obtain ⟨c, hc, hwaits⟩ := Option.map_eq_some_iff.mp hrun
  obtain ⟨c', hproceeds, hend⟩ := calls_all_return (Machine.follow_reaches hc)
  refine ⟨c, c', Prod.mk.inj hwaits, hproceeds, hend.imp_right ?_⟩
  rintro ⟨-, -, name, -, -, hnew, hfull⟩
  exact ⟨name, hnew, hfull⟩

end Runs

end KeyVault
