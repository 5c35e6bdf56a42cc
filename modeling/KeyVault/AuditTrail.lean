import KeyVault.CallPaths
import KeyVault.NestedReads

/-! What the audit sink receives over a whole run, against what each call owes it. The
event of a call is emitted behind its last step, so a call that leaves early emits none;
`with_key` also leaves early if its callback unwinds. -/
namespace KeyVault

open Interleaving Atomic

/-- `with_key` with a callback that may unwind (`none`). While a `with_key` further out on
the thread runs its callback, the thread's scratch buffer is `borrowed`. -/
def callWithKey {α : Type} (env : Environment) (handle : KeyId) (opens : Bool) (scratch : Bytes)
    (borrowed : Bool) (callback : Bytes → Option α) : VaultProgram (Result α) := do
  match ← checkedLookup handle with
  | .error exit => return .error exit
  | .ok entry =>
      if borrowed then
        return .error .panic
      match (readKey env entry.fragments opens scratch callback).1 with
      | .error exit => return .error exit
      -- unwinding skips the rest of the body, the event included
      | .ok none => return .error .panic
      | .ok (some value) =>
          emitAudit env entry.name .read ""
          return .ok value

theorem readKey_fst {α : Type} (env : Environment) (fragments : Fragments) (opens : Bool)
    (scratch : Bytes) (f : Bytes → α) : (readKey env fragments opens scratch f).1 =
      (readKey env fragments opens scratch id).1.map f := by
  unfold readKey
  dsimp only
  split <;> rfl

theorem callWithKey_some {α : Type} (env : Environment) (handle : KeyId) (opens : Bool)
    (scratch : Bytes) (f : Bytes → α) :
    callWithKey env handle opens scratch false (fun bytes => some (f bytes)) =
      withKey env handle opens scratch f := by
  rw [withKey_eq]
  unfold callWithKey readEntry
  congr 1
  funext admitted
  cases admitted with
  | error exit => rfl
  | ok entry =>
    simp only [Bool.false_eq_true, if_false]
    rw [readKey_fst env entry.fragments opens scratch f, readKey_fst]
    cases (readKey env entry.fragments opens scratch id).1 <;> rfl

structure Invocation where
  request : Request
  callback : Bytes → Option Bytes := some
  borrowed : Bool := false

def Invocation.program (env : Environment) (call : Invocation) : VaultProgram Response :=
  match call.request with
  | .withKey handle opens scratch => do
      return .material (← callWithKey env handle opens scratch call.borrowed call.callback)
  | request => request.program env

def auditMachine (env : Environment) :
    Machine vaultSignature Vault Invocation Response Surroundings where
  perform := Vault.perform env
  program := Invocation.program env
  external := Surroundings.act

/-! ### What a call owes the sink -/

def answeredName : VaultEvent → Option String
  | ⟨.removeKey _, name⟩ | ⟨.replaceKey _ _ _, name⟩ => name
  | _ => none

def entryName (history : List VaultEvent) : String := (history.findSome? answeredName).getD ""

def loadedKeys : VaultEvent → Option KeyMap
  | ⟨.loadKeys, snapshot⟩ => some snapshot
  | _ => none

def passesKeyLocked : VaultEvent → Bool
  | ⟨.loadKeyLocksActive, active⟩ => Nat.beq active 0
  | ⟨.keyLockedSlow _, locked⟩ => Bool.not locked
  | _ => false

def MasterAttempt.isChecked : MasterAttempt → Bool
  | .checked _ => true
  | .refused _ => false

def checksMaster : VaultEvent → Bool
  | ⟨.attemptMaster _ _ _, outcome⟩ => MasterAttempt.isChecked outcome
  | _ => false

def admittedEntry (handle : KeyId) (history : List VaultEvent) : Option KeyEntry :=
  ((history.findSome? loadedKeys).bind (·.lookup handle)).filter fun _ =>
    history.any passesKeyLocked

/-- What the callback of a `with_key` call was invoked with, and the name of the entry: the
scratch buffer was free and the key could be reassembled. -/
def handed (env : Environment) (handle : KeyId) (opens : Bool) (scratch : Bytes) (borrowed : Bool)
    (history : List VaultEvent) : Option (String × Bytes) :=
  (admittedEntry handle history).bind fun entry =>
    if borrowed then none
    else
      (readKey env entry.fragments opens scratch id).1.toOption.map fun bytes =>
        (entry.name, bytes)

def credentialMatches (env : Environment) (attempt : Bytes) (opens : Bool) : Bool :=
  match env.master with
  | some (.ready secret) =>
      match secret.read opens with
      | .ok stored => verifyMaster env stored attempt
      | .error _ => false
  | _ => false

/-- The events a finished call owes the sink. -/
def Invocation.due (env : Environment) (call : Invocation) (history : List VaultEvent)
    (response : Response) : List (String × AccessKind) :=
  match call.request, response with
  | .register name _ _ _, .handle (.ok _) => [(name, .register)]
  | .unregister _, .status (.ok _) => [(entryName history, .unregister)]
  | .rotate _ _ _ _, .status (.ok _) => [(entryName history, .rotate)]
  | .withKey handle opens scratch, _ =>
      (handed env handle opens scratch call.borrowed history).toList.map fun given =>
        (given.1, .read)
  | .fragment _ _ _, .fragments (.ok _) => [("", .oneShotFragment)]
  | .defragment _, .material (.ok _) => [("", .oneShotDefragment)]
  | .unlockWithMaster attempt opens, _ =>
      if history.any checksMaster then
        [(masterName, .masterUnlockAttempt (credentialMatches env attempt opens))]
      else []
  | _, _ => []

def Invocation.unwinds (env : Environment) (call : Invocation) (history : List VaultEvent) : Bool :=
  match call.request with
  | .withKey handle opens scratch =>
      match handed env handle opens scratch call.borrowed history with
      | some (_, bytes) => (call.callback bytes).isNone
      | none => false
  | _ => false

def emitted (history : List VaultEvent) : List (String × AccessKind) :=
  history.flatMap (·.op.audits)

/-- How a call ends, if its answers are answers of the vault: it has emitted what it owes,
unless its callback unwound. -/
def Invocation.Settled (env : Environment) (call : Invocation) (history : List VaultEvent)
    (response : Response) : Prop :=
  (∀ event ∈ history, ∃ v v', Vault.perform env event.op v = some (event.ret, v')) →
    emitted history = if call.unwinds env history then [] else call.due env history response

/-! ### One call -/

section Calls

variable {env : Environment} {α : Type} {history : List VaultEvent}

@[simp] theorem emitted_append (history later : List VaultEvent) :
    emitted (history ++ later) = emitted history ++ emitted later :=
  List.flatMap_append

theorem obeys_silent {p : VaultProgram α}
    (h : Program.Uses (S := vaultSignature) (fun op => op.audits = []) p) :
    Program.Obeys (S := vaultSignature) (fun _ _ => True)
      (fun later _ => ∃ more, later = history ++ more ∧ emitted more = []) history p := by
  suffices hkept : ∀ more, emitted more = [] → Program.Obeys (S := vaultSignature)
      (fun _ _ => True) (fun later _ => ∃ more, later = history ++ more ∧ emitted more = [])
      (history ++ more) p by
    have hnow := hkept [] rfl
    rw [List.append_nil] at hnow
    exact hnow
  induction p with
  | done value =>
    intro more hmore
    exact ⟨more, rfl, hmore⟩
  | step op next ih =>
    intro more hmore
    refine ⟨trivial, fun ret => ?_⟩
    rw [List.append_assoc]
    apply ih ret (h.2 ret)
    rw [emitted_append, hmore]
    simp [emitted, h.1]

theorem obeys_audit_bind (haudit : env.auditIsNoOp = false) {keyName : String} {kind : AccessKind}
    {f : Unit → VaultProgram α} {ends : List VaultEvent → α → Prop}
    (hf : Program.Obeys (S := vaultSignature) (fun _ _ => True) ends
      (history ++ [happened (.emitAudit keyName kind "") ()]) (f ())) :
    Program.Obeys (S := vaultSignature) (fun _ _ => True) ends history
      (emitAudit env keyName kind "" >>= f) := by
  unfold emitAudit
  rw [haudit]
  exact ⟨trivial, fun _ => hf⟩

theorem audited_eq (haudit : env.auditIsNoOp = false) (keyName : String) (kind : AccessKind)
    (note : String) :
    audited env keyName kind note = [happened (.emitAudit keyName kind note) ()] := by
  simp [audited, haudit]

theorem emitted_check {name : String} {check : List VaultEvent} {locked : Bool}
    (h : KeyLockedPath name check locked) :
    emitted check = [] ∧ check.any passesKeyLocked = !locked := by
  cases h with
  | fast => exact ⟨rfl, rfl⟩
  | @slow active hactive locked =>
    have hbusy : Nat.beq active 0 = false := by
      rw [Bool.eq_false_iff, ne_eq, Nat.beq_eq]
      exact hactive
    refine ⟨rfl, ?_⟩
    cases locked <;> simp [passesKeyLocked, hbusy]

theorem register_emitted (haudit : env.auditIsNoOp = false) {name : String} {key : Bytes} {rng : Rng}
    {os : OsAnswers} {result : Result KeyId} (h : RegisterPath env name key rng os history result) :
    emitted history = if result.isOk then [(name, .register)] else [] := by
  cases h with
  | installed snapshot id time fragments hfragment =>
    rw [audited_eq haudit]
    rfl
  | _ => rfl

theorem unregister_emitted (haudit : env.auditIsNoOp = false) {handle : KeyId} {result : Result Unit}
    (h : UnregisterPath env handle history result) :
    emitted history = if result.isOk then [(entryName history, .unregister)] else [] := by
  cases h with
  | absent => rfl
  | removed name =>
    rw [audited_eq haudit]
    rfl

theorem rotate_emitted (haudit : env.auditIsNoOp = false) {handle : KeyId} {key : Bytes} {rng : Rng}
    {os : OsAnswers} {result : Result Unit} (h : RotatePath env handle key rng os history result) :
    emitted history = if result.isOk then [(entryName history, .rotate)] else [] := by
  cases h with
  | lockedOut | absent snapshot hlookup => rfl
  | keyLocked snapshot entry check hlookup hcheck =>
    rw [emitted_append, (emitted_check hcheck).1]
    rfl
  | failed snapshot entry check exit hfragment hcheck =>
    rw [emitted_append, (emitted_check hcheck).1]
    rfl
  | gone snapshot entry check time fragments metadata hcheck =>
    rw [emitted_append, emitted_append, (emitted_check hcheck).1]
    rfl
  | replaced snapshot entry check time fragments name hcheck hfragment =>
    have hname : entryName (looked snapshot ++ check ++ [happened .readUnixTime time,
        happened (.replaceKey handle fragments ⟨time, key.length, none⟩) (some name)] ++
          audited env name .rotate "") = name := by
      cases hcheck <;> rfl
    rw [hname, audited_eq haudit]
    simp only [emitted_append, (emitted_check hcheck).1]
    rfl

theorem fragment_obeys (haudit : env.auditIsNoOp = false) (os : OsAnswers) (key : Bytes) (rng : Rng) :
    Program.Obeys (S := vaultSignature) (fun _ _ => True)
      (fun history result => emitted history = if result.isOk then [("", .oneShotFragment)] else [])
      [] (fragment env os key rng) := by
  unfold fragment isLockedOut
  refine obeys_perform_bind trivial fun (locked : Bool) => ?_
  cases locked with
  | true => rfl
  | false =>
    cases fragmentPipeline env os key rng with
    | error exit => rfl
    | ok fragmented =>
      apply obeys_audit_bind haudit
      rfl

theorem defragment_obeys (haudit : env.auditIsNoOp = false) (fragments : Fragments) :
    Program.Obeys (S := vaultSignature) (fun _ _ => True)
      (fun history result => emitted history = if result.isOk then [("", .oneShotDefragment)] else [])
      [] (defragment env fragments) := by
  unfold defragment isLockedOut
  refine obeys_perform_bind trivial fun (locked : Bool) => ?_
  cases locked with
  | true => rfl
  | false =>
    cases env.fragmenter.defragment fragments with
    | error exit => rfl
    | ok encoded =>
      apply obeys_audit_bind haudit
      rfl

theorem checked_eq {verifier : MasterVerifier} {attempt : Bytes} {opens matched : Bool} {v v' : Vault}
    (hmaster : env.master = some verifier)
    (h : v.attemptMaster env verifier attempt opens = (.checked matched, v')) :
    matched = credentialMatches env attempt opens := by
  unfold credentialMatches
  rw [hmaster]
  unfold Vault.attemptMaster at h
  dsimp only at h
  split at h
  · cases h
  · cases verifier with
    | unavailable reason => cases h
    | ready secret =>
      dsimp only at h ⊢
      cases hread : secret.read opens with
      | error exit =>
        rw [hread] at h
        cases h
      | ok stored =>
        rw [hread] at h
        dsimp only at h ⊢
        split at h
        · rename_i hverified
          cases h
          exact hverified.symm
        · rename_i hverified
          cases h
          exact (Bool.eq_false_of_not_eq_true hverified).symm

theorem admittedEntry_append_audit (handle : KeyId) (keyName : String) (kind : AccessKind)
    (note : String) : admittedEntry handle (history ++ [happened (.emitAudit keyName kind note) ()]) =
      admittedEntry handle history := by
  unfold admittedEntry
  rw [List.findSome?_append, List.any_append]
  simp [loadedKeys, passesKeyLocked]

theorem admittedEntry_looked {handle : KeyId} {snapshot : KeyMap} {name : String}
    {check : List VaultEvent} {locked : Bool} (h : KeyLockedPath name check locked) :
    admittedEntry handle (looked snapshot ++ check) =
      (snapshot.lookup handle).filter fun _ => !locked := by
  unfold admittedEntry
  rw [List.any_append, (emitted_check h).2]
  rfl

theorem checkedLookup_obeys (handle : KeyId) :
    Program.Obeys (S := vaultSignature) (fun _ _ => True)
      (fun history admitted => emitted history = [] ∧ admitted.toOption = admittedEntry handle history)
      [] (checkedLookup handle) := by
  have hcheck : ∀ (snapshot : KeyMap) (entry : KeyEntry) (check : List VaultEvent) (locked : Bool),
      snapshot.lookup handle = some entry → KeyLockedPath entry.name check locked →
      emitted (looked snapshot ++ check) = [] ∧
        (some entry).filter (fun _ => !locked) = admittedEntry handle (looked snapshot ++ check) := by
    intro snapshot entry check locked hlookup hpath
    refine ⟨?_, ?_⟩
    · rw [emitted_append, (emitted_check hpath).1]
      rfl
    · rw [admittedEntry_looked hpath, hlookup]
  rw [checkedLookup_eq]
  refine obeys_checkedThen (fun _ _ _ => trivial) ⟨rfl, rfl⟩ ?_ ?_ ?_
  · intro snapshot hlookup
    refine ⟨rfl, ?_⟩
    show none = ((some snapshot).bind (·.lookup handle)).filter _
    rw [Option.bind_some, hlookup]
    rfl
  · intro snapshot entry check hlookup hpath
    exact hcheck snapshot entry check true hlookup hpath
  · intro snapshot entry check hlookup hpath
    exact hcheck snapshot entry check false hlookup hpath

theorem callWithKey_obeys (haudit : env.auditIsNoOp = false) (handle : KeyId) (opens : Bool)
    (scratch : Bytes) (borrowed : Bool) (callback : Bytes → Option α) :
    Program.Obeys (S := vaultSignature) (fun _ _ => True)
      (fun history _ => emitted history =
        match handed env handle opens scratch borrowed history with
        | none => []
        | some (name, bytes) => if (callback bytes).isNone then [] else [(name, .read)])
      [] (callWithKey env handle opens scratch borrowed callback) := by
  unfold callWithKey
  refine Program.obeys_bind (checkedLookup_obeys handle) fun history admitted hadmitted => ?_
  obtain ⟨hsilent, hentry⟩ := hadmitted
  cases admitted with
  | error exit =>
    show emitted history = _
    unfold handed
    rw [← hentry, hsilent]
    rfl
  | ok entry =>
    dsimp only
    cases borrowed with
    | true =>
      show emitted history = _
      unfold handed
      rw [← hentry, hsilent]
      rfl
    | false =>
      rw [if_neg Bool.false_ne_true, readKey_fst]
      have hhanded : ∀ later, admittedEntry handle later = some entry →
          handed env handle opens scratch false later =
            (readKey env entry.fragments opens scratch id).1.toOption.map fun bytes =>
              (entry.name, bytes) := by
        intro later hlater
        unfold handed
        rw [hlater]
        rfl
      cases hread : (readKey env entry.fragments opens scratch id).1 with
      | error exit =>
        show emitted history = _
        rw [hhanded history hentry.symm, hread, hsilent]
        rfl
      | ok bytes =>
        cases hcallback : callback bytes with
        | none =>
          simp only [Except.map, hcallback]
          show emitted history = _
          rw [hhanded history hentry.symm, hread, hsilent]
          simp [Except.toOption, hcallback]
        | some value =>
          simp only [Except.map, hcallback]
          apply obeys_audit_bind haudit
          show emitted (history ++ [happened (.emitAudit entry.name .read "") ()]) = _
          rw [hhanded _ ((admittedEntry_append_audit ..).trans hentry.symm), hread, emitted_append,
            hsilent]
          simp [Except.toOption, hcallback, emitted, VaultOp.audits]

theorem silent_clearLockout :
    Program.Uses (S := vaultSignature) (fun op => op.audits = []) clearLockout :=
  ⟨rfl, fun _ => ⟨rfl, fun _ => ⟨rfl, fun _ => trivial⟩⟩⟩

theorem silent_handleFailure (env : Environment) (name : String) (note : Option String)
    (perKey : Bool) : Program.Uses (S := vaultSignature) (fun op => op.audits = [])
      (handleFailure env name note perKey) :=
  uses_handleFailure rfl (fun _ _ => rfl) (fun _ _ => rfl) (fun _ => rfl) fun _ _ => rfl

theorem unlockWithMaster_obeys (haudit : env.auditIsNoOp = false) (attempt : Bytes) (opens : Bool) :
    Program.Obeys (S := vaultSignature) (fun _ _ => True)
      (fun history _ =>
        (∀ event ∈ history, ∃ v v', Vault.perform env event.op v = some (event.ret, v')) →
        emitted history = if history.any checksMaster then
          [(masterName, .masterUnlockAttempt (credentialMatches env attempt opens))] else [])
      [] (unlockWithMaster env attempt opens) := by
  unfold unlockWithMaster
  cases hmaster : env.master with
  | none =>
    intro _
    rfl
  | some verifier =>
    refine obeys_perform_bind trivial fun (outcome : MasterAttempt) => ?_
    cases outcome with
    | refused exit =>
      intro _
      rfl
    | checked matched =>
      apply obeys_audit_bind haudit
      have hdone : ∀ more, emitted more = [] → ∀ later, later = ([] ++
          [happened (.attemptMaster verifier attempt opens) (MasterAttempt.checked matched)] ++
          [happened (.emitAudit masterName (.masterUnlockAttempt matched) "") ()]) ++ more →
          (∀ event ∈ later, ∃ v v', Vault.perform env event.op v = some (event.ret, v')) →
          emitted later = if later.any checksMaster then
            [(masterName, .masterUnlockAttempt (credentialMatches env attempt opens))] else [] := by
        intro more hmore later hlater hanswered
        subst hlater
        obtain ⟨v, v', hperform⟩ := hanswered
          (happened (.attemptMaster verifier attempt opens) (MasterAttempt.checked matched))
          (by simp)
        rw [← checked_eq hmaster (Option.some.inj hperform), emitted_append, hmore]
        simp [emitted, VaultOp.audits, checksMaster, MasterAttempt.isChecked]
      cases matched with
      | true =>
        refine Program.obeys_bind (obeys_silent silent_clearLockout) ?_
        rintro later _ ⟨more, hlater, hmore⟩
        exact hdone more hmore later hlater
      | false =>
        refine Program.obeys_bind (obeys_silent (silent_handleFailure ..)) ?_
        rintro later _ ⟨more, hlater, hmore⟩
        exact hdone more hmore later hlater

theorem silent_program {request : Request}
    (hrequest : ∀ keyName kind note, ¬request.MayUse (.emitAudit keyName kind note)) :
    Program.Uses (S := vaultSignature) (fun op => op.audits = []) (request.program env) := by
  apply (program_uses env request).mono
  intro op hop
  cases op with
  | emitAudit keyName kind note => exact absurd hop (hrequest keyName kind note)
  | _ => rfl

theorem invocation_obeys (haudit : env.auditIsNoOp = false) (call : Invocation) :
    Program.Obeys (S := vaultSignature) (fun _ _ => True) (call.Settled env) []
      (call.program env) := by
  obtain ⟨request, callback, borrowed⟩ := call
  cases request with
  | register name key rng os =>
    refine (program_obeys env (.register name key rng os)).mono (fun _ _ _ => trivial) ?_
    rintro history _ ⟨result, rfl, hpath⟩ -
    rw [register_emitted haudit hpath]
    cases result <;> rfl
  | unregister handle =>
    refine (program_obeys env (.unregister handle)).mono (fun _ _ _ => trivial) ?_
    rintro history _ ⟨result, rfl, hpath⟩ -
    rw [unregister_emitted haudit hpath]
    cases result <;> rfl
  | rotate handle key rng os =>
    refine (program_obeys env (.rotate handle key rng os)).mono (fun _ _ _ => trivial) ?_
    rintro history _ ⟨result, rfl, hpath⟩ -
    rw [rotate_emitted haudit hpath]
    cases result <;> rfl
  | withKey handle opens scratch =>
    refine Program.obeys_bind
      (callWithKey_obeys haudit handle opens scratch borrowed callback) ?_
    intro history result hemitted _
    rw [hemitted]
    rcases Option.eq_none_or_eq_some (handed env handle opens scratch borrowed history) with
      hhanded | ⟨given, hhanded⟩
    · simp [Invocation.unwinds, Invocation.due, hhanded]
    · simp [Invocation.unwinds, Invocation.due, hhanded]
  | fragment key rng os =>
    refine Program.obeys_bind (fragment_obeys haudit os key rng) ?_
    intro history result hemitted _
    rw [hemitted]
    cases result <;> rfl
  | defragment fragments =>
    refine Program.obeys_bind (defragment_obeys haudit fragments) ?_
    intro history result hemitted _
    rw [hemitted]
    cases result <;> rfl
  | unlockWithMaster attempt opens =>
    exact Program.obeys_bind (unlockWithMaster_obeys haudit attempt opens)
      fun history result hemitted => hemitted
  | _ =>
    dsimp only [Invocation.program]
    refine (obeys_silent (silent_program ?_)).mono (fun _ _ h => h) ?_
    · intro _ _ _ h
      exact h
    · rintro history response ⟨more, rfl, hmore⟩ -
      exact hmore

theorem due_ne_nil_of_unwinds {call : Invocation} (h : call.unwinds env history = true)
    (response : Response) : call.due env history response ≠ [] := by
  obtain ⟨request, callback, borrowed⟩ := call
  cases request with
  | withKey handle opens scratch =>
    rcases Option.eq_none_or_eq_some (handed env handle opens scratch borrowed history) with
      hhanded | ⟨given, hhanded⟩
    · simp [Invocation.unwinds, hhanded] at h
    · simp [Invocation.due, hhanded]
  | _ => cases h

end Calls

/-! ### Whole runs -/

abbrev AuditConfiguration := Config vaultSignature Vault Invocation Response

def owedBy (env : Environment) (c : AuditConfiguration) (caller : Nat) : List (String × AccessKind) :=
  match c.calls[caller]? with
  | some ⟨call, .done response⟩ => call.due env (eventsBy c.log caller) response
  | _ => []

/-- The sink has received the events that the calls owe it, each once, and no others. -/
def AuditExact (env : Environment) (c : AuditConfiguration) : Prop :=
  (c.shared.auditTrail.map AuditEvent.line).Perm ((List.range c.calls.length).flatMap (owedBy env c))

section Runs

variable {env : Environment} {c : AuditConfiguration} {v : Vault}

theorem trail_eq_log (hrun : (auditMachine env).Reaches (Config.start v) c) (hnew : v.auditTrail = []) :
    c.shared.auditTrail.map AuditEvent.line = emitted (c.log.map (·.event)) := by
  apply hrun.invariant (I := fun c =>
    c.shared.auditTrail.map AuditEvent.line = emitted (c.log.map (·.event)))
  · show v.auditTrail.map AuditEvent.line = []
    rw [hnew]
    rfl
  · intro c action c' hinv _ hstep
    cases action with
    | invoke request =>
      rw [Machine.step_invoke_iff] at hstep
      subst hstep
      exact hinv
    | exec caller =>
      obtain ⟨request, op, next, ret, s, -, hperform, rfl⟩ := Machine.step_exec_iff.mp hstep
      dsimp only
      rw [(Vault.perform_trails hperform).2, hinv, List.map_append, emitted_append]
      simp [emitted]
    | external event =>
      obtain ⟨s, hact, rfl⟩ := Machine.step_external_iff.mp hstep
      obtain ⟨clock, unixTime, handles, -, -, rfl⟩ := Surroundings.act_frame hact
      exact hinv

theorem ended_settled (haudit : env.auditIsNoOp = false)
    (hrun : (auditMachine env).Reaches (Config.start v) c)
    (hended : ∀ call ∈ c.calls, call.rest.result?.isSome) {caller : Nat}
    (hcaller : caller ∈ List.range c.calls.length) : ∃ call response,
      c.calls[caller]? = some ⟨call, .done response⟩ ∧
      emitted (eventsBy c.log caller) = if call.unwinds env (eventsBy c.log caller) then []
        else call.due env (eventsBy c.log caller) response := by
  have horderly := hrun.orderly (invocation_obeys haudit) (Machine.orderly_start v)
  have hanswered := hrun.answered (fun entry hentry => by cases hentry)
  obtain ⟨⟨call, rest⟩, hget⟩ : ∃ call, c.calls[caller]? = some call :=
    ⟨_, List.getElem?_eq_getElem (List.mem_range.mp hcaller)⟩
  have hdone := hended _ (List.mem_of_getElem? hget)
  cases rest with
  | step op next => cases hdone
  | done response =>
    refine ⟨call, response, hget, horderly.returned hget ?_⟩
    intro event hevent
    obtain ⟨entry, hentry, -, rfl⟩ := mem_eventsBy.mp hevent
    exact hanswered entry hentry

theorem trail_perm (haudit : env.auditIsNoOp = false)
    (hrun : (auditMachine env).Reaches (Config.start v) c) (hnew : v.auditTrail = []) :
    (c.shared.auditTrail.map AuditEvent.line).Perm
      ((List.range c.calls.length).flatMap fun caller => emitted (eventsBy c.log caller)) := by
  have horderly := hrun.orderly (invocation_obeys haudit) (Machine.orderly_start v)
  have hcallers : ∀ entry ∈ c.log, entry.caller ∈ List.range c.calls.length := by
    intro entry hentry
    obtain ⟨rest, hrest⟩ := horderly.logged entry hentry
    exact List.mem_range.mpr (List.getElem?_eq_some_iff.mp hrest).1
  rw [trail_eq_log hrun hnew]
  unfold emitted
  rw [← List.flatMap_assoc]
  exact (perm_flatMap_eventsBy List.nodup_range hcallers).flatMap_right _

/-- Over every run whose calls have all ended: the audit trail is exact if and only if no
callback that was handed its key has unwound. -/
theorem auditExact_iff (haudit : env.auditIsNoOp = false) {clock unixTime : Duration} {handles : Nat}
    (hrun : (auditMachine env).Reaches (Config.start (Vault.new clock unixTime handles)) c)
    (hended : ∀ call ∈ c.calls, call.rest.result?.isSome) :
    AuditExact env c ↔ ∀ (caller : Nat) (call : Activation vaultSignature Invocation Response),
      c.calls[caller]? = some call → call.request.unwinds env (eventsBy c.log caller) = false := by
  have hless : ∀ caller ∈ List.range c.calls.length,
      (emitted (eventsBy c.log caller)).Sublist (owedBy env c caller) := by
    intro caller hcaller
    obtain ⟨call, response, hget, hemitted⟩ := ended_settled haudit hrun hended hcaller
    unfold owedBy
    rw [hget, hemitted]
    split
    · exact List.nil_sublist _
    · exact .refl _
  unfold AuditExact
  rw [(trail_perm haudit hrun rfl).congr_left, Ledger.perm_flatMap_iff hless]
  constructor
  · intro hsame caller activation hget
    have hcaller := List.mem_range.mpr (List.getElem?_eq_some_iff.mp hget).1
    obtain ⟨call, response, hget', hemitted⟩ := ended_settled haudit hrun hended hcaller
    rw [hget'] at hget
    cases hget
    by_contra hunwinds
    have hunwinds := Bool.eq_true_of_not_eq_false hunwinds
    apply due_ne_nil_of_unwinds hunwinds response
    have hkept := hsame caller hcaller
    unfold owedBy at hkept
    rw [hget', hemitted, if_pos hunwinds] at hkept
    exact hkept.symm
  · intro hcalm caller hcaller
    obtain ⟨call, response, hget, hemitted⟩ := ended_settled haudit hrun hended hcaller
    unfold owedBy
    rw [hget, hemitted, hcalm caller _ hget]
    rfl

end Runs

def sinkEnv : Environment := { Environment.plain {} with auditIsNoOp := false }

def readAndRemove : List (Action Invocation Surroundings) :=
  [.invoke ⟨.register "k" [1, 2, 3] (.constant 5) ⟨true, true, true⟩, some, false⟩,
    .invoke ⟨.withKey 1 true [], some, false⟩,
    .exec 0, .exec 0, .exec 0, .exec 0, .exec 0, .exec 1, .exec 1, .exec 1,
    .invoke ⟨.unregister 1, some, false⟩, .exec 2, .exec 2, .exec 0, .exec 1,
    .invoke ⟨.withKey 1 true [], fun _ => none, false⟩, .exec 3, .exec 3]

theorem auditExact_iff_readAndRemove : ∃ c,
    (auditMachine sinkEnv).follow (Config.start (Vault.new 0 0 0)) readAndRemove = some c ∧
    c.shared.auditTrail.map AuditEvent.line =
      [("k", .unregister), ("k", .register), ("k", .read)] ∧ AuditExact sinkEnv c := by
  have hfollow : ((auditMachine sinkEnv).follow (Config.start (Vault.new 0 0 0)) readAndRemove).map
      (fun c => (c.shared.auditTrail.map AuditEvent.line, c.calls.all (·.rest.result?.isSome),
        c.calls.zipIdx.all fun call =>
          !call.1.request.unwinds sinkEnv (eventsBy c.log call.2))) =
      some ([("k", .unregister), ("k", .register), ("k", .read)], true, true) := by
    decide +kernel
  obtain ⟨c, hc, hseen⟩ := Option.map_eq_some_iff.mp hfollow
  simp only [Prod.mk.injEq, List.all_eq_true] at hseen
  obtain ⟨htrail, hended, hcalm⟩ := hseen
  refine ⟨c, hc, htrail, (auditExact_iff rfl (Machine.follow_reaches hc) hended).mpr ?_⟩
  intro caller call hcall
  have hquiet := hcalm (call, caller) (List.mem_zipIdx_iff_getElem?.mpr hcall)
  exact (Bool.not_eq_true' _).mp hquiet

/-- The callback gets the key and unwinds. -/
def readAndUnwind : List (Action Invocation Surroundings) :=
  [.invoke ⟨.register "k" [1, 2, 3] (.constant 5) ⟨true, true, true⟩, some, false⟩,
    .exec 0, .exec 0, .exec 0, .exec 0, .exec 0, .exec 0,
    .invoke ⟨.withKey 1 true [], fun _ => none, false⟩, .exec 1, .exec 1, .exec 1]

theorem readAndUnwind_not_auditExact : sinkEnv.auditIsNoOp = false ∧ ∃ c,
    (auditMachine sinkEnv).follow (Config.start (Vault.new 0 0 0)) readAndUnwind = some c ∧
    (∀ call ∈ c.calls, call.rest.result?.isSome) ∧
    c.shared.auditTrail.map AuditEvent.line = [("k", .register)] ∧
    (List.range c.calls.length).flatMap (owedBy sinkEnv c) = [("k", .register), ("k", .read)] ∧
    ¬AuditExact sinkEnv c := by
  have hfollow : ((auditMachine sinkEnv).follow (Config.start (Vault.new 0 0 0)) readAndUnwind).map
      (fun c => (c.calls.all (·.rest.result?.isSome), c.shared.auditTrail.map AuditEvent.line,
        (List.range c.calls.length).flatMap (owedBy sinkEnv c))) =
      some (true, [("k", .register)], [("k", .register), ("k", .read)]) := by
    decide +kernel
  obtain ⟨c, hc, hseen⟩ := Option.map_eq_some_iff.mp hfollow
  simp only [Prod.mk.injEq, List.all_eq_true] at hseen
  obtain ⟨hended, htrail, howed⟩ := hseen
  refine ⟨rfl, c, hc, hended, htrail, howed, ?_⟩
  intro hexact
  unfold AuditExact at hexact
  rw [htrail, howed] at hexact
  exact absurd hexact.length_eq (by decide)

end KeyVault
