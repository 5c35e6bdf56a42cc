import KeyVault.CallHistory
import KeyVault.VaultFootprint

/-! The paths through the calls that touch the registry: for each way a call can
end, the steps it took and what their answers were. Proved once here; results
about interleavings read the paths and not the programs. -/
namespace KeyVault

open Interleaving Atomic

abbrev VaultEvent := Event vaultSignature

abbrev VaultEntry := Entry vaultSignature Request

abbrev happened (op : VaultOp) (ret : op.Ret) : VaultEvent := ⟨op, ret⟩

def audited (env : Environment) (keyName : String) (kind : AccessKind) (note : String) :
    List VaultEvent :=
  if env.auditIsNoOp then [] else [happened (.emitAudit keyName kind note) ()]

inductive KeyLockedPath (name : String) : List VaultEvent → Bool → Prop where
  | fast : KeyLockedPath name [happened .loadKeyLocksActive (0 : Nat)] false
  | slow {active : Nat} (hactive : active ≠ 0) (locked : Bool) :
      KeyLockedPath name
        [happened .loadKeyLocksActive active, happened (.keyLockedSlow name) locked] locked

def looked (snapshot : KeyMap) : List VaultEvent :=
  [happened .loadLockedOut false, happened .loadKeys snapshot]

def prepared (snapshot : KeyMap) (id : KeyId) (time : Duration) : List VaultEvent :=
  looked snapshot ++ [happened .allocateHandle id, happened .readUnixTime time]

section Paths

variable (env : Environment)

inductive RegisterPath (name : String) (key : Bytes) (rng : Rng) (os : OsAnswers) :
    List VaultEvent → Result KeyId → Prop where
  | lockedOut : RegisterPath name key rng os [happened .loadLockedOut true] (fail .lockedOut)
  | duplicate (snapshot : KeyMap) (hname : snapshot.hasName name = true) :
      RegisterPath name key rng os (looked snapshot) (fail (duplicateName name))
  | failed (snapshot : KeyMap) (exit : Exit)
      (hfragment : fragmentForRegistry env os key rng = .error exit) :
      RegisterPath name key rng os (looked snapshot) (.error exit)
  | refused (snapshot : KeyMap) (id : KeyId) (time : Duration) (entry : KeyEntry)
      (hentry : entry.name = name) :
      RegisterPath name key rng os
        (prepared snapshot id time ++ [happened (.insertKey id entry) false])
        (fail (duplicateName name))
  | installed (snapshot : KeyMap) (id : KeyId) (time : Duration) (fragments : Fragments)
      (hfragment : fragmentForRegistry env os key rng = .ok fragments) :
      RegisterPath name key rng os
        (prepared snapshot id time ++
          [happened (.insertKey id ⟨name, fragments, ⟨time, key.length, none⟩⟩) true] ++
          audited env name .register "") (.ok id)

inductive UnregisterPath (handle : KeyId) : List VaultEvent → Result Unit → Prop where
  | absent : UnregisterPath handle [happened (.removeKey handle) none] (fail .keyNotFound)
  | removed (name : String) :
      UnregisterPath handle
        ([happened (.removeKey handle) (some name)] ++ audited env name .unregister "") (.ok ())

inductive RotatePath (handle : KeyId) (key : Bytes) (rng : Rng) (os : OsAnswers) :
    List VaultEvent → Result Unit → Prop where
  | lockedOut : RotatePath handle key rng os [happened .loadLockedOut true] (fail .lockedOut)
  | absent (snapshot : KeyMap) (hlookup : snapshot.lookup handle = none) :
      RotatePath handle key rng os (looked snapshot) (fail .keyNotFound)
  | keyLocked (snapshot : KeyMap) (entry : KeyEntry) (check : List VaultEvent)
      (hlookup : snapshot.lookup handle = some entry) (hcheck : KeyLockedPath entry.name check true) :
      RotatePath handle key rng os (looked snapshot ++ check) (fail .lockedOut)
  | failed (snapshot : KeyMap) (entry : KeyEntry) (check : List VaultEvent) (exit : Exit)
      (hfragment : fragmentForRegistry env os key rng = .error exit)
      (hcheck : KeyLockedPath entry.name check false) :
      RotatePath handle key rng os (looked snapshot ++ check) (.error exit)
  | gone (snapshot : KeyMap) (entry : KeyEntry) (check : List VaultEvent) (time : Duration)
      (fragments : Fragments) (metadata : KeyMetadata)
      (hcheck : KeyLockedPath entry.name check false) :
      RotatePath handle key rng os
        (looked snapshot ++ check ++ [happened .readUnixTime time,
          happened (.replaceKey handle fragments metadata) none]) (fail .keyNotFound)
  | replaced (snapshot : KeyMap) (entry : KeyEntry) (check : List VaultEvent) (time : Duration)
      (fragments : Fragments) (name : String)
      (hcheck : KeyLockedPath entry.name check false)
      (hfragment : fragmentForRegistry env os key rng = .ok fragments) :
      RotatePath handle key rng os
        (looked snapshot ++ check ++ [happened .readUnixTime time,
          happened (.replaceKey handle fragments ⟨time, key.length, none⟩) (some name)] ++
          audited env name .rotate "") (.ok ())

inductive WithKeyPath (handle : KeyId) (opens : Bool) (scratch : Bytes) :
    List VaultEvent → Result Bytes → Prop where
  | lockedOut : WithKeyPath handle opens scratch [happened .loadLockedOut true] (fail .lockedOut)
  | absent (snapshot : KeyMap) (hlookup : snapshot.lookup handle = none) :
      WithKeyPath handle opens scratch (looked snapshot) (fail .keyNotFound)
  | keyLocked (snapshot : KeyMap) (entry : KeyEntry) (check : List VaultEvent)
      (hlookup : snapshot.lookup handle = some entry) (hcheck : KeyLockedPath entry.name check true) :
      WithKeyPath handle opens scratch (looked snapshot ++ check) (fail .lockedOut)
  | failed (snapshot : KeyMap) (entry : KeyEntry) (check : List VaultEvent) (exit : Exit)
      (hlookup : snapshot.lookup handle = some entry)
      (hcheck : KeyLockedPath entry.name check false)
      (hread : (readKey env entry.fragments opens scratch id).1 = .error exit) :
      WithKeyPath handle opens scratch (looked snapshot ++ check) (.error exit)
  | read (snapshot : KeyMap) (entry : KeyEntry) (check : List VaultEvent) (bytes : Bytes)
      (hlookup : snapshot.lookup handle = some entry)
      (hcheck : KeyLockedPath entry.name check false)
      (hread : (readKey env entry.fragments opens scratch id).1 = .ok bytes) :
      WithKeyPath handle opens scratch
        (looked snapshot ++ check ++ audited env entry.name .read "") (.ok bytes)

/-- What must have happened before a call enters a critical section of the
registry. -/
def Request.Ready : Request → List VaultEvent → VaultOp → Prop
  | .register name key rng os, history, .insertKey id entry =>
      ∃ snapshot time fragments, history = prepared snapshot id time ∧
        fragmentForRegistry env os key rng = .ok fragments ∧
        entry = ⟨name, fragments, ⟨time, key.length, none⟩⟩
  | .register _ _ _ _, history, .allocateHandle => ∃ snapshot, history = looked snapshot
  | .rotate handle key rng os, history, .replaceKey id fragments metadata =>
      ∃ snapshot entry check time, snapshot.lookup handle = some entry ∧
        history = looked snapshot ++ check ++ [happened .readUnixTime time] ∧
        KeyLockedPath entry.name check false ∧
        fragmentForRegistry env os key rng = .ok fragments ∧
        id = handle ∧ metadata = ⟨time, key.length, none⟩
  | .unregister handle, history, .removeKey id => history = [] ∧ id = handle
  | _, _, _ => True

def Request.Allowed (request : Request) (history : List VaultEvent) (op : VaultOp) : Prop :=
  request.MayUse op ∧ request.Ready env history op

def Request.Ends : Request → List VaultEvent → Response → Prop
  | .register name key rng os, history, response =>
      ∃ result, response = .handle result ∧ RegisterPath env name key rng os history result
  | .unregister handle, history, response =>
      ∃ result, response = .status result ∧ UnregisterPath env handle history result
  | .rotate handle key rng os, history, response =>
      ∃ result, response = .status result ∧ RotatePath env handle key rng os history result
  | .withKey handle opens scratch, history, response =>
      ∃ result, response = .material result ∧ WithKeyPath env handle opens scratch history result
  | _, _, _ => True

end Paths

section Obeys

variable {allowed : List VaultEvent → VaultOp → Prop} {α : Type}
  {ends : List VaultEvent → α → Prop} {history : List VaultEvent} {env : Environment}

theorem obeys_perform_bind {op : VaultOp} {f : op.Ret → VaultProgram α}
    (hop : allowed history op)
    (hf : ∀ ret, Program.Obeys (S := vaultSignature) allowed ends
      (history ++ [happened op ret]) (f ret)) :
    Program.Obeys (S := vaultSignature) allowed ends history
      (Program.perform (S := vaultSignature) op >>= f) := ⟨hop, hf⟩

theorem obeys_of_uses {P : VaultOp → Prop} {p : VaultProgram α}
    (h : Program.Uses (S := vaultSignature) P p) (hop : ∀ history op, P op → allowed history op)
    (hends : ∀ history value, ends history value) :
    Program.Obeys (S := vaultSignature) allowed ends history p := by
  induction p generalizing history with
  | done value => exact hends history value
  | step op next ih => exact ⟨hop history op h.1, fun ret => ih ret (h.2 ret)⟩

theorem obeys_emitAudit_bind {keyName : String} {kind : AccessKind} {note : String}
    {value : α} (hop : allowed history (.emitAudit keyName kind note))
    (hends : ends (history ++ audited env keyName kind note) value) :
    Program.Obeys (S := vaultSignature) allowed ends history
      (emitAudit env keyName kind note >>= fun _ => .done value) := by
  unfold emitAudit
  unfold audited at hends
  by_cases hnoop : env.auditIsNoOp = true
  · rw [if_pos hnoop] at hends ⊢
    rw [List.append_nil] at hends
    exact hends
  · rw [if_neg hnoop] at hends ⊢
    exact ⟨hop, fun _ => hends⟩

theorem obeys_keyLocked_bind {name : String} {f : Bool → VaultProgram α}
    (hload : allowed history .loadKeyLocksActive)
    (hslow : ∀ active, allowed (history ++ [happened .loadKeyLocksActive active])
      (.keyLockedSlow name))
    (hf : ∀ check locked, KeyLockedPath name check locked →
      Program.Obeys (S := vaultSignature) allowed ends (history ++ check) (f locked)) :
    Program.Obeys (S := vaultSignature) allowed ends history (keyLocked name >>= f) := by
  unfold keyLocked
  refine ⟨hload, fun (active : Nat) => ?_⟩
  by_cases hactive : active = 0
  · subst hactive
    exact hf _ false .fast
  · show Program.Obeys (S := vaultSignature) allowed ends _
      ((if active = 0 then pure false else keyLockedSlow name) >>= f)
    rw [if_neg hactive]
    refine ⟨hslow active, fun (locked : Bool) => ?_⟩
    rw [List.append_assoc]
    exact hf _ locked (.slow hactive locked)

theorem obeys_checkedThen {β : Type} {allow : List VaultEvent → VaultOp → Prop}
    {finish : List VaultEvent → Result β → Prop} {handle : KeyId}
    {rest : KeyEntry → VaultProgram (Result β)}
    (hallowed : ∀ history op, (op = .loadLockedOut ∨ op = .loadKeys ∨ op = .loadKeyLocksActive ∨
      ∃ name, op = .keyLockedSlow name) → allow history op)
    (hlocked : finish [happened .loadLockedOut true] (fail .lockedOut))
    (habsent : ∀ snapshot : KeyMap, snapshot.lookup handle = none →
      finish (looked snapshot) (fail .keyNotFound))
    (hkeyLocked : ∀ (snapshot : KeyMap) entry check, snapshot.lookup handle = some entry →
      KeyLockedPath entry.name check true → finish (looked snapshot ++ check) (fail .lockedOut))
    (hrest : ∀ (snapshot : KeyMap) entry check, snapshot.lookup handle = some entry →
      KeyLockedPath entry.name check false → Program.Obeys (S := vaultSignature) allow finish
        (looked snapshot ++ check) (rest entry)) :
    Program.Obeys (S := vaultSignature) allow finish [] (checkedThen handle rest) := by
  unfold checkedThen isLockedOut
  refine obeys_perform_bind (hallowed _ _ (.inl rfl)) fun (locked : Bool) => ?_
  cases locked with
  | true => exact hlocked
  | false =>
    refine obeys_perform_bind (hallowed _ _ (.inr (.inl rfl))) fun (snapshot : KeyMap) => ?_
    cases hlookup : snapshot.lookup handle with
    | none => exact habsent snapshot hlookup
    | some entry =>
      refine obeys_keyLocked_bind (hallowed _ _ (.inr (.inr (.inl rfl))))
        (fun _ => hallowed _ _ (.inr (.inr (.inr ⟨_, rfl⟩)))) ?_
      intro check locked hcheck
      cases locked with
      | true => exact hkeyLocked snapshot entry check hlookup hcheck
      | false => exact hrest snapshot entry check hlookup hcheck

end Obeys

section Programs

variable (env : Environment)

theorem obeys_respond {α : Type} {allowed : List VaultEvent → VaultOp → Prop}
    {path : List VaultEvent → α → Prop} {wrap : α → Response} {p : VaultProgram α}
    (h : Program.Obeys (S := vaultSignature) allowed path [] p) :
    Program.Obeys (S := vaultSignature) allowed
      (fun history response => ∃ result, response = wrap result ∧ path history result) []
      (p >>= fun result => .done (wrap result)) :=
  Program.obeys_bind h fun _ value hpath => ⟨value, rfl, hpath⟩

theorem register_obeys (name : String) (key : Bytes) (rng : Rng) (os : OsAnswers) :
    Program.Obeys (S := vaultSignature) (Request.Allowed env (.register name key rng os))
      (RegisterPath env name key rng os) [] (register env name key rng os) := by
  unfold register isLockedOut
  refine obeys_perform_bind ⟨trivial, trivial⟩ fun (locked : Bool) => ?_
  cases locked with
  | true => exact .lockedOut
  | false =>
    refine obeys_perform_bind ⟨trivial, trivial⟩ fun (snapshot : KeyMap) => ?_
    by_cases hname : snapshot.hasName name = true
    · rw [if_pos hname]
      exact .duplicate snapshot hname
    · rw [if_neg hname]
      cases hfragment : fragmentForRegistry env os key rng with
      | error exit => exact .failed snapshot exit hfragment
      | ok fragments =>
        unfold installKey
        refine obeys_perform_bind ⟨trivial, snapshot, rfl⟩ fun (id : KeyId) => ?_
        refine obeys_perform_bind ⟨trivial, trivial⟩ fun (time : Duration) => ?_
        refine obeys_perform_bind ⟨rfl, snapshot, time, fragments, rfl, hfragment, rfl⟩
          fun (inserted : Bool) => ?_
        cases inserted with
        | false => exact .refused snapshot id time _ rfl
        | true =>
          exact obeys_emitAudit_bind ⟨trivial, trivial⟩
            (.installed snapshot id time fragments hfragment)

theorem unregister_obeys (handle : KeyId) :
    Program.Obeys (S := vaultSignature) (Request.Allowed env (.unregister handle))
      (UnregisterPath env handle) [] (unregister env handle) := by
  unfold unregister
  refine obeys_perform_bind ⟨rfl, rfl, rfl⟩ fun (removed : Option String) => ?_
  cases removed with
  | none => exact .absent
  | some name => exact obeys_emitAudit_bind ⟨trivial, trivial⟩ (.removed name)

theorem rotate_obeys (handle : KeyId) (key : Bytes) (rng : Rng) (os : OsAnswers) :
    Program.Obeys (S := vaultSignature) (Request.Allowed env (.rotate handle key rng os))
      (RotatePath env handle key rng os) [] (rotate env handle key rng os) := by
  rw [rotate_checkedThen]
  refine obeys_checkedThen ?_ .lockedOut .absent .keyLocked ?_
  · rintro history _ (rfl | rfl | rfl | ⟨name, rfl⟩) <;> exact ⟨trivial, trivial⟩
  · intro snapshot entry check hlookup hcheck
    cases hfragment : fragmentForRegistry env os key rng with
    | error exit => exact .failed snapshot entry check exit hfragment hcheck
    | ok fragments =>
      unfold swapKey
      refine obeys_perform_bind ⟨trivial, trivial⟩ fun (time : Duration) => ?_
      refine obeys_perform_bind ⟨rfl, snapshot, entry, check, time, hlookup, rfl, hcheck,
        hfragment, rfl, rfl⟩ fun (replaced : Option String) => ?_
      rw [List.append_assoc]
      cases replaced with
      | none => exact .gone snapshot entry check time fragments _ hcheck
      | some name =>
        exact obeys_emitAudit_bind ⟨trivial, trivial⟩
          (.replaced snapshot entry check time fragments name hcheck hfragment)

theorem withKey_obeys (handle : KeyId) (opens : Bool) (scratch : Bytes) :
    Program.Obeys (S := vaultSignature) (Request.Allowed env (.withKey handle opens scratch))
      (WithKeyPath env handle opens scratch) [] (withKey env handle opens scratch id) := by
  rw [withKey_checkedThen]
  refine obeys_checkedThen ?_ .lockedOut .absent .keyLocked ?_
  · rintro history _ (rfl | rfl | rfl | ⟨name, rfl⟩) <;> exact ⟨trivial, trivial⟩
  · intro snapshot entry check hlookup hcheck
    unfold readEntry
    cases hread : (readKey env entry.fragments opens scratch id).1 with
    | error exit => exact .failed snapshot entry check exit hlookup hcheck hread
    | ok bytes =>
      exact obeys_emitAudit_bind ⟨trivial, trivial⟩
        (.read snapshot entry check bytes hlookup hcheck hread)

theorem program_obeys (request : Request) :
    Program.Obeys (S := vaultSignature) (request.Allowed env) (request.Ends env) []
      (request.program env) := by
  cases request with
  | register name key rng os => exact obeys_respond (register_obeys env name key rng os)
  | unregister handle => exact obeys_respond (unregister_obeys env handle)
  | rotate handle key rng os => exact obeys_respond (rotate_obeys env handle key rng os)
  | withKey handle opens scratch => exact obeys_respond (withKey_obeys env handle opens scratch)
  | _ =>
    exact obeys_of_uses (program_uses env _) (fun _ _ hop => ⟨hop, trivial⟩) fun _ _ => trivial

end Programs

end KeyVault
