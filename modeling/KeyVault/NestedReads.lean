import KeyVault.VaultProgram

/-! `with_key` calls made from inside the callbacks of others, on one thread. A callback
decides what to call from the bytes it was given and from what its calls returned. The
two builds differ in where a call keeps the reassembled key: one scratch buffer for the
thread, borrowed while the callback runs, or a buffer for each call. -/
namespace KeyVault

open Atomic

def checkedLookup (handle : KeyId) : VaultProgram (Result KeyEntry) := do
  if ← isLockedOut then
    return fail .lockedOut
  let snapshot ← loadKeys
  match snapshot.lookup handle with
  | none => return fail .keyNotFound
  | some entry =>
      if ← keyLocked entry.name then
        return fail .lockedOut
      return .ok entry

theorem checkedLookup_eq (handle : KeyId) :
    checkedLookup handle = checkedThen handle fun entry => return .ok entry := rfl

theorem withKey_eq {α : Type} (env : Environment) (handle : KeyId) (opens : Bool) (scratch : Bytes)
    (f : Bytes → α) : withKey env handle opens scratch f =
      checkedLookup handle >>= fun admitted =>
        match admitted with
        | .error exit => return .error exit
        | .ok entry => readEntry env entry opens scratch f := by
  rw [withKey_checkedThen]
  unfold checkedThen checkedLookup isLockedOut
  rw [Interleaving.Program.bind_assoc]
  congr 1
  funext lockedOut
  cases lockedOut with
  | true => rfl
  | false =>
    simp only [Bool.false_eq_true, if_false]
    rw [Interleaving.Program.bind_assoc]
    congr 1
    funext snapshot
    cases snapshot.lookup handle with
    | none => rfl
    | some entry =>
      dsimp only
      rw [Interleaving.Program.bind_assoc]
      congr 1
      funext locked
      cases locked <;> rfl

def Vault.checkedLookup (env : Environment) (v : Vault) (handle : KeyId) : Result KeyEntry × Vault :=
  if v.lockedOut then (fail .lockedOut, v)
  else
    match v.keys.lookup handle with
    | none => (fail .keyNotFound, v)
    | some entry =>
        if v.keyLocksActive = 0 then (.ok entry, v)
        else
          match v.keyLockedSlow env entry.name with
          | (true, v) => (fail .lockedOut, v)
          | (false, v) => (.ok entry, v)

def Vault.audited (env : Environment) (v : Vault) (keyName : String) (kind : AccessKind)
    (note : String) : Vault :=
  if env.auditIsNoOp then v
  else { v with auditTrail := v.auditTrail ++ [⟨v.unixTime, keyName, kind, note⟩] }

theorem runAlone_checkedLookup (env : Environment) (v : Vault) (handle : KeyId) :
    runAlone env (checkedLookup handle) v = some (v.checkedLookup env handle) := by
  unfold checkedLookup isLockedOut Vault.checkedLookup
  simp only [runAlone_bind, runAlone_loadLockedOut, Option.bind_some]
  cases v.lockedOut with
  | true => rfl
  | false =>
    simp only [runAlone_bind, runAlone_loadKeys, Option.bind_some, Bool.false_eq_true, if_false]
    cases v.keys.lookup handle with
    | none => rfl
    | some entry =>
      simp only [keyLocked, runAlone_bind, runAlone_loadKeyLocksActive, Option.bind_some]
      by_cases hactive : v.keyLocksActive = 0
      · simp only [hactive, if_true]
        rfl
      · simp only [hactive, if_false, runAlone_keyLockedSlow, Option.bind_some]
        rcases v.keyLockedSlow env entry.name with ⟨locked, after⟩
        cases locked <;> rfl

theorem runAlone_emitAudit_audited (env : Environment) (v : Vault) (keyName : String) (kind : AccessKind)
    (note : String) :
    runAlone env (emitAudit env keyName kind note) v = some ((), v.audited env keyName kind note) := by
  unfold emitAudit Vault.audited
  split <;> rfl

/-! ### Trees of calls -/

/-- What a callback does: it returns, or it calls `with_key` with a callback of its own
and goes on with the result. -/
inductive Calls where
  | done (value : Bytes)
  | withKey (vault : Nat) (handle : KeyId) (opens : Bool) (callback : Bytes → Calls)
      (next : Result Bytes → Calls)

structure Build (σ : Type) where
  /-- A buffer of the given length; `none` if it cannot be borrowed. -/
  borrow : σ → Nat → Option (Bytes × σ)
  /-- The buffer has been filled. -/
  fill : σ → Bytes → σ
  /-- What the buffer in use holds. -/
  view : σ → Bytes
  /-- The buffer in use is wiped and given back. -/
  release : σ → σ

structure Scratch where
  front : Bytes
  rest : Bytes
  borrowed : Bool
deriving DecidableEq, Repr

def stdBuild : Build Scratch where
  borrow s total :=
    if s.borrowed then none
    else
      let buf := ensureLen (s.front ++ s.rest) total
      some (buf.take total, ⟨buf.take total, buf.drop total, true⟩)
  fill s bytes := { s with front := bytes }
  view s := s.front
  release s := ⟨s.front.map fun _ => 0, s.rest, false⟩

def noStdBuild : Build (List Bytes) where
  borrow s total := some (List.replicate total 0, List.replicate total 0 :: s)
  fill s bytes := bytes :: s.tail
  view s := s.head?.getD []
  release s := s.tail

inductive Cause where
  /-- The strategy or the codex did. -/
  | strategy
  | alreadyBorrowed
deriving DecidableEq, Repr

inductive Ending where
  | returned (value : Bytes)
  | unwound (cause : Cause)
deriving DecidableEq, Repr

structure CallRecord where
  vault : Nat
  handle : KeyId
  result : Result Bytes
  seen : Option (Bytes × Bytes)
deriving DecidableEq

structure ThreadState (σ : Type) where
  world : Nat → Vault
  buffers : σ
  log : List CallRecord

namespace Calls

variable {σ : Type} (envs : Nat → Environment)

/-- Run a callback, or a thread from outside any callback. A panic unwinds to the top,
and every buffer is given back on the way. -/
def run (b : Build σ) : Calls → ThreadState σ → Ending × ThreadState σ
  | .done value, s => (.returned value, s)
  | .withKey vault handle opens callback next, s =>
      let (admitted, v) := (s.world vault).checkedLookup (envs vault) handle
      let s := { s with world := Function.update s.world vault v }
      match admitted with
      | .error exit =>
          (next (.error exit)).run b { s with log := s.log ++ [⟨vault, handle, .error exit, none⟩] }
      | .ok entry =>
          match b.borrow s.buffers entry.fragments.totalLen with
          | none => (.unwound .alreadyBorrowed, s)
          | some (buffer, buffers) =>
              match reassemble (envs vault) entry.fragments opens buffer with
              | (.error .panic, _) => (.unwound .strategy, { s with buffers := b.release buffers })
              | (.error (.error error), _) =>
                  (next (fail error)).run b { s with
                    buffers := b.release buffers
                    log := s.log ++ [⟨vault, handle, fail error, none⟩] }
              | (.ok (), bytes) =>
                  match (callback bytes).run b { s with buffers := b.fill buffers bytes } with
                  | (.unwound cause, s) =>
                      (.unwound cause, { s with buffers := b.release s.buffers })
                  | (.returned value, s) =>
                      let v := (s.world vault).audited (envs vault) entry.name .read ""
                      (next (.ok value)).run b { s with
                        world := Function.update s.world vault v
                        buffers := b.release s.buffers
                        log := s.log ++
                          [⟨vault, handle, .ok value, some (bytes, b.view s.buffers)⟩] }

/-- Follow a callback in which the checks refuse every call: its value, and the vaults
afterwards. There is none if a call passes them. -/
def refusedThroughout : Calls → (Nat → Vault) → Option (Bytes × (Nat → Vault))
  | .done value, world => some (value, world)
  | .withKey vault handle _ _ next, world =>
      match (world vault).checkedLookup (envs vault) handle with
      | (.ok _, _) => none
      | (.error exit, v) =>
          (next (.error exit)).refusedThroughout (Function.update world vault v)

/-- No call from inside a callback passes the checks that come before the read: its vault
is locked out, its key is not there, or its key is locked out. -/
def Unnested : Calls → (Nat → Vault) → Prop
  | .done _, _ => True
  | .withKey vault handle opens callback next, world =>
      match (world vault).checkedLookup (envs vault) handle with
      | (.error exit, v) => (next (.error exit)).Unnested (Function.update world vault v)
      | (.ok entry, v) =>
          match reassemble (envs vault) entry.fragments opens
              (List.replicate entry.fragments.totalLen 0) with
          | (.error .panic, _) => True
          | (.error (.error error), _) =>
              (next (fail error)).Unnested (Function.update world vault v)
          | (.ok (), bytes) =>
              match (callback bytes).refusedThroughout envs (Function.update world vault v) with
              | none => False
              | some (value, world) => (next (.ok value)).Unnested (Function.update world vault
                  ((world vault).audited (envs vault) entry.name .read ""))

variable {envs}

theorem run_refusedThroughout {calls : Calls} {world world' : Nat → Vault} {value : Bytes}
    (h : calls.refusedThroughout envs world = some (value, world')) :
    ∃ refusals, (∀ record ∈ refusals, record.seen = none) ∧
      ∀ {σ : Type} (b : Build σ) (buffers : σ) (log : List CallRecord),
        calls.run envs b ⟨world, buffers, log⟩ =
          (.returned value, ⟨world', buffers, log ++ refusals⟩) := by
  induction calls generalizing world with
  | done result =>
    cases h
    refine ⟨[], by simp, ?_⟩
    intro σ b buffers log
    rw [List.append_nil]
    rfl
  | withKey vault handle opens callback next ihcallback ihnext =>
    unfold refusedThroughout at h
    rcases hchecked : (world vault).checkedLookup (envs vault) handle with ⟨admitted, v⟩
    rw [hchecked] at h
    cases admitted with
    | ok entry => cases h
    | error exit =>
      obtain ⟨refusals, hseen, hrun⟩ := ihnext (.error exit) h
      refine ⟨⟨vault, handle, .error exit, none⟩ :: refusals, ?_, ?_⟩
      · intro record hrecord
        rcases List.mem_cons.mp hrecord with rfl | hrecord
        · rfl
        · exact hseen record hrecord
      · intro σ b buffers log
        unfold run
        simp only [hchecked]
        rw [hrun b, List.append_assoc]
        rfl

theorem run_borrowed {calls : Calls} {world : Nat → Vault}
    (h : calls.refusedThroughout envs world = none) (front rest : Bytes) (log : List CallRecord) :
    (calls.run envs stdBuild ⟨world, ⟨front, rest, true⟩, log⟩).1 = .unwound .alreadyBorrowed := by
  induction calls generalizing world log with
  | done result => cases h
  | withKey vault handle opens callback next ihcallback ihnext =>
    unfold refusedThroughout at h
    rcases hchecked : (world vault).checkedLookup (envs vault) handle with ⟨admitted, v⟩
    rw [hchecked] at h
    unfold run
    simp only [hchecked]
    cases admitted with
    | ok entry => rfl
    | error exit => exact ihnext (.error exit) h _

end Calls

namespace Scratch

structure Idle (s : Scratch) : Prop where
  free : s.borrowed = false
  wiped : ∀ byte ∈ s.front ++ s.rest, byte = 0

theorem idle_start (length : Nat) : Idle ⟨[], List.replicate length 0, false⟩ :=
  ⟨rfl, fun _ hbyte => List.eq_of_mem_replicate hbyte⟩

variable {s : Scratch}

theorem Idle.borrow (h : s.Idle) (total : Nat) : ∃ rest, (∀ byte ∈ rest, byte = 0) ∧
    stdBuild.borrow s total =
      some (List.replicate total 0, ⟨List.replicate total 0, rest, true⟩) := by
  have hlength : total ≤ (ensureLen (s.front ++ s.rest) total).length := by
    unfold ensureLen
    split
    · assumption
    · rw [List.length_replicate]
  have hzero : ∀ byte ∈ ensureLen (s.front ++ s.rest) total, byte = 0 := by
    intro byte hbyte
    unfold ensureLen at hbyte
    split at hbyte
    · exact h.wiped byte hbyte
    · exact List.eq_of_mem_replicate hbyte
  have hfront : (ensureLen (s.front ++ s.rest) total).take total = List.replicate total 0 := by
    rw [List.eq_replicate_iff]
    exact ⟨by rw [List.length_take, Nat.min_eq_left hlength],
      fun byte hbyte => hzero byte (List.mem_of_mem_take hbyte)⟩
  refine ⟨(ensureLen (s.front ++ s.rest) total).drop total,
    fun byte hbyte => hzero byte (List.mem_of_mem_drop hbyte), ?_⟩
  simp only [stdBuild, h.free, Bool.false_eq_true, if_false, hfront]

theorem idle_release (front : Bytes) {rest : Bytes} (h : ∀ byte ∈ rest, byte = 0) (borrowed : Bool) :
    Idle (stdBuild.release ⟨front, rest, borrowed⟩) where
  free := rfl
  wiped byte hbyte := by
    rcases List.mem_append.mp hbyte with hbyte | hbyte
    · obtain ⟨-, -, rfl⟩ := List.mem_map.mp hbyte
      rfl
    · exact h byte hbyte

end Scratch

namespace Calls

variable {envs : Nat → Environment} {world : Nat → Vault}

/-- Every callback found the same bytes in its buffer at the end as at first. -/
def Undisturbed (log : List CallRecord) : Prop :=
  ∀ record ∈ log, ∀ first last, record.seen = some (first, last) → first = last

/-- Both builds do the same: they return or unwind alike, without a failed borrow, leave
the same vaults behind and add the same calls to the log. -/
def SameRun (envs : Nat → Environment) (calls : Calls) (world : Nat → Vault) (scratch : Scratch)
    (stack : List Bytes) (log : List CallRecord) : Prop :=
  ∃ ending world' scratch' more, scratch'.Idle ∧ ending ≠ .unwound .alreadyBorrowed ∧
    Undisturbed more ∧
    calls.run envs stdBuild ⟨world, scratch, log⟩ = (ending, ⟨world', scratch', log ++ more⟩) ∧
    calls.run envs noStdBuild ⟨world, stack, log⟩ = (ending, ⟨world', stack, log ++ more⟩)

theorem SameRun.after {calls next : Calls} {world' : Nat → Vault} {scratch scratch' : Scratch}
    {stack : List Bytes} {log more : List CallRecord} (hmore : Undisturbed more)
    (h : SameRun envs next world' scratch' stack (log ++ more))
    (hstd : calls.run envs stdBuild ⟨world, scratch, log⟩ =
      next.run envs stdBuild ⟨world', scratch', log ++ more⟩)
    (hnoStd : calls.run envs noStdBuild ⟨world, stack, log⟩ =
      next.run envs noStdBuild ⟨world', stack, log ++ more⟩) :
    SameRun envs calls world scratch stack log := by
  obtain ⟨ending, world'', scratch'', later, hidle, hcalm, hlater, hnextStd, hnextNoStd⟩ := h
  refine ⟨ending, world'', scratch'', more ++ later, hidle, hcalm, ?_, ?_, ?_⟩
  · intro record hrecord
    rcases List.mem_append.mp hrecord with hrecord | hrecord
    · exact hmore record hrecord
    · exact hlater record hrecord
  · rw [hstd, hnextStd, List.append_assoc]
  · rw [hnoStd, hnextNoStd, List.append_assoc]

theorem undisturbed_refused (vault : Nat) (handle : KeyId) (result : Result Bytes) :
    Undisturbed [⟨vault, handle, result, none⟩] := by
  intro record hrecord first last hseen
  rw [List.mem_singleton.mp hrecord] at hseen
  cases hseen

theorem sameRun_of_unnested {calls : Calls} (h : calls.Unnested envs world) {scratch : Scratch}
    (hidle : scratch.Idle) (stack : List Bytes) (log : List CallRecord) :
    SameRun envs calls world scratch stack log := by
  induction calls generalizing world scratch log with
  | done value =>
    exact ⟨.returned value, world, scratch, [], hidle, Ending.noConfusion, by simp [Undisturbed],
      by rw [List.append_nil]; rfl, by rw [List.append_nil]; rfl⟩
  | withKey vault handle opens callback next ihcallback ihnext =>
    unfold Unnested at h
    rcases hchecked : (world vault).checkedLookup (envs vault) handle with ⟨admitted, v⟩
    rw [hchecked] at h
    cases admitted with
    | error exit =>
      refine SameRun.after (undisturbed_refused vault handle (.error exit))
        (ihnext _ h hidle _) ?_ ?_
      · simp only [run, hchecked]
      · simp only [run, hchecked]
    | ok entry =>
      obtain ⟨rest, hrest, hborrow⟩ := hidle.borrow entry.fragments.totalLen
      dsimp only at h
      split at h
      · rename_i out hread
        refine ⟨.unwound .strategy, Function.update world vault v, _, [],
          Scratch.idle_release (List.replicate entry.fragments.totalLen 0) hrest true,
          by simp, by simp [Undisturbed], ?_, ?_⟩
        · simp only [run, hchecked, hborrow, hread, List.append_nil]
        · simp only [run, hchecked, noStdBuild, hread, List.append_nil, List.tail_cons]
      · rename_i error out hread
        have hreleased := Scratch.idle_release (List.replicate entry.fragments.totalLen 0) hrest true
        refine SameRun.after (undisturbed_refused vault handle (fail error))
          (ihnext _ h hreleased _) ?_ ?_
        · simp only [run, hchecked, hborrow, hread]
        · simp only [run, hchecked, noStdBuild, hread, List.tail_cons]
      · rename_i bytes hread
        split at h
        · cases h
        · rename_i value world' hcallback
          obtain ⟨refusals, hrefusals, hrun⟩ := run_refusedThroughout hcallback
          have hreleased := Scratch.idle_release bytes hrest true
          have hmore : Undisturbed (refusals ++
              [⟨vault, handle, .ok value, some (bytes, bytes)⟩]) := by
            intro record hrecord first last hseen
            rcases List.mem_append.mp hrecord with hrecord | hrecord
            · rw [hrefusals record hrecord] at hseen
              cases hseen
            · rw [List.mem_singleton.mp hrecord] at hseen
              cases hseen
              rfl
          refine SameRun.after hmore (ihnext _ h hreleased _) ?_ ?_
          · simp only [run, hchecked, hborrow, hread, hrun, List.append_assoc]
            rfl
          · simp only [run, hchecked, noStdBuild, hread, hrun, List.tail_cons, List.head?_cons,
              Option.getD_some, List.append_assoc]

theorem unwound_of_nested {calls : Calls} (h : ¬calls.Unnested envs world) {scratch : Scratch}
    (hidle : scratch.Idle) (log : List CallRecord) :
    (calls.run envs stdBuild ⟨world, scratch, log⟩).1 = .unwound .alreadyBorrowed := by
  induction calls generalizing world scratch log with
  | done value => exact absurd trivial h
  | withKey vault handle opens callback next ihcallback ihnext =>
    unfold Unnested at h
    rcases hchecked : (world vault).checkedLookup (envs vault) handle with ⟨admitted, v⟩
    rw [hchecked] at h
    cases admitted with
    | error exit =>
      simp only [run, hchecked]
      exact ihnext _ h hidle _
    | ok entry =>
      obtain ⟨rest, hrest, hborrow⟩ := hidle.borrow entry.fragments.totalLen
      dsimp only at h
      split at h
      · exact absurd trivial h
      · rename_i error out hread
        simp only [run, hchecked, hborrow, hread]
        exact ihnext _ h (Scratch.idle_release _ hrest true) _
      · rename_i bytes hread
        split at h
        · rename_i hcallback
          have hnested : ((callback bytes).run envs stdBuild ⟨Function.update world vault v,
              stdBuild.fill ⟨List.replicate entry.fragments.totalLen 0, rest, true⟩ bytes,
              log⟩).1 = .unwound .alreadyBorrowed := run_borrowed hcallback bytes rest log
          simp only [run, hchecked, hborrow, hread]
          rcases hinner : (callback bytes).run envs stdBuild ⟨Function.update world vault v,
              stdBuild.fill ⟨List.replicate entry.fragments.totalLen 0, rest, true⟩ bytes,
              log⟩ with ⟨ending, after⟩
          rw [hinner] at hnested
          cases hnested
          rfl
        · rename_i value world' hcallback
          obtain ⟨refusals, -, hrun⟩ := run_refusedThroughout hcallback
          simp only [run, hchecked, hborrow, hread, hrun]
          exact ihnext _ h (Scratch.idle_release _ hrest true) _

def stdStart (world : Nat → Vault) (length : Nat) : ThreadState Scratch :=
  ⟨world, ⟨[], List.replicate length 0, false⟩, []⟩

def noStdStart (world : Nat → Vault) : ThreadState (List Bytes) := ⟨world, [], []⟩

/-- What nesting promises: the same results in both builds, every callback with the bytes
of its own key in the buffer for as long as it runs, and no panic of the vault. A panic of
a strategy or a codex unwinds both builds alike. -/
structure NestsWell (envs : Nat → Environment) (calls : Calls) (world : Nat → Vault)
    (length : Nat) : Prop where
  ending : (calls.run envs stdBuild (stdStart world length)).1 =
    (calls.run envs noStdBuild (noStdStart world)).1
  results : (calls.run envs stdBuild (stdStart world length)).2.log =
    (calls.run envs noStdBuild (noStdStart world)).2.log
  vaults : (calls.run envs stdBuild (stdStart world length)).2.world =
    (calls.run envs noStdBuild (noStdStart world)).2.world
  undisturbed : Undisturbed (calls.run envs stdBuild (stdStart world length)).2.log
  calm : (calls.run envs stdBuild (stdStart world length)).1 ≠ .unwound .alreadyBorrowed

/-- Exactly the calls that do not nest do what nesting promises. -/
theorem nestsWell_iff (calls : Calls) (world : Nat → Vault) (length : Nat) :
    NestsWell envs calls world length ↔ calls.Unnested envs world := by
  constructor
  · intro h
    by_contra hnested
    exact h.calm (unwound_of_nested hnested (Scratch.idle_start length) [])
  · intro h
    obtain ⟨ending, world', scratch', more, -, hcalm, hundisturbed, hstd, hnoStd⟩ :=
      sameRun_of_unnested h (Scratch.idle_start length) [] []
    rw [List.nil_append] at hstd hnoStd
    have hstd : calls.run envs stdBuild (stdStart world length) =
      (ending, ⟨world', scratch', more⟩) := hstd
    have hnoStd : calls.run envs noStdBuild (noStdStart world) = (ending, ⟨world', [], more⟩) :=
      hnoStd
    exact ⟨by rw [hstd, hnoStd], by rw [hstd, hnoStd], by rw [hstd, hnoStd], by rw [hstd]; exact hundisturbed,
      by rw [hstd]; exact hcalm⟩

/-- With a callback that makes no calls of its own, a call of the tree is the call of the
vault. -/
theorem run_eq_withKey {vault : Nat} {handle : KeyId} {opens : Bool} {f : Bytes → Bytes}
    {next : Result Bytes → Calls} {scratch : Scratch} (hfree : scratch.borrowed = false)
    {log : List CallRecord} {result : Result Bytes} {v : Vault}
    (hcall : runAlone (envs vault) (KeyVault.withKey (envs vault) handle opens
      (scratch.front ++ scratch.rest) f) (world vault) = some (result, v))
    (hreturns : result ≠ .error .panic) :
    ∃ scratch' seen, (Calls.withKey vault handle opens (fun bytes => .done (f bytes)) next).run envs
        stdBuild ⟨world, scratch, log⟩ =
      (next result).run envs stdBuild ⟨Function.update world vault v, scratch',
        log ++ [⟨vault, handle, result, seen⟩]⟩ := by
  rw [withKey_eq, runAlone_bind, runAlone_checkedLookup, Option.bind_some] at hcall
  rcases hchecked : (world vault).checkedLookup (envs vault) handle with ⟨admitted, admittedVault⟩
  rw [hchecked] at hcall
  simp only [run, hchecked]
  cases admitted with
  | error exit =>
    cases hcall
    exact ⟨scratch, none, rfl⟩
  | ok entry =>
    simp only [readEntry, readKey] at hcall
    generalize hbuf : ensureLen (scratch.front ++ scratch.rest) entry.fragments.totalLen = buf at hcall
    have hborrow : stdBuild.borrow scratch entry.fragments.totalLen =
        some (buf.take entry.fragments.totalLen,
          ⟨buf.take entry.fragments.totalLen, buf.drop entry.fragments.totalLen, true⟩) := by
      simp only [stdBuild, hfree, Bool.false_eq_true, if_false, hbuf]
    simp only [hborrow]
    rcases hread : reassemble (envs vault) entry.fragments opens
      (buf.take entry.fragments.totalLen) with ⟨outcome, bytes⟩
    rw [hread] at hcall
    cases outcome with
    | error exit =>
      cases hcall
      cases exit with
      | panic => exact absurd rfl hreturns
      | error error => exact ⟨_, none, rfl⟩
    | ok _ =>
      simp only [runAlone_bind, runAlone_emitAudit_audited, Option.bind_some] at hcall
      cases hcall
      simp only [Function.update_self, Function.update_idem]
      exact ⟨_, _, rfl⟩

end Calls

def oneKeyVault : Vault :=
  ((runAlone (Environment.plain {}) (register (Environment.plain {}) "k" [1, 2, 3] (.constant 5)
    ⟨true, true, true⟩) (Vault.new 0 0 0)).map Prod.snd).getD (Vault.new 0 0 0)

def readTwice : Calls :=
  .withKey 0 1 true
    (fun bytes => .withKey 0 1 true (fun inner => .done inner) fun _ => .done bytes)
    fun result => .done (result.toOption.getD [])

theorem readTwice_not_nestsWell :
    (readTwice.run (fun _ => Environment.plain {}) noStdBuild
      (Calls.noStdStart fun _ => oneKeyVault)).1 = .returned [1, 2, 3] ∧
    ¬Calls.NestsWell (fun _ => Environment.plain {}) readTwice (fun _ => oneKeyVault) 0 := by
  constructor
  · decide +kernel
  · intro h
    apply h.calm
    decide +kernel

end KeyVault
