import KeyVault.KeyLockCounter
import KeyVault.RegistryCalls
import KeyVault.WriterContracts

/-! Writers against lockouts, over whole runs. A lockout that sets in between the
look of a writer and its critical section is not seen. As long as none does, nothing
is installed under a lockout, and a call that a lockout overtakes before it looks is
refused. -/
namespace KeyVault

open Interleaving

def Request.clearsKey : Request → Bool
  | .clearKeyLockout _ => true
  | _ => false

/-- No step locks out a writer that has already looked. Calls of all kinds but
`clear_key_lockout` may run. -/
def Unovertaken (c : VaultConfiguration) : Action Request Surroundings → Prop
  | .exec caller => ∀ op ∈ nextOp c caller, ∀ call ∈ c.calls, ∀ next ∈ call.rest.next?,
      call.request.overtakenBy c.shared next op = false
  | .invoke request => request.clearsKey = false
  | .external _ => True

instance (c : VaultConfiguration) : DecidablePred (Unovertaken c)
  | .exec caller => inferInstanceAs (Decidable (∀ op ∈ nextOp c caller, ∀ call ∈ c.calls,
      ∀ next ∈ call.rest.next?, call.request.overtakenBy c.shared next op = false))
  | .invoke request => inferInstanceAs (Decidable (request.clearsKey = false))
  | .external _ => inferInstanceAs (Decidable True)

/-! ### The counter stays right -/

theorem Vault.Counted.perform {env : Environment} {request : Request} {op : VaultOp}
    {ret : op.Ret} {v v' : Vault} (h : v.Counted env) (hmay : request.MayUse op)
    (hrequest : request.clearsKey = false)
    (hperform : Vault.perform env op v = some (ret, v')) : v'.Counted env := by
  cases op with
  | lockKey name deadline => exact (h.lockKey hperform).1
  | keyLockedSlow name =>
    obtain rfl : (v.keyLockedSlow env name).2 = v' := congrArg Prod.snd (Option.some.inj hperform)
    exact (keyLockedSlow_spec h name).2.2
  | clearKeyLocks =>
    cases hperform
    exact ⟨rfl, Nat.two_pow_pos _⟩
  | unlockKey name =>
    cases request with
    | clearKeyLockout cleared => cases hrequest
    | _ => cases hmay
  | subKeyLocksActive =>
    cases request with
    | clearKeyLockout cleared => cases hrequest
    | _ => cases hmay
  | _ =>
    obtain ⟨hlocks, hactive⟩ := (Vault.perform_frame hperform).keyLocks rfl
    refine ⟨?_, ?_⟩
    · rw [hlocks, hactive]
      exact h.active
    · rw [hlocks]
      exact h.bounded

structure CountedCalls (env : Environment) (c : VaultConfiguration) : Prop where
  orderly : OrderlyCalls env c
  counted : c.shared.Counted env
  requests : ∀ call ∈ c.calls, call.request.clearsKey = false

theorem countedCalls_start (env : Environment) (clock unixTime : Duration) (handles : Nat) :
    CountedCalls env (Config.start (Vault.new clock unixTime handles)) where
  orderly := Machine.orderly_start _
  counted := counted_new env clock unixTime handles
  requests := by
    intro call hcall
    cases hcall

theorem CountedCalls.step {env : Environment} {c c' : VaultConfiguration}
    {action : Action Request Surroundings} (h : CountedCalls env c) (hok : Unovertaken c action)
    (hstep : (vaultMachine env).step c action = some c') : CountedCalls env c' := by
  have hone : (vaultMachine env).Reaches c c' := .tail (.refl c) trivial hstep
  have horderly := hone.orderly (program_obeys env) h.orderly
  cases action with
  | invoke request =>
    rw [Machine.step_invoke_iff] at hstep
    subst hstep
    refine ⟨horderly, h.counted, ?_⟩
    intro call hcall
    rcases List.mem_append.mp hcall with hold | hnew
    · exact h.requests call hold
    · rw [List.mem_singleton.mp hnew]
      exact hok
  | exec caller =>
    obtain ⟨request, op, next, ret, v, hcall, hperform, rfl⟩ := Machine.step_exec_iff.mp hstep
    obtain ⟨⟨hmay, -⟩, -⟩ := h.orderly.obeys caller _ hcall
    have hrequest := h.requests _ (List.mem_of_getElem? hcall)
    refine ⟨horderly, h.counted.perform hmay hrequest hperform, ?_⟩
    intro call hmem
    rcases List.mem_or_eq_of_mem_set hmem with hold | rfl
    · exact h.requests call hold
    · exact hrequest
  | external event =>
    obtain ⟨v, hact, rfl⟩ := Machine.step_external_iff.mp hstep
    obtain ⟨clock, unixTime, handles, -, -, rfl⟩ := Surroundings.act_frame hact
    exact ⟨horderly, ⟨h.counted.active, h.counted.bounded⟩, h.requests⟩

/-! ### Whole runs -/

/-- A call that a lockout has overtaken and that stays under it is refused and
changes nothing. -/
def RefusedWhenBarred (env : Environment)
    (ok : VaultConfiguration → Action Request Surroundings → Prop) (c : VaultConfiguration)
    (caller : Nat) (request : Request) : Prop :=
  ∀ c' response,
    (vaultMachine env).Runs (fun d action => ok d action ∧ d.shared.Bars request) c c' →
    c'.Returned caller request response →
    response = request.refusal ∧ commitsBy c'.log caller = []

/-- In the state reached, no call is about to install anything under a lockout, and
every call that a lockout has overtaken before its critical section is refused. -/
structure LockoutRespected (env : Environment)
    (ok : VaultConfiguration → Action Request Surroundings → Prop) (c : VaultConfiguration) :
    Prop where
  installs : ∀ (caller : Nat) (call : Activation vaultSignature Request Response),
    c.calls[caller]? = some call → ∀ op ∈ call.rest.next?, c.shared.Installs op →
    ¬ c.shared.Bars call.request
  refuses : ∀ (caller : Nat) (call : Activation vaultSignature Request Response),
    c.calls[caller]? = some call → ∀ op ∈ call.rest.next?, call.request.approaching op = true →
    c.shared.Bars call.request → RefusedWhenBarred env ok c caller call.request

section Runs

variable {env : Environment} {c c' : VaultConfiguration}

theorem undisturbed_of_step {action : Action Request Surroundings} {caller : Nat}
    {request : Request} {op : VaultOp} {next : op.Ret → VaultProgram Response}
    (hok : Unovertaken c action) (hstep : (vaultMachine env).step c action = some c')
    (hcall : c.calls[caller]? = some ⟨request, .step op next⟩) :
    Undisturbed request op c.shared c'.shared := by
  cases action with
  | invoke new =>
    rw [Machine.step_invoke_iff] at hstep
    subst hstep
    exact undisturbed_refl request op c.shared
  | exec other =>
    obtain ⟨moved, done, rest, ret, v, hother, hperform, rfl⟩ := Machine.step_exec_iff.mp hstep
    apply undisturbed_of_perform hperform
    apply hok done _ _ (List.mem_of_getElem? hcall) op rfl
    unfold nextOp
    rw [hother]
    rfl
  | external event =>
    obtain ⟨v, hact, rfl⟩ := Machine.step_external_iff.mp hstep
    exact undisturbed_of_act hact

theorem failed_refusal (request : Request) : request.refusal.Failed := by
  cases request <;> trivial

theorem refusedWhenBarred (h : CountedCalls env c) {caller : Nat} {request : Request}
    {p : VaultProgram Response} (hcall : c.calls[caller]? = some ⟨request, p⟩)
    (hrefused : Refused env request p c.shared) :
    RefusedWhenBarred env Unovertaken c caller request := by
  intro c' response hrun hreturned
  obtain ⟨hstrong, hcounted⟩ := hrun.strengthen h fun d action d' hd hok hstep => hd.step hok.1 hstep
  have hkept := hstrong.kept_call (k := refusalContract env request)
    (fun d action hok => ⟨hok.2.counted, hok.1.2⟩)
    (fun d action d' op next hok hstep hd _ => undisturbed_of_step hok.1.1 hstep hd) hcall hrefused
  obtain ⟨rest, hrest, hends⟩ := hkept
  unfold Config.Returned at hreturned
  rw [hreturned] at hrest
  cases hrest
  obtain rfl : response = request.refusal := hends
  exact ⟨rfl, hcounted.orderly.commitsBy_of_failed hreturned (failed_refusal request)⟩

end Runs

/-- In every run in which no lockout sets in while a writer stands between its look
at the lockouts and its critical section. -/
theorem writers_respect_lockout {env : Environment} {clock unixTime : Duration} {handles : Nat}
    {c : VaultConfiguration}
    (hrun : (vaultMachine env).Runs Unovertaken
      (Config.start (Vault.new clock unixTime handles)) c) :
    LockoutRespected env Unovertaken c := by
  obtain ⟨hstrong, hcounted⟩ := hrun.strengthen (countedCalls_start env clock unixTime handles)
    fun d action d' hd hok hstep => hd.step hok hstep
  have hkept := hstrong.kept (k := writerContract env)
    (fun d action request hok => hok.2.counted)
    (fun d action d' caller request op next hok hstep hcall _ =>
      undisturbed_of_step hok.1 hstep hcall)
    (fun d request _ => program_respected env request d.shared)
    (fun caller call hcall => by simp [Config.start] at hcall)
  have hpoint : ∀ (caller : Nat) (call : Activation vaultSignature Request Response),
      c.calls[caller]? = some call → ∀ op ∈ call.rest.next?,
      Respects env call.request op call.rest c.shared := by
    intro caller call hcall op hop
    have hcallKept := hkept caller call hcall
    obtain ⟨request, rest⟩ := call
    cases rest with
    | done value => cases hop
    | step next rest =>
      exact (hcallKept.now hcounted.counted).1 op hop
  constructor
  · intro caller call hcall op hop
    exact (hpoint caller call hcall op hop).installs
  · intro caller call hcall op hop happroaching hbars
    exact refusedWhenBarred hcounted hcall ((hpoint caller call hcall op hop).refused happroaching hbars)

def entering (c : VaultConfiguration) (caller : Nat) : Option Request :=
  match c.calls[caller]? with
  | some ⟨request, .step (.insertKey _ entry) _⟩ =>
      if c.shared.keys.hasName entry.name then none else some request
  | some ⟨request, .step (.replaceKey id _ _) _⟩ =>
      if (c.shared.keys.lookup id).isSome then some request else none
  | _ => none

theorem bars_of_lockedOut {request : Request} {v : Vault}
    (hwriter : request.approaching .loadLockedOut = true) (h : v.lockedOut = true) :
    v.Bars request := by
  cases request with
  | register name key rng os => exact h
  | rotate handle key rng os => exact .inl h
  | _ => cases hwriter

theorem call_of_entering {c : VaultConfiguration} {caller : Nat} {request : Request}
    (h : entering c caller = some request) :
    ∃ call op, c.calls[caller]? = some call ∧ call.request = request ∧
      op ∈ call.rest.next? ∧ c.shared.Installs op := by
  unfold entering at h
  split at h
  · rename_i id entry next hcall
    split at h
    · cases h
    · rename_i hname
      cases h
      exact ⟨_, _, hcall, rfl, rfl, Bool.eq_false_of_not_eq_true hname⟩
  · rename_i id fragments metadata next hcall
    split at h
    · rename_i hsome
      cases h
      exact ⟨_, _, hcall, rfl, rfl, hsome⟩
    · cases h
  · cases h

def lockKeyThenVault : Environment :=
  .plain { maxFailuresBeforeLockout := 2, keyLockoutThreshold := 1 }

def otherKeyLocked : List (Action Request Surroundings) :=
  [.invoke (.register "a" [1, 2, 3] (.constant 5) ⟨true, true, true⟩)] ++
  List.replicate 5 (.exec 0) ++
  [.invoke (.rotate 1 [9, 8] (.constant 6) ⟨true, true, true⟩)] ++
  List.replicate 4 (.exec 1) ++
  [.invoke (.reportFailure "b" none)] ++ List.replicate 5 (.exec 2)

theorem writers_respect_lockout_otherKey : ∃ (c : VaultConfiguration) (request : Request),
    (vaultMachine lockKeyThenVault).Runs Unovertaken (Config.start (Vault.new 0 0 0)) c ∧
      entering c 1 = some request ∧ request.rotated = some 1 ∧ c.shared.UnderLockout "b" ∧
      ¬ c.shared.Bars request ∧ LockoutRespected lockKeyThenVault Unovertaken c := by
  have hfinal : ((vaultMachine lockKeyThenVault).followWhile Unovertaken
      (Config.start (Vault.new 0 0 0)) otherKeyLocked).map (fun c =>
        (c.shared.keyLocks.lookup "b", (entering c 1).map Request.rotated)) =
      some (some none, some (some 1)) := by decide +kernel
  obtain ⟨c, hfollow, hc⟩ := Option.map_eq_some_iff.mp hfinal
  obtain ⟨hlookup, hentering⟩ := Prod.mk.inj hc
  obtain ⟨request, hentering, hrotate⟩ := Option.map_eq_some_iff.mp hentering
  have hrun := Machine.followWhile_runs hfollow
  have hrespected := writers_respect_lockout hrun
  obtain ⟨call, op, hcall, rfl, hop, hinstalls⟩ := call_of_entering hentering
  exact ⟨c, call.request, hrun, hentering, hrotate, ⟨none, hlookup, by simp⟩,
    hrespected.installs 1 call hcall op hop hinstalls, hrespected⟩

def lateLockout : List (Action Request Surroundings) :=
  [.invoke (.register "k" [1, 2, 3] (.constant 5) ⟨true, true, true⟩), .exec 0, .exec 0,
    .invoke (.reportFailure "k" none)] ++ List.replicate 5 (.exec 1) ++ [.exec 0, .exec 0]

def lockVaultAtOnce : Environment := .plain { maxFailuresBeforeLockout := 1 }

theorem writers_disregard_lockout : ∃ (c c' : VaultConfiguration),
    (vaultMachine lockVaultAtOnce).Reaches (Config.start (Vault.new 0 0 0)) c ∧
      (vaultMachine lockVaultAtOnce).step c (.exec 0) = some c' ∧
      c.shared.lockedOut = true ∧ c'.results[0]? = some (some (.handle (.ok 1))) ∧
      c.shared.names 1 = none ∧ c'.shared.names 1 = some "k" ∧
      ¬ LockoutRespected lockVaultAtOnce (fun _ _ => True) c := by
  have hrace : ((vaultMachine lockVaultAtOnce).follow (Config.start (Vault.new 0 0 0))
      lateLockout).map (fun c => (c.shared.lockedOut, c.shared.names 1,
        (entering c 0).map (·.approaching .loadLockedOut))) = some (true, none, some true) := by
    decide +kernel
  have hafter : (((vaultMachine lockVaultAtOnce).follow (Config.start (Vault.new 0 0 0))
      lateLockout).bind fun c => (vaultMachine lockVaultAtOnce).step c (.exec 0)).map
        (fun c' => (c'.results[0]?, c'.shared.names 1)) =
      some (some (some (.handle (.ok 1))), some "k") := by decide +kernel
  obtain ⟨c, hfollow, hc⟩ := Option.map_eq_some_iff.mp hrace
  simp only [Prod.mk.injEq] at hc
  obtain ⟨hlocked, habsent, hentering⟩ := hc
  rw [hfollow, Option.bind_some] at hafter
  obtain ⟨c', hstep, hc'⟩ := Option.map_eq_some_iff.mp hafter
  obtain ⟨hresult, hname⟩ := Prod.mk.inj hc'
  refine ⟨c, c', Machine.follow_reaches hfollow, hstep, hlocked, hresult, habsent, hname, ?_⟩
  intro hrespected
  obtain ⟨request, hentering, hwriter⟩ := Option.map_eq_some_iff.mp hentering
  obtain ⟨call, op, hcall, rfl, hop, hinstalls⟩ := call_of_entering hentering
  exact hrespected.installs 0 call hcall op hop hinstalls (bars_of_lockedOut hwriter hlocked)

end KeyVault
