import KeyVault.CallPaths
import KeyVault.KeyLockouts

/-! Guessing the master credential. Attempts of any number of clients are interleaved
with each other and with everything else the vault does. A failed check holds off
every further check for a time that grows with the number of failures in a row. -/
namespace KeyVault

open Interleaving Atomic

def Environment.withMasterUnlockBackoff (env : Environment) (base max : Duration) : Environment :=
  { env with
    config := { env.config with
      masterBackoffBase := base
      masterBackoffMax := Nat.max max base } }

/-! ### One attempt -/

section Attempt

variable {env : Environment} {v : Vault} {verifier : MasterVerifier} {attempt : Bytes} {opens : Bool}

inductive AttemptOutcome (env : Environment) (v : Vault) : MasterAttempt × Vault → Prop where
  | limited (hearly : v.clock < v.masterBackoff.nextAllowed) :
      AttemptOutcome env v
        (.refused (.error (.rateLimited (v.masterBackoff.nextAllowed.saturatingSub v.clock))), v)
  | unchecked (hdue : v.masterBackoff.nextAllowed ≤ v.clock) (exit : Exit) :
      AttemptOutcome env v (.refused exit, v)
  | matched (hdue : v.masterBackoff.nextAllowed ≤ v.clock) :
      AttemptOutcome env v (.checked true, { v with masterBackoff := {} })
  | missed (hdue : v.masterBackoff.nextAllowed ≤ v.clock) {failures : Nat}
      (hfailures : failures = min (v.masterBackoff.failures + 1) u32Max) :
      AttemptOutcome env v (.checked false, { v with
        masterBackoff :=
          ⟨failures, v.clock.saturatingAdd (backoffDelay env.config failures)⟩ })

theorem attemptMaster_outcome :
    AttemptOutcome env v (v.attemptMaster env verifier attempt opens) := by
  unfold Vault.attemptMaster
  dsimp only
  by_cases hearly : v.clock < v.masterBackoff.nextAllowed
  · rw [if_pos hearly]
    exact .limited hearly
  · have hdue : v.masterBackoff.nextAllowed ≤ v.clock := Nat.le_of_not_lt hearly
    rw [if_neg hearly]
    split
    · exact .unchecked hdue _
    · split
      · exact .unchecked hdue _
      · split
        · exact .matched hdue
        · exact .missed hdue rfl

theorem backoffDelay_saturated (config : VaultConfig) (failures : Nat) :
    backoffDelay config (min failures u32Max) = backoffDelay config failures := by
  have hshift : min (min failures u32Max - 1) 31 = min (failures - 1) 31 := by
    unfold u32Max
    omega
  unfold backoffDelay
  rw [hshift]

end Attempt

theorem backoffDelay_one (env : Environment) {base : Duration} (max : Duration) (hbase : 0 < base)
    (hmax : base ≤ Duration.MAX) :
    backoffDelay (env.withMasterUnlockBackoff base max).config 1 = base := by
  have hproduct : Duration.checkedMul base (1 <<< min (1 - 1) 31) = some base := by
    unfold Duration.checkedMul
    rw [show base * (1 <<< min (1 - 1) 31) = base from Nat.mul_one base, if_pos hmax]
  unfold backoffDelay Environment.withMasterUnlockBackoff
  dsimp only
  rw [if_neg (Nat.ne_of_gt hbase), hproduct]
  exact Nat.min_eq_left (Nat.le_max_right max base)

/-! ### The delays -/

/-- Doubling no more than 31 times is as good as going on exactly if the cap is reached by
then, or if there is nothing left to double. -/
theorem min_doubled_iff {base cap : Nat} (hbase : 0 < base) (failures : Nat) :
    min (base * 2 ^ min (failures - 1) 31) cap = min (base * 2 ^ (failures - 1)) cap ↔
      failures ≤ 32 ∨ cap ≤ base * 2 ^ 31 := by
  by_cases hfew : failures ≤ 32
  · rw [Nat.min_eq_left (by omega : failures - 1 ≤ 31)]
    simp [hfew]
  · have hsplit : failures - 1 = 31 + (failures - 32) := by omega
    have hgrows : 2 ≤ 2 ^ (failures - 32) := Nat.le_self_pow (by omega) 2
    have hproduct := Nat.mul_le_mul_left (base * 2 ^ 31) hgrows
    have hpositive : 0 < base * 2 ^ 31 := Nat.mul_pos hbase (Nat.two_pow_pos 31)
    rw [Nat.min_eq_right (by omega : 31 ≤ failures - 1), hsplit, Nat.pow_add, ← Nat.mul_assoc]
    generalize base * 2 ^ 31 * 2 ^ (failures - 32) = doubled at hproduct ⊢
    omega

section Delay

variable (env : Environment) {base max : Duration} (hbase : 0 < base) (hfits : base ≤ Duration.MAX)
  (hmax : max ≤ Duration.MAX)

include hbase hfits hmax

/-- The overflow of the multiplication is a case of the cap: the product is beyond every
duration. -/
theorem backoffDelay_eq (failures : Nat) :
    backoffDelay (env.withMasterUnlockBackoff base max).config failures =
      min (base * 2 ^ min (failures - 1) 31) (Nat.max max base) := by
  have hcap : Nat.max max base ≤ Duration.MAX := Nat.max_le.mpr ⟨hmax, hfits⟩
  unfold backoffDelay Environment.withMasterUnlockBackoff Duration.checkedMul
  dsimp only
  rw [if_neg (Nat.ne_of_gt hbase), Nat.one_shiftLeft]
  by_cases hsmall : base * 2 ^ min (failures - 1) 31 ≤ Duration.MAX
  · rw [if_pos hsmall]
    rfl
  · rw [if_neg hsmall, Option.getD_none, Nat.min_self]
    exact (Nat.min_eq_right (Nat.le_of_lt (Nat.lt_of_le_of_lt hcap (Nat.lt_of_not_le hsmall)))).symm

theorem backoffDelay_mono {failures later : Nat} (h : failures ≤ later) :
    backoffDelay (env.withMasterUnlockBackoff base max).config failures ≤
      backoffDelay (env.withMasterUnlockBackoff base max).config later := by
  rw [backoffDelay_eq env hbase hfits hmax, backoffDelay_eq env hbase hfits hmax]
  have hshift : min (failures - 1) 31 ≤ min (later - 1) 31 := by omega
  have hproduct := Nat.mul_le_mul_left base (Nat.pow_le_pow_right Nat.zero_lt_two hshift)
  exact Nat.le_min.mpr ⟨Nat.le_trans (Nat.min_le_left _ _) hproduct, Nat.min_le_right _ _⟩

/-- The delay is the capped exponential for at most 32 failures in a row, and for any number
of them if doubling 31 times reaches the cap; otherwise it stays below the cap for ever. -/
theorem backoff_exponential_iff :
    (∀ failures, 1 ≤ failures → failures ≤ u32Max →
      (backoffDelay (env.withMasterUnlockBackoff base max).config failures =
          min (base * 2 ^ (failures - 1)) (Nat.max max base) ↔
        failures ≤ 32 ∨ Nat.max max base ≤ base * 2 ^ 31)) ∧
    (∀ failures later, failures ≤ later → later ≤ u32Max →
      backoffDelay (env.withMasterUnlockBackoff base max).config failures ≤
        backoffDelay (env.withMasterUnlockBackoff base max).config later) ∧
    ((∃ failures ≤ u32Max, ∀ later, failures ≤ later → later ≤ u32Max →
        backoffDelay (env.withMasterUnlockBackoff base max).config later = Nat.max max base) ↔
      Nat.max max base ≤ base * 2 ^ 31) := by
  refine ⟨?_, ?_, ?_⟩
  · intro failures _ _
    rw [backoffDelay_eq env hbase hfits hmax]
    exact min_doubled_iff hbase failures
  · intro failures later hle _
    exact backoffDelay_mono env hbase hfits hmax hle
  · constructor
    · rintro ⟨failures, hfew, hreached⟩
      have hcap := hreached failures (Nat.le_refl _) hfew
      rw [backoffDelay_eq env hbase hfits hmax] at hcap
      apply Nat.le_trans (hcap.symm.le.trans (Nat.min_le_left _ _))
      exact Nat.mul_le_mul_left base (Nat.pow_le_pow_right Nat.zero_lt_two (Nat.min_le_right _ 31))
    · intro hcap
      refine ⟨32, by decide, ?_⟩
      intro later hlater _
      rw [backoffDelay_eq env hbase hfits hmax, Nat.min_eq_right (by omega : 31 ≤ later - 1)]
      exact Nat.min_eq_right hcap

end Delay

theorem backoff_exponential_hour :
    backoffDelay ((Environment.plain {}).withMasterUnlockBackoff (.fromSecs 1) (.fromSecs 3600)).config 40 =
      min (Duration.fromSecs 1 * 2 ^ 39) (Duration.fromSecs 3600) :=
  ((backoff_exponential_iff (Environment.plain {}) (by decide) (by decide) (by decide)).1 40 (by decide)
    (by decide)).mpr (.inr (by decide))

/-- A base of one nanosecond and a cap of one minute: after 33 failures the delay is half of
what it should be. -/
theorem nanosecond_not_exponential :
    backoffDelay ((Environment.plain {}).withMasterUnlockBackoff 1 (Duration.fromSecs 60)).config 33 =
        2 ^ 31 ∧
      backoffDelay ((Environment.plain {}).withMasterUnlockBackoff 1 (Duration.fromSecs 60)).config 33 ≠
        min (1 * 2 ^ (33 - 1)) (Nat.max (Duration.fromSecs 60) 1) := by
  decide

/-! ### What follows an attempt -/

/-- The rest of `unlock_with_master` once its critical section is over. -/
def unlockAfter (env : Environment) : MasterAttempt → VaultProgram Response
  | .refused exit => return .status (.error exit)
  | .checked true => do
      emitAudit env masterName (.masterUnlockAttempt true) ""
      clearLockout
      return .status (.ok ())
  | .checked false => do
      emitAudit env masterName (.masterUnlockAttempt false) ""
      handleFailure env masterName (some "invalid master credential") false
      return .status (fail (.acquisition "master" "master credential did not match"))

def VaultOp.isAttempt : VaultOp → Bool
  | .attemptMaster _ _ _ => true
  | _ => false

theorem exists_of_isAttempt {op : VaultOp} (h : op.isAttempt = true) :
    ∃ verifier attempt opens, op = .attemptMaster verifier attempt opens := by
  cases op with
  | attemptMaster verifier attempt opens => exact ⟨verifier, attempt, opens, rfl⟩
  | _ => cases h

theorem program_unlockWithMaster (env : Environment) (attempt : Bytes) (opens : Bool) :
    (Request.unlockWithMaster attempt opens).program env =
      match env.master with
      | none => .done (.status (fail (.invalidConfig
          "vault has no master key registered; pass with_master_key at build time")))
      | some verifier => .step (.attemptMaster verifier attempt opens) (unlockAfter env) := by
  unfold Request.program unlockWithMaster
  cases env.master with
  | none => rfl
  | some verifier =>
    refine congrArg (Program.step (S := vaultSignature) (.attemptMaster verifier attempt opens)) ?_
    funext outcome
    cases outcome with
    | refused exit => rfl
    | checked matched =>
      cases matched with
      | true =>
        show (emitAudit env masterName (.masterUnlockAttempt true) "" >>= fun _ =>
          clearLockout >>= fun _ => (.done (.ok ()) : VaultProgram (Result Unit))) >>=
            (fun result => (.done (.status result) : VaultProgram Response)) = _
        rw [Program.bind_assoc]
        rfl
      | false =>
        show (emitAudit env masterName (.masterUnlockAttempt false) "" >>= fun _ =>
          handleFailure env masterName (some "invalid master credential") false >>= fun _ =>
            (.done (fail (.acquisition "master" "master credential did not match")) :
              VaultProgram (Result Unit))) >>=
            (fun result => (.done (.status result) : VaultProgram Response)) = _
        rw [Program.bind_assoc]
        refine congrArg (emitAudit env masterName (.masterUnlockAttempt false) "" >>= ·) ?_
        funext _
        rw [Program.bind_assoc]
        rfl

theorem unlockAfter_uses (env : Environment) (outcome : MasterAttempt) :
    Program.Uses (S := vaultSignature) (fun op => op.isAttempt = false)
      (unlockAfter env outcome) := by
  cases outcome with
  | refused exit => trivial
  | checked matched =>
    cases matched with
    | true =>
      refine Program.uses_bind (uses_emitAudit rfl) fun _ => ?_
      exact ⟨rfl, fun _ => ⟨rfl, fun _ => ⟨rfl, fun _ => trivial⟩⟩⟩
    | false =>
      refine Program.uses_bind (uses_emitAudit rfl) fun _ => ?_
      refine Program.uses_bind (uses_handleFailure rfl (fun _ _ => rfl) (fun _ _ => rfl)
        (fun _ => rfl) fun hperKey => ?_) fun _ => trivial
      cases hperKey

/-- A call either has not begun, or will not attempt any more. -/
def AttemptsFirst (env : Environment) (c : VaultConfiguration) : Prop :=
  ∀ (caller : Nat) (call : Activation vaultSignature Request Response),
    c.calls[caller]? = some call → call.rest = call.request.program env ∨
      Program.Uses (S := vaultSignature) (fun op => op.isAttempt = false) call.rest

section AttemptsFirst

variable {env : Environment} {c c' : VaultConfiguration}

theorem uses_after_first {request : Request} {op : VaultOp} {next : op.Ret → VaultProgram Response}
    (h : request.program env = .step op next) (ret : op.Ret) :
    Program.Uses (S := vaultSignature) (fun op => op.isAttempt = false) (next ret) := by
  have huses := program_uses env request
  rw [h] at huses
  cases request with
  | unlockWithMaster attempt opens =>
    rw [program_unlockWithMaster] at h
    cases hmaster : env.master with
    | none =>
      rw [hmaster] at h
      cases h
    | some verifier =>
      rw [hmaster] at h
      cases h
      exact unlockAfter_uses env ret
  | _ =>
    apply (huses.2 ret).mono
    intro op hop
    cases op <;> first | rfl | cases hop

theorem attemptsFirst_step (h : AttemptsFirst env c) (action : Action Request Surroundings)
    (hstep : (vaultMachine env).step c action = some c') : AttemptsFirst env c' := by
  cases action with
  | invoke request =>
    rw [Machine.step_invoke_iff] at hstep
    subst hstep
    intro caller call hcall
    by_cases hold : caller < c.calls.length
    · rw [List.getElem?_append_left hold] at hcall
      exact h caller call hcall
    · rw [List.getElem?_append_right (by omega)] at hcall
      have hnew := List.mem_of_getElem? hcall
      rw [List.mem_singleton] at hnew
      rw [hnew]
      exact .inl rfl
  | exec executed =>
    obtain ⟨request, op, next, ret, s, hexec, -, rfl⟩ := Machine.step_exec_iff.mp hstep
    have hlt := (List.getElem?_eq_some_iff.mp hexec).1
    intro caller call hcall
    dsimp only at hcall
    by_cases hsame : executed = caller
    · subst hsame
      rw [List.getElem?_set_self hlt] at hcall
      cases hcall
      rcases h executed _ hexec with hfirst | huses
      · exact .inr (uses_after_first hfirst.symm ret)
      · exact .inr (huses.2 ret)
    · rw [List.getElem?_set_ne hsame] at hcall
      exact h caller call hcall
  | external event =>
    obtain ⟨s, -, rfl⟩ := Machine.step_external_iff.mp hstep
    exact h

end AttemptsFirst

/-! ### Runs -/

/-- One step of `caller` is the critical section of an attempt that ends like this. -/
structure Attempts (env : Environment) (c : VaultConfiguration) (caller : Nat)
    (outcome : MasterAttempt) (c' : VaultConfiguration) : Prop where
  step : (vaultMachine env).step c (.exec caller) = some c'
  logged : ∃ request verifier attempt opens,
    c'.log = c.log ++ [⟨caller, request, ⟨.attemptMaster verifier attempt opens, outcome⟩⟩]

def missesAfter (misses : Nat) : VaultEvent → Nat
  | ⟨.attemptMaster _ _ _, .checked true⟩ => 0
  | ⟨.attemptMaster _ _ _, .checked false⟩ => misses + 1
  | _ => misses

def consecutiveMisses (log : List (Entry vaultSignature Request)) : Nat :=
  log.foldl (fun misses entry => missesAfter misses entry.event) 0

section Runs

variable {env : Environment} {c c' : VaultConfiguration} {caller : Nat} {outcome : MasterAttempt}

theorem consecutiveMisses_snoc (log : List (Entry vaultSignature Request))
    (entry : Entry vaultSignature Request) :
    consecutiveMisses (log ++ [entry]) = missesAfter (consecutiveMisses log) entry.event := by
  unfold consecutiveMisses
  rw [List.foldl_append]
  rfl

theorem missesAfter_of_not_attempt {op : VaultOp} (h : op.isAttempt = false) (ret : op.Ret)
    (misses : Nat) : missesAfter misses ⟨op, ret⟩ = misses := by
  cases op <;> first | rfl | cases h

theorem Attempts.inv (h : Attempts env c caller outcome c') :
    ∃ request verifier attempt opens next,
      c.calls[caller]? = some ⟨request, .step (.attemptMaster verifier attempt opens) next⟩ ∧
      AttemptOutcome env c.shared (outcome, c'.shared) ∧
      c'.calls = c.calls.set caller ⟨request, next outcome⟩ ∧
      consecutiveMisses c'.log = missesAfter (consecutiveMisses c.log)
        ⟨.attemptMaster verifier attempt opens, outcome⟩ := by
  obtain ⟨request, op, next, ret, s, hcall, hperform, rfl⟩ := Machine.step_exec_iff.mp h.step
  obtain ⟨request', verifier, attempt, opens, hlog⟩ := h.logged
  have hentry := List.singleton_inj.mp (List.append_cancel_left hlog)
  cases hentry
  refine ⟨request, verifier, attempt, opens, next, hcall, ?_, rfl, consecutiveMisses_snoc _ _⟩
  have hout : c.shared.attemptMaster env verifier attempt opens = (outcome, s) :=
    Option.some.inj hperform
  rw [← hout]
  exact attemptMaster_outcome

theorem attempts_or_quiet {action : Action Request Surroundings}
    (hstep : (vaultMachine env).step c action = some c') :
    (∃ caller outcome, Attempts env c caller outcome c') ∨
      (c'.shared.masterBackoff = c.shared.masterBackoff ∧
        consecutiveMisses c'.log = consecutiveMisses c.log ∧ c.shared.clock ≤ c'.shared.clock) := by
  cases action with
  | invoke request =>
    rw [Machine.step_invoke_iff] at hstep
    subst hstep
    exact .inr ⟨rfl, rfl, Nat.le_refl _⟩
  | exec caller =>
    have hexec := hstep
    obtain ⟨request, op, next, ret, s, hcall, hperform, rfl⟩ := Machine.step_exec_iff.mp hstep
    have hframe := Vault.perform_frame (show Vault.perform env op c.shared = some (ret, s) from hperform)
    by_cases hop : op.isAttempt = true
    · obtain ⟨verifier, attempt, opens, rfl⟩ := exists_of_isAttempt hop
      exact .inl ⟨caller, ret, hexec, request, verifier, attempt, opens, rfl⟩
    · rw [Bool.not_eq_true] at hop
      refine .inr ⟨hframe.masterBackoff ?_, ?_, Nat.le_of_eq hframe.clock.symm⟩
      · cases op <;> first | rfl | cases hop
      · rw [consecutiveMisses_snoc, missesAfter_of_not_attempt hop]
  | external event =>
    obtain ⟨s, hact, rfl⟩ := Machine.step_external_iff.mp hstep
    obtain ⟨clock, unixTime, handles, hle, -, rfl⟩ := Surroundings.act_frame hact
    exact .inr ⟨rfl, rfl, hle⟩

def BackoffCounts (c : VaultConfiguration) : Prop :=
  c.shared.masterBackoff.failures = min (consecutiveMisses c.log) u32Max

theorem backoffCounts_step (h : BackoffCounts c) {action : Action Request Surroundings}
    (hstep : (vaultMachine env).step c action = some c') : BackoffCounts c' := by
  unfold BackoffCounts at h ⊢
  rcases attempts_or_quiet hstep with ⟨caller, outcome, hattempt⟩ | ⟨hbackoff, hmisses, -⟩
  · obtain ⟨request, verifier, attempt, opens, next, -, houtcome, -, hmisses⟩ := hattempt.inv
    rw [hmisses]
    generalize hafter : (outcome, c'.shared) = out at houtcome
    cases houtcome with
    | limited hearly =>
      obtain ⟨rfl, hshared⟩ := Prod.mk.inj hafter
      rw [hshared]
      exact h
    | unchecked hdue exit =>
      obtain ⟨rfl, hshared⟩ := Prod.mk.inj hafter
      rw [hshared]
      exact h
    | matched hdue =>
      obtain ⟨rfl, hshared⟩ := Prod.mk.inj hafter
      rw [hshared]
      rfl
    | missed hdue hfailures =>
      obtain ⟨rfl, hshared⟩ := Prod.mk.inj hafter
      subst hfailures
      rw [hshared]
      show min (c.shared.masterBackoff.failures + 1) u32Max =
        min (consecutiveMisses c.log + 1) u32Max
      rw [h]
      omega
  · rw [hbackoff, hmisses]
    exact h

/-- Until the time that a failed check has set, the backoff stays as it is. -/
theorem backoff_holds {backoff : Backoff} (hrun : (vaultMachine env).Reaches c c')
    (h : c.shared.masterBackoff = backoff) (hearly : c'.shared.clock < backoff.nextAllowed) :
    c'.shared.masterBackoff = backoff := by
  revert hearly
  apply hrun.invariant (I := fun c => c.shared.clock < backoff.nextAllowed →
    c.shared.masterBackoff = backoff) fun _ => h
  intro before action after hheld _ hstep hearly
  rcases attempts_or_quiet hstep with ⟨caller, outcome, hattempt⟩ | ⟨hbackoff, -, hclock⟩
  · obtain ⟨request, verifier, attempt, opens, next, -, houtcome, -, -⟩ := hattempt.inv
    generalize hafter : (outcome, after.shared) = out at houtcome
    cases houtcome with
    | limited hlimited =>
      obtain ⟨-, hshared⟩ := Prod.mk.inj hafter
      rw [hshared] at hearly ⊢
      exact hheld hearly
    | unchecked hdue exit =>
      obtain ⟨-, hshared⟩ := Prod.mk.inj hafter
      rw [hshared] at hearly ⊢
      exact hheld hearly
    | matched hdue =>
      -- a check at this time would have had to wait
      obtain ⟨-, hshared⟩ := Prod.mk.inj hafter
      rw [hshared] at hearly
      rw [hheld hearly] at hdue
      exact absurd hearly (Nat.not_lt.mpr hdue)
    | missed hdue hfailures =>
      obtain ⟨-, hshared⟩ := Prod.mk.inj hafter
      rw [hshared] at hearly
      rw [hheld hearly] at hdue
      exact absurd hearly (Nat.not_lt.mpr hdue)
  · rw [hbackoff]
    exact hheld (Nat.lt_of_le_of_lt hclock hearly)

end Runs

/-- What the backoff promises of a vault that has just been built. -/
structure MasterLimited (env : Environment) (start : Vault) : Prop where
  /-- After a failed check no attempt is checked until the delay is over. -/
  refused : ∀ c₁ c₂ c₃ c₄ failing later outcome,
    (vaultMachine env).Reaches (.start start) c₁ → Attempts env c₁ failing (.checked false) c₂ →
    (vaultMachine env).Reaches c₂ c₃ → Attempts env c₃ later outcome c₄ →
    ∀ stop, stop = c₁.shared.clock + backoffDelay env.config (consecutiveMisses c₂.log) →
    stop ≤ Duration.MAX → c₃.shared.clock < stop →
      outcome = .refused (.error (.rateLimited (stop - c₃.shared.clock))) ∧
      c₄.shared = c₃.shared ∧
      ∃ request, c₄.Returned later request
        (.status (fail (.rateLimited (stop - c₃.shared.clock))))
  /-- A check that succeeds starts the delays again. -/
  restarts : ∀ c₁ c₂ caller,
    (vaultMachine env).Reaches (.start start) c₁ → Attempts env c₁ caller (.checked true) c₂ →
      c₂.shared.masterBackoff = {} ∧ consecutiveMisses c₂.log = 0
  /-- Before the call whose check succeeds returns, it has cleared every lockout. -/
  clears : ∀ c₁ c₂ c₃ caller request response,
    (vaultMachine env).Reaches (.start start) c₁ → Attempts env c₁ caller (.checked true) c₂ →
    (vaultMachine env).Reaches c₂ c₃ → c₃.Returned caller request response →
      response = .status (.ok ()) ∧
      ∃ d₁ d₂ d₃, (vaultMachine env).Reaches c₂ d₁ ∧ d₁.shared.lockedOut = false ∧
        (vaultMachine env).Reaches d₁ d₂ ∧ d₂.shared.keyLocks = ∅ ∧
        d₂.shared.keyLocksActive = 0 ∧
        (vaultMachine env).Reaches d₂ d₃ ∧ d₃.shared.failureTracker = ∅ ∧
        (vaultMachine env).Reaches d₃ c₃

section Limited

variable {env : Environment} {c c' : VaultConfiguration} {caller : Nat} {outcome : MasterAttempt}
  {start : Vault}

theorem backoffCounts_reaches (hstart : start.masterBackoff = {})
    (hrun : (vaultMachine env).Reaches (.start start) c) : BackoffCounts c := by
  apply hrun.invariant (I := BackoffCounts)
  · show start.masterBackoff.failures = 0
    rw [hstart]
  · intro before action after hcounts _ hstep
    exact backoffCounts_step hcounts hstep

theorem attemptsFirst_reaches (hrun : (vaultMachine env).Reaches (.start start) c) :
    AttemptsFirst env c := by
  apply hrun.invariant (I := AttemptsFirst env)
  · intro caller call hcall
    simp [Config.start] at hcall
  · intro before action after hfirst _ hstep
    exact attemptsFirst_step hfirst action hstep

theorem Attempts.goesOn (hrun : (vaultMachine env).Reaches (.start start) c)
    (h : Attempts env c caller outcome c') :
    ∃ request, c'.calls[caller]? = some ⟨request, unlockAfter env outcome⟩ := by
  obtain ⟨request, verifier, attempt, opens, next, hcall, -, hcalls, -⟩ := h.inv
  have hlt := (List.getElem?_eq_some_iff.mp hcall).1
  refine ⟨request, ?_⟩
  rw [hcalls, List.getElem?_set_self hlt]
  rcases attemptsFirst_reaches hrun caller _ hcall with hfirst | huses
  · have huses := program_uses env request
    dsimp only at hfirst
    rw [← hfirst] at huses
    cases request with
    | unlockWithMaster attempt' opens' =>
      rw [program_unlockWithMaster] at hfirst
      cases hmaster : env.master with
      | none =>
        rw [hmaster] at hfirst
        cases hfirst
      | some verifier' =>
        rw [hmaster] at hfirst
        cases hfirst
        rfl
    | _ => cases huses.1
  · cases huses.1

theorem Attempts.missed (hcounts : BackoffCounts c) (h : Attempts env c caller (.checked false) c') :
    c'.shared.masterBackoff.nextAllowed =
      c.shared.clock.saturatingAdd (backoffDelay env.config (consecutiveMisses c'.log)) := by
  obtain ⟨request, verifier, attempt, opens, next, -, houtcome, -, hmisses⟩ := h.inv
  have hafter : consecutiveMisses c'.log = consecutiveMisses c.log + 1 := hmisses
  generalize hout : (MasterAttempt.checked false, c'.shared) = out at houtcome
  cases houtcome with
  | missed hdue hfailures =>
    obtain ⟨-, hshared⟩ := Prod.mk.inj hout
    have hcounter : c.shared.masterBackoff.failures = min (consecutiveMisses c.log) u32Max := hcounts
    have hsaturated : min (c.shared.masterBackoff.failures + 1) u32Max =
        min (consecutiveMisses c'.log) u32Max := by
      rw [hcounter, hafter]
      omega
    rw [hshared]
    dsimp only
    rw [hfailures, hsaturated, backoffDelay_saturated]
  | _ => cases (Prod.mk.inj hout).1

theorem Attempts.matched (h : Attempts env c caller (.checked true) c') :
    c'.shared.masterBackoff = {} ∧ consecutiveMisses c'.log = 0 := by
  obtain ⟨request, verifier, attempt, opens, next, -, houtcome, -, hmisses⟩ := h.inv
  refine ⟨?_, hmisses⟩
  generalize hout : (MasterAttempt.checked true, c'.shared) = out at houtcome
  cases houtcome with
  | matched hdue => rw [(Prod.mk.inj hout).2]
  | _ => cases (Prod.mk.inj hout).1

theorem Attempts.limited (h : Attempts env c caller outcome c')
    (hearly : c.shared.clock < c.shared.masterBackoff.nextAllowed) :
    outcome = .refused (.error (.rateLimited
      (c.shared.masterBackoff.nextAllowed - c.shared.clock))) ∧ c'.shared = c.shared := by
  obtain ⟨request, verifier, attempt, opens, next, -, houtcome, -, -⟩ := h.inv
  generalize hout : (outcome, c'.shared) = out at houtcome
  cases houtcome with
  | limited hlimited => exact Prod.mk.inj hout
  | unchecked hdue exit => exact absurd hearly (Nat.not_lt.mpr hdue)
  | matched hdue => exact absurd hearly (Nat.not_lt.mpr hdue)
  | missed hdue hfailures => exact absurd hearly (Nat.not_lt.mpr hdue)

theorem clears_of_returned {request request' : Request} {response : Response}
    (hcall : c.calls[caller]? = some ⟨request, unlockAfter env (.checked true)⟩)
    (hrun : (vaultMachine env).Reaches c c') (hreturned : c'.Returned caller request' response) :
    response = .status (.ok ()) ∧
      ∃ d₁ d₂ d₃, (vaultMachine env).Reaches c d₁ ∧ d₁.shared.lockedOut = false ∧
        (vaultMachine env).Reaches d₁ d₂ ∧ d₂.shared.keyLocks = ∅ ∧
        d₂.shared.keyLocksActive = 0 ∧
        (vaultMachine env).Reaches d₂ d₃ ∧ d₃.shared.failureTracker = ∅ ∧
        (vaultMachine env).Reaches d₃ c' := by
  -- past the audit event, if there is one
  obtain ⟨d, hto, hclear, hfrom⟩ : ∃ d, (vaultMachine env).Reaches c d ∧
      d.calls[caller]? = some ⟨request, clearLockout >>= fun _ => .done (.status (.ok ()))⟩ ∧
      (vaultMachine env).Reaches d c' := by
    unfold unlockAfter emitAudit at hcall
    by_cases haudit : env.auditIsNoOp = true
    · rw [if_pos haudit] at hcall
      exact ⟨c, .refl c, hcall, hrun⟩
    · rw [if_neg haudit] at hcall
      obtain ⟨s, d, ret, -, hto, hnext, hfrom⟩ := hrun.passes hcall hreturned
      exact ⟨d, hto, hnext, hfrom⟩
  obtain ⟨s₁, d₁, _, hstore, hto₁, hnext₁, hfrom₁⟩ := hfrom.passes hclear hreturned
  obtain ⟨s₂, d₂, _, hlocks, hto₂, hnext₂, hfrom₂⟩ := hfrom₁.passes hnext₁ hreturned
  obtain ⟨s₃, d₃, _, hfailures, hto₃, hnext₃, hfrom₃⟩ := hfrom₂.passes hnext₂ hreturned
  have hresponse : response = .status (.ok ()) := by
    have hdone := (hfrom₃.returned_stays hnext₃).1
    unfold Config.Returned at hdone hreturned
    rw [hdone] at hreturned
    cases hreturned
    rfl
  have hstored : d₁.shared = { s₁ with lockedOut := false } :=
    (congrArg Prod.snd (Option.some.inj hstore)).symm
  have hcleared : d₂.shared = { s₂ with keyLocks := ∅, keyLocksActive := 0 } :=
    (congrArg Prod.snd (Option.some.inj hlocks)).symm
  have hforgotten : d₃.shared = { s₃ with failureTracker := ∅ } :=
    (congrArg Prod.snd (Option.some.inj hfailures)).symm
  refine ⟨hresponse, d₁, d₂, d₃, hto.trans hto₁, ?_, hto₂, ?_, ?_, hto₃, ?_, hfrom₃⟩
  · rw [hstored]
  · rw [hcleared]
  · rw [hcleared]
  · rw [hforgotten]

end Limited

/-- Guessing the master credential is rate limited, however the attempts of any
number of clients are interleaved with each other and with other calls. -/
theorem master_limited (env : Environment) {base : Duration} (max clock unixTime : Duration)
    (handles : Nat) (hbase : 0 < base) (hmax : base ≤ Duration.MAX) :
    MasterLimited (env.withMasterUnlockBackoff base max) (Vault.new clock unixTime handles) ∧
      backoffDelay (env.withMasterUnlockBackoff base max).config 1 = base := by
  refine ⟨⟨?_, ?_, ?_⟩, backoffDelay_one env max hbase hmax⟩
  · intro c₁ c₂ c₃ c₄ failing later outcome hbefore hfailing hbetween hlater stop hstop hfits hearly
    have hnext := hfailing.missed (backoffCounts_reaches rfl hbefore)
    have hallowed : c₂.shared.masterBackoff.nextAllowed = stop := by
      rw [hnext, hstop]
      exact Nat.min_eq_left (hstop ▸ hfits)
    have hheld := backoff_holds hbetween rfl (hallowed ▸ hearly)
    have hlimited : c₃.shared.clock < c₃.shared.masterBackoff.nextAllowed := by
      rw [hheld, hallowed]
      exact hearly
    obtain ⟨houtcome, hshared⟩ := hlater.limited hlimited
    rw [hheld, hallowed] at houtcome
    refine ⟨houtcome, hshared, ?_⟩
    have hreaches := (hbefore.tail trivial hfailing.step).trans hbetween
    obtain ⟨request, hcall⟩ := hlater.goesOn hreaches
    rw [houtcome] at hcall
    exact ⟨request, hcall⟩
  · intro c₁ c₂ caller hbefore hmatched
    exact hmatched.matched
  · intro c₁ c₂ c₃ caller request response hbefore hmatched hafter hreturned
    obtain ⟨request', hcall⟩ := hmatched.goesOn hbefore
    exact clears_of_returned hcall hafter hreturned

def guessing : Environment :=
  (masterVault { maxFailuresBeforeLockout := 1 }).withMasterUnlockBackoff 2 8

def lastAttempt (c : VaultConfiguration) : Option (Nat × MasterAttempt) :=
  match c.log.getLast? with
  | some ⟨caller, _, ⟨.attemptMaster _ _ _, outcome⟩⟩ => some (caller, outcome)
  | _ => none

theorem attempts_of_lastAttempt {env : Environment} {c c' : VaultConfiguration} {caller : Nat}
    {outcome : MasterAttempt} (hstep : (vaultMachine env).step c (.exec caller) = some c')
    (h : lastAttempt c' = some (caller, outcome)) : Attempts env c caller outcome c' := by
  refine ⟨hstep, ?_⟩
  obtain ⟨request, op, next, ret, v, -, -, rfl⟩ := Machine.step_exec_iff.mp hstep
  unfold lastAttempt at h
  rw [List.getLast?_concat] at h
  cases op <;> cases h
  exact ⟨request, _, _, _, rfl⟩

def finishedUnlock (c : VaultConfiguration) (caller : Nat) : Option (Bytes × Bool × Response) :=
  match c.calls[caller]? with
  | some ⟨.unlockWithMaster attempt opens, .done response⟩ => some (attempt, opens, response)
  | _ => none

theorem returned_of_finishedUnlock {c : VaultConfiguration} {caller : Nat} {attempt : Bytes}
    {opens : Bool} {response : Response}
    (h : finishedUnlock c caller = some (attempt, opens, response)) :
    c.Returned caller (.unlockWithMaster attempt opens) response := by
  unfold finishedUnlock at h
  split at h
  · rename_i hcall
    cases h
    exact hcall
  · cases h

def guesses : Option (List VaultConfiguration) := do
  let c₁ ← (vaultMachine guessing).follow (.start (Vault.new 0 0 0))
    [.invoke (.unlockWithMaster [9] true)]
  let c₂ ← (vaultMachine guessing).step c₁ (.exec 0)
  let c₃ ← (vaultMachine guessing).follow c₂
    (List.replicate 5 (.exec 0) ++ [.external (.tick 1), .invoke (.unlockWithMaster [7] true)])
  let c₄ ← (vaultMachine guessing).step c₃ (.exec 1)
  let c₅ ← (vaultMachine guessing).follow c₄
    [.external (.tick 2), .invoke (.unlockWithMaster [7] true)]
  let c₆ ← (vaultMachine guessing).step c₅ (.exec 2)
  let c₇ ← (vaultMachine guessing).follow c₆ (List.replicate 3 (.exec 2))
  return [c₁, c₂, c₃, c₄, c₅, c₆, c₇]

structure Sight where
  attempt : Option (Nat × MasterAttempt)
  lockedOut : Bool
  clock : Duration
  misses : Nat
  unlocked : Option (Bytes × Bool × Response)
deriving DecidableEq

def Sight.of (c : VaultConfiguration) : Sight :=
  ⟨lastAttempt c, c.shared.lockedOut, c.shared.clock, consecutiveMisses c.log, finishedUnlock c 2⟩

/-- The second guess is right and a nanosecond early; the third one gets through. -/
theorem master_limited_guess : ∃ c₁ c₂ c₃ c₄ c₅ c₆ c₇ : VaultConfiguration,
    ((vaultMachine guessing).Reaches (.start (Vault.new 0 0 0)) c₁ ∧
      Attempts guessing c₁ 0 (.checked false) c₂) ∧
    ((vaultMachine guessing).Reaches c₂ c₃ ∧ c₃.shared.lockedOut = true ∧
      Attempts guessing c₃ 1 (.refused (.error (.rateLimited 1))) c₄ ∧ c₄.shared = c₃.shared ∧
      ∃ request, c₄.Returned 1 request (.status (fail (.rateLimited 1)))) ∧
    ((vaultMachine guessing).Reaches c₄ c₅ ∧ Attempts guessing c₅ 2 (.checked true) c₆ ∧
      c₆.shared.masterBackoff = {}) ∧
    (vaultMachine guessing).Reaches c₆ c₇ ∧
      c₇.Returned 2 (.unlockWithMaster [7] true) (.status (.ok ())) ∧
      ∃ d, (vaultMachine guessing).Reaches c₆ d ∧ d.shared.lockedOut = false ∧
        (vaultMachine guessing).Reaches d c₇ := by
  have hguesses : guesses.map (·.map Sight.of) = some [⟨none, false, 0, 0, none⟩,
      ⟨some (0, .checked false), false, 0, 1, none⟩, ⟨none, true, 1, 1, none⟩,
      ⟨some (1, .refused (.error (.rateLimited 1))), true, 1, 1, none⟩,
      ⟨some (1, .refused (.error (.rateLimited 1))), true, 2, 1, none⟩,
      ⟨some (2, .checked true), true, 2, 0, none⟩,
      ⟨none, false, 2, 0, some ([7], true, .status (.ok ()))⟩] := by
    decide +kernel
  obtain ⟨cs, hcs, hfacts⟩ := Option.map_eq_some_iff.mp hguesses
  simp only [guesses, Option.bind_eq_bind, Option.bind_eq_some_iff, Option.pure_def,
    Option.some.injEq] at hcs
  obtain ⟨c₁, hfirst, c₂, hwrong, c₃, hmid, c₄, hearly, c₅, hwait, c₆, hright, c₇, hend, rfl⟩ := hcs
  simp only [Sight.of, List.map_cons, List.map_nil, List.cons.injEq, Sight.mk.injEq] at hfacts
  obtain ⟨⟨-, -, hclock₁, -⟩, ⟨hmissed, -, -, hmisses, -⟩, ⟨-, hlocked, hclock₃, -⟩, ⟨hheld, -⟩, -,
    ⟨hmatched, -⟩, ⟨-, -, -, -, hdone⟩, -⟩ := hfacts
  obtain ⟨hrefused, hrestarts, hclears⟩ :=
    (@master_limited (masterVault { maxFailuresBeforeLockout := 1 }) 2 8 0 0 0 (by decide)
      (by decide)).1
  have hbefore := Machine.follow_reaches hfirst
  have hbetween := Machine.follow_reaches hmid
  have hfailing := attempts_of_lastAttempt hwrong hmissed
  have hlater := attempts_of_lastAttempt hearly hheld
  have hchecked := attempts_of_lastAttempt hright hmatched
  have hreached : (vaultMachine guessing).Reaches (.start (Vault.new 0 0 0)) c₅ :=
    (((hbefore.tail trivial hwrong).trans hbetween).tail trivial hearly).trans
      (Machine.follow_reaches hwait)
  have hafter := Machine.follow_reaches hend
  have hreturned := returned_of_finishedUnlock hdone
  obtain ⟨-, hshared, hresponse⟩ := hrefused c₁ c₂ c₃ c₄ 0 1 _ hbefore hfailing hbetween hlater 2
    (by rw [hclock₁, hmisses]; decide) (by decide) (by rw [hclock₃]; decide)
  rw [hclock₃] at hresponse
  obtain ⟨-, d, _, _, hopening, hopen, hrest, -, -, hrest', -, hrest''⟩ :=
    hclears c₅ c₆ c₇ 2 _ _ hreached hchecked hafter hreturned
  exact ⟨c₁, c₂, c₃, c₄, c₅, c₆, c₇, ⟨hbefore, hfailing⟩,
    ⟨hbetween, hlocked, hlater, hshared, hresponse⟩,
    ⟨Machine.follow_reaches hwait, hchecked, (hrestarts c₅ c₆ 2 hreached hchecked).1⟩,
    hafter, hreturned, d, hopening, hopen, (hrest.trans hrest').trans hrest''⟩

end KeyVault
