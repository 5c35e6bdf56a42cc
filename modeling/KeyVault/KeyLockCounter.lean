import KeyVault.VaultFootprint
import Mathlib.Data.Nat.ModEq
import Mathlib.Algebra.Order.BigOperators.Group.List

/-! The counter that lets `key_locked` skip the lockout map. It equals the number
of lockouts plus the number of `clear_key_lockout` calls that have removed an
entry and not yet counted the removal, as long as `clear_lockout` never resets it
in the middle of such a call. -/
namespace KeyVault

open Interleaving Atomic

def VaultOp.settles : VaultOp → Nat
  | .subKeyLocksActive => 1
  | _ => 0

def VaultOp.leavesOwed : (op : VaultOp) → op.Ret → Nat
  | .unlockKey _, removed => Bool.toNat removed
  | _, _ => 0

def VaultOp.locks : VaultOp → Nat
  | .lockKey _ _ => 1
  | _ => 0

def VaultOp.resets : VaultOp → Bool
  | .clearKeyLocks => true
  | _ => false

/-- What a call has still to take off the counter. -/
def owed {α : Type} (p : VaultProgram α) : Nat :=
  match p.next? with
  | none => 0
  | some op => VaultOp.settles op

/-- Every removal is counted by the very next step of its call. -/
def Paired {α : Type} : VaultProgram α → Prop
  | .done _ => True
  | .step op next => ∀ ret, owed (next ret) = VaultOp.leavesOwed op ret ∧ Paired (next ret)

/-- Removed entries not yet taken off the counter, over all calls. -/
def inFlight (c : VaultConfiguration) : Nat := c.total fun call => owed call.rest

def nextOp (c : VaultConfiguration) (caller : Nat) : Option VaultOp :=
  c.calls[caller]?.bind fun call => call.rest.next?

/-- No `clear_lockout` resets the counter while a removal is uncounted, and
lockouts and uncounted removals together stay below `2 ^ usizeBits`. -/
def CounterSafe (env : Environment) (c : VaultConfiguration) : Action Request Surroundings → Prop
  | .exec caller => ∀ op ∈ nextOp c caller,
      (op.resets = true → inFlight c = 0) ∧
      (op.locks = 1 → mapLen c.shared.keyLocks + inFlight c + 1 < 2 ^ env.usizeBits)
  | _ => True

instance (env : Environment) (c : VaultConfiguration) : DecidablePred (CounterSafe env c)
  | .exec caller => inferInstanceAs (Decidable (∀ op ∈ nextOp c caller, _))
  | .invoke _ => inferInstanceAs (Decidable True)
  | .external _ => inferInstanceAs (Decidable True)

/-! ### Removals and their counting -/

@[simp] theorem owed_step {α : Type} (op : VaultOp) (next : op.Ret → VaultProgram α) :
    owed (.step op next : VaultProgram α) = op.settles := rfl

theorem paired_bind {α β : Type} {p : VaultProgram α} {f : α → VaultProgram β} (hp : Paired p)
    (hf : ∀ value, Paired (f value) ∧ owed (f value) = 0) :
    Paired (p >>= f) ∧ owed (p >>= f) = owed p := by
  induction p with
  | done value => exact hf value
  | step op next ih =>
    refine ⟨fun ret => ?_, rfl⟩
    obtain ⟨howed, hpaired⟩ := hp ret
    obtain ⟨hbind, hbindOwed⟩ := ih ret hpaired
    exact ⟨hbindOwed.trans howed, hbind⟩

def VaultOp.Plain (op : VaultOp) : Prop :=
  op.settles = 0 ∧ ∀ ret, op.leavesOwed ret = 0

theorem owed_eq_zero_of_uses {α : Type} {p : VaultProgram α}
    (h : Program.Uses (S := vaultSignature) VaultOp.Plain p) : owed p = 0 := by
  cases p with
  | done value => rfl
  | step op next => exact h.1.1

theorem paired_of_uses {α : Type} {p : VaultProgram α}
    (h : Program.Uses (S := vaultSignature) VaultOp.Plain p) : Paired p := by
  induction p with
  | done value => trivial
  | step op next ih =>
    intro ret
    exact ⟨(owed_eq_zero_of_uses (h.2 ret)).trans (h.1.2 ret).symm, ih ret (h.2 ret)⟩

theorem paired_clearKeyLockout (name : String) :
    Paired (clearKeyLockout name) ∧ owed (clearKeyLockout name) = 0 := by
  refine ⟨fun removed => ?_, rfl⟩
  cases removed with
  | true => exact ⟨rfl, fun _ => ⟨rfl, fun _ => ⟨rfl, trivial⟩⟩⟩
  | false => exact ⟨rfl, fun _ => ⟨rfl, trivial⟩⟩

theorem plain_of_mayUse {request : Request} {op : VaultOp} (h : request.MayUse op)
    (hclear : ∀ name, request ≠ .clearKeyLockout name) : op.Plain := by
  cases request <;> cases op <;>
    first
    | exact ⟨rfl, fun _ => rfl⟩
    | exact absurd rfl (hclear _)
    | exact h.elim

theorem paired_program (env : Environment) (request : Request) :
    Paired (request.program env) ∧ owed (request.program env) = 0 := by
  by_cases hclear : ∃ name, request = .clearKeyLockout name
  · obtain ⟨name, rfl⟩ := hclear
    obtain ⟨hpaired, howed⟩ := paired_clearKeyLockout name
    obtain ⟨hbind, hbindOwed⟩ := paired_bind hpaired fun value =>
      (⟨trivial, rfl⟩ : Paired (.done (Response.flag value)) ∧ _)
    exact ⟨hbind, hbindOwed.trans howed⟩
  · have huses := (program_uses env request).mono fun op hop =>
      plain_of_mayUse hop fun name hname => hclear ⟨name, hname⟩
    exact ⟨paired_of_uses huses, owed_eq_zero_of_uses huses⟩

/-! ### One step -/

section Balance

variable {env : Environment} {v v' : Vault}

theorem fetchAdd_modEq (env : Environment) (active : Nat) :
    Vault.fetchAdd env active ≡ active + 1 [MOD 2 ^ env.usizeBits] :=
  Nat.mod_modEq _ _

theorem fetchSub_modEq {active count : Nat} (h : active ≡ count + 1 [MOD 2 ^ env.usizeBits]) :
    Vault.fetchSub env active ≡ count [MOD 2 ^ env.usizeBits] := by
  have hpos : 0 < 2 ^ env.usizeBits := by positivity
  have hwrap : Vault.fetchSub env active ≡ active + (2 ^ env.usizeBits - 1)
      [MOD 2 ^ env.usizeBits] := Nat.mod_modEq _ _
  have hsum : active + (2 ^ env.usizeBits - 1) ≡ count + 1 + (2 ^ env.usizeBits - 1)
      [MOD 2 ^ env.usizeBits] := h.add_right _
  have hround : count + 1 + (2 ^ env.usizeBits - 1) = count + 2 ^ env.usizeBits := by omega
  rw [hround] at hsum
  exact (hwrap.trans hsum).trans (by simp [Nat.ModEq])

theorem lockKey_balance {name : String} {deadline : Option Duration} {newly : Bool} {rest : Nat}
    (hstep : v.lockKey env name deadline = some (newly, v'))
    (h : v.keyLocksActive ≡ mapLen v.keyLocks + rest [MOD 2 ^ env.usizeBits]) :
    v'.keyLocksActive ≡ mapLen v'.keyLocks + rest [MOD 2 ^ env.usizeBits] := by
  unfold Vault.lockKey at hstep
  dsimp only at hstep
  split at hstep
  · rename_i hmem
    cases hstep
    simpa only [mapLen_insert_of_mem hmem] using h
  · rename_i hmem
    split at hstep
    · cases hstep
      simp only [mapLen_insert_of_notMem hmem]
      have hadd := (fetchAdd_modEq env v.keyLocksActive).trans (h.add_right 1)
      rwa [Nat.add_right_comm] at hadd
    · cases hstep

theorem keyLockedSlow_balance {name : String} {rest : Nat}
    (h : v.keyLocksActive ≡ mapLen v.keyLocks + rest [MOD 2 ^ env.usizeBits]) :
    (v.keyLockedSlow env name).2.keyLocksActive ≡
      mapLen (v.keyLockedSlow env name).2.keyLocks + rest [MOD 2 ^ env.usizeBits] := by
  unfold Vault.keyLockedSlow
  split
  · exact h
  · exact h
  · rename_i deadline hlookup
    split
    · exact h
    · have hmem : name ∈ v.keyLocks := AList.lookup_isSome.mp (by simp [hlookup])
      rw [← mapLen_erase_of_mem hmem, Nat.add_right_comm] at h
      exact fetchSub_modEq h

theorem lockKey_length_le {name : String} {deadline : Option Duration} {newly : Bool}
    (hstep : v.lockKey env name deadline = some (newly, v')) :
    mapLen v'.keyLocks ≤ mapLen v.keyLocks + 1 := by
  unfold Vault.lockKey at hstep
  dsimp only at hstep
  split at hstep
  · rename_i hmem
    cases hstep
    simp only [mapLen_insert_of_mem hmem]
    omega
  · rename_i hmem
    split at hstep
    · cases hstep
      simp only [mapLen_insert_of_notMem hmem]
      omega
    · cases hstep

theorem keyLockedSlow_length_le {name : String} :
    mapLen (v.keyLockedSlow env name).2.keyLocks ≤ mapLen v.keyLocks := by
  have herase := mapLen_erase v.keyLocks name
  unfold Vault.keyLockedSlow
  repeat' split
  all_goals dsimp only
  all_goals omega

theorem perform_balance {op : VaultOp} {ret : op.Ret} {rest : Nat}
    (hclear : op ≠ .clearKeyLocks) (hstep : Vault.perform env op v = some (ret, v'))
    (h : v.keyLocksActive ≡ mapLen v.keyLocks + (op.settles + rest) [MOD 2 ^ env.usizeBits]) :
    v'.keyLocksActive ≡ mapLen v'.keyLocks + (op.leavesOwed ret + rest)
      [MOD 2 ^ env.usizeBits] := by
  cases op with
  | clearKeyLocks => exact absurd rfl hclear
  | lockKey name deadline =>
    simp only [VaultOp.settles, VaultOp.leavesOwed, Nat.zero_add] at h ⊢
    exact lockKey_balance hstep h
  | keyLockedSlow name =>
    obtain rfl : (v.keyLockedSlow env name).2 = v' := congrArg Prod.snd (Option.some.inj hstep)
    simp only [VaultOp.settles, VaultOp.leavesOwed, Nat.zero_add] at h ⊢
    exact keyLockedSlow_balance h
  | unlockKey name =>
    cases hstep
    simp only [VaultOp.settles, VaultOp.leavesOwed, Nat.zero_add] at h ⊢
    rw [← mapLen_erase v.keyLocks name, Nat.add_assoc] at h
    exact h
  | subKeyLocksActive =>
    cases hstep
    simp only [VaultOp.settles, VaultOp.leavesOwed, Nat.zero_add] at h ⊢
    refine fetchSub_modEq ?_
    rwa [Nat.add_comm 1 rest, ← Nat.add_assoc] at h
  | _ =>
    obtain ⟨hlocks, hactive⟩ := (Vault.perform_frame hstep).keyLocks rfl
    rw [hlocks, hactive]
    exact h

theorem perform_lockouts_le {op : VaultOp} {ret : op.Ret}
    (hstep : Vault.perform env op v = some (ret, v')) :
    mapLen v'.keyLocks + op.leavesOwed ret ≤ mapLen v.keyLocks + op.settles + op.locks := by
  cases op with
  | lockKey name deadline =>
    simp only [VaultOp.settles, VaultOp.leavesOwed, Nat.add_zero]
    exact lockKey_length_le hstep
  | keyLockedSlow name =>
    obtain rfl : (v.keyLockedSlow env name).2 = v' := congrArg Prod.snd (Option.some.inj hstep)
    simp only [VaultOp.settles, VaultOp.leavesOwed, Nat.add_zero]
    exact keyLockedSlow_length_le
  | unlockKey name =>
    cases hstep
    simp only [VaultOp.settles, VaultOp.leavesOwed, Nat.add_zero]
    exact (mapLen_erase v.keyLocks name).le
  | clearKeyLocks =>
    cases hstep
    simp only [mapLen_empty, VaultOp.leavesOwed, Nat.zero_add, Nat.zero_le]
  | subKeyLocksActive =>
    cases hstep
    simp only [VaultOp.settles, VaultOp.leavesOwed]
    omega
  | _ =>
    obtain ⟨hlocks, -⟩ := (Vault.perform_frame hstep).keyLocks rfl
    rw [hlocks]
    exact Nat.le_refl _

/-- The counter stays equal to the lockouts plus the removals still to be counted,
where `flight` and `flight'` are those removals before and after the step. -/
theorem perform_counted {op : VaultOp} {ret : op.Ret} {flight flight' : Nat}
    (hstep : Vault.perform env op v = some (ret, v'))
    (hclear : op.resets = true → flight = 0) (hmine : op.settles ≤ flight)
    (hflight : flight' + op.settles = flight + op.leavesOwed ret)
    (h : v.keyLocksActive ≡ mapLen v.keyLocks + flight [MOD 2 ^ env.usizeBits]) :
    v'.keyLocksActive ≡ mapLen v'.keyLocks + flight' [MOD 2 ^ env.usizeBits] := by
  by_cases hop : op = .clearKeyLocks
  · -- the counter is reset with the map, and nothing is in flight
    subst hop
    have hzero := hclear rfl
    simp only [VaultOp.settles, VaultOp.leavesOwed] at hflight
    obtain rfl : flight' = 0 := by omega
    cases hstep
    exact Nat.ModEq.refl 0
  · obtain ⟨rest, rfl⟩ := Nat.exists_eq_add_of_le hmine
    obtain rfl : flight' = op.leavesOwed ret + rest := by omega
    exact perform_balance hop hstep h

end Balance

/-! ### Whole runs -/

/-- What holds between the counter and the map in every configuration. -/
structure CounterInvariant (env : Environment) (c : VaultConfiguration) : Prop where
  paired : ∀ call ∈ c.calls, Paired call.rest
  counted : c.shared.keyLocksActive ≡ mapLen c.shared.keyLocks + inFlight c
    [MOD 2 ^ env.usizeBits]
  bounded : mapLen c.shared.keyLocks + inFlight c < 2 ^ env.usizeBits

theorem counterInvariant_new (env : Environment) (clock unixTime : Duration) (handles : Nat) :
    CounterInvariant env (Config.start (Vault.new clock unixTime handles)) where
  paired := by simp [Config.start]
  counted := Nat.ModEq.refl 0
  bounded := Nat.two_pow_pos _

theorem counterInvariant_invoke {env : Environment} {c : VaultConfiguration}
    (h : CounterInvariant env c) (request : Request) :
    CounterInvariant env
      { c with calls := c.calls ++ [⟨request, (vaultMachine env).program request⟩] } := by
  obtain ⟨hpaired, howed⟩ := paired_program env request
  have hflight : inFlight { c with
      calls := c.calls ++ [⟨request, (vaultMachine env).program request⟩] } = inFlight c := by
    simp only [inFlight, Config.total, List.map_append, List.map_cons, List.map_nil,
      List.sum_append, List.sum_singleton, vaultMachine, howed, Nat.add_zero]
  refine ⟨fun call hcall => ?_, by rw [hflight]; exact h.counted, by rw [hflight]; exact h.bounded⟩
  rcases List.mem_append.mp hcall with hold | hnew
  · exact h.paired call hold
  · rw [List.mem_singleton.mp hnew]
    exact hpaired

theorem inFlight_exec {c : VaultConfiguration} {caller : Nat} {request : Request} {op : VaultOp}
    {next : op.Ret → VaultProgram Response}
    (hcall : c.calls[caller]? = some ⟨request, .step op next⟩)
    (hpaired : Paired (.step op next : VaultProgram Response)) (ret : op.Ret) (v : Vault)
    (log : List (Entry vaultSignature Request)) :
    inFlight ⟨v, c.calls.set caller ⟨request, next ret⟩, log⟩ + op.settles =
      inFlight c + op.leavesOwed ret := by
  have hset := Config.sum_map_set (fun call : Activation vaultSignature Request Response =>
    owed call.rest) hcall ⟨request, next ret⟩
  rw [owed_step, (hpaired ret).1] at hset
  exact hset

theorem counterInvariant_exec {env : Environment} {c c' : VaultConfiguration} {caller : Nat}
    (h : CounterInvariant env c) (hsafe : CounterSafe env c (.exec caller))
    (hstep : (vaultMachine env).step c (.exec caller) = some c') : CounterInvariant env c' := by
  obtain ⟨request, op, next, ret, v, hcall, hperform, rfl⟩ := Machine.step_exec_iff.mp hstep
  have hpaired : Paired (.step op next : VaultProgram Response) :=
    h.paired _ (List.mem_of_getElem? hcall)
  have hflight := inFlight_exec hcall hpaired ret v (c.log ++ [⟨caller, request, ⟨op, ret⟩⟩])
  have hnext : nextOp c caller = some op := by
    unfold nextOp
    rw [hcall]
    rfl
  obtain ⟨hresets, hroom⟩ := hsafe op hnext
  have hle := perform_lockouts_le hperform
  have hbounded := h.bounded
  refine ⟨fun call hmem => ?_, ?_, ?_⟩
  · rcases List.mem_or_eq_of_mem_set hmem with hold | rfl
    · exact h.paired call hold
    · exact (hpaired ret).2
  · have hmine : op.settles ≤ inFlight c :=
      List.le_sum_of_mem (List.mem_map.mpr ⟨_, List.mem_of_getElem? hcall, rfl⟩)
    exact perform_counted hperform hresets hmine hflight h.counted
  · dsimp only
    by_cases hlocks : op.locks = 1
    · have hlt := hroom hlocks
      omega
    · have hle_one : op.locks ≤ 1 := by
        unfold VaultOp.locks
        split <;> omega
      omega

theorem counterInvariant_run {env : Environment} {c c' : VaultConfiguration}
    (hrun : (vaultMachine env).Runs (CounterSafe env) c c') (h : CounterInvariant env c) :
    CounterInvariant env c' := by
  refine hrun.invariant h fun c action c' hinv hsafe hstep => ?_
  cases action with
  | invoke request =>
    rw [Machine.step_invoke_iff] at hstep
    subst hstep
    exact counterInvariant_invoke hinv request
  | exec caller => exact counterInvariant_exec hinv hsafe hstep
  | external event =>
    obtain ⟨v, hact, rfl⟩ := Machine.step_external_iff.mp hstep
    obtain ⟨clock, unixTime, handles, -, -, rfl⟩ := Surroundings.act_frame hact
    exact ⟨hinv.paired, hinv.counted, hinv.bounded⟩

theorem active_ne_zero {env : Environment} {c : VaultConfiguration} (h : CounterInvariant env c)
    (hheld : c.shared.keyLocks ≠ ∅) : c.shared.keyLocksActive ≠ 0 := by
  intro hzero
  have hcounted := h.counted
  rw [hzero] at hcounted
  have hempty : mapLen c.shared.keyLocks + inFlight c = 0 :=
    (hcounted.eq_of_lt_of_lt (Nat.two_pow_pos _) h.bounded).symm
  have hnil : c.shared.keyLocks.keys = [] :=
    List.length_eq_zero_iff.mp (Nat.eq_zero_of_add_eq_zero_right hempty)
  exact hheld (AList.ext (List.map_eq_nil_iff.mp hnil))

theorem keyLocked_of_underLockout {env : Environment} {v : Vault} {name : String}
    (hactive : v.keyLocksActive ≠ 0) (h : v.UnderLockout name) :
    runAlone env (keyLocked name) v = some (true, v) := by
  obtain ⟨deadline, hlookup, hclock⟩ := h
  have hslow : v.keyLockedSlow env name = (true, v) := by
    unfold Vault.keyLockedSlow
    rw [hlookup]
    cases deadline with
    | none => rfl
    | some time => exact if_pos (hclock time rfl)
  unfold keyLocked
  rw [runAlone_bind, runAlone_loadKeyLocksActive]
  dsimp only [Option.bind_some]
  rw [if_neg hactive, runAlone_keyLockedSlow, hslow]

/-- The counter never misses a lockout: it is non-zero while the map holds an
entry, and `key_locked` answers that a name under a lockout is locked. -/
def CounterSound (env : Environment) (v : Vault) : Prop :=
  (v.keyLocks ≠ ∅ → v.keyLocksActive ≠ 0) ∧
    ∀ name, v.UnderLockout name → runAlone env (keyLocked name) v = some (true, v)

theorem counterSound_of_runs {env : Environment} {clock unixTime : Duration} {handles : Nat}
    {c : VaultConfiguration}
    (hrun : (vaultMachine env).Runs (CounterSafe env)
      (Config.start (Vault.new clock unixTime handles)) c) : CounterSound env c.shared := by
  have hinv := counterInvariant_run hrun (counterInvariant_new env clock unixTime handles)
  refine ⟨active_ne_zero hinv, ?_⟩
  intro name hlocked
  apply keyLocked_of_underLockout (active_ne_zero hinv ?_) hlocked
  intro hempty
  obtain ⟨deadline, hlookup, -⟩ := hlocked
  rw [hempty] at hlookup
  cases hlookup

def lockAtOnce : Environment := .plain { keyLockoutThreshold := 1 }

def overlappingClear : List (Action Request Surroundings) :=
  [.invoke (.reportFailure "a" none)] ++ List.replicate 5 (.exec 0) ++
  [.invoke (.clearKeyLockout "a"), .exec 1] ++
  [.invoke (.reportFailure "b" none)] ++ List.replicate 5 (.exec 2) ++
  [.exec 1]

theorem counterSound_overlappingClear : ∃ c, (vaultMachine lockAtOnce).Runs
    (CounterSafe lockAtOnce) (Config.start (Vault.new 0 0 0)) c ∧
      c.shared.UnderLockout "b" ∧ CounterSound lockAtOnce c.shared := by
  have hfinal : ((vaultMachine lockAtOnce).followWhile (CounterSafe lockAtOnce)
      (Config.start (Vault.new 0 0 0)) overlappingClear).map
        (fun c => c.shared.keyLocks.lookup "b") = some (some none) := by decide +kernel
  obtain ⟨c, hfollow, hlookup⟩ := Option.map_eq_some_iff.mp hfinal
  have hrun := Machine.followWhile_runs hfollow
  exact ⟨c, hrun, ⟨none, hlookup, by simp⟩, counterSound_of_runs hrun⟩

/-- `clear_lockout` runs between the removal of `a` and the decrement for it; `b`
is locked before the decrement happens. -/
def lateDecrement : List (Action Request Surroundings) :=
  [.invoke (.reportFailure "a" none)] ++ List.replicate 5 (.exec 0) ++
  [.invoke (.clearKeyLockout "a"), .exec 1] ++
  [.invoke .clearLockout] ++ List.replicate 3 (.exec 2) ++
  [.invoke (.reportFailure "b" none)] ++ List.replicate 5 (.exec 3) ++
  [.exec 1]

theorem counterSound_fails : ∃ c, (vaultMachine lockAtOnce).Reaches
    (Config.start (Vault.new 0 0 0)) c ∧ c.shared.UnderLockout "b" ∧
      c.shared.keyLocksActive = 0 ∧ ¬ CounterSound lockAtOnce c.shared := by
  have hrace : ((vaultMachine lockAtOnce).follow (Config.start (Vault.new 0 0 0))
      lateDecrement).map (fun c => (c.shared.keyLocksActive, c.shared.keyLocks.lookup "b")) =
        some (0, some none) := by decide +kernel
  obtain ⟨c, hfollow, hc⟩ := Option.map_eq_some_iff.mp hrace
  rw [Prod.mk.injEq] at hc
  obtain ⟨hactive, hlookup⟩ := hc
  refine ⟨c, Machine.follow_reaches hfollow, ⟨none, hlookup, by simp⟩, hactive, ?_⟩
  intro hsound
  apply hsound.1 ?_ hactive
  intro hempty
  rw [hempty] at hlookup
  cases hlookup

end KeyVault
