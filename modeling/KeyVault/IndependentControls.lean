import KeyVault.KeyLockouts
import KeyVault.Registry

/-! Does the per-key control touch the vault-wide one? Two vaults that differ in
the per-key lockout only take the same calls at the same times. They keep the same
names, handles and master backoff, and the same vault-wide flag as long as no
expired lockout takes a recent failure away. -/
namespace KeyVault

open Interleaving Atomic Lockouts

/-- `with_key_lockout` on a vault configured otherwise. -/
def Environment.withKeyLockout (env : Environment) (max : UInt32) (window : Duration)
    (lockFor : Option Duration) : Environment :=
  { env with
    config := { env.config with
      keyLockoutThreshold := max
      keyLockoutWindow := window
      keyLockoutDuration := lockFor } }

/-- What two vaults share that differ in key material and lockouts. -/
structure Alike (v w : Vault) : Prop where
  clock : w.clock = v.clock
  names : w.names = v.names
  handleCounter : w.handleCounter = v.handleCounter
  masterBackoff : w.masterBackoff = v.masterBackoff

/-! ### Names -/

theorem hasName_iff_names (v : Vault) (name : String) :
    v.keys.hasName name = true ↔ ∃ id, v.names id = some name := by
  rw [← named_registryOf]
  unfold Registry.Named Vault.names registryOf
  simp only [Option.map_eq_some_iff]

section Alike

variable {env : Environment} {v w v' w' : Vault} {response response' : Response}

theorem names_kept {request : Request}
    (hregister : ∀ name key rng os, request ≠ .register name key rng os)
    (hunregister : ∀ handle, request ≠ .unregister handle)
    (hrun : runAlone env (request.program env) v = some (response, v')) :
    v'.names = v.names := by
  apply runAlone_keeps (program_uses env request) _ hrun
  intro op s ret s' hop hstep
  apply perform_names _ hstep
  cases request with
  | register name key rng os => exact absurd rfl (hregister name key rng os)
  | unregister handle => exact absurd rfl (hunregister handle)
  | _ => cases op <;> first | rfl | cases hop

theorem handleCounter_kept {request : Request}
    (hregister : ∀ name key rng os, request ≠ .register name key rng os)
    (hrun : runAlone env (request.program env) v = some (response, v')) :
    v'.handleCounter = v.handleCounter := by
  apply runAlone_keeps (program_uses env request) _ hrun
  intro op s ret s' hop hstep
  apply (Vault.perform_frame hstep).handleCounter
  cases request with
  | register name key rng os => exact absurd rfl (hregister name key rng os)
  | _ => cases op <;> first | rfl | cases hop

theorem register_alike {max : UInt32} {window : Duration} {lockFor : Option Duration}
    {name : String} {key : Bytes} {rng : Rng} {os : OsAnswers} {result result' : Result KeyId}
    (h : Alike v w) (hflag : w.lockedOut = v.lockedOut)
    (hrun : runAlone env (register env name key rng os) v = some (result, v'))
    (hrun' : runAlone (env.withKeyLockout max window lockFor)
      (register (env.withKeyLockout max window lockFor) name key rng os) w = some (result', w')) :
    w'.names = v'.names ∧ w'.handleCounter = v'.handleCounter := by
  have hname : w.keys.hasName name = v.keys.hasName name := by
    rw [Bool.eq_iff_iff, hasName_iff_names, hasName_iff_names, h.names]
  have hfragment : fragmentForRegistry (env.withKeyLockout max window lockFor) os key rng =
      fragmentForRegistry env os key rng := rfl
  rcases register_cases hrun with ⟨rfl, -, hwhy⟩ | ⟨fragments, trail, hlocked, hfree, hmade, -, rfl⟩
  · rcases register_cases hrun' with ⟨rfl, -, -⟩ | ⟨fragments, trail, hlocked, hfree, hmade, -, -⟩
    · exact ⟨h.names, h.handleCounter⟩
    · -- the second vault had no reason to refuse, so the first had none
      rw [hflag] at hlocked
      rw [hname] at hfree
      rw [hfragment] at hmade
      rcases hwhy with hwhy | hwhy | ⟨exit, hwhy⟩
      · rw [hlocked] at hwhy
        cases hwhy
      · rw [hfree] at hwhy
        cases hwhy
      · rw [hmade] at hwhy
        cases hwhy
  · rcases register_cases hrun' with ⟨-, -, hwhy⟩ | ⟨fragments', trail', -, -, -, -, rfl⟩
    · rw [hflag, hname, hfragment, hlocked, hfree, hmade] at hwhy
      rcases hwhy with hwhy | hwhy | ⟨exit, hwhy⟩
      · cases hwhy
      · cases hwhy
      · cases hwhy
    · refine ⟨?_, congrArg (· + 1) h.handleCounter⟩
      have hupdate : Function.update w.names (keyIdAfter w.handleCounter) (some name) =
          Function.update v.names (keyIdAfter v.handleCounter) (some name) := by
        rw [h.names, h.handleCounter]
      refine Eq.trans (names_insert w _ ⟨name, fragments', ⟨w.unixTime, key.length, none⟩⟩) ?_
      exact hupdate.trans (names_insert v _ ⟨name, fragments, ⟨v.unixTime, key.length, none⟩⟩).symm

theorem unregister_names {handle : KeyId} {result : Result Unit}
    (hrun : runAlone env (unregister env handle) v = some (result, v')) :
    v'.names = Function.update v.names handle none := by
  rcases unregister_keys hrun with herased | ⟨habsent, hsame⟩
  · unfold Vault.names
    rw [herased]
    exact names_erase v handle
  · have hnone : v.names handle = none := by
      unfold Vault.names
      rw [habsent]
      rfl
    rw [← hnone, Function.update_eq_self]
    unfold Vault.names
    rw [hsame]

/-! ### The master backoff -/

theorem uses_clearLockout {P : VaultOp → Prop} (hstore : P .storeUnlocked)
    (hlocks : P .clearKeyLocks) (hfailures : P .clearFailures) :
    Program.Uses (S := vaultSignature) P clearLockout :=
  ⟨hstore, fun _ => ⟨hlocks, fun _ => ⟨hfailures, fun _ => trivial⟩⟩⟩

theorem unlockWithMaster_backoff {attempt : Bytes} {opens : Bool} {result : Result Unit}
    (hrun : runAlone env (unlockWithMaster env attempt opens) v = some (result, v')) :
    v'.masterBackoff = (env.master.map fun verifier =>
      (v.attemptMaster env verifier attempt opens).2.masterBackoff).getD v.masterBackoff := by
  unfold unlockWithMaster at hrun
  cases hmaster : env.master with
  | none =>
    rw [hmaster] at hrun
    cases hrun
    rfl
  | some verifier =>
    rw [hmaster] at hrun
    simp only [runAlone_bind, runAlone_attemptMaster, Option.bind_some] at hrun
    refine runAlone_keeps (P := fun op => op.writes .masterBackoff = false) ?_ ?_ hrun
    · split
      · trivial
      · refine Program.uses_bind (uses_emitAudit rfl) fun _ => ?_
        split
        · exact Program.uses_bind (uses_clearLockout rfl rfl rfl) fun _ => trivial
        · exact Program.uses_bind (uses_handleFailure rfl (fun _ _ => rfl) (fun _ _ => rfl)
            (fun _ => rfl) fun _ _ => rfl) fun _ => trivial
    · intro op s ret s' hop hstep
      exact (Vault.perform_frame hstep).masterBackoff hop

theorem backoff_kept {request : Request}
    (hmaster : ∀ attempt opens, request ≠ .unlockWithMaster attempt opens)
    (hrun : runAlone env (request.program env) v = some (response, v')) :
    v'.masterBackoff = v.masterBackoff := by
  apply runAlone_keeps (program_uses env request) _ hrun
  intro op s ret s' hop hstep
  apply (Vault.perform_frame hstep).masterBackoff
  cases request with
  | unlockWithMaster attempt opens => exact absurd rfl (hmaster attempt opens)
  | _ => cases op <;> first | rfl | cases hop

theorem attemptMaster_alike {max : UInt32} {window : Duration} {lockFor : Option Duration}
    (h : Alike v w) (verifier : MasterVerifier) (attempt : Bytes) (opens : Bool) :
    (w.attemptMaster (env.withKeyLockout max window lockFor) verifier attempt opens).1 =
        (v.attemptMaster env verifier attempt opens).1 ∧
      (w.attemptMaster (env.withKeyLockout max window lockFor) verifier attempt opens).2.masterBackoff =
        (v.attemptMaster env verifier attempt opens).2.masterBackoff := by
  have hverify : verifyMaster (env.withKeyLockout max window lockFor) = verifyMaster env := rfl
  have hdelay : backoffDelay (env.withKeyLockout max window lockFor).config =
      backoffDelay env.config := rfl
  unfold Vault.attemptMaster
  simp only [h.clock, h.masterBackoff, hverify, hdelay]
  split
  · exact ⟨rfl, h.masterBackoff⟩
  · split
    · exact ⟨rfl, h.masterBackoff⟩
    · split
      · exact ⟨rfl, h.masterBackoff⟩
      · split
        · exact ⟨rfl, rfl⟩
        · exact ⟨rfl, rfl⟩

/-! ### One call on both vaults -/

section Call

variable {max : UInt32} {window : Duration} {lockFor : Option Duration} {request : Request}

theorem occurrence_alike (h : Alike v w) (hflag : w.lockedOut = v.lockedOut) :
    request.occurrence (env.withKeyLockout max window lockFor) w = request.occurrence env v := by
  have hlooks : request.looksAt w = request.looksAt v := by
    have hnames := h.names
    unfold Vault.names at hnames
    cases request with
    | withKey handle opens scratch =>
      simp only [Request.looksAt, hflag]
      rw [congrFun hnames handle]
    | rotate handle key rng os =>
      simp only [Request.looksAt, hflag]
      rw [congrFun hnames handle]
    | isKeyLockedOut handle => exact congrFun hnames handle
    | _ => rfl
  cases request with
  | unlockWithMaster attempt opens =>
    have houtcome : masterOutcome (env.withKeyLockout max window lockFor) w attempt opens =
        masterOutcome env v attempt opens := by
      unfold masterOutcome
      show env.master.map _ = env.master.map _
      cases env.master with
      | none => rfl
      | some verifier => exact congrArg some (attemptMaster_alike h verifier attempt opens).1
    simp only [Request.occurrence, houtcome]
  | _ => first | rfl | (simp only [Request.occurrence, hlooks])

theorem names_after (h : Alike v w) (hflag : w.lockedOut = v.lockedOut)
    (hrun : runAlone env (request.program env) v = some (response, v'))
    (hrun' : runAlone (env.withKeyLockout max window lockFor)
      (request.program (env.withKeyLockout max window lockFor)) w = some (response', w')) :
    w'.names = v'.names ∧ w'.handleCounter = v'.handleCounter := by
  cases request with
  | register name key rng os =>
    obtain ⟨result, -, hcall⟩ := runAlone_respond hrun
    obtain ⟨result', -, hcall'⟩ := runAlone_respond hrun'
    exact register_alike h hflag hcall hcall'
  | unregister handle =>
    obtain ⟨result, -, hcall⟩ := runAlone_respond hrun
    obtain ⟨result', -, hcall'⟩ := runAlone_respond hrun'
    constructor
    · rw [unregister_names hcall, unregister_names hcall', h.names]
    · rw [handleCounter_kept (by simp) hrun, handleCounter_kept (by simp) hrun', h.handleCounter]
  | _ =>
    constructor
    · rw [names_kept (by simp) (by simp) hrun, names_kept (by simp) (by simp) hrun', h.names]
    · rw [handleCounter_kept (by simp) hrun, handleCounter_kept (by simp) hrun', h.handleCounter]

theorem masterBackoff_after (h : Alike v w)
    (hrun : runAlone env (request.program env) v = some (response, v'))
    (hrun' : runAlone (env.withKeyLockout max window lockFor)
      (request.program (env.withKeyLockout max window lockFor)) w = some (response', w')) :
    w'.masterBackoff = v'.masterBackoff := by
  cases request with
  | unlockWithMaster attempt opens =>
    obtain ⟨result, -, hcall⟩ := runAlone_respond hrun
    obtain ⟨result', -, hcall'⟩ := runAlone_respond hrun'
    rw [unlockWithMaster_backoff hcall, unlockWithMaster_backoff hcall', h.masterBackoff]
    show (env.master.map _).getD _ = (env.master.map _).getD _
    cases env.master with
    | none => rfl
    | some verifier => exact (attemptMaster_alike h verifier attempt opens).2
  | _ => rw [backoff_kept (by simp) hrun, backoff_kept (by simp) hrun', h.masterBackoff]

theorem alike_after (h : Alike v w) (hflag : w.lockedOut = v.lockedOut)
    (hrun : runAlone env (request.program env) v = some (response, v'))
    (hrun' : runAlone (env.withKeyLockout max window lockFor)
      (request.program (env.withKeyLockout max window lockFor)) w = some (response', w')) :
    Alike v' w' where
  clock := by rw [runAlone_clock hrun, runAlone_clock hrun', h.clock]
  names := (names_after h hflag hrun hrun').1
  handleCounter := (names_after h hflag hrun hrun').2
  masterBackoff := masterBackoff_after h hrun hrun'

end Call

end Alike

/-! ### Two runs -/

/-- The call found an expired lockout, and with it went a failure that the
vault-wide control still counted. -/
def Served.forgetsCounted (env : Environment) (step : Served) : Bool :=
  match step.request.looksAt step.before with
  | some name => decide (0 < env.config.maxFailuresBeforeLockout) && step.before.lockExpired name &&
      !(recent step.time env.config.failureWindow (step.before.controls.failures name)).isEmpty
  | none => false

structure Agree (p : Policy) (now : Nat) (a b : Controls String) : Prop where
  off : p.maxFailures = 0 → a.lockedOut = false ∧ b.lockedOut = false
  on : p.maxFailures ≠ 0 → Controls.SameRecent p.window now a b

theorem Agree.flag {p : Policy} {now : Nat} {a b : Controls String} (h : Agree p now a b) :
    a.lockedOut = b.lockedOut := by
  by_cases hoff : p.maxFailures = 0
  · obtain ⟨ha, hb⟩ := h.off hoff
    rw [ha, hb]
  · exact (h.on hoff).flag

theorem Agree.later {p : Policy} {now later : Nat} {a b : Controls String} (h : Agree p now a b)
    (hle : now ≤ later) : Agree p later a b where
  off := h.off
  on := fun hon => (h.on hon).later hle

theorem Agree.after {p q : Policy} {now : Nat} {a b : Controls String} {o : Occurrence String}
    (h : Agree p now a b) (hmax : p.maxFailures = q.maxFailures) (hwindow : p.window = q.window)
    (hunlocked : a.locks = fun _ => none)
    (hkept : p.maxFailures ≠ 0 → ∀ name, o = .look name → b.Expired now name →
      recent now p.window (b.failures name) = []) :
    Agree p now (a.after p now o) (b.after q now o) := by
  constructor
  · intro hoff
    obtain ⟨ha, hb⟩ := h.off hoff
    exact ⟨Controls.flag_after_of_off hoff ha, Controls.flag_after_of_off (hmax.symm.trans hoff) hb⟩
  · intro hon
    rw [hwindow] at hkept ⊢
    have hsame := h.on hon
    rw [hwindow] at hsame
    apply hsame.after hmax hwindow _ (hkept hon)
    rintro name - ⟨stop, hlock, -⟩
    rw [hunlocked] at hlock
    cases hlock

section Runs

variable {env : Environment} {max : UInt32} {window : Duration} {lockFor : Option Duration}
  {v w v' w' : Vault}

theorem looksAt_of_occurrence {request : Request} {name : String}
    (h : request.occurrence env v = some (.look name)) : request.looksAt v = some name := by
  cases effect_of_occurrence h with
  | looked hlooks => exact hlooks

/-- The failures that leave with an expired lockout are too old to count. -/
theorem recent_nil_of_kept {step : Served} {name : String}
    (hkept : step.forgetsCounted env = false) (hlooks : step.request.looksAt step.before = some name)
    (hclock : step.before.clock = step.time) (hon : env.config.policy.maxFailures ≠ 0)
    (hexpired : step.before.controls.Expired step.time name) :
    recent step.time env.config.failureWindow (step.before.controls.failures name) = [] := by
  have hpos : 0 < env.config.maxFailuresBeforeLockout := by
    apply UInt32.lt_iff_toNat_lt.mpr
    exact Nat.pos_of_ne_zero hon
  rw [← hclock] at hexpired
  unfold Served.forgetsCounted at hkept
  rw [hlooks] at hkept
  dsimp only at hkept
  rw [decide_eq_true hpos, (lockExpired_iff _ _).mpr hexpired, Bool.true_and, Bool.true_and,
    Bool.not_eq_false', List.isEmpty_iff] at hkept
  exact hkept

structure Matched (env : Environment) (v w : Vault) : Prop where
  alike : Alike v w
  counted : v.Counted env
  counted' : w.Counted env
  unlocked : v.controls.locks = fun _ => none
  agree : Agree env.config.policy v.clock v.controls w.controls

theorem Matched.step {step step' : Served} (h : Matched env v w)
    (hoff : env.config.keyLockoutThreshold = 0)
    (hserve : serve env v step.time step.request = some step)
    (hserve' : serve (env.withKeyLockout max window lockFor) w step'.time step'.request =
      some step')
    (hcall : step.call = step'.call) (hkept : step'.forgetsCounted env = false) :
    Matched env step.after step'.after := by
  obtain ⟨htime, hrequest⟩ := Prod.mk.inj hcall
  rw [← htime, ← hrequest] at hserve'
  obtain ⟨hle, -, -, hbefore, hrun⟩ := serve_eq_some hserve
  obtain ⟨-, -, -, hbefore', hrun'⟩ := serve_eq_some hserve'
  obtain ⟨hcontrols, hclock⟩ := controls_before hserve
  obtain ⟨hcontrols', hclock'⟩ := controls_before hserve'
  obtain ⟨hcounted, htimed, hafter⟩ := serve_spec h.counted hserve
  have hstart : w.Counted (env.withKeyLockout max window lockFor) :=
    ⟨h.counted'.active, h.counted'.bounded⟩
  obtain ⟨hcounted', -, hafter'⟩ := serve_spec hstart hserve'
  have halike : Alike step.before step'.before := by
    rw [hbefore, hbefore']
    exact ⟨rfl, h.alike.names, h.alike.handleCounter, h.alike.masterBackoff⟩
  have hagree := h.agree.later hle
  rw [← hcontrols, ← hcontrols'] at hagree
  have hflag : step'.before.lockedOut = step.before.lockedOut := hagree.flag.symm
  have hunlocked := h.unlocked
  rw [← hcontrols] at hunlocked
  rw [← hbefore] at hrun
  rw [← hbefore'] at hrun'
  have hoccurs : step.request.occurrence (env.withKeyLockout max window lockFor) step'.before =
      step.request.occurrence env step.before := occurrence_alike halike hflag
  rw [hoccurs] at hafter'
  have hzero : env.config.policy.keyThreshold = 0 := congrArg UInt32.toNat hoff
  have hnext : step.after.controls.locks = (fun _ => none) ∧
      Agree env.config.policy step.time step.after.controls step'.after.controls := by
    rw [hafter, hafter']
    unfold controlsAfter
    rw [hclock, hclock']
    cases ho : step.request.occurrence env step.before with
    | none => exact ⟨hunlocked, hagree⟩
    | some o =>
      refine ⟨Controls.locks_after_of_off hzero hunlocked, ?_⟩
      apply hagree.after (q := (env.withKeyLockout max window lockFor).config.policy) rfl rfl hunlocked
      rintro hon name rfl hexpired
      rw [htime] at hexpired hclock' ⊢
      rw [← hoccurs] at ho
      have hlooks := looksAt_of_occurrence ho
      rw [hrequest] at hlooks
      exact recent_nil_of_kept hkept hlooks hclock' hon hexpired
  refine ⟨alike_after halike hflag hrun hrun', hcounted, ⟨hcounted'.active, hcounted'.bounded⟩,
    hnext.1, ?_⟩
  rw [htimed]
  exact hnext.2

theorem Matched.runs {plain locked : List Served} (h : Matched env v w)
    (hoff : env.config.keyLockoutThreshold = 0) (hplain : Serves env v plain v')
    (hlocked : Serves (env.withKeyLockout max window lockFor) w locked w')
    (hsame : plain.map Served.call = locked.map Served.call)
    (hkept : ∀ step ∈ locked, step.forgetsCounted env = false) :
    plain.map (·.after.lockedOut) = locked.map (·.after.lockedOut) := by
  induction plain generalizing locked v w with
  | nil =>
    rw [List.map_nil, eq_comm, List.map_eq_nil_iff] at hsame
    rw [hsame]
  | cons step rest ih =>
    obtain ⟨step', rest', rfl, hcall, hrest⟩ := List.map_eq_cons_iff.mp hsame.symm
    obtain ⟨hserve, hlater⟩ := hplain.head
    obtain ⟨hserve', hlater'⟩ := hlocked.head
    have hnext := h.step hoff hserve hserve' hcall.symm (hkept _ (List.mem_cons_self ..))
    have hflag : step.after.lockedOut = step'.after.lockedOut := hnext.agree.flag
    rw [List.map_cons, List.map_cons, hflag]
    apply congrArg
    apply ih hnext hlater hlater' hrest.symm
    intro other hmem
    exact hkept other (List.mem_cons_of_mem _ hmem)

end Runs

/-- Two vaults, one without the per-key lockout, take the same calls at the same
times. If no expired lockout takes a failure away that the vault-wide control still
counts, `is_locked_out` is the same after every call. -/
theorem lockedOut_independent {env : Environment} {max : UInt32} {window : Duration}
    {lockFor : Option Duration} {clock unixTime : Duration} {handles : Nat}
    {plain locked : List Served} {v w : Vault} (hoff : env.config.keyLockoutThreshold = 0)
    (hplain : Serves env (Vault.new clock unixTime handles) plain v)
    (hlocked : Serves (env.withKeyLockout max window lockFor) (Vault.new clock unixTime handles)
      locked w)
    (hsame : plain.map Served.call = locked.map Served.call)
    (hkept : ∀ step ∈ locked, step.forgetsCounted env = false) :
    plain.map (·.after.lockedOut) = locked.map (·.after.lockedOut) := by
  have hcounted := counted_new env clock unixTime handles
  have hstart : Matched env (Vault.new clock unixTime handles) (Vault.new clock unixTime handles) :=
    { alike := ⟨rfl, rfl, rfl, rfl⟩
      counted := hcounted
      counted' := hcounted
      unlocked := rfl
      agree := ⟨fun _ => ⟨rfl, rfl⟩, fun _ => ⟨rfl, fun _ => rfl⟩⟩ }
  exact hstart.runs hoff hplain hlocked hsame hkept

def lockAtThree : Environment :=
  .plain { maxFailuresBeforeLockout := 3, failureWindow := 100 }

def failuresWithRead (readAt : Duration) : List (Duration × Request) :=
  [(0, .register "k" [1, 2, 3] (.constant 5) ⟨true, true, true⟩),
    (0, .reportFailure "k" none), (readAt, .withKey 1 true []),
    (21, .reportFailure "k" none), (22, .reportFailure "k" none)]

theorem lockedOut_independent_refused : ∃ plain locked v w,
    Serves lockAtThree (Vault.new 0 0 0) plain v ∧
      Serves (lockAtThree.withKeyLockout 1 50 (some 10)) (Vault.new 0 0 0) locked w ∧
      plain.map Served.call = failuresWithRead 5 ∧ locked.map Served.call = failuresWithRead 5 ∧
      plain.map (·.after.lockedOut) = locked.map (·.after.lockedOut) := by
  have hplain : (serveAll lockAtThree (Vault.new 0 0 0) (failuresWithRead 5)).isSome = true := by
    decide +kernel
  have hlocked : (serveAll (lockAtThree.withKeyLockout 1 50 (some 10)) (Vault.new 0 0 0)
      (failuresWithRead 5)).map (fun out => out.1.map (Served.forgetsCounted lockAtThree)) =
      some [false, false, false, false, false] := by decide +kernel
  obtain ⟨⟨plain, v⟩, hserves⟩ := Option.isSome_iff_exists.mp hplain
  obtain ⟨⟨locked, w⟩, hserves', hkept⟩ := Option.map_eq_some_iff.mp hlocked
  have hcalls := calls_of_serveAll hserves
  have hcalls' := calls_of_serveAll hserves'
  refine ⟨plain, locked, v, w, serves_of_serveAll hserves, serves_of_serveAll hserves', hcalls,
    hcalls', ?_⟩
  apply lockedOut_independent rfl (serves_of_serveAll hserves) (serves_of_serveAll hserves')
    (hcalls.trans hcalls'.symm)
  intro step hmem
  have hforgets := List.mem_map_of_mem (f := Served.forgetsCounted lockAtThree) hmem
  rw [show locked.map (Served.forgetsCounted lockAtThree) = _ from hkept] at hforgets
  simpa using hforgets

/-- The read at time 20 finds the lockout of the key expired and takes the first
failure away, so the vault that locks keys never counts three. -/
theorem lockedOut_depends : ∃ plain locked v w,
    Serves lockAtThree (Vault.new 0 0 0) plain v ∧
      Serves (lockAtThree.withKeyLockout 1 50 (some 10)) (Vault.new 0 0 0) locked w ∧
      plain.map Served.call = failuresWithRead 20 ∧ locked.map Served.call = failuresWithRead 20 ∧
      plain.map (·.after.lockedOut) = [false, false, false, false, true] ∧
      locked.map (·.after.lockedOut) = [false, false, false, false, false] := by
  have hplain : (serveAll lockAtThree (Vault.new 0 0 0) (failuresWithRead 20)).map
      (fun out => out.1.map (·.after.lockedOut)) = some [false, false, false, false, true] := by
    decide +kernel
  have hlocked : (serveAll (lockAtThree.withKeyLockout 1 50 (some 10)) (Vault.new 0 0 0)
      (failuresWithRead 20)).map (fun out => out.1.map (·.after.lockedOut)) =
      some [false, false, false, false, false] := by decide +kernel
  obtain ⟨⟨plain, v⟩, hserves, hflags⟩ := Option.map_eq_some_iff.mp hplain
  obtain ⟨⟨locked, w⟩, hserves', hflags'⟩ := Option.map_eq_some_iff.mp hlocked
  exact ⟨plain, locked, v, w, serves_of_serveAll hserves, serves_of_serveAll hserves',
    calls_of_serveAll hserves, calls_of_serveAll hserves', hflags, hflags'⟩

end KeyVault
