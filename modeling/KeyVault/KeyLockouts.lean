import KeyVault.SequentialRuns

/-! Per-key lockouts over whole runs: how long a lockout lasts, and which failures
it counts. -/
namespace KeyVault

open Interleaving Lockouts

/-! ### What a call was about -/

def Served.reports (step : Served) (name : String) : Bool :=
  match step.request with
  | .reportFailure reported _ => reported == name
  | _ => false

/-- The call lifted every lockout of `name` on request: `clear_key_lockout` of that
name, `clear_lockout`, or a master unlock that succeeded. -/
def Served.clears (step : Served) (name : String) : Bool :=
  match step.request with
  | .clearKeyLockout cleared => cleared == name
  | .clearLockout => true
  | .unlockWithMaster _ _ => step.response == .status (.ok ())
  | _ => false

def Served.keyCount (env : Environment) (step : Served) (name : String) : UInt32 :=
  (recordEntries env.config step.time true
    ((step.before.failureTracker.lookup name).getD [])).2.inKeyWindow

/-- The call is a `report_failure` that makes the per-key threshold fire. -/
def Served.Fires (env : Environment) (step : Served) (name : String) : Prop :=
  step.reports name = true ∧ env.config.keyLockoutThreshold > 0 ∧
    step.keyCount env name ≥ env.config.keyLockoutThreshold

instance (env : Environment) (step : Served) (name : String) : Decidable (step.Fires env name) :=
  inferInstanceAs (Decidable (_ ∧ _ ∧ _))

def Served.accesses (step : Served) (name : String) : Bool :=
  match step.request with
  | .withKey handle _ _ | .rotate handle _ _ _ =>
      (step.before.keys.lookup handle).map (·.name) == some name
  | _ => false

def Response.LockedOut : Response → Prop
  | .material result => result = fail .lockedOut
  | .status result => result = fail .lockedOut
  | _ => False

section Step

variable {env : Environment} {v : Vault} {time : Duration} {request : Request} {step : Served}
  {name : String}

theorem reports_iff : step.reports name = true ↔ ∃ note, step.request = .reportFailure name note := by
  unfold Served.reports
  cases step.request with
  | reportFailure reported note => simp
  | _ => simp

theorem controls_before (hserve : serve env v time request = some step) :
    step.before.controls = v.controls ∧ step.before.clock = time := by
  obtain ⟨-, -, -, hbefore, -⟩ := serve_eq_some hserve
  rw [hbefore]
  exact ⟨rfl, rfl⟩

theorem unlocked_response (h : v.Counted env) {attempt : Bytes} {opens : Bool}
    (hserve : serve env v time (.unlockWithMaster attempt opens) = some step) :
    step.response = .status (.ok ()) ↔
      masterOutcome env step.before attempt opens = some (.checked true) := by
  obtain ⟨-, -, -, hbefore, hrun⟩ := serve_eq_some hserve
  have hclocked : ({ v with clock := time } : Vault).Counted env := ⟨h.active, h.bounded⟩
  obtain ⟨result, hresponse, hcall⟩ := runAlone_respond hrun
  obtain ⟨-, -, hok⟩ := unlockWithMaster_spec hclocked hcall
  rw [hbefore, ← hok, hresponse, Response.status.injEq]

theorem clears_of_occurrence (h : v.Counted env)
    (hserve : serve env v time request = some step) {o : Occurrence String}
    (ho : request.occurrence env step.before = some o) (hclear : o = .clearKey name ∨ o = .clearAll) :
    step.clears name = true := by
  obtain ⟨-, -, hrequest, -, -⟩ := serve_eq_some hserve
  unfold Served.clears
  cases effect_of_occurrence ho with
  | reported failed note => simp at hclear
  | cleared name =>
    rw [hrequest]
    simpa using hclear
  | clearedAll => rw [hrequest]
  | unlocked hmatched =>
    rw [hrequest, (unlocked_response h hserve).mpr hmatched]
    rfl
  | mismatched hmismatched => simp at hclear
  | looked hlooks => simp at hclear

theorem Served.Fires.policy (hserve : serve env v time request = some step)
    (h : step.Fires env name) :
    (∃ note, request = .reportFailure name note) ∧
      env.config.policy.Fires time true (v.controls.failures name) := by
  obtain ⟨hreports, hthreshold, hcount⟩ := h
  obtain ⟨-, htime, hrequest, hbefore, -⟩ := serve_eq_some hserve
  obtain ⟨note, hnote⟩ := reports_iff.mp hreports
  refine ⟨⟨note, hrequest.symm.trans hnote⟩, ?_⟩
  have hcounts : env.config.policy.counts true := (keyThreshold_pos env.config true).mp hthreshold
  apply (keyThreshold_reached env.config time true (v.controls.failures name)).mp
  refine ⟨hthreshold, ?_⟩
  unfold Served.keyCount at hcount
  rw [htime, hbefore] at hcount
  rw [decide_eq_true hcounts]
  exact hcount

end Step

/-! ### How long a lockout lasts -/

theorem lockEnd_renews (config : VaultConfig) {start now time : Duration} (hle : start ≤ now)
    (h : Before time (config.policy.lockEnd start)) : Before time (config.policy.lockEnd now) := by
  intro stop hstop
  unfold VaultConfig.policy at h hstop
  dsimp only at h hstop
  obtain ⟨duration, hduration, rfl⟩ := Option.map_eq_some_iff.mp hstop
  have hbefore := h _ (Option.map_eq_some_iff.mpr ⟨duration, hduration, rfl⟩)
  apply Nat.lt_of_lt_of_le hbefore
  exact min_le_min_right Duration.MAX (Nat.add_le_add_right hle duration)

section Held

variable {env : Environment} {v : Vault} {handle : KeyId} {entry : KeyEntry}

theorem withKey_of_held {α : Type} {opens : Bool} {scratch : Bytes} {f : Bytes → α}
    (h : v.Counted env) (hlookup : v.keys.lookup handle = some entry)
    (hheld : v.controls.Held v.clock entry.name) :
    ∃ v', runAlone env (withKey env handle opens scratch f) v = some (fail .lockedOut, v') := by
  obtain ⟨hanswer, -, -⟩ := keyLockedSlow_spec h entry.name
  rw [runAlone_withKey h, hlookup]
  dsimp only
  rw [hanswer, decide_eq_true hheld]
  split
  · exact ⟨v, rfl⟩
  · exact ⟨_, rfl⟩

theorem rotate_of_held {key : Bytes} {rng : Rng} {os : OsAnswers} (h : v.Counted env)
    (hlookup : v.keys.lookup handle = some entry)
    (hheld : v.controls.Held v.clock entry.name) :
    ∃ v', runAlone env (rotate env handle key rng os) v = some (fail .lockedOut, v') := by
  obtain ⟨hanswer, -, -⟩ := keyLockedSlow_spec h entry.name
  rw [runAlone_rotate h, hlookup]
  dsimp only
  rw [hanswer, decide_eq_true hheld]
  split
  · exact ⟨v, rfl⟩
  · exact ⟨_, rfl⟩

theorem lockedOut_of_held {time : Duration} {request : Request} {step : Served} {name : String}
    (h : v.Counted env) (hserve : serve env v time request = some step)
    (haccess : step.accesses name = true) (hheld : v.controls.Held time name) :
    step.response.LockedOut := by
  obtain ⟨-, -, hrequest, hbefore, hrun⟩ := serve_eq_some hserve
  have hclocked : ({ v with clock := time } : Vault).Counted env := ⟨h.active, h.bounded⟩
  unfold Served.accesses at haccess
  rw [hrequest, hbefore] at haccess
  cases request with
  | withKey handle opens scratch =>
    obtain ⟨entry, hlookup, rfl⟩ := Option.map_eq_some_iff.mp (eq_of_beq haccess)
    obtain ⟨result, hresponse, hcall⟩ := runAlone_respond hrun
    obtain ⟨v', hlocked⟩ := withKey_of_held hclocked hlookup hheld
    rw [hlocked] at hcall
    cases hcall
    rw [hresponse]
    rfl
  | rotate handle key rng os =>
    obtain ⟨entry, hlookup, rfl⟩ := Option.map_eq_some_iff.mp (eq_of_beq haccess)
    obtain ⟨result, hresponse, hcall⟩ := runAlone_respond hrun
    obtain ⟨v', hlocked⟩ := rotate_of_held hclocked hlookup hheld
    rw [hlocked] at hcall
    cases hcall
    rw [hresponse]
    rfl
  | _ => cases haccess

end Held

/-- The lockout survives every run of calls that does not clear it, until it ends. -/
theorem heldUntil_run {env : Environment} {v v' : Vault} {steps : List Served} {name : String}
    {start : Duration} (hrun : Serves env v steps v') (hcounted : v.Counted env)
    (hstart : start ≤ v.clock)
    (hheld : v.controls.HeldUntil name (env.config.policy.lockEnd start))
    (hkept : ∀ step ∈ steps, step.clears name = false) :
    Before v'.clock (env.config.policy.lockEnd start) →
      v'.controls.HeldUntil name (env.config.policy.lockEnd start) := by
  -- the invariant says nothing about the time after the lockout is over
  have hinvariant := hrun.history (I := fun _ v => v.Counted env ∧ start ≤ v.clock ∧
    (Before v.clock (env.config.policy.lockEnd start) →
      v.controls.HeldUntil name (env.config.policy.lockEnd start)))
    ⟨hcounted, hstart, fun _ => hheld⟩
  refine (hinvariant ?_).2.2
  rintro earlier v time request step hmem ⟨hv, hlater, hlocked⟩ hserve
  obtain ⟨hafter, hclock, hcontrols⟩ := serve_spec hv hserve
  obtain ⟨hle, -⟩ := serve_eq_some hserve
  obtain ⟨hsame, hnow⟩ := controls_before hserve
  refine ⟨hafter, hclock ▸ hlater.trans hle, ?_⟩
  intro hbefore
  rw [hclock] at hbefore
  have hstill : Before v.clock (env.config.policy.lockEnd start) := by
    intro stop hstop
    exact Nat.lt_of_le_of_lt hle (hbefore stop hstop)
  rw [hcontrols]
  unfold controlsAfter
  rw [hsame, hnow]
  cases ho : request.occurrence env step.before with
  | none => exact hlocked hstill
  | some o =>
    have hclear := hkept step hmem
    apply (hlocked hstill).after hbefore
    · rintro rfl
      rw [clears_of_occurrence hv hserve ho (.inl rfl)] at hclear
      cases hclear
    · rintro rfl
      rw [clears_of_occurrence hv hserve ho (.inr rfl)] at hclear
      cases hclear
    · intro other
      exact lockEnd_renews env.config (hlater.trans hle)

/-- Once the per-key threshold has fired for a name, every `with_key` and every
`rotate` on a key of that name is refused until the lockout ends, whatever calls
are made in between, unless one of them clears it. -/
theorem keyLockout_lasts {env : Environment} {clock unixTime : Duration} {handles : Nat}
    {v : Vault} {earlier between later : List Served} {failing access : Served} {name : String}
    (hrun : Serves env (Vault.new clock unixTime handles)
      (earlier ++ failing :: (between ++ access :: later)) v)
    (hfires : failing.Fires env name)
    (hkept : ∀ step ∈ between, step.clears name = false)
    (haccess : access.accesses name = true)
    (htime : ∀ duration ∈ env.config.keyLockoutDuration,
      failing.time + duration ≤ Duration.MAX ∧ access.time < failing.time + duration) :
    access.response.LockedOut := by
  obtain ⟨before, hearlier, hrest⟩ := Serves.split _ _ hrun
  obtain ⟨hfailing, hrest⟩ := hrest.head
  obtain ⟨unlocked, hbetween, hrest⟩ := Serves.split _ _ hrest
  obtain ⟨hserve, -⟩ := hrest.head
  have hcounted := hearlier.counted (counted_new env clock unixTime handles)
  obtain ⟨hafter, hclock, hcontrols⟩ := serve_spec hcounted hfailing
  obtain ⟨hsame, hnow⟩ := controls_before hfailing
  obtain ⟨⟨note, hrequest⟩, hpolicy⟩ := hfires.policy hfailing
  have hheld : failing.after.controls.HeldUntil name
      (env.config.policy.lockEnd failing.time) := by
    rw [hcontrols, hrequest]
    show (failing.before.controls.after env.config.policy failing.before.clock
      (.failure name true)).HeldUntil name _
    rw [hsame, hnow]
    exact Controls.heldUntil_of_fires hpolicy
  have hbefore : Before access.time (env.config.policy.lockEnd failing.time) := by
    intro stop hstop
    obtain ⟨duration, hduration, rfl⟩ := Option.map_eq_some_iff.mp hstop
    obtain ⟨hmax, hlt⟩ := htime duration hduration
    exact lt_min hlt (Nat.lt_of_lt_of_le hlt hmax)
  obtain ⟨hle, -⟩ := serve_eq_some hserve
  have hstill : Before unlocked.clock (env.config.policy.lockEnd failing.time) := by
    intro stop hstop
    exact Nat.lt_of_le_of_lt hle (hbefore stop hstop)
  have hlocked := heldUntil_run hbetween hafter (Nat.le_of_eq hclock.symm) hheld hkept hstill
  exact lockedOut_of_held (hbetween.counted hafter) hserve haccess (hlocked.held hbefore)

def lockForTen : Environment := .plain { keyLockoutThreshold := 1, keyLockoutDuration := some 10 }

/-- The locked key is removed and registered again under its name, and another
name is locked, before it is read. -/
def reregistered : List (Duration × Request) :=
  [(0, .register "k" [1, 2, 3] (.constant 5) ⟨true, true, true⟩),
    (1, .reportFailure "k" none),
    (2, .unregister 1),
    (3, .register "k" [4, 5] (.constant 6) ⟨true, true, true⟩),
    (4, .reportFailure "other" none),
    (10, .withKey 2 true [])]

theorem keyLockout_lasts_reregistered : ∃ steps v,
    serveAll lockForTen (Vault.new 0 0 0) reregistered = some (steps, v) ∧
      ∃ access, steps.getLast? = some access ∧ access.time = 10 ∧ access.accesses "k" = true ∧
        access.response.LockedOut := by
  have hrun : (serveAll lockForTen (Vault.new 0 0 0) reregistered).map (fun out =>
      out.1.map fun step => (step.time, step.clears "k", decide (step.Fires lockForTen "k"),
        step.accesses "k")) =
      some [(0, false, false, false), (1, false, true, false), (2, false, false, false),
        (3, false, false, false), (4, false, false, false), (10, false, false, true)] := by
    decide +kernel
  obtain ⟨⟨steps, v⟩, hserves, hsteps⟩ := Option.map_eq_some_iff.mp hrun
  simp only [List.map_eq_cons_iff, List.map_eq_nil_iff, Prod.mk.injEq] at hsteps
  obtain ⟨first, -, rfl, -, failing, -, rfl, ⟨hfailed, -, hfires, -⟩, a, -, rfl, ⟨-, ha, -⟩,
    b, -, rfl, ⟨-, hb, -⟩, d, -, rfl, ⟨-, hd, -⟩, access, -, rfl, ⟨htime, -, -, haccess⟩, rfl⟩ :=
    hsteps
  refine ⟨_, v, hserves, access, rfl, htime, haccess, ?_⟩
  have hall : Serves lockForTen (Vault.new 0 0 0)
      ([first] ++ failing :: ([a, b, d] ++ access :: [])) v := serves_of_serveAll hserves
  apply keyLockout_lasts hall (of_decide_eq_true hfires) _ haccess
  · rintro duration ⟨⟩
    rw [hfailed, htime]
    decide
  · simp [ha, hb, hd]

/-! ### Which failures count -/

def Vault.lockExpired (v : Vault) (name : String) : Bool :=
  match v.keyLocks.lookup name with
  | some (some stop) => decide (stop ≤ v.clock)
  | _ => false

/-- The call forgot the failures of `name`: it cleared the name, or it found the
lockout of the name expired. -/
def Served.resets (step : Served) (name : String) : Bool :=
  step.clears name ||
    (step.request.looksAt step.before == some name && step.before.lockExpired name)

def reportsSince (name : String) (steps : List Served) : List Duration :=
  steps.foldl (fun times step =>
    if step.resets name then [] else if step.reports name then times ++ [step.time] else times) []

/-- The call is an `unlock_with_master` that the backoff lets through and whose
credential does not match. -/
def Served.mismatched (env : Environment) (step : Served) : Bool :=
  match step.request with
  | .unlockWithMaster attempt opens =>
      masterOutcome env step.before attempt opens == some (.checked false)
  | _ => false

def Served.fails (env : Environment) (step : Served) (name : String) : Bool :=
  step.reports name || (name == masterName && step.mismatched env)

def failuresSince (env : Environment) (name : String) (steps : List Served) : List Duration :=
  steps.foldl (fun times step =>
    if step.resets name then [] else if step.fails env name then times ++ [step.time] else times) []

theorem failuresSince_snoc (env : Environment) (name : String) (steps : List Served)
    (step : Served) :
    failuresSince env name (steps ++ [step]) =
      if step.resets name then []
      else if step.fails env name then failuresSince env name steps ++ [step.time]
      else failuresSince env name steps := by
  unfold failuresSince
  rw [List.foldl_append]
  rfl

theorem fails_eq_reports {env : Environment} {step : Served} {name : String}
    (h : name = masterName → step.mismatched env = false) :
    step.fails env name = step.reports name := by
  unfold Served.fails
  by_cases hname : name = masterName
  · rw [h hname, Bool.and_false, Bool.or_false]
  · rw [beq_false_of_ne hname, Bool.false_and, Bool.or_false]

theorem reportsSince_snoc (name : String) (steps : List Served) (step : Served) :
    reportsSince name (steps ++ [step]) =
      if step.resets name then []
      else if step.reports name then reportsSince name steps ++ [step.time]
      else reportsSince name steps := by
  unfold reportsSince
  rw [List.foldl_append]
  rfl

theorem lockExpired_iff (v : Vault) (name : String) :
    v.lockExpired name = true ↔ v.controls.Expired v.clock name := by
  unfold Vault.lockExpired Controls.Expired
  show _ ↔ ∃ stop, v.keyLocks.lookup name = some (some stop) ∧ stop ≤ v.clock
  cases v.keyLocks.lookup name with
  | none => simp
  | some deadline => cases deadline <;> simp

section Counting

variable {env : Environment} {v : Vault} {time : Duration} {request : Request} {step : Served}
  {name : String}

theorem failures_looked (env : Environment) (v : Vault) (looked : Option String) (name : String) :
    (controlsAfter env v (looked.map .look)).failures name =
      if looked == some name && v.lockExpired name then [] else v.controls.failures name := by
  cases looked with
  | none => rfl
  | some seen =>
    show (v.controls.after env.config.policy v.clock (.look seen)).failures name = _
    by_cases hexpired : v.controls.Expired v.clock seen
    · rw [Controls.look_of_expired hexpired]
      by_cases hname : seen = name
      · subst hname
        simp [(lockExpired_iff v seen).mpr hexpired]
      · dsimp only
        rw [Function.update_of_ne (Ne.symm hname)]
        simp [hname]
    · rw [Controls.look_of_not_expired hexpired]
      by_cases hname : seen = name
      · subst hname
        simp [mt (lockExpired_iff v seen).mp hexpired]
      · simp [hname]

theorem serve_failures (h : v.Counted env) (hserve : serve env v time request = some step) :
    step.after.controls.failures name =
      if step.resets name then []
      else if step.fails env name then
        env.config.policy.record time (step.reports name) (v.controls.failures name)
      else v.controls.failures name := by
  obtain ⟨-, -, hcontrols⟩ := serve_spec h hserve
  obtain ⟨hsame, hnow⟩ := controls_before hserve
  obtain ⟨-, -, hrequest, -, -⟩ := serve_eq_some hserve
  unfold Served.fails Served.resets Served.clears Served.reports Served.mismatched
  rw [hcontrols, hrequest]
  cases request with
  | reportFailure failed note =>
    simp only [controlsAfter, Request.occurrence, Request.looksAt, hsame, hnow]
    by_cases hname : failed = name
    · subst hname
      simp [Controls.failures_failure_self]
    · rw [Controls.failures_failure_other (Ne.symm hname)]
      simp [hname]
  | clearKeyLockout cleared =>
    simp only [controlsAfter, Request.occurrence, Request.looksAt, Controls.after, hsame]
    by_cases hname : cleared = name
    · subst hname
      simp
    · rw [Function.update_of_ne (Ne.symm hname)]
      simp [hname]
  | clearLockout => simp [controlsAfter, Request.occurrence, Controls.after]
  | unlockWithMaster attempt opens =>
    have hok := unlocked_response h hserve
    simp only [controlsAfter, Request.occurrence, Request.looksAt]
    cases houtcome : masterOutcome env step.before attempt opens with
    | none =>
      rw [houtcome] at hok
      have hfailed : step.response ≠ .status (.ok ()) := by simp [hok]
      simp [hfailed, hsame]
    | some outcome =>
      rw [houtcome] at hok
      cases outcome with
      | refused exit =>
        have hfailed : step.response ≠ .status (.ok ()) := by simp [hok]
        simp [hfailed, hsame]
      | checked matched =>
        cases matched with
        | true =>
          have hunlocked : step.response = .status (.ok ()) := hok.mpr rfl
          simp [hunlocked, Controls.after]
        | false =>
          have hfailed : step.response ≠ .status (.ok ()) := by simp [hok]
          dsimp only
          rw [hsame, hnow]
          by_cases hname : name = masterName
          · subst hname
            rw [Controls.failures_failure_self]
            simp [hfailed]
          · rw [Controls.failures_failure_other hname]
            simp [hfailed, hname]
  | _ =>
    rw [← hsame]
    simp only [Request.occurrence, Bool.false_or, Bool.false_eq_true, if_false, Bool.and_false]
    exact failures_looked env step.before _ name

theorem resets_of_reports (h : step.reports name = true) : step.resets name = false := by
  obtain ⟨note, hrequest⟩ := reports_iff.mp h
  unfold Served.resets Served.clears
  rw [hrequest]
  rfl

/-- A window that no recorded failure outlives sees the failures since the last
reset. -/
theorem recent_since_run {clock unixTime : Duration} {handles : Nat} {steps : List Served}
    (window : Duration) (hrun : Serves env (Vault.new clock unixTime handles) steps v)
    (hwindow : ∀ step ∈ steps, step.fails env name = true →
      window ≤ env.config.policy.horizon (step.reports name)) :
    v.Counted env ∧ recent v.clock window (v.controls.failures name) =
      recent v.clock window (failuresSince env name steps) := by
  apply hrun.history (I := fun earlier v => v.Counted env ∧
    recent v.clock window (v.controls.failures name) =
      recent v.clock window (failuresSince env name earlier))
    ⟨counted_new env clock unixTime handles, rfl⟩
  rintro earlier v time request step hmem ⟨hv, hrecent⟩ hserve
  obtain ⟨hafter, hclock, -⟩ := serve_spec hv hserve
  obtain ⟨hle, htime, -⟩ := serve_eq_some hserve
  have hlater := recent_congr_later hle hrecent
  refine ⟨hafter, ?_⟩
  rw [hclock, failuresSince_snoc, serve_failures hv hserve, htime]
  by_cases hresets : step.resets name = true
  · rw [if_pos hresets, if_pos hresets]
  · rw [if_neg hresets, if_neg hresets]
    by_cases hfails : step.fails env name = true
    · rw [if_pos hfails, if_pos hfails, recent_append, recent_now, ← hlater]
      exact env.config.policy.recent_record (hwindow step hmem hfails) _
    · rw [if_neg hfails, if_neg hfails]
      exact hlater

theorem failuresSince_eq_reportsSince {steps : List Served}
    (hmaster : name = masterName → ∀ step ∈ steps, step.mismatched env = false) :
    failuresSince env name steps = reportsSince name steps := by
  apply List.foldl_ext
  intro times step hmem
  rw [fails_eq_reports fun hname => hmaster hname step hmem]

theorem recent_failures_run {clock unixTime : Duration} {handles : Nat} {steps : List Served}
    (hrun : Serves env (Vault.new clock unixTime handles) steps v)
    (hcounts : env.config.policy.counts true)
    (hmaster : name = masterName → ∀ step ∈ steps, step.mismatched env = false) :
    v.Counted env ∧ recent v.clock env.config.keyLockoutWindow (v.controls.failures name) =
      recent v.clock env.config.keyLockoutWindow (reportsSince name steps) := by
  rw [← failuresSince_eq_reportsSince hmaster]
  apply recent_since_run _ hrun
  intro step hmem hfails
  rw [fails_eq_reports fun hname => hmaster hname step hmem] at hfails
  rw [hfails]
  exact env.config.policy.keyWindow_le_horizon hcounts

end Counting

theorem countWithin_congr {now window : Duration} {left right : List Duration}
    (h : recent now window left = recent now window right) :
    countWithin now window left = countWithin now window right := by
  have hlength := congrArg List.length h
  unfold recent at hlength
  unfold countWithin Duration.saturatingSub
  rw [hlength]

/-- The per-key control of `name` counts the `report_failure` calls for that name
since its last reset, each of them and nothing else. -/
structure CountsOnlyReports (env : Environment) (name : String) (steps : List Served) : Prop where
  fires : ∀ (earlier : List Served) (step : Served) (later : List Served),
    steps = earlier ++ step :: later → step.Fires env name →
    env.config.keyLockoutThreshold.toNat ≤
      (recent step.time env.config.keyLockoutWindow (reportsSince name (earlier ++ [step]))).length
  count : ∀ (earlier : List Served) (step : Served) (later : List Served),
    steps = earlier ++ step :: later → step.reports name = true →
    env.config.keyLockoutThreshold > 0 →
    step.keyCount env name = countWithin step.time env.config.keyLockoutWindow
      (reportsSince name (earlier ++ [step]))

/-- In every run without a mismatched master unlock, and for every name but
`<master>` in every run, only reports count; with the control off nothing does. -/
theorem countsOnlyReports_of_run {env : Environment} {clock unixTime : Duration} {handles : Nat}
    {steps : List Served} {v : Vault} {name : String}
    (hrun : Serves env (Vault.new clock unixTime handles) steps v)
    (hmaster : 0 < env.config.keyLockoutThreshold → name = masterName →
      ∀ step ∈ steps, step.mismatched env = false) :
    CountsOnlyReports env name steps := by
  have hcount : ∀ (earlier : List Served) (step : Served) (later : List Served),
      steps = earlier ++ step :: later → step.reports name = true →
      env.config.keyLockoutThreshold > 0 →
      step.keyCount env name = countWithin step.time env.config.keyLockoutWindow
        (reportsSince name (earlier ++ [step])) := by
    rintro earlier step later rfl hreports hthreshold
    have hcounts : env.config.policy.counts true :=
      (keyThreshold_pos env.config true).mp hthreshold
    obtain ⟨mid, hearlier, hrest⟩ := Serves.split _ _ hrun
    obtain ⟨hserve, -⟩ := hrest.head
    obtain ⟨hle, -, -, hbefore, -⟩ := serve_eq_some hserve
    obtain ⟨-, hrecent⟩ := recent_failures_run hearlier hcounts
      fun hname other hmem => hmaster hthreshold hname other (List.mem_append_left _ hmem)
    obtain ⟨-, -, hkey⟩ := recordEntries_spec env.config step.time true (mid.controls.failures name)
    have hfailures : (step.before.failureTracker.lookup name).getD [] =
        mid.controls.failures name := by
      rw [hbefore]
      rfl
    rw [decide_eq_true hcounts] at hkey
    unfold Served.keyCount
    rw [hfailures, hkey hcounts, reportsSince_snoc, resets_of_reports hreports, hreports]
    apply countWithin_congr
    simp only [Bool.false_eq_true, if_false, if_true]
    rw [recent_append, recent_now, ← recent_congr_later hle hrecent]
    exact env.config.policy.recent_record (env.config.policy.keyWindow_le_horizon hcounts) _
  refine ⟨?_, hcount⟩
  rintro earlier step later hsteps ⟨hreports, hthreshold, hreached⟩
  rw [hcount earlier step later hsteps hreports hthreshold] at hreached
  exact (le_countWithin _ _ _ _).mp hreached

def masterVault (config : VaultConfig) : Environment :=
  { Environment.plain config with
    master := some (.ready ⟨Fragments.fromParts
      [List.replicate 32 0 ++ List.replicate 32 7] [] 64⟩)
    blake3Keyed := fun _ attempt => Vector.replicate 32 (attempt.headD 0) }

def lockAtTwo : Environment := masterVault { keyLockoutThreshold := 2 }

theorem countsOnlyReports_mixed : ∃ steps v,
    serveAll lockAtTwo (Vault.new 0 0 0)
      [(1, .reportFailure "k" none), (2, .unlockWithMaster [9] true),
        (3, .reportFailure "k" none)] = some (steps, v) ∧
      steps.map (fun step => (step.mismatched lockAtTwo, decide (step.Fires lockAtTwo "k"))) =
        [(false, false), (true, false), (false, true)] ∧
      CountsOnlyReports lockAtTwo "k" steps := by
  have hrun : (serveAll lockAtTwo (Vault.new 0 0 0)
      [(1, .reportFailure "k" none), (2, .unlockWithMaster [9] true),
        (3, .reportFailure "k" none)]).map (fun out => out.1.map fun step =>
          (step.mismatched lockAtTwo, decide (step.Fires lockAtTwo "k"))) =
      some [(false, false), (true, false), (false, true)] := by
    decide +kernel
  obtain ⟨⟨steps, v⟩, hserves, hsteps⟩ := Option.map_eq_some_iff.mp hrun
  refine ⟨steps, v, hserves, hsteps, ?_⟩
  apply countsOnlyReports_of_run (serves_of_serveAll hserves)
  intro _ hname
  exact absurd hname (by decide)

theorem countsOnlyReports_fails : ∃ steps v,
    Serves lockAtTwo (Vault.new 0 0 0) steps v ∧
      ¬ CountsOnlyReports lockAtTwo masterName steps := by
  have hrun : (serveAll lockAtTwo (Vault.new 0 0 0)
      [(1, .unlockWithMaster [9] true), (2, .reportFailure masterName none)]).map (fun out =>
        out.1.getLast?.map fun step => (decide (step.Fires lockAtTwo masterName),
          (recent step.time lockAtTwo.config.keyLockoutWindow
            (reportsSince masterName out.1)).length)) =
      some (some (true, 1)) := by
    decide +kernel
  obtain ⟨⟨steps, v⟩, hserves, hlast⟩ := Option.map_eq_some_iff.mp hrun
  obtain ⟨step, hstep, hfacts⟩ := Option.map_eq_some_iff.mp hlast
  rw [Prod.mk.injEq] at hfacts
  obtain ⟨hfires, hlength⟩ := hfacts
  obtain ⟨earlier, rfl⟩ := List.getLast?_eq_some_iff.mp hstep
  refine ⟨_, v, serves_of_serveAll hserves, ?_⟩
  intro h
  have htwo := h.fires earlier step [] rfl (of_decide_eq_true hfires)
  rw [hlength] at htwo
  exact absurd htwo (by decide)

end KeyVault
