import KeyVault.KeyLockouts

/-! What `record_failure` counts, over whole runs. The deque of a name has lost
entries, from its front and with a horizon that differs from one caller to the next;
its counts are still those of the full history since the last reset, and the
vault-wide flag follows them. -/
namespace KeyVault

open Interleaving Atomic Lockouts

/-! ### What the monitor is told -/

section Events

variable {env : Environment} {v v' : Vault}

theorem runAlone_events {α : Type} {p : VaultProgram α} {value : α}
    (hrun : runAlone env p v = some (value, v')) :
    ∃ more, v'.monitorEvents = v.monitorEvents ++ more := by
  apply (Program.uses_of_forall (P := fun _ => True) (fun _ => trivial) p).run_invariant
    (I := fun s => ∃ more, s.monitorEvents = v.monitorEvents ++ more) _
    ⟨[], (List.append_nil _).symm⟩ hrun
  rintro op s ret s' - ⟨more, hmore⟩ hstep
  exact ⟨more ++ op.notices, by rw [(Vault.perform_trails hstep).1, hmore, List.append_assoc]⟩

theorem handleFailure_events {name : String} {note : Option String} {perKey : Bool}
    (hrun : runAlone env (handleFailure env name note perKey) v = some ((), v')) :
    ∃ more, v'.monitorEvents = v.monitorEvents ++ .decryptionFailure name
      (recordEntries env.config v.clock (decide (env.config.policy.counts perKey))
        (v.controls.failures name)).2.inWindow
      (recordEntries env.config v.clock (decide (env.config.policy.counts perKey))
        (v.controls.failures name)).2.windowElapsed (note.getD "") :: more := by
  unfold handleFailure recordFailure at hrun
  simp only [runAlone_bind, runAlone_readClock, runAlone_trackFailure, runAlone_notify,
    Option.bind_some, Option.bind_eq_some_iff, Prod.exists, keyThreshold_pos] at hrun
  obtain ⟨_, flagged, hflag, hkey⟩ := hrun
  obtain ⟨first, hfirst⟩ := runAlone_events hflag
  obtain ⟨second, hsecond⟩ := runAlone_events hkey
  refine ⟨first ++ second, ?_⟩
  rw [hsecond, hfirst, List.append_assoc, List.append_assoc]
  rfl

end Events

/-! ### What a call counts -/

def Served.counts (env : Environment) (step : Served) (name : String) : FailureCounts :=
  (recordEntries env.config step.time
    (step.reports name && decide (env.config.keyLockoutThreshold > 0))
    ((step.before.failureTracker.lookup name).getD [])).2

/-- The failures of `name` since its last reset that are not older than the
vault-wide window when the last of `steps` is made. -/
def failuresInWindow (env : Environment) (name : String) (steps : List Served) (now : Duration) :
    List Duration :=
  recent now env.config.failureWindow (failuresSince env name steps)

section Counts

variable {env : Environment} {v : Vault} {time : Duration} {request : Request} {step : Served}
  {name : String}

theorem counts_perKey (env : Environment) (perKey : Bool) :
    (perKey && decide (env.config.keyLockoutThreshold > 0)) =
      decide (env.config.policy.counts perKey) := by
  cases perKey with
  | false => simp [Policy.counts]
  | true => exact decide_eq_decide.mpr (keyThreshold_pos env.config true)

theorem mismatched_iff : step.mismatched env = true ↔
    ∃ attempt opens, step.request = .unlockWithMaster attempt opens ∧
      masterOutcome env step.before attempt opens = some (.checked false) := by
  unfold Served.mismatched
  cases step.request with
  | unlockWithMaster attempt opens =>
    constructor
    · intro h
      exact ⟨attempt, opens, rfl, eq_of_beq h⟩
    · rintro ⟨_, _, ⟨⟩, houtcome⟩
      exact beq_iff_eq.mpr houtcome
  | _ => simp

theorem fails_iff : step.fails env name = true ↔
    step.reports name = true ∨ name = masterName ∧ step.mismatched env = true := by
  unfold Served.fails
  simp

theorem reports_of_mismatched (h : step.mismatched env = true) : step.reports name = false := by
  obtain ⟨attempt, opens, hrequest, -⟩ := mismatched_iff.mp h
  unfold Served.reports
  rw [hrequest]

theorem resets_of_fails (hv : v.Counted env) (hserve : serve env v time request = some step)
    (h : step.fails env name = true) : step.resets name = false := by
  rcases fails_iff.mp h with hreports | ⟨-, hmismatched⟩
  · exact resets_of_reports hreports
  · obtain ⟨attempt, opens, hrequest, houtcome⟩ := mismatched_iff.mp hmismatched
    obtain ⟨-, -, hsame, -⟩ := serve_eq_some hserve
    rw [← hsame, hrequest] at hserve
    have hok := unlocked_response hv hserve
    rw [houtcome] at hok
    have hfailed : step.response ≠ .status (.ok ()) := by simp [hok]
    unfold Served.resets Served.clears
    rw [hrequest]
    simp [Request.looksAt, hfailed]

theorem toNat_countWithin (now window : Duration) (entries : List Duration) :
    (countWithin now window entries).toNat = min (recent now window entries).length u32Max := by
  have hsame : (recent now window entries).length =
      (entries.filter fun t => decide (now.saturatingSub t ≤ window)).length := rfl
  unfold countWithin
  dsimp only
  rw [hsame]
  generalize (entries.filter fun t => decide (now.saturatingSub t ≤ window)).length = n
  by_cases hn : n ≤ u32Max
  · rw [if_pos hn, UInt32.toNat_ofNat_of_lt' (Nat.lt_succ_of_le hn), Nat.min_eq_left hn]
  · rw [if_neg hn, Nat.min_eq_right (by omega)]
    rfl

/-- The two results of `record_failure` that concern the vault-wide window depend on
the window alone. -/
theorem recordEntries_window (config : VaultConfig) (now : Duration) (perKey : Bool)
    (entries : List Duration) :
    (recordEntries config now perKey entries).2.inWindow.toNat =
        min (recent now config.failureWindow entries ++ [now]).length u32Max ∧
      (recordEntries config now perKey entries).2.windowElapsed =
        now - ((recent now config.failureWindow entries ++ [now]).head?.getD now) := by
  have hkeep : config.failureWindow ≤
      (if perKey then max config.failureWindow config.keyLockoutWindow
        else config.failureWindow) := by
    split
    · exact Nat.le_max_left _ _
    · exact Nat.le_refl _
  have hrecent : recent now config.failureWindow (recordEntries config now perKey entries).1 =
      recent now config.failureWindow entries ++ [now] := by
    show recent now config.failureWindow (forget now _ entries ++ [now]) = _
    rw [recent_append, recent_forget hkeep, recent_now]
  rw [← hrecent]
  refine ⟨toNat_countWithin now config.failureWindow _, ?_⟩
  unfold recent
  rw [List.head?_filter]
  rfl

theorem failuresSince_sorted (name : String) {clock unixTime : Duration} {handles : Nat} {steps : List Served}
    (hrun : Serves env (Vault.new clock unixTime handles) steps v) :
    v.Counted env ∧ (failuresSince env name steps).Pairwise (· ≤ ·) ∧
      ∀ t ∈ failuresSince env name steps, t ≤ v.clock := by
  apply hrun.history (I := fun steps v => v.Counted env ∧
    (failuresSince env name steps).Pairwise (· ≤ ·) ∧ ∀ t ∈ failuresSince env name steps, t ≤ v.clock)
  · exact ⟨counted_new env clock unixTime handles, .nil, fun t ht => by cases ht⟩
  · rintro earlier v time request step - ⟨hv, hsorted, hold⟩ hserve
    obtain ⟨hafter, hclock, -⟩ := serve_spec hv hserve
    obtain ⟨hle, htime, -⟩ := serve_eq_some hserve
    refine ⟨hafter, ?_⟩
    rw [failuresSince_snoc, hclock, htime]
    split
    · exact ⟨.nil, fun t ht => by cases ht⟩
    · split
      · constructor
        · rw [List.pairwise_append]
          refine ⟨hsorted, List.pairwise_singleton _ _, ?_⟩
          intro t ht now hnow
          rw [List.mem_singleton.mp hnow]
          exact (hold t ht).trans hle
        · intro t ht
          rcases List.mem_append.mp ht with ht | ht
          · exact (hold t ht).trans hle
          · rw [List.mem_singleton.mp ht]
      · exact ⟨hsorted, fun t ht => (hold t ht).trans hle⟩

theorem counts_of_run {clock unixTime : Duration} {handles : Nat} {earlier : List Served}
    (hrun : Serves env (Vault.new clock unixTime handles) earlier v)
    (hserve : serve env v time request = some step) (hfails : step.fails env name = true) :
    failuresInWindow env name (earlier ++ [step]) step.time =
        failuresInWindow env name earlier step.time ++ [step.time] ∧
      (step.counts env name).inWindow.toNat =
        min (failuresInWindow env name (earlier ++ [step]) step.time).length u32Max ∧
      (step.counts env name).windowElapsed = step.time -
        (failuresInWindow env name (earlier ++ [step]) step.time).head?.getD step.time := by
  obtain ⟨hle, htime, -, hbefore, -⟩ := serve_eq_some hserve
  obtain ⟨hcounted, hrecent⟩ := recent_since_run env.config.failureWindow hrun
    fun step _ _ => env.config.policy.window_le_horizon (step.reports name)
  have hwindow : failuresInWindow env name (earlier ++ [step]) step.time =
      failuresInWindow env name earlier step.time ++ [step.time] := by
    unfold failuresInWindow
    rw [failuresSince_snoc, resets_of_fails hcounted hserve hfails, hfails]
    simp only [Bool.false_eq_true, if_false, if_true]
    rw [recent_append, recent_now]
  have hentries : recent step.time env.config.failureWindow
      ((step.before.failureTracker.lookup name).getD []) =
        failuresInWindow env name earlier step.time := by
    rw [hbefore, htime]
    exact recent_congr_later hle hrecent
  obtain ⟨hcount, helapsed⟩ := recordEntries_window env.config step.time
    (step.reports name && decide (env.config.keyLockoutThreshold > 0))
    ((step.before.failureTracker.lookup name).getD [])
  rw [hentries, ← hwindow] at hcount helapsed
  exact ⟨hwindow, hcount, helapsed⟩

end Counts

/-! ### The vault-wide flag -/

def Served.clearsAll (step : Served) : Bool :=
  match step.request with
  | .clearLockout => true
  | .unlockWithMaster _ _ => step.response == .status (.ok ())
  | _ => false

structure ReachesThreshold (env : Environment) (earlier : List Served) (step : Served)
    (name : String) : Prop where
  fails : step.fails env name = true
  on : 0 < env.config.maxFailuresBeforeLockout.toNat
  reached : env.config.maxFailuresBeforeLockout.toNat ≤
    (failuresInWindow env name (earlier ++ [step]) step.time).length

/-- Since the vault was built or last cleared, some call reached the threshold. -/
def TrippedSince (env : Environment) (steps : List Served) : Prop :=
  ∃ earlier step later name, steps = earlier ++ step :: later ∧
    (∀ other ∈ later, other.clearsAll = false) ∧ ReachesThreshold env earlier step name

theorem lockedOut_looked (env : Environment) (v : Vault) (looked : Option String) :
    (controlsAfter env v (looked.map .look)).lockedOut = v.controls.lockedOut := by
  cases looked with
  | none => rfl
  | some name => exact Controls.lockedOut_look (p := env.config.policy)

section Flag

variable {env : Environment} {v : Vault} {time : Duration} {request : Request} {step : Served}
  {name : String} {earlier : List Served}

theorem trippedSince_snoc : TrippedSince env (earlier ++ [step]) ↔
    (step.clearsAll = false ∧ TrippedSince env earlier) ∨
      ∃ name, ReachesThreshold env earlier step name := by
  constructor
  · rintro ⟨first, tripping, later, name, hsteps, hkept, hreaches⟩
    rcases List.eq_nil_or_concat later with rfl | ⟨rest, last, rfl⟩
    · obtain ⟨rfl, hlast⟩ := List.append_inj' hsteps rfl
      cases List.singleton_inj.mp hlast
      exact .inr ⟨name, hreaches⟩
    · rw [List.concat_eq_append] at hsteps hkept
      rw [← List.cons_append, ← List.append_assoc] at hsteps
      obtain ⟨rfl, hlast⟩ := List.append_inj' hsteps rfl
      cases List.singleton_inj.mp hlast
      refine .inl ⟨hkept step (by simp), first, tripping, rest, name, rfl, ?_, hreaches⟩
      intro other hmem
      exact hkept other (List.mem_append_left _ hmem)
  · rintro (⟨hkept, first, tripping, later, name, rfl, hlater, hreaches⟩ | ⟨name, hreaches⟩)
    · refine ⟨first, tripping, later ++ [step], name, ?_, ?_, hreaches⟩
      · rw [List.append_assoc, List.cons_append]
      · intro other hmem
        rcases List.mem_append.mp hmem with hmem | hmem
        · exact hlater other hmem
        · rw [List.mem_singleton.mp hmem]
          exact hkept
    · exact ⟨earlier, step, [], name, rfl, by simp, hreaches⟩

theorem reaches_iff_trips {clock unixTime : Duration} {handles : Nat}
    (hrun : Serves env (Vault.new clock unixTime handles) earlier v)
    (hserve : serve env v time request = some step) (hfails : step.fails env name = true) :
    ReachesThreshold env earlier step name ↔
      env.config.policy.Trips time (step.reports name) (v.controls.failures name) := by
  obtain ⟨hle, htime, -⟩ := serve_eq_some hserve
  obtain ⟨hwindow, -, -⟩ := counts_of_run hrun hserve hfails
  obtain ⟨-, hrecent⟩ := recent_since_run env.config.failureWindow hrun
    fun step _ _ => env.config.policy.window_le_horizon (step.reports name)
  have hrecord : recent time env.config.failureWindow
      (env.config.policy.record time (step.reports name) (v.controls.failures name)) =
        failuresInWindow env name (earlier ++ [step]) step.time := by
    rw [hwindow, htime]
    unfold failuresInWindow
    rw [← recent_congr_later hle hrecent]
    exact env.config.policy.recent_record (env.config.policy.window_le_horizon _) _
  unfold Policy.Trips
  show _ ↔ _ ∧ _ ≤ (recent time env.config.failureWindow _).length
  rw [hrecord]
  exact ⟨fun h => ⟨h.on, h.reached⟩, fun h => ⟨hfails, h.1, h.2⟩⟩

theorem not_reaches {earlier : List Served} (h : step.fails env name = false) :
    ¬ ReachesThreshold env earlier step name := by
  intro hreaches
  rw [hreaches.fails] at h
  cases h

theorem flag_of_failure {clock unixTime : Duration} {handles : Nat} {failed : String}
    {perKey : Bool} (hrun : Serves env (Vault.new clock unixTime handles) earlier v)
    (hserve : serve env v time request = some step)
    (ho : request.occurrence env step.before = some (.failure failed perKey))
    (hreports : step.reports failed = perKey) (hfails : step.fails env failed = true)
    (honly : ∀ name, name ≠ failed → step.fails env name = false) :
    step.after.lockedOut = true ↔
      v.lockedOut = true ∨ ∃ name, ReachesThreshold env earlier step name := by
  have hcounted := hrun.counted (counted_new env clock unixTime handles)
  obtain ⟨-, -, hcontrols⟩ := serve_spec hcounted hserve
  obtain ⟨hsame, hnow⟩ := controls_before hserve
  have htrips := reaches_iff_trips hrun hserve hfails
  rw [hreports] at htrips
  have hflag : step.after.lockedOut = (v.lockedOut ||
      decide (env.config.policy.Trips time perKey (v.controls.failures failed))) := by
    show step.after.controls.lockedOut = _
    rw [hcontrols, ho]
    show (step.before.controls.after env.config.policy step.before.clock _).lockedOut = _
    rw [hsame, hnow]
    rfl
  rw [hflag, Bool.or_eq_true, decide_eq_true_eq, ← htrips]
  apply or_congr_right
  constructor
  · intro hreaches
    exact ⟨failed, hreaches⟩
  · rintro ⟨name, hreaches⟩
    by_cases hname : name = failed
    · exact hname ▸ hreaches
    · exact absurd hreaches (not_reaches (honly name hname))

theorem flag_after {clock unixTime : Duration} {handles : Nat}
    (hrun : Serves env (Vault.new clock unixTime handles) earlier v)
    (hserve : serve env v time request = some step) :
    step.after.lockedOut = true ↔ (step.clearsAll = false ∧ v.lockedOut = true) ∨
      ∃ name, ReachesThreshold env earlier step name := by
  have hcounted := hrun.counted (counted_new env clock unixTime handles)
  obtain ⟨-, -, hcontrols⟩ := serve_spec hcounted hserve
  obtain ⟨-, -, hrequest, -, -⟩ := serve_eq_some hserve
  obtain ⟨hsame, -⟩ := controls_before hserve
  -- the calls that record no failure and clear nothing
  have hplain : step.clearsAll = false → (∀ name, step.fails env name = false) →
      step.after.controls.lockedOut = step.before.controls.lockedOut →
      (step.after.lockedOut = true ↔ (step.clearsAll = false ∧ v.lockedOut = true) ∨
        ∃ name, ReachesThreshold env earlier step name) := by
    intro hkept hquiet hflag
    rw [hsame] at hflag
    rw [show step.after.lockedOut = v.lockedOut from hflag, hkept]
    constructor
    · intro h
      exact .inl ⟨rfl, h⟩
    · rintro (⟨-, h⟩ | ⟨name, hreaches⟩)
      · exact h
      · exact absurd hreaches (not_reaches (hquiet name))
  -- the calls that clear everything
  have hcleared : step.clearsAll = true → (∀ name, step.fails env name = false) →
      step.after.controls.lockedOut = false →
      (step.after.lockedOut = true ↔ (step.clearsAll = false ∧ v.lockedOut = true) ∨
        ∃ name, ReachesThreshold env earlier step name) := by
    intro hclears hquiet hflag
    rw [show step.after.lockedOut = false from hflag, hclears]
    simp only [Bool.false_eq_true, Bool.true_eq_false, false_and, false_or, false_iff, not_exists]
    exact fun name => not_reaches (hquiet name)
  cases request with
  | reportFailure failed note =>
    have hkept : step.clearsAll = false := by
      unfold Served.clearsAll
      rw [hrequest]
    have hreports : ∀ name, step.reports name = (failed == name) := by
      intro name
      unfold Served.reports
      rw [hrequest]
    have hfails : ∀ name, step.fails env name = (failed == name) := by
      intro name
      unfold Served.fails Served.mismatched
      rw [hreports, hrequest, Bool.and_false, Bool.or_false]
    rw [flag_of_failure hrun hserve rfl ((hreports failed).trans (beq_self_eq_true _))
      ((hfails failed).trans (beq_self_eq_true _)), hkept]
    · simp
    · intro name hname
      rw [hfails]
      exact beq_false_of_ne (Ne.symm hname)
  | unlockWithMaster attempt opens =>
    have hok := unlocked_response hcounted hserve
    have hclears : step.clearsAll = (step.response == .status (.ok ())) := by
      unfold Served.clearsAll
      rw [hrequest]
    have hreports : ∀ name, step.reports name = false := by
      intro name
      unfold Served.reports
      rw [hrequest]
    have hfails : ∀ name, step.fails env name = (name == masterName &&
        masterOutcome env step.before attempt opens == some (.checked false)) := by
      intro name
      unfold Served.fails Served.mismatched
      rw [hreports, hrequest, Bool.false_or]
    simp only [controlsAfter, Request.occurrence] at hcontrols
    cases houtcome : masterOutcome env step.before attempt opens with
    | none =>
      rw [houtcome] at hok hfails hcontrols
      apply hplain (hclears.trans (by simp [hok])) (fun name => (hfails name).trans (by simp))
      rw [hcontrols]
    | some outcome =>
      rw [houtcome] at hok hfails hcontrols
      cases outcome with
      | refused exit =>
        apply hplain (hclears.trans (by simp [hok])) (fun name => (hfails name).trans (by simp))
        rw [hcontrols]
      | checked matched =>
        cases matched with
        | true =>
          apply hcleared (hclears.trans (by simp [hok])) (fun name => (hfails name).trans (by simp))
          rw [hcontrols]
          rfl
        | false =>
          have hkept : step.clearsAll = false := hclears.trans (by simp [hok])
          have ho : Request.occurrence env step.before (.unlockWithMaster attempt opens) =
              some (.failure masterName false) := by
            simp only [Request.occurrence, houtcome]
          rw [flag_of_failure hrun hserve ho (hreports masterName)
            ((hfails masterName).trans (by simp)), hkept]
          · simp
          · intro name hname
            rw [hfails]
            simp [hname]
  | clearLockout =>
    apply hcleared
    · unfold Served.clearsAll
      rw [hrequest]
    · intro name
      simp [Served.fails, Served.reports, Served.mismatched, hrequest]
    · rw [hcontrols]
      rfl
  | clearKeyLockout cleared =>
    apply hplain
    · unfold Served.clearsAll
      rw [hrequest]
    · intro name
      simp [Served.fails, Served.reports, Served.mismatched, hrequest]
    · rw [hcontrols]
      rfl
  | _ =>
    apply hplain
    · unfold Served.clearsAll
      rw [hrequest]
    · intro name
      simp [Served.fails, Served.reports, Served.mismatched, hrequest]
    · rw [hcontrols]
      simp only [Request.occurrence]
      exact lockedOut_looked env step.before _

end Flag

/-- After every run the flag is set exactly when some call since the last clear reached
the threshold. -/
theorem lockedOut_iff_tripped {env : Environment} {clock unixTime : Duration} {handles : Nat}
    {steps : List Served} {v : Vault}
    (hrun : Serves env (Vault.new clock unixTime handles) steps v) :
    v.lockedOut = true ↔ TrippedSince env steps := by
  induction hrun with
  | nil =>
    constructor
    · intro h
      cases h
    · rintro ⟨earlier, step, later, name, hsteps, -⟩
      simp at hsteps
  | snoc hearlier hserve ih => rw [flag_after hearlier hserve, trippedSince_snoc, ih]

/-! ### Whole runs -/

/-- Every call of the run that records a failure counts the failures of its name since
the last reset that are in the window, and tells the monitor; before and after every
call the flag says whether such a count has reached the threshold since the last clear. -/
structure WindowExact (env : Environment) (steps : List Served) : Prop where
  count : ∀ earlier step later name, steps = earlier ++ step :: later →
    step.fails env name = true → (step.counts env name).inWindow.toNat =
      min (failuresInWindow env name (earlier ++ [step]) step.time).length u32Max
  elapsed : ∀ earlier step later name, steps = earlier ++ step :: later →
    step.fails env name = true →
    ∃ oldest ∈ failuresInWindow env name (earlier ++ [step]) step.time,
      (∀ t ∈ failuresInWindow env name (earlier ++ [step]) step.time, oldest ≤ t) ∧
      (step.counts env name).windowElapsed = step.time - oldest
  told : ∀ earlier step later name, steps = earlier ++ step :: later →
    step.fails env name = true → ∃ note more, step.after.monitorEvents =
      step.before.monitorEvents ++ .decryptionFailure name (step.counts env name).inWindow
        (step.counts env name).windowElapsed note :: more
  flag : ∀ earlier step later, steps = earlier ++ step :: later →
    (step.before.lockedOut = true ↔ TrippedSince env earlier) ∧
      (step.after.lockedOut = true ↔ TrippedSince env (earlier ++ [step]))

section Told

variable {env : Environment} {v v' : Vault} {time : Duration} {request : Request} {step : Served}
  {name : String}

theorem mismatch_events {attempt : Bytes} {opens : Bool} {result : Result Unit}
    (houtcome : masterOutcome env v attempt opens = some (.checked false))
    (hrun : runAlone env (unlockWithMaster env attempt opens) v = some (result, v')) :
    ∃ note more, v'.monitorEvents = v.monitorEvents ++ .decryptionFailure masterName
      (recordEntries env.config v.clock false (v.controls.failures masterName)).2.inWindow
      (recordEntries env.config v.clock false (v.controls.failures masterName)).2.windowElapsed
      note :: more := by
  obtain ⟨verifier, hmaster, hanswer⟩ := Option.map_eq_some_iff.mp houtcome
  unfold unlockWithMaster at hrun
  rw [hmaster] at hrun
  simp only [runAlone_bind, runAlone_attemptMaster, Option.bind_some] at hrun
  rw [hanswer] at hrun
  obtain ⟨backoff, hframe⟩ := v.attemptMaster_frame env verifier attempt opens
  obtain ⟨trail, haudit⟩ := runAlone_emitAudit env { v with masterBackoff := backoff } masterName
    (.masterUnlockAttempt false) ""
  rw [hframe] at hrun
  simp only [runAlone_bind, haudit, Option.bind_some, Bool.false_eq_true, if_false,
    Option.bind_eq_some_iff, Prod.exists] at hrun
  obtain ⟨_, failed, hfailure, hdone⟩ := hrun
  cases hdone
  obtain ⟨more, hmore⟩ := handleFailure_events hfailure
  exact ⟨_, more, hmore⟩

theorem serve_told (hserve : serve env v time request = some step)
    (hfails : step.fails env name = true) : ∃ note more, step.after.monitorEvents =
      step.before.monitorEvents ++ .decryptionFailure name (step.counts env name).inWindow
        (step.counts env name).windowElapsed note :: more := by
  obtain ⟨-, htime, hrequest, hbefore, hrun⟩ := serve_eq_some hserve
  unfold Served.counts
  rw [counts_perKey, htime, hbefore]
  rcases fails_iff.mp hfails with hreports | ⟨rfl, hmismatched⟩
  · rw [hreports]
    obtain ⟨note, hnote⟩ := reports_iff.mp hreports
    rw [← hrequest, hnote] at hrun
    obtain ⟨_, -, hcall⟩ := runAlone_respond hrun
    obtain ⟨more, hmore⟩ := handleFailure_events hcall
    exact ⟨_, more, hmore⟩
  · rw [reports_of_mismatched hmismatched]
    obtain ⟨attempt, opens, hattempt, houtcome⟩ := mismatched_iff.mp hmismatched
    rw [hbefore] at houtcome
    rw [← hrequest, hattempt] at hrun
    obtain ⟨_, -, hcall⟩ := runAlone_respond hrun
    exact mismatch_events houtcome hcall

end Told

/-- Over every run of calls made one at a time, the counts of `record_failure` are
those of the full history, and the flag follows them. -/
theorem window_exact {env : Environment} {clock unixTime : Duration} {handles : Nat}
    {steps : List Served} {v : Vault}
    (hrun : Serves env (Vault.new clock unixTime handles) steps v) :
    WindowExact env steps ∧ (v.lockedOut = true ↔ TrippedSince env steps) := by
  refine ⟨⟨?_, ?_, ?_, ?_⟩, lockedOut_iff_tripped hrun⟩
  · rintro earlier step later name rfl hfails
    obtain ⟨mid, hearlier, hrest⟩ := Serves.split _ _ hrun
    exact (counts_of_run hearlier hrest.head.1 hfails).2.1
  · rintro earlier step later name rfl hfails
    obtain ⟨mid, hearlier, hrest⟩ := Serves.split _ _ hrun
    obtain ⟨hserve, -⟩ := hrest.head
    obtain ⟨hwindow, -, helapsed⟩ := counts_of_run hearlier hserve hfails
    obtain ⟨-, hsorted, -⟩ := failuresSince_sorted name (hearlier.snoc hserve)
    have hinWindow : (failuresInWindow env name (earlier ++ [step]) step.time).Pairwise (· ≤ ·) :=
      hsorted.filter _
    cases hseen : failuresInWindow env name (earlier ++ [step]) step.time with
    | nil => simp [hseen] at hwindow
    | cons oldest rest =>
      rw [hseen] at hinWindow helapsed
      refine ⟨oldest, by simp, ?_, helapsed⟩
      intro t ht
      rcases List.mem_cons.mp ht with rfl | ht
      · exact Nat.le_refl _
      · exact (List.pairwise_cons.mp hinWindow).1 t ht
  · rintro earlier step later name rfl hfails
    obtain ⟨mid, hearlier, hrest⟩ := Serves.split _ _ hrun
    exact serve_told hrest.head.1 hfails
  · rintro earlier step later rfl
    obtain ⟨mid, hearlier, hrest⟩ := Serves.split _ _ hrun
    obtain ⟨hserve, -⟩ := hrest.head
    obtain ⟨-, -, -, hbefore, -⟩ := serve_eq_some hserve
    refine ⟨?_, lockedOut_iff_tripped (hearlier.snoc hserve)⟩
    rw [hbefore]
    show mid.lockedOut = true ↔ _
    exact lockedOut_iff_tripped hearlier

def lockOutAtTwo : Environment :=
  masterVault { maxFailuresBeforeLockout := 2, failureWindow := 10 }

def boundaryFailures : List (Duration × Request) :=
  [(0, .reportFailure "k" none),
    (10, .reportFailure "k" none),
    (11, .clearLockout),
    (12, .unlockWithMaster [9] true),
    (22, .reportFailure masterName none)]

theorem window_exact_boundaryFailures : ∃ steps v,
    serveAll lockOutAtTwo (Vault.new 0 0 0) boundaryFailures = some (steps, v) ∧
      steps.map (fun step => step.after.lockedOut) = [false, true, false, false, true] ∧
      WindowExact lockOutAtTwo steps ∧ TrippedSince lockOutAtTwo steps := by
  have hruns : (serveAll lockOutAtTwo (Vault.new 0 0 0) boundaryFailures).map (fun out =>
      (out.1.map (fun step => step.after.lockedOut), out.2.lockedOut)) =
        some ([false, true, false, false, true], true) := by
    decide +kernel
  obtain ⟨⟨steps, v⟩, hserves, hflags⟩ := Option.map_eq_some_iff.mp hruns
  rw [Prod.mk.injEq] at hflags
  obtain ⟨hexact, hflag⟩ := window_exact (serves_of_serveAll hserves)
  exact ⟨steps, v, hserves, hflags.1, hexact, hflag.mp hflags.2⟩

end KeyVault
