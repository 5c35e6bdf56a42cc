import Mathlib.Data.List.Induction
import Mathlib.Data.List.Permutation
import KeyVault.LockoutReplay

/-! One `clear_lockout` among reports of failures. The clear resets the flag, the locks and
the tracker in this order; a report writes the tracker first and acts on its counts later,
when a clear may have gone by. -/
namespace KeyVault

open Interleaving Atomic Lockouts

/-! ### Calls one at a time -/

def inOrder (env : Environment) (c : VaultConfiguration) (s : Controls String) (order : List Nat) :
    Controls String :=
  order.foldl (fun s caller =>
    match c.calls[caller]? with
    | some call => solo env s call.request (clockReadings (eventsBy c.log caller))
    | none => s) s

/-- Some order of the calls, made one at a time, leaves what the run has left. -/
def Linearizes (env : Environment) (s : Controls String) (c : VaultConfiguration) : Prop :=
  ∃ order, order.Perm (List.range c.calls.length) ∧ c.shared.controls = inOrder env c s order

def VaultOp.isClearFailures : VaultOp → Bool
  | .clearFailures => true
  | _ => false

def sinceClear : List VaultEntry → Option (List VaultEntry)
  | [] => none
  | entry :: log =>
      (sinceClear log).or (if entry.event.op.isClearFailures then some log else none)

/-- If the vault is locked out, a failure that no clear has erased reached the threshold. -/
def LockedByKept (env : Environment) (c : VaultConfiguration) : Prop :=
  c.shared.lockedOut = true → ∃ entry ∈ (sinceClear c.log).getD [],
    ∃ record ∈ trackedBy entry.event, record.2.2.TripsVault env.config

/-! ### Steps that come in time -/

def VaultOp.isStoreUnlocked : VaultOp → Bool
  | .storeUnlocked => true
  | _ => false

def VaultOp.isClearKeyLocks : VaultOp → Bool
  | .clearKeyLocks => true
  | _ => false

def VaultOp.lockDeadline : VaultOp → Option (Option Duration)
  | .lockKey _ deadline => some deadline
  | _ => none

/-- The call has recorded its failure, and no clear has emptied the tracker since. -/
def Late (log : List VaultEntry) (caller : Nat) : Prop :=
  ∃ entry ∈ (sinceClear log).getD [], entry.caller = caller ∧ (trackedBy entry.event).isSome = true

instance (log : List VaultEntry) (caller : Nat) : Decidable (Late log caller) :=
  inferInstanceAs (Decidable (∃ entry ∈ _, _ ∧ _))

def sinceTracked (caller : Nat) : List VaultEntry → List VaultEntry
  | [] => []
  | entry :: log =>
      if entry.caller = caller ∧ (trackedBy entry.event).isSome then log else sinceTracked caller log

/-- No report of `name` that recorded its failure behind this one has inserted a lock with
another deadline. -/
def NotOvertaken (log : List VaultEntry) (caller : Nat) (name : String)
    (deadline : Option Duration) : Prop :=
  ∀ later ∈ sinceTracked caller log, later.event.op.recordsFor name ≠ none →
    ∀ entry ∈ log, entry.caller = later.caller →
      ∀ inserted ∈ entry.event.op.lockDeadline, inserted = deadline

instance (log : List VaultEntry) (caller : Nat) (name : String) (deadline : Option Duration) :
    Decidable (NotOvertaken log caller name deadline) :=
  inferInstanceAs (Decidable (∀ later ∈ _, _ → ∀ entry ∈ log, _ → ∀ inserted ∈ _, _))

/-- A report sets the flag before the clear resets it, or its failure is one that the clear
does not erase; the same for its lock. Locks that end at different times are inserted in the
order in which the failures of their name were recorded. -/
def InTime (log : List VaultEntry) (caller : Nat) : VaultOp → Prop
  | .swapLockedOut =>
      (∃ entry ∈ log, entry.event.op.isStoreUnlocked = true) → Late log caller
  | .lockKey name deadline =>
      (∃ entry ∈ log, entry.event.op.isClearKeyLocks = true) →
        Late log caller ∧ NotOvertaken log caller name deadline
  | _ => True

instance (log : List VaultEntry) (caller : Nat) : DecidablePred (InTime log caller)
  | .swapLockedOut => inferInstanceAs (Decidable ((∃ entry ∈ log, _) → Late log caller))
  | .lockKey name deadline => inferInstanceAs (Decidable ((∃ entry ∈ log, _) →
      Late log caller ∧ NotOvertaken log caller name deadline))
  | .loadLockedOut | .storeUnlocked | .loadKeys | .readClock | .readUnixTime | .trackFailure _ _ _
  | .forgetFailures _ | .clearFailures | .loadKeyLocksActive | .subKeyLocksActive | .unlockKey _
  | .clearKeyLocks | .keyLockedSlow _ | .attemptMaster _ _ _ | .allocateHandle | .insertKey _ _
  | .removeKey _ | .replaceKey _ _ _ | .notify _ | .emitAudit _ _ _ => .isTrue trivial

def Prompt (c : VaultConfiguration) : Action Request Surroundings → Prop
  | .invoke request => request.isReport = true ∨ request.isClear = true
  | .exec caller => ∀ call ∈ c.calls[caller]?, ∀ op ∈ call.rest.next?, InTime c.log caller op
  | .external _ => True

theorem prompt_lockoutCalls (c : VaultConfiguration) (action : Action Request Surroundings)
    (h : Prompt c action) : LockoutCalls c action := by
  cases action with
  | invoke request => exact h
  | exec caller => trivial
  | external event => trivial

instance (c : VaultConfiguration) : DecidablePred (Prompt c)
  | .invoke request => inferInstanceAs (Decidable (request.isReport = true ∨ request.isClear = true))
  | .exec caller => inferInstanceAs (Decidable (∀ call ∈ c.calls[caller]?, ∀ op ∈ call.rest.next?,
      InTime c.log caller op))
  | .external _ => .isTrue trivial

def OneClear (c : VaultConfiguration) (clearer : Nat) : Prop :=
  clearer < c.calls.length ∧ ∀ (caller : Nat) (call : VaultCall), c.calls[caller]? = some call →
    (call.request.isClear = true ↔ caller = clearer)

theorem oneClear_iff {c : VaultConfiguration} {clearer : Nat} :
    clearer < c.calls.length ∧ (∀ caller < c.calls.length, ∀ call ∈ c.calls[caller]?,
      (call.request.isClear = true ↔ caller = clearer)) ↔ OneClear c clearer := by
  constructor
  · rintro ⟨hlt, hclear⟩
    exact ⟨hlt, fun caller call hcall => hclear caller (List.getElem?_eq_some_iff.mp hcall).1 call hcall⟩
  · rintro ⟨hlt, hclear⟩
    exact ⟨hlt, fun caller _ call hcall => hclear caller call hcall⟩

instance (c : VaultConfiguration) (clearer : Nat) : Decidable (OneClear c clearer) :=
  decidable_of_iff _ oneClear_iff

/-! ### The log of a finished run -/

def Timely (log : List VaultEntry) : Prop :=
  ∀ before entry after, log = before ++ entry :: after → InTime before entry.caller entry.event.op

theorem timely_run {env : Environment} {v : Vault} {c : VaultConfiguration}
    (hrun : (vaultMachine env).Runs Prompt (Config.start v) c) :
    Timely c.log := by
  apply hrun.invariant (I := fun c => Timely c.log) (by simp [Timely, Config.start])
  intro d action d' h hok hstep
  cases action with
  | invoke request =>
    rw [Machine.step_invoke_iff] at hstep
    subst hstep
    exact h
  | exec caller =>
    obtain ⟨request, op, next, ret, s, hcall, -, rfl⟩ := Machine.step_exec_iff.mp hstep
    intro before entry after hlog
    rcases split_snoc hlog with ⟨rfl, rfl⟩ | ⟨rest, hbefore⟩
    · exact hok _ hcall op rfl
    · exact h before entry rest hbefore
  | external event =>
    obtain ⟨s, -, rfl⟩ := Machine.step_external_iff.mp hstep
    exact h

theorem sinceClear_of_none {log : List VaultEntry}
    (h : ∀ entry ∈ log, entry.event.op.isClearFailures = false) : sinceClear log = none := by
  induction log with
  | nil => rfl
  | cons entry log ih =>
    obtain ⟨hentry, hlog⟩ := List.forall_mem_cons.mp h
    simp [sinceClear, ih hlog, hentry]

theorem sinceClear_split {before after : List VaultEntry} {entry : VaultEntry}
    (hentry : entry.event.op.isClearFailures = true)
    (hafter : ∀ later ∈ after, later.event.op.isClearFailures = false) :
    sinceClear (before ++ entry :: after) = some after := by
  induction before with
  | nil => simp [sinceClear, sinceClear_of_none hafter, hentry]
  | cons first before ih => simp [sinceClear, ih]

theorem sinceTracked_split {caller : Nat} {before after : List VaultEntry} {entry : VaultEntry}
    (hcaller : entry.caller = caller) (hentry : (trackedBy entry.event).isSome = true)
    (hbefore : ∀ earlier ∈ before, earlier.caller = caller → trackedBy earlier.event = none) :
    sinceTracked caller (before ++ entry :: after) = after := by
  induction before with
  | nil => simp [sinceTracked, hcaller, hentry]
  | cons first before ih =>
    obtain ⟨hfirst, hrest⟩ := List.forall_mem_cons.mp hbefore
    have hskip : ¬(first.caller = caller ∧ (trackedBy first.event).isSome = true) := by
      rintro ⟨hsame, hsome⟩
      rw [hfirst hsame] at hsome
      cases hsome
    rw [List.cons_append, sinceTracked, if_neg hskip, ih hrest]

def trackCallers (log : List VaultEntry) : List Nat :=
  (log.filter fun entry => (trackedBy entry.event).isSome).map (·.caller)

theorem count_trackCallers (log : List VaultEntry) (caller : Nat) :
    (trackCallers log).count caller = ((eventsBy log caller).filterMap trackedBy).length := by
  induction log with
  | nil => rfl
  | cons entry log ih =>
    by_cases hcaller : entry.caller = caller
    · subst hcaller
      rw [eventsBy_cons_self]
      cases htracked : trackedBy entry.event <;>
        simp [trackCallers, htracked, ← ih]
    · rw [eventsBy_cons_other (Ne.symm hcaller), ← ih]
      cases htracked : trackedBy entry.event <;>
        simp [trackCallers, htracked, List.count_cons_of_ne hcaller]

theorem trackedBy_clearFailures {event : VaultEvent} (h : event.op = .clearFailures) :
    trackedBy event = none := by
  obtain ⟨op, ret⟩ := event
  cases h
  rfl

theorem trackCallers_append (log later : List VaultEntry) :
    trackCallers (log ++ later) = trackCallers log ++ trackCallers later := by
  simp [trackCallers]

theorem trackCallers_singleton (entry : VaultEntry) : trackCallers [entry] =
    if (trackedBy entry.event).isSome = true then [entry.caller] else [] := by
  unfold trackCallers
  split <;> simp_all

theorem inOrder_append (env : Environment) (c : VaultConfiguration) (s : Controls String)
    (order later : List Nat) :
    inOrder env c s (order ++ later) = inOrder env c (inOrder env c s order) later :=
  List.foldl_append

theorem inOrder_singleton {env : Environment} {c : VaultConfiguration} {caller : Nat}
    {call : VaultCall} (hcall : c.calls[caller]? = some call) (s : Controls String) :
    inOrder env c s [caller] = solo env s call.request (clockReadings (eventsBy c.log caller)) := by
  simp [inOrder, hcall]

def deadlineOf (env : Environment) (c : VaultConfiguration) (caller : Nat) : Option Duration :=
  env.config.policy.lockEnd ((clockReadings (eventsBy c.log caller))[1]?.getD 0)

def tripWrite (env : Environment) (entry : VaultEntry) : Option Bool :=
  (trackedBy entry.event).bind fun record =>
    if record.2.2.TripsVault env.config then some true else none

def fireWrite (env : Environment) (c : VaultConfiguration) (name : String) (entry : VaultEntry) :
    Option (Option (Option Duration)) :=
  (trackedBy entry.event).bind fun record =>
    if record.1 = name ∧ record.2.2.TripsKey env.config then some (some (deadlineOf env c entry.caller))
    else none

theorem tripWrite_ne_none {env : Environment} {entry : VaultEntry} (h : tripWrite env entry ≠ none) :
    ∃ name now counts, trackedBy entry.event = some (name, now, counts) ∧
      counts.TripsVault env.config := by
  unfold tripWrite at h
  cases htracked : trackedBy entry.event with
  | none => simp [htracked] at h
  | some record =>
    refine ⟨record.1, record.2.1, record.2.2, rfl, ?_⟩
    by_contra hbelow
    simp [htracked, hbelow] at h

theorem fireWrite_ne_none {env : Environment} {c : VaultConfiguration} {name : String}
    {entry : VaultEntry} (h : fireWrite env c name entry ≠ none) :
    ∃ now counts, trackedBy entry.event = some (name, now, counts) ∧ counts.TripsKey env.config := by
  unfold fireWrite at h
  cases htracked : trackedBy entry.event with
  | none => simp [htracked] at h
  | some record =>
    have hboth : record.1 = name ∧ record.2.2.TripsKey env.config := by
      by_contra hbelow
      simp [htracked, hbelow] at h
    exact ⟨record.2.1, record.2.2, by rw [← hboth.1], hboth.2⟩

theorem fireWrite_eq {env : Environment} {c : VaultConfiguration} {name : String}
    {entry : VaultEntry} {written : Option (Option Duration)}
    (h : fireWrite env c name entry = some written) : written = some (deadlineOf env c entry.caller) := by
  obtain ⟨record, -, hwritten⟩ := Option.bind_eq_some_iff.mp h
  split at hwritten <;> cases hwritten
  rfl

section Finished

variable {env : Environment} {v : Vault} {c : VaultConfiguration} {clearer : Nat}

theorem Replayed.tracked_report (h : Replayed env v c) {caller : Nat} {name : String}
    {note : Option String} {response : Response}
    (hcall : c.Returned caller (.reportFailure name note) response) :
    ∃ now counts, (eventsBy c.log caller).filterMap trackedBy = [(name, now, counts)] := by
  have hpath : ReportPath env name (eventsBy c.log caller) := h.orderly.returned hcall
  generalize eventsBy c.log caller = history at hpath
  cases hpath with
  | reported now counts event flag lock hflag hlock =>
    refine ⟨now, counts, ?_⟩
    rw [List.filterMap_append, List.filterMap_append, hflag.trackedBy, hlock.trackedBy,
      filterMap_recordedSteps]
    rfl

theorem Replayed.caller_of_clear (h : Replayed env v c) (hone : OneClear c clearer)
    {before after : List VaultEntry} {entry : VaultEntry} (hlog : c.log = before ++ entry :: after)
    (hop : ∀ name history, ¬ReportReady env name history entry.event.op) : entry.caller = clearer := by
  have hentry : entry ∈ c.log := by
    rw [hlog]
    simp
  obtain ⟨rest, hcall⟩ := h.orderly.logged entry hentry
  rcases h.requests _ (List.mem_of_getElem? hcall) with hreport | hclear
  · obtain ⟨name, note, hrequest⟩ := isReport_iff.mp hreport
    have hready := h.orderly.permitted before entry after hlog
    dsimp only at hrequest
    rw [hrequest] at hready
    exact absurd hready (hop name _)
  · exact (hone.2 _ _ hcall).mp hclear

/-- The run is over, and its log is cut where the clear emptied the tracker. -/
structure CutRun (env : Environment) (v : Vault) (c : VaultConfiguration) (clearer : Nat)
    (before : List VaultEntry) (cut : VaultEntry) (after : List VaultEntry) : Prop where
  replayed : Replayed env v c
  timely : Timely c.log
  one : OneClear c clearer
  ended : ∀ call ∈ c.calls, call.rest.result?.isSome
  log : c.log = before ++ cut :: after
  cut : cut.event.op = .clearFailures
  earlier : eventsBy before clearer = [happened .storeUnlocked (), happened .clearKeyLocks ()]
  later : eventsBy after clearer = []

theorem Replayed.cutRun (h : Replayed env v c) (htimely : Timely c.log)
    (hone : OneClear c clearer) (hended : ∀ call ∈ c.calls, call.rest.result?.isSome) :
    ∃ before cut after, CutRun env v c clearer before cut after := by
  obtain ⟨⟨request, rest⟩, hcall⟩ : ∃ call, c.calls[clearer]? = some call :=
    ⟨_, List.getElem?_eq_getElem hone.1⟩
  have hclear := isClear_iff.mp ((hone.2 _ _ hcall).mpr rfl)
  have hdone := hended _ (List.mem_of_getElem? hcall)
  dsimp only at hclear
  subst hclear
  cases rest with
  | step op next => cases hdone
  | done response =>
    have hsteps : eventsBy c.log clearer = clearSteps := h.orderly.returned hcall
    have hcut : eventsBy c.log clearer =
        [happened .storeUnlocked (), happened .clearKeyLocks ()] ++ happened .clearFailures () :: [] :=
      hsteps
    obtain ⟨before, cut, after, hlog, -, hevent, hearlier, hlater⟩ := eventsBy_eq_append hcut
    exact ⟨before, cut, after, h, htimely, hone, hended, hlog, by rw [hevent], hearlier, hlater⟩

namespace CutRun

variable {before after : List VaultEntry} {cut : VaultEntry}

theorem report_of_mem_after (h : CutRun env v c clearer before cut after) {entry : VaultEntry}
    (hentry : entry ∈ after) : ∃ name history, ReportReady env name history entry.event.op := by
  by_contra hnone
  simp only [not_exists] at hnone
  obtain ⟨first, last, rfl⟩ := List.append_of_mem hentry
  have hsplit : c.log = (before ++ cut :: first) ++ entry :: last := by
    rw [h.log, List.append_assoc]
    rfl
  have hcaller := h.replayed.caller_of_clear h.one hsplit hnone
  have hevent : entry.event ∈ eventsBy (first ++ entry :: last) clearer :=
    mem_eventsBy.mpr ⟨entry, hentry, hcaller, rfl⟩
  rw [h.later] at hevent
  cases hevent

theorem log_after (h : CutRun env v c clearer before cut after) {first last : List VaultEntry}
    {entry : VaultEntry} (hafter : after = first ++ entry :: last) :
    c.log = (before ++ cut :: first) ++ entry :: last := by
  rw [h.log, hafter, List.append_assoc]
  rfl

theorem log_before (h : CutRun env v c clearer before cut after) {first last : List VaultEntry}
    {entry : VaultEntry} (hbefore : before = first ++ entry :: last) :
    c.log = first ++ entry :: (last ++ cut :: after) := by
  rw [h.log, hbefore, List.append_assoc]
  rfl

theorem not_late (h : CutRun env v c clearer before cut after) {first last : List VaultEntry}
    (hbefore : before = first ++ last) (caller : Nat) : ¬Late first caller := by
  have hnone : sinceClear first = none := by
    apply sinceClear_of_none
    intro entry hentry
    by_contra hclears
    have hop : entry.event.op = .clearFailures := by
      cases hop : entry.event.op with
      | clearFailures => rfl
      | _ => simp [hop, VaultOp.isClearFailures] at hclears
    have hmem : entry ∈ before := by
      rw [hbefore]
      exact List.mem_append_left _ hentry
    obtain ⟨early, late, hsplit⟩ := List.append_of_mem hmem
    have hcaller := h.replayed.caller_of_clear h.one (h.log_before hsplit) (by simp [hop, ReportReady])
    have hevent : entry.event ∈ eventsBy before clearer := mem_eventsBy.mpr ⟨entry, hmem, hcaller, rfl⟩
    rw [h.earlier] at hevent
    simp only [List.mem_cons, List.not_mem_nil, or_false] at hevent
    rcases hevent with hevent | hevent <;> rw [hevent] at hop <;> cases hop
  simp [Late, hnone]

/-- A cell that the clear resets, and that no report writes between its reset and the cut,
holds what is written behind the cut. -/
theorem lastWrite_eq {γ : Type} (h : CutRun env v c clearer before cut after)
    (writes : VaultOp → Option γ) {value : γ} {earlier later : List VaultEvent} {reset : VaultEvent}
    (hclear : eventsBy before clearer = earlier ++ reset :: later)
    (hreset : writes reset.op = some value) (hlater : ∀ event ∈ later, writes event.op = none)
    (hcut : writes .clearFailures = none)
    (hreports : ∀ first entry last, before = first ++ entry :: last → entry.caller ≠ clearer →
      (∃ earlier ∈ first, earlier.event = reset) → writes entry.event.op = none) (initial : γ) :
    lastWrite (fun entry => writes entry.event.op) initial c.log =
      lastWrite (fun entry => writes entry.event.op) value after := by
  obtain ⟨first, entry, last, hbefore, -, hevent, -, hlast⟩ := eventsBy_eq_append hclear
  have hsplit : c.log = first ++ entry :: (last ++ [cut]) ++ after := by
    rw [h.log, hbefore]
    simp
  have hsilent : ∀ next ∈ last ++ [cut], writes next.event.op = none := by
    intro next hnext
    rcases List.mem_append.mp hnext with hnext | hnext
    · by_cases hcaller : next.caller = clearer
      · have hmem : next.event ∈ eventsBy last clearer := mem_eventsBy.mpr ⟨next, hnext, hcaller, rfl⟩
        rw [hlast] at hmem
        exact hlater _ hmem
      · obtain ⟨early, late, rfl⟩ := List.append_of_mem hnext
        apply hreports (first ++ entry :: early) next late _ hcaller
        · exact ⟨entry, by simp, hevent⟩
        · rw [hbefore, List.append_assoc]
          rfl
    · rw [List.mem_singleton.mp hnext, h.cut]
      exact hcut
  have hwritten : lastWrite (fun entry : VaultEntry => writes entry.event.op) initial
      (first ++ entry :: (last ++ [cut])) = value := by
    apply lastWrite_split (fun entry : VaultEntry => writes entry.event.op) _ hsilent
    rw [hevent]
    exact hreset
  rw [hsplit, lastWrite_append, hwritten]

theorem lockedOut_eq (h : CutRun env v c clearer before cut after) :
    c.shared.lockedOut = lastWrite (fun entry : VaultEntry => entry.event.op.flagWrite) false after := by
  have hstored : eventsBy before clearer = [] ++ happened .storeUnlocked () ::
    [happened .clearKeyLocks ()] := h.earlier
  rw [h.replayed.flag]
  apply h.lastWrite_eq VaultOp.flagWrite hstored rfl (by simp [VaultOp.flagWrite]) rfl
  intro first entry last hsplit hcaller hreset
  obtain ⟨stored, hmem, hstored⟩ := hreset
  cases hop : entry.event.op with
  | swapLockedOut =>
    have hintime := h.timely _ _ _ (h.log_before hsplit)
    rw [hop] at hintime
    exact absurd (hintime ⟨stored, hmem, by rw [hstored]; rfl⟩) (h.not_late hsplit _)
  | storeUnlocked =>
    exact absurd (h.replayed.caller_of_clear h.one (h.log_before hsplit) (by simp [hop, ReportReady]))
      hcaller
  | _ => rfl

theorem locks_eq (h : CutRun env v c clearer before cut after) (name : String) :
    c.shared.controls.locks name =
      lastWrite (fun entry : VaultEntry => entry.event.op.lockWrite name) none after := by
  have hcleared : eventsBy before clearer = [happened .storeUnlocked ()] ++
    happened .clearKeyLocks () :: [] := h.earlier
  rw [h.replayed.locks name]
  apply h.lastWrite_eq (VaultOp.lockWrite name) hcleared rfl (by simp) rfl
  intro first entry last hsplit hcaller hreset
  obtain ⟨cleared, hmem, hcleared⟩ := hreset
  cases hop : entry.event.op with
  | lockKey locked deadline =>
    have hintime := h.timely _ _ _ (h.log_before hsplit)
    rw [hop] at hintime
    exact absurd (hintime ⟨cleared, hmem, by rw [hcleared]; rfl⟩).1 (h.not_late hsplit _)
  | clearKeyLocks =>
    exact absurd (h.replayed.caller_of_clear h.one (h.log_before hsplit) (by simp [hop, ReportReady]))
      hcaller
  | _ => rfl

theorem failuresOf_eq (h : CutRun env v c clearer before cut after)
    (failures : String → List Duration) (first : List VaultEntry) :
    failuresOf env failures (before ++ cut :: first) = failuresOf env (fun _ => []) first := by
  unfold failuresOf
  rw [List.foldl_append, List.foldl_cons, h.cut]
  rfl

theorem tracked_length (h : CutRun env v c clearer before cut after) (caller : Nat) :
    ((eventsBy c.log caller).filterMap trackedBy).length =
      if caller < c.calls.length ∧ caller ≠ clearer then 1 else 0 := by
  by_cases hlt : caller < c.calls.length
  · obtain ⟨⟨request, rest⟩, hcall⟩ : ∃ call, c.calls[caller]? = some call :=
      ⟨_, List.getElem?_eq_getElem hlt⟩
    have hdone := h.ended _ (List.mem_of_getElem? hcall)
    have hclearer := h.one.2 _ _ hcall
    dsimp only at hclearer
    cases rest with
    | step op next => cases hdone
    | done response =>
      rcases h.replayed.requests _ (List.mem_of_getElem? hcall) with hreport | hclear
      · obtain ⟨name, note, rfl⟩ := isReport_iff.mp hreport
        obtain ⟨now, counts, htracked⟩ := h.replayed.tracked_report hcall
        have hother : caller ≠ clearer := fun hsame => by cases hclearer.mpr hsame
        rw [htracked, if_pos ⟨hlt, hother⟩]
        rfl
      · obtain rfl := isClear_iff.mp hclear
        have hsteps : eventsBy c.log caller = clearSteps := h.replayed.orderly.returned hcall
        rw [hsteps, if_neg fun hboth => hboth.2 (hclearer.mp rfl)]
        rfl
  · have hnone : eventsBy c.log caller = [] := by
      rw [eventsBy, List.map_eq_nil_iff, List.filter_eq_nil_iff]
      intro entry hentry hcaller
      obtain ⟨rest, hcall⟩ := h.replayed.orderly.logged entry hentry
      have := (List.getElem?_eq_some_iff.mp hcall).1
      simp only [decide_eq_true_eq] at hcaller
      omega
    rw [hnone, if_neg fun hboth => hlt hboth.1]
    rfl

theorem tracked_once (h : CutRun env v c clearer before cut after) {first last : List VaultEntry}
    {entry other : VaultEntry} (hlog : c.log = first ++ entry :: last)
    (htracked : (trackedBy entry.event).isSome = true) (hmem : other ∈ first ∨ other ∈ last)
    (hcaller : other.caller = entry.caller) : trackedBy other.event = none := by
  have hlength := h.tracked_length entry.caller
  obtain ⟨recorded, hrecorded⟩ := Option.isSome_iff_exists.mp htracked
  rw [hlog, eventsBy_append, eventsBy_cons_self, List.filterMap_append,
    List.filterMap_cons_some hrecorded, List.length_append, List.length_cons] at hlength
  have hnone : ((eventsBy first entry.caller).filterMap trackedBy).length = 0 ∧
      ((eventsBy last entry.caller).filterMap trackedBy).length = 0 := by
    split at hlength <;> omega
  rw [List.length_eq_zero_iff, List.length_eq_zero_iff, List.filterMap_eq_nil_iff,
    List.filterMap_eq_nil_iff] at hnone
  rcases hmem with hmem | hmem
  · exact hnone.1 _ (mem_eventsBy.mpr ⟨other, hmem, hcaller, rfl⟩)
  · exact hnone.2 _ (mem_eventsBy.mpr ⟨other, hmem, hcaller, rfl⟩)

theorem tracked_path (h : CutRun env v c clearer before cut after) {first last : List VaultEntry}
    {entry : VaultEntry} (hlog : c.log = first ++ entry :: last) {name : String} {now : Duration}
    {counts : FailureCounts} (htracked : trackedBy entry.event = some (name, now, counts)) :
    ∃ note response event flag lock, c.Returned entry.caller (.reportFailure name note) response ∧
      FlagSteps env counts flag ∧ LockSteps env name counts lock ∧
      clockReadings (eventsBy c.log entry.caller) = now :: clockReadings lock ∧
      eventsBy last entry.caller = happened (.notify event) () :: (flag ++ lock) := by
  obtain ⟨perKey, hevent⟩ := trackedBy_eq_some htracked
  have hentry : entry ∈ c.log := by
    rw [hlog]
    simp
  have hready := h.replayed.orderly.permitted first entry last hlog
  obtain ⟨rest, hcall⟩ := h.replayed.orderly.logged entry hentry
  have hdone := h.ended _ (List.mem_of_getElem? hcall)
  cases rest with
  | step op next => cases hdone
  | done response =>
    rcases h.replayed.requests _ (List.mem_of_getElem? hcall) with hreport | hclear
    · obtain ⟨reported, note, hrequest⟩ := isReport_iff.mp hreport
      dsimp only at hrequest
      rw [hrequest] at hcall hready
      rw [hevent] at hready
      obtain ⟨rfl, -, hfirst⟩ := hready
      have hpath : ReportPath env name (eventsBy c.log entry.caller) :=
        h.replayed.orderly.returned hcall
      rw [hlog, eventsBy_append, eventsBy_cons_self, hfirst] at hpath
      generalize hhistory : [happened .readClock now] ++ entry.event :: eventsBy last entry.caller =
        history at hpath
      cases hpath with
      | reported time counted event flag lock hflag hlock =>
        obtain ⟨-, hrest⟩ := List.cons.inj hhistory
        obtain ⟨hsame, hlast⟩ := List.cons.inj hrest
        rw [hsame] at htracked
        cases htracked
        refine ⟨note, response, event, flag, lock, hcall, hflag, hlock, ?_, hlast⟩
        rw [hlog, eventsBy_append, eventsBy_cons_self, hfirst, hlast, hevent]
        show now :: clockReadings (flag ++ lock) = _
        rw [clockReadings_append, hflag.clockReadings]
        rfl
    · have hrequest := isClear_iff.mp hclear
      dsimp only at hrequest
      rw [hrequest, hevent] at hready
      cases hready

theorem cleared_mem (h : CutRun env v c clearer before cut after) (first : List VaultEntry) :
    (∃ entry ∈ before ++ cut :: first, entry.event.op.isStoreUnlocked = true) ∧
      ∃ entry ∈ before ++ cut :: first, entry.event.op.isClearKeyLocks = true := by
  have hstored : happened .storeUnlocked () ∈ eventsBy before clearer := by simp [h.earlier]
  have hcleared : happened .clearKeyLocks () ∈ eventsBy before clearer := by simp [h.earlier]
  obtain ⟨stored, hmem, -, hevent⟩ := mem_eventsBy.mp hstored
  obtain ⟨cleared, hmem', -, hevent'⟩ := mem_eventsBy.mp hcleared
  exact ⟨⟨stored, List.mem_append_left _ hmem, by rw [hevent]; rfl⟩,
    ⟨cleared, List.mem_append_left _ hmem', by rw [hevent']; rfl⟩⟩

theorem sinceClear_eq (h : CutRun env v c clearer before cut after) {first last : List VaultEntry}
    (hafter : after = first ++ last) : sinceClear (before ++ cut :: first) = some first := by
  apply sinceClear_split
  · rw [h.cut]
    rfl
  · intro later hlater
    have hmem : later ∈ after := by
      rw [hafter]
      exact List.mem_append_left _ hlater
    obtain ⟨name, history, hready⟩ := h.report_of_mem_after hmem
    cases hop : later.event.op with
    | clearFailures =>
      rw [hop] at hready
      cases hready
    | _ => rfl

theorem track_of_late (h : CutRun env v c clearer before cut after) {first last : List VaultEntry}
    {entry : VaultEntry} (hafter : after = first ++ entry :: last) {caller : Nat}
    (hlate : Late (before ++ cut :: first) caller) :
    ∃ early track mid name now counts, first = early ++ track :: mid ∧ track.caller = caller ∧
      trackedBy track.event = some (name, now, counts) := by
  have hsince := h.sinceClear_eq hafter
  obtain ⟨track, htrack, hcaller, hsome⟩ := hlate
  rw [hsince, Option.getD_some] at htrack
  obtain ⟨early, mid, rfl⟩ := List.append_of_mem htrack
  obtain ⟨⟨name, now, counts⟩, htracked⟩ := Option.isSome_iff_exists.mp hsome
  exact ⟨early, track, mid, name, now, counts, rfl, hcaller, htracked⟩

theorem trip_of_swap (h : CutRun env v c clearer before cut after) {entry : VaultEntry}
    (hentry : entry ∈ after) (hop : entry.event.op = .swapLockedOut) :
    ∃ track ∈ after, tripWrite env track ≠ none := by
  obtain ⟨first, last, hafter⟩ := List.append_of_mem hentry
  have hintime := h.timely _ _ _ (h.log_after hafter)
  rw [hop] at hintime
  obtain ⟨early, track, mid, name, now, counts, hfirst, hcaller, htracked⟩ :=
    h.track_of_late hafter (hintime (h.cleared_mem first).1)
  have hsplit : after = early ++ track :: (mid ++ entry :: last) := by
    rw [hafter, hfirst, List.append_assoc]
    rfl
  obtain ⟨note, response, event, flag, lock, -, hflag, hlock, -, hlater⟩ :=
    h.tracked_path (h.log_after hsplit) htracked
  refine ⟨track, by rw [hsplit]; simp, ?_⟩
  have hmem : entry.event ∈ eventsBy (mid ++ entry :: last) track.caller :=
    mem_eventsBy.mpr ⟨entry, by simp, hcaller.symm, rfl⟩
  rw [hlater] at hmem
  have htrips : counts.TripsVault env.config := by
    rcases List.mem_cons.mp hmem with hnotify | hmem
    · rw [hnotify] at hop
      cases hop
    · rcases List.mem_append.mp hmem with hmem | hmem
      · exact hflag.swaps_iff.mp ⟨_, hmem, hop⟩
      · exact absurd hop (hlock.not_swap hmem)
  simp [tripWrite, htracked, htrips]

theorem swap_of_trip (h : CutRun env v c clearer before cut after) {first last : List VaultEntry}
    {track : VaultEntry} (hafter : after = first ++ track :: last) (htrip : tripWrite env track ≠ none) :
    ∃ entry ∈ last, entry.event.op = .swapLockedOut := by
  obtain ⟨name, now, counts, htracked, htrips⟩ := tripWrite_ne_none htrip
  obtain ⟨note, response, event, flag, lock, -, hflag, -, -, hlater⟩ :=
    h.tracked_path (h.log_after hafter) htracked
  obtain ⟨swap, hswap, hop⟩ := hflag.swaps_iff.mpr htrips
  have hmem : swap ∈ eventsBy last track.caller := by
    rw [hlater]
    exact List.mem_cons_of_mem _ (List.mem_append_left _ hswap)
  obtain ⟨entry, hentry, -, rfl⟩ := mem_eventsBy.mp hmem
  exact ⟨entry, hentry, hop⟩

theorem lock_of_fire (h : CutRun env v c clearer before cut after) {first last : List VaultEntry}
    {track : VaultEntry} (hafter : after = first ++ track :: last) {name : String}
    {written : Option (Option Duration)} (hfire : fireWrite env c name track = some written) :
    ∃ entry ∈ last, entry.caller = track.caller ∧
      ∃ deadline, entry.event.op = .lockKey name deadline ∧ written = some deadline := by
  obtain ⟨now, counts, htracked, htrips⟩ := fireWrite_ne_none (by rw [hfire]; simp)
  obtain ⟨note, response, event, flag, lock, -, -, hlock, hreadings, hlater⟩ :=
    h.tracked_path (h.log_after hafter) htracked
  obtain ⟨inserted, hinserted, deadline, hop⟩ := hlock.locks htrips
  have hmem : inserted ∈ eventsBy last track.caller := by
    rw [hlater]
    exact List.mem_cons_of_mem _ (List.mem_append_right _ hinserted)
  obtain ⟨entry, hentry, hcaller, rfl⟩ := mem_eventsBy.mp hmem
  refine ⟨entry, hentry, hcaller, deadline, hop, ?_⟩
  rw [fireWrite_eq hfire, (hlock.lockKey_mem hinserted hop).2.2]
  unfold deadlineOf
  rw [hreadings]
  rfl

theorem fire_of_lock (h : CutRun env v c clearer before cut after) {first last : List VaultEntry}
    {entry : VaultEntry} (hafter : after = first ++ entry :: last) {name : String}
    {deadline : Option Duration} (hop : entry.event.op = .lockKey name deadline) :
    NotOvertaken (before ++ cut :: first) entry.caller name deadline ∧
    ∃ early track mid, first = early ++ track :: mid ∧ track.caller = entry.caller ∧
      fireWrite env c name track = some (some deadline) := by
  have hintime := h.timely _ _ _ (h.log_after hafter)
  rw [hop] at hintime
  obtain ⟨hlate, hordered⟩ := hintime (h.cleared_mem first).2
  obtain ⟨early, track, mid, tracked, now, counts, hfirst, hcaller, htracked⟩ :=
    h.track_of_late hafter hlate
  have hsplit : after = early ++ track :: (mid ++ entry :: last) := by
    rw [hafter, hfirst, List.append_assoc]
    rfl
  obtain ⟨note, response, event, flag, lock, -, hflag, hlock, hreadings, hlater⟩ :=
    h.tracked_path (h.log_after hsplit) htracked
  refine ⟨hordered, early, track, mid, hfirst, hcaller, ?_⟩
  have hmem : entry.event ∈ eventsBy (mid ++ entry :: last) track.caller :=
    mem_eventsBy.mpr ⟨entry, by simp, hcaller.symm, rfl⟩
  rw [hlater] at hmem
  obtain ⟨rfl, htrips, hdeadline⟩ : name = tracked ∧ counts.TripsKey env.config ∧
      deadline = env.config.policy.lockEnd ((clockReadings lock)[0]?.getD 0) := by
    rcases List.mem_cons.mp hmem with hnotify | hmem
    · rw [hnotify] at hop
      cases hop
    · rcases List.mem_append.mp hmem with hmem | hmem
      · exact absurd hop (hflag.not_lockKey hmem _ _)
      · exact hlock.lockKey_mem hmem hop
  have hsame : deadlineOf env c track.caller = deadline := by
    unfold deadlineOf
    rw [hreadings, hdeadline]
    rfl
  simp [fireWrite, htracked, htrips, hsame]

theorem flag_in_order (h : CutRun env v c clearer before cut after) :
    c.shared.lockedOut = lastWrite (tripWrite env) false after := by
  rw [h.lockedOut_eq]
  apply lastWrite_congr true
  · intro entry hentry written hwritten
    obtain ⟨name, history, hready⟩ := h.report_of_mem_after hentry
    cases hop : entry.event.op with
    | swapLockedOut =>
      rw [hop] at hwritten
      cases hwritten
      rfl
    | storeUnlocked =>
      rw [hop] at hready
      cases hready
    | _ =>
      rw [hop] at hwritten
      cases hwritten
  · intro entry _ written hwritten
    obtain ⟨record, -, hwritten⟩ := Option.bind_eq_some_iff.mp hwritten
    split at hwritten <;> cases hwritten
    rfl
  · constructor
    · rintro ⟨entry, hentry, hwrites⟩
      apply h.trip_of_swap hentry
      obtain ⟨name, history, hready⟩ := h.report_of_mem_after hentry
      cases hop : entry.event.op with
      | swapLockedOut => rfl
      | storeUnlocked =>
        rw [hop] at hready
        cases hready
      | _ => simp [hop, VaultOp.flagWrite] at hwrites
    · rintro ⟨track, htrack, htrip⟩
      obtain ⟨first, last, hafter⟩ := List.append_of_mem htrack
      obtain ⟨entry, hentry, hop⟩ := h.swap_of_trip hafter htrip
      refine ⟨entry, ?_, by simp [hop, VaultOp.flagWrite]⟩
      rw [hafter]
      exact List.mem_append_right _ (List.mem_cons_of_mem _ hentry)

theorem lock_of_write (h : CutRun env v c clearer before cut after) {entry : VaultEntry}
    (hentry : entry ∈ after) {name : String} {written : Option (Option Duration)}
    (hwritten : entry.event.op.lockWrite name = some written) :
    ∃ deadline, entry.event.op = .lockKey name deadline ∧ written = some deadline := by
  obtain ⟨reported, history, hready⟩ := h.report_of_mem_after hentry
  cases hop : entry.event.op with
  | lockKey locked deadline =>
    rw [hop] at hwritten
    by_cases hlocked : locked = name
    · rw [VaultOp.lockWrite, if_pos hlocked] at hwritten
      cases hwritten
      exact ⟨deadline, by rw [hlocked], rfl⟩
    · rw [VaultOp.lockWrite, if_neg hlocked] at hwritten
      cases hwritten
  | clearKeyLocks =>
    rw [hop] at hready
    cases hready
  | _ =>
    rw [hop] at hwritten
    cases hwritten

/-- Behind the failure of the report that inserts the last lock of a name, a failure that
locks that name gives it the same deadline: its lock would have come later, or overtaken this
one. -/
theorem fire_last (h : CutRun env v c clearer before cut after)
    {early mid last : List VaultEntry} {track entry : VaultEntry} {name : String}
    {deadline : Option Duration} (hafter : after = early ++ track :: (mid ++ entry :: last))
    (hcaller : track.caller = entry.caller) (htracked : (trackedBy track.event).isSome = true)
    (hop : entry.event.op = .lockKey name deadline)
    (hlast : ∀ later ∈ last, later.event.op.lockWrite name = none)
    (hordered : NotOvertaken (before ++ cut :: (early ++ track :: mid)) entry.caller name deadline) :
    ∀ later ∈ mid ++ entry :: last, ∀ written ∈ fireWrite env c name later,
      written = some deadline := by
  have hnoLock : ∀ later ∈ last, ∀ stop, later.event.op ≠ .lockKey name stop := by
    intro later hlater stop hlock
    have := hlast later hlater
    simp [hlock, VaultOp.lockWrite] at this
  have honce : ∀ other : VaultEntry,
      other ∈ before ++ cut :: early ∨ other ∈ mid ++ entry :: last → other.caller = track.caller →
      trackedBy other.event = none :=
    fun _ => h.tracked_once (h.log_after hafter) htracked
  have hsince : sinceTracked entry.caller (before ++ cut :: (early ++ track :: mid)) = mid := by
    rw [← List.cons_append, ← List.append_assoc]
    apply sinceTracked_split hcaller htracked
    intro earlier hearlier hsame
    exact honce earlier (.inl hearlier) (hsame.trans hcaller.symm)
  intro later hlater written hfire
  obtain ⟨now, counts, hrecord, -⟩ := fireWrite_ne_none (Option.ne_none_iff_exists'.mpr ⟨_, hfire⟩)
  rcases List.mem_append.mp hlater with hmid | hrest
  · obtain ⟨first, rest, rfl⟩ := List.append_of_mem hmid
    have hsplit : after = (early ++ track :: first) ++ later :: (rest ++ entry :: last) := by
      rw [hafter]
      simp
    obtain ⟨lock, hlock, hsame, stop, hstop, rfl⟩ := h.lock_of_fire hsplit hfire
    rcases List.mem_append.mp hlock with hlock | hlock
    · refine congrArg some
        (hordered later (by rw [hsince]; exact hmid) ?_ lock ?_ hsame stop ?_)
      · obtain ⟨perKey, hevent⟩ := trackedBy_eq_some hrecord
        simp [hevent, VaultOp.recordsFor]
      · simp [hlock]
      · rw [hstop]
        rfl
    · rcases List.mem_cons.mp hlock with rfl | hlock
      · have := honce later (.inr hlater) (hsame.symm.trans hcaller.symm)
        rw [hrecord] at this
        cases this
      · exact absurd hstop (hnoLock lock hlock stop)
  · rcases List.mem_cons.mp hrest with rfl | hrest
    · obtain ⟨perKey, hevent⟩ := trackedBy_eq_some hrecord
      rw [hevent] at hop
      cases hop
    · obtain ⟨first, rest, rfl⟩ := List.append_of_mem hrest
      have hsplit : after = (early ++ track :: (mid ++ entry :: first)) ++ later :: rest := by
        rw [hafter]
        simp
      obtain ⟨lock, hlock, -, stop, hstop, -⟩ := h.lock_of_fire hsplit hfire
      exact absurd hstop (hnoLock lock (by simp [hlock]) stop)

theorem locks_in_order (h : CutRun env v c clearer before cut after) (name : String) :
    c.shared.controls.locks name = lastWrite (fireWrite env c name) none after := by
  rw [h.locks_eq name]
  rcases lastWrite_cases (fun entry : VaultEntry => entry.event.op.lockWrite name) after with
    hsilent | ⟨first, entry, last, written, hafter, hentry, hlast⟩
  · have hnone : ∀ track ∈ after, fireWrite env c name track = none := by
      intro track htrack
      by_contra hne
      obtain ⟨written, hfire⟩ := Option.ne_none_iff_exists'.mp hne
      obtain ⟨early, late, hsplit⟩ := List.append_of_mem htrack
      obtain ⟨lock, hlock, -, deadline, hop, -⟩ := h.lock_of_fire hsplit hfire
      have := hsilent lock (by rw [hsplit]; simp [hlock])
      simp [hop, VaultOp.lockWrite] at this
    rw [lastWrite_of_silent hsilent, lastWrite_of_silent hnone]
  · obtain ⟨deadline, hop, rfl⟩ := h.lock_of_write (by rw [hafter]; simp) hentry
    obtain ⟨hordered, early, track, mid, rfl, hcaller, hfire⟩ := h.fire_of_lock hafter hop
    have hsplit : after = early ++ track :: (mid ++ entry :: last) := by
      rw [hafter]
      simp
    rw [hafter, lastWrite_split (fun entry : VaultEntry => entry.event.op.lockWrite name) hentry hlast,
      ← hafter]
    rw [hsplit]
    apply (lastWrite_settled _ hfire _ _).symm
    apply h.fire_last hsplit hcaller _ hop hlast hordered
    obtain ⟨now, counts, htracked, -⟩ := fireWrite_ne_none (by rw [hfire]; simp)
    rw [htracked]
    rfl

def order (clearer : Nat) (before after : List VaultEntry) : List Nat :=
  trackCallers before ++ clearer :: trackCallers after

theorem order_perm (h : CutRun env v c clearer before cut after) :
    (order clearer before after).Perm (List.range c.calls.length) := by
  rw [List.perm_iff_count]
  intro caller
  have hclearer := h.one.1
  have hcut : trackedBy cut.event = none := trackedBy_clearFailures h.cut
  have htracked := h.tracked_length caller
  rw [← count_trackCallers, h.log, List.append_cons, trackCallers_append, trackCallers_append,
    trackCallers_singleton, hcut, if_neg (by simp), List.append_nil, List.count_append] at htracked
  rw [order, List.count_append, List.count_cons, List.count_range, ← Nat.add_assoc, htracked]
  by_cases hsame : caller = clearer
  · subst hsame
    simp [hclearer]
  · simp [hsame, Ne.symm hsame]

theorem failuresAfter_untracked (h : CutRun env v c clearer before cut after) {entry : VaultEntry}
    (hentry : entry ∈ after) (htracked : trackedBy entry.event = none)
    (failures : String → List Duration) : entry.event.op.failuresAfter env failures = failures := by
  obtain ⟨name, history, hready⟩ := h.report_of_mem_after hentry
  obtain ⟨caller, request, op, ret⟩ := entry
  cases op with
  | trackFailure => cases htracked
  | clearFailures => cases hready
  | _ => rfl

theorem solo_tracked (h : CutRun env v c clearer before cut after) {first last : List VaultEntry}
    {entry : VaultEntry} (hafter : after = first ++ entry :: last) {name : String} {now : Duration}
    {counts : FailureCounts} (htracked : trackedBy entry.event = some (name, now, counts))
    (flag : Bool) (locks : String → Option (Option Duration)) :
    inOrder env c ⟨flag, failuresOf env (fun _ => []) first, locks⟩ [entry.caller] =
      ⟨(tripWrite env entry).getD flag, failuresOf env (fun _ => []) (first ++ [entry]),
        fun other => (fireWrite env c other entry).getD (locks other)⟩ := by
  obtain ⟨note, response, event, -, lock, hcall, -, -, hreadings, -⟩ :=
    h.tracked_path (h.log_after hafter) htracked
  obtain ⟨htrips, hfires⟩ := h.replayed.counted _ _ _ _ _ _ (h.log_after hafter) htracked
  rw [h.failuresOf_eq] at htrips hfires
  obtain ⟨perKey, hevent⟩ := trackedBy_eq_some htracked
  have hdeadline : env.config.policy.lockEnd
      ((clockReadings (eventsBy c.log entry.caller))[1]?.getD 0) = deadlineOf env c entry.caller := rfl
  rw [inOrder_singleton hcall, failuresOf_snoc, hevent]
  unfold solo Controls.failed
  dsimp only
  rw [hdeadline, hreadings, List.headD_cons]
  congr 1
  · by_cases hreached : env.config.policy.Trips now true (failuresOf env (fun _ => []) first name)
    · simp [tripWrite, htracked, htrips, hreached]
    · simp [tripWrite, htracked, htrips, hreached]
  · funext other
    by_cases hreached : env.config.policy.Fires now true (failuresOf env (fun _ => []) first name)
    · rw [if_pos hreached]
      by_cases hother : other = name
      · subst hother
        simp [fireWrite, htracked, hfires, hreached]
      · rw [Function.update_of_ne hother]
        simp [fireWrite, htracked, Ne.symm hother]
    · rw [if_neg hreached]
      simp [fireWrite, htracked, hfires, hreached]

/-- Behind the cut the reports one at a time, in the order of their failures, do what the
log says. -/
theorem inOrder_after (h : CutRun env v c clearer before cut after) {first last : List VaultEntry}
    (hafter : after = first ++ last) :
    inOrder env c ⟨false, fun _ => [], fun _ => none⟩ (trackCallers first) =
      ⟨lastWrite (tripWrite env) false first, failuresOf env (fun _ => []) first,
        fun name => lastWrite (fireWrite env c name) none first⟩ := by
  induction first using List.reverseRecOn generalizing last with
  | nil => rfl
  | append_singleton first entry ih =>
    have hsplit : after = first ++ entry :: last := by
      rw [hafter, List.append_assoc]
      rfl
    rw [trackCallers_append, inOrder_append, ih hsplit, trackCallers_singleton, lastWrite_snoc]
    simp only [lastWrite_snoc]
    cases htracked : trackedBy entry.event with
    | none =>
      have hfailures := h.failuresAfter_untracked (by rw [hsplit]; simp) htracked
        (failuresOf env (fun _ => []) first)
      simp [tripWrite, fireWrite, htracked, inOrder, failuresOf_snoc, hfailures]
    | some record =>
      obtain ⟨name, now, counts⟩ := record
      exact h.solo_tracked hsplit htracked _ _

theorem controls_eq (h : CutRun env v c clearer before cut after) (s : Controls String) :
    c.shared.controls = inOrder env c s (order clearer before after) := by
  obtain ⟨⟨request, rest⟩, hcall⟩ : ∃ call, c.calls[clearer]? = some call :=
    ⟨_, List.getElem?_eq_getElem h.one.1⟩
  have hclear : request = .clearLockout := isClear_iff.mp ((h.one.2 _ _ hcall).mpr rfl)
  have hcleared : inOrder env c (inOrder env c s (trackCallers before)) [clearer] =
      ⟨false, fun _ => [], fun _ => none⟩ := by
    rw [inOrder_singleton hcall, hclear]
    rfl
  have hlocks : c.shared.controls.locks = fun name => lastWrite (fireWrite env c name) none after :=
    funext h.locks_in_order
  rw [order, List.append_cons, inOrder_append, inOrder_append, hcleared,
    h.inOrder_after (List.append_nil after).symm, ← h.flag_in_order, ← hlocks,
    ← h.failuresOf_eq v.controls.failures after, ← h.log, ← h.replayed.failures]
  rfl

theorem lockedByKept (h : CutRun env v c clearer before cut after) : LockedByKept env c := by
  intro hlocked
  have hsince := h.sinceClear_eq (List.append_nil after).symm
  rw [← h.log] at hsince
  rw [hsince, Option.getD_some]
  by_contra hnone
  have hsilent : ∀ entry ∈ after, tripWrite env entry = none := by
    intro entry hentry
    by_contra htrip
    obtain ⟨name, now, counts, htracked, htrips⟩ := tripWrite_ne_none htrip
    exact hnone ⟨entry, hentry, _, htracked, htrips⟩
  rw [h.flag_in_order, lastWrite_of_silent hsilent] at hlocked
  cases hlocked

end CutRun

end Finished

/-- One clear among any number of reports, whose steps come in time: when all have
returned, they leave what they leave one at a time, in the order in which they write the
tracker, and a lockout is due to failures that the clear has not erased. -/
theorem linearizes_of_prompt {env : Environment} {v : Vault} {c : VaultConfiguration} {clearer : Nat}
    (hrun : (vaultMachine env).Runs Prompt (Config.start v) c) (hone : OneClear c clearer)
    (hended : ∀ call ∈ c.calls, call.rest.result?.isSome) :
    Linearizes env v.controls c ∧ LockedByKept env c := by
  have hcalls := hrun.mono prompt_lockoutCalls
  obtain ⟨before, cut, after, h⟩ := (replayed_run hcalls).cutRun (timely_run hrun) hone hended
  exact ⟨⟨CutRun.order clearer before after, h.order_perm, h.controls_eq v.controls⟩, h.lockedByKept⟩

def oneFailure : Environment :=
  Environment.plain
    { maxFailuresBeforeLockout := 1
      failureWindow := 10
      keyLockoutThreshold := 1
      keyLockoutDuration := some 100 }

/-- The first report sets the flag before the clear resets it, and inserts its lock in the
midst of the clear; the other two come behind the clear, and the last one overtakes the second
with a lock that ends at the same time. -/
def overlapped : List (Action Request Surroundings) :=
  [.invoke (.reportFailure "k" none), .exec 0, .exec 0, .exec 0, .exec 0,
    .invoke .clearLockout, .exec 1, .exec 0, .exec 0, .exec 0, .exec 1, .exec 1, .exec 0,
    .invoke (.reportFailure "k" none), .exec 2, .exec 2, .exec 2, .exec 2, .exec 2,
    .invoke (.reportFailure "k" none), .exec 3, .exec 3, .exec 3, .exec 3,
    .external (.tick 5), .exec 3, .exec 3, .exec 3, .exec 3, .exec 2, .exec 2, .exec 2]

theorem linearizes_of_prompt_overlapped : ∃ c,
    (vaultMachine oneFailure).followWhile Prompt (Config.start (Vault.new 0 0 0))
      overlapped = some c ∧
    c.shared.controls.locks "k" = some (some 105) ∧
    Linearizes oneFailure (Vault.new 0 0 0).controls c ∧ LockedByKept oneFailure c := by
  have hfollow : ((vaultMachine oneFailure).followWhile Prompt
      (Config.start (Vault.new 0 0 0)) overlapped).map
      (fun c => (c.calls.all (·.rest.result?.isSome), decide (OneClear c 1),
        c.shared.controls.locks "k")) = some (true, true, some (some 105)) := by
    decide +kernel
  obtain ⟨c, hc, hseen⟩ := Option.map_eq_some_iff.mp hfollow
  simp only [Prod.mk.injEq, List.all_eq_true, decide_eq_true_eq] at hseen
  obtain ⟨hended, hone, hlock⟩ := hseen
  exact ⟨c, hc, hlock, linearizes_of_prompt (Machine.followWhile_runs hc) hone hended⟩

/-- The clear goes by between the failure and what the report makes of it. -/
def erased : List (Action Request Surroundings) :=
  [.invoke (.reportFailure "k" none), .exec 0, .exec 0, .exec 0,
    .invoke .clearLockout, .exec 1, .exec 1, .exec 1, .exec 0, .exec 0, .exec 0, .exec 0, .exec 0]

theorem erased_not_linearizes : ∃ c,
    (vaultMachine oneFailure).follow (Config.start (Vault.new 0 0 0)) erased = some c ∧
    OneClear c 1 ∧ (∀ call ∈ c.calls, call.rest.result?.isSome) ∧
    c.shared.lockedOut = true ∧ c.shared.controls.failures "k" = [] ∧
    ¬Linearizes oneFailure (Vault.new 0 0 0).controls c ∧ ¬LockedByKept oneFailure c := by
  have hfollow : ((vaultMachine oneFailure).follow (Config.start (Vault.new 0 0 0)) erased).map
      (fun c => (decide (OneClear c 1) && c.calls.all (·.rest.result?.isSome) &&
        c.shared.lockedOut, c.calls.length, c.shared.controls.failures "k")) = some (true, 2, []) := by
    decide +kernel
  have hothers : ((vaultMachine oneFailure).follow (Config.start (Vault.new 0 0 0)) erased).map
      (fun c => ((inOrder oneFailure c (Vault.new 0 0 0).controls [0, 1]).lockedOut,
        (inOrder oneFailure c (Vault.new 0 0 0).controls [1, 0]).failures "k",
        ((sinceClear c.log).getD []).all fun entry => (trackedBy entry.event).isNone)) =
      some (false, [0], true) := by
    decide +kernel
  obtain ⟨c, hc, hseen⟩ := Option.map_eq_some_iff.mp hfollow
  rw [hc] at hothers
  simp only [Prod.mk.injEq, Bool.and_eq_true, List.all_eq_true, decide_eq_true_eq, Option.map_some,
    Option.some.injEq, Option.isNone_iff_eq_none] at hseen hothers
  obtain ⟨⟨⟨hone, hended⟩, hlocked⟩, hlength, hempty⟩ := hseen
  obtain ⟨hfirst, hsecond, hnone⟩ := hothers
  refine ⟨c, hc, hone, hended, hlocked, hempty, ?_, ?_⟩
  · rintro ⟨order, hperm, hsame⟩
    rw [hlength] at hperm
    have horders : order = [0, 1] ∨ order = [1, 0] := List.perm_pair.mp hperm
    rcases horders with rfl | rfl
    · rw [← hsame] at hfirst
      cases hlocked.symm.trans hfirst
    · rw [← hsame] at hsecond
      cases hempty.symm.trans hsecond
  · intro hkept
    obtain ⟨entry, hentry, record, hrecord, -⟩ := hkept hlocked
    rw [hnone entry hentry] at hrecord
    cases hrecord

end KeyVault
