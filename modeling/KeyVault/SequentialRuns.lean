import KeyVault.SequentialCalls

/-! Runs of calls made one at a time: each call starts when the one before it has
returned, at a time that is not earlier. Such a run is one of the interleavings of
the concurrent vault, and its lockout state follows the lockout controls. -/
namespace KeyVault

open Interleaving Lockouts

structure Served where
  time : Duration
  request : Request
  before : Vault
  response : Response
  after : Vault

/-- Make a call at `time`. There is no outcome if the clock would go back or the
process is gone. -/
def serve (env : Environment) (v : Vault) (time : Duration) (request : Request) : Option Served :=
  if v.clock ≤ time then
    (runAlone env (request.program env) { v with clock := time }).map fun out =>
      ⟨time, request, { v with clock := time }, out.1, out.2⟩
  else none

/-- `Serves env v steps v'`: the calls `steps`, one after another, lead from `v`
to `v'`. -/
inductive Serves (env : Environment) (v : Vault) : List Served → Vault → Prop where
  | nil : Serves env v [] v
  | snoc {v' : Vault} {steps : List Served} {time : Duration} {request : Request}
      {step : Served} : Serves env v steps v' → serve env v' time request = some step →
      Serves env v (steps ++ [step]) step.after

def serveAll (env : Environment) (v : Vault) (calls : List (Duration × Request)) :
    Option (List Served × Vault) :=
  calls.foldlM (fun done call =>
    (serve env done.2 call.1 call.2).map fun step => (done.1 ++ [step], step.after)) ([], v)

theorem serve_eq_some {env : Environment} {v : Vault} {time : Duration} {request : Request}
    {step : Served} (h : serve env v time request = some step) :
    v.clock ≤ time ∧ step.time = time ∧ step.request = request ∧
      step.before = { v with clock := time } ∧
      runAlone env (request.program env) { v with clock := time } =
        some (step.response, step.after) := by
  unfold serve at h
  split at h
  · rename_i hle
    obtain ⟨out, hrun, rfl⟩ := Option.map_eq_some_iff.mp h
    exact ⟨hle, rfl, rfl, rfl, hrun⟩
  · cases h

theorem serves_of_foldlM {env : Environment} {start : Vault} {calls : List (Duration × Request)}
    {done out : List Served × Vault} (hdone : Serves env start done.1 done.2)
    (h : calls.foldlM (fun done call =>
      (serve env done.2 call.1 call.2).map fun step => (done.1 ++ [step], step.after)) done =
        some out) : Serves env start out.1 out.2 := by
  induction calls generalizing done with
  | nil =>
    cases h
    exact hdone
  | cons call calls ih =>
    rw [List.foldlM_cons] at h
    obtain ⟨next, hnext, hrest⟩ := Option.bind_eq_some_iff.mp h
    obtain ⟨step, hstep, rfl⟩ := Option.map_eq_some_iff.mp hnext
    exact ih (.snoc hdone hstep) hrest

def Served.call (step : Served) : Duration × Request := (step.time, step.request)

theorem calls_of_foldlM {env : Environment} {calls : List (Duration × Request)}
    {done out : List Served × Vault}
    (h : calls.foldlM (fun done call =>
      (serve env done.2 call.1 call.2).map fun step => (done.1 ++ [step], step.after)) done =
        some out) : out.1.map Served.call = done.1.map Served.call ++ calls := by
  induction calls generalizing done with
  | nil =>
    cases h
    exact (List.append_nil _).symm
  | cons call calls ih =>
    rw [List.foldlM_cons] at h
    obtain ⟨next, hnext, hrest⟩ := Option.bind_eq_some_iff.mp h
    obtain ⟨step, hstep, rfl⟩ := Option.map_eq_some_iff.mp hnext
    obtain ⟨-, htime, hrequest, -⟩ := serve_eq_some hstep
    have hcall : step.call = call := Prod.ext htime hrequest
    rw [ih hrest, List.map_append, List.map_singleton, hcall, List.append_assoc]
    rfl

theorem calls_of_serveAll {env : Environment} {v v' : Vault} {calls : List (Duration × Request)}
    {steps : List Served} (h : serveAll env v calls = some (steps, v')) :
    steps.map Served.call = calls := calls_of_foldlM h

theorem serves_of_serveAll {env : Environment} {v v' : Vault} {calls : List (Duration × Request)}
    {steps : List Served} (h : serveAll env v calls = some (steps, v')) : Serves env v steps v' :=
  serves_of_foldlM .nil h

section Runs

variable {env : Environment} {v v' : Vault} {steps : List Served}

/-- The rule for runs: what holds of the empty history and survives every call
holds of the whole history. -/
theorem Serves.history {I : List Served → Vault → Prop} (h : Serves env v steps v')
    (hinit : I [] v)
    (hstep : ∀ earlier v time request step, step ∈ steps → I earlier v →
      serve env v time request = some step → I (earlier ++ [step]) step.after) : I steps v' := by
  induction h with
  | nil => exact hinit
  | @snoc mid steps time request step hrun hserve ih =>
    apply hstep steps mid time request step (by simp) _ hserve
    apply ih
    intro earlier v time request step hmem
    exact hstep earlier v time request step (List.mem_append_left _ hmem)

theorem Serves.split (first second : List Served) (h : Serves env v (first ++ second) v') :
    ∃ mid, Serves env v first mid ∧ Serves env mid second v' := by
  generalize hsteps : first ++ second = steps at h
  induction h generalizing second with
  | nil =>
    obtain ⟨rfl, rfl⟩ := List.append_eq_nil_iff.mp hsteps
    exact ⟨v, .nil, .nil⟩
  | @snoc mid steps time request step hrun hserve ih =>
    rcases List.eq_nil_or_concat second with rfl | ⟨rest, last, rfl⟩
    · rw [List.append_nil] at hsteps
      subst hsteps
      exact ⟨step.after, .snoc hrun hserve, .nil⟩
    · rw [List.concat_eq_append, ← List.append_assoc] at hsteps
      obtain ⟨hfirst, hlast⟩ := List.append_inj' hsteps rfl
      cases List.singleton_inj.mp hlast
      obtain ⟨between, hleft, hright⟩ := ih rest hfirst
      rw [List.concat_eq_append]
      exact ⟨between, hleft, .snoc hright hserve⟩

theorem Serves.nil_eq (h : Serves env v [] v') : v' = v := by
  generalize hsteps : [] = steps at h
  cases h with
  | nil => rfl
  | snoc hearlier hserve => simp at hsteps

theorem Serves.head {step : Served} {rest : List Served}
    (h : Serves env v (step :: rest) v') :
    serve env v step.time step.request = some step ∧ Serves env step.after rest v' := by
  obtain ⟨mid, hone, hrest⟩ := Serves.split [step] rest h
  generalize hsteps : [step] = steps at hone
  cases hone with
  | nil => cases hsteps
  | @snoc before earlier time request last hearlier hserve =>
    rw [← List.nil_append [step]] at hsteps
    obtain ⟨rfl, hlast⟩ := List.append_inj' hsteps rfl
    cases List.singleton_inj.mp hlast
    rw [hearlier.nil_eq] at hserve
    obtain ⟨-, htime, hrequest, -, -⟩ := serve_eq_some hserve
    rw [htime, hrequest]
    exact ⟨hserve, hrest⟩

theorem serve_spec {time : Duration} {request : Request} {step : Served} (h : v.Counted env)
    (hserve : serve env v time request = some step) :
    step.after.Counted env ∧ step.after.clock = time ∧
      step.after.controls = controlsAfter env step.before (request.occurrence env step.before) := by
  obtain ⟨-, -, -, hbefore, hrun⟩ := serve_eq_some hserve
  have hclocked : ({ v with clock := time } : Vault).Counted env := ⟨h.active, h.bounded⟩
  obtain ⟨hcounted, hcontrols⟩ := request_spec hclocked hrun
  rw [hbefore]
  exact ⟨hcounted, runAlone_clock hrun, hcontrols⟩

theorem Serves.counted (h : Serves env v steps v') (hcounted : v.Counted env) :
    v'.Counted env := by
  apply h.history (I := fun _ v => v.Counted env) hcounted
  intro earlier v time request step _ hv hserve
  exact (serve_spec hv hserve).1

/-- Calls made one at a time are one of the interleavings. -/
theorem Serves.reaches (h : Serves env v steps v') {c : VaultConfiguration}
    (hshared : c.shared = v) : ∃ c', (vaultMachine env).Reaches c c' ∧ c'.shared = v' := by
  apply h.history (I := fun _ v' => ∃ c', (vaultMachine env).Reaches c c' ∧ c'.shared = v')
    ⟨c, .refl c, hshared⟩
  rintro earlier v time request step - ⟨mid, hreaches, rfl⟩ hserve
  obtain ⟨hle, -, -, -, hrun⟩ := serve_eq_some hserve
  -- the clock advances, the call is made, and it is executed without a break
  have htick : (vaultMachine env).step mid (.external (.tick time)) =
      some { mid with shared := { mid.shared with clock := time } } := by
    apply Machine.step_external_iff.mpr
    exact ⟨_, if_pos hle, rfl⟩
  have hinvoke : (vaultMachine env).step
      { mid with shared := { mid.shared with clock := time } } (.invoke request) =
        some { mid with
          shared := { mid.shared with clock := time }
          calls := mid.calls ++ [⟨request, request.program env⟩] } := rfl
  obtain ⟨c', hrest, hafter⟩ := Machine.reaches_of_run (m := vaultMachine env)
    (c := { mid with
      shared := { mid.shared with clock := time }
      calls := mid.calls ++ [⟨request, request.program env⟩] })
    (List.getElem?_concat_length ..) hrun
  exact ⟨c', ((hreaches.tail trivial htick).tail trivial hinvoke).trans hrest, hafter⟩

end Runs

end KeyVault
