import KeyVault.Interleaving
import KeyVault.Ledger

/-! Reasoning about one call by the operations it has performed itself. A program
obeys a rule when each of its operations, and its result, is permitted after the
call's own history; rules compose along `bind`. In every interleaved run each
call then obeys its rule, whatever the other calls do. -/
namespace Interleaving

variable {S : Signature} {σ κ α β ε : Type}

namespace Program

/-- After `history`, every operation of the program is `allowed` and every result
meets `ends`. -/
def Obeys (allowed : List (Event S) → S.Op → Prop) (ends : List (Event S) → α → Prop) :
    List (Event S) → Program S α → Prop
  | history, .done value => ends history value
  | history, .step op next =>
      allowed history op ∧ ∀ ret, (next ret).Obeys allowed ends (history ++ [⟨op, ret⟩])

variable {allowed : List (Event S) → S.Op → Prop}

theorem obeys_bind {mid : List (Event S) → α → Prop} {ends : List (Event S) → β → Prop}
    {p : Program S α} {f : α → Program S β} {history : List (Event S)}
    (hp : p.Obeys allowed mid history)
    (hf : ∀ later value, mid later value → (f value).Obeys allowed ends later) :
    (p >>= f).Obeys allowed ends history := by
  induction p generalizing history with
  | done value => exact hf history value hp
  | step op next ih => exact ⟨hp.1, fun ret => ih ret (hp.2 ret)⟩

theorem Obeys.mono {allowed' : List (Event S) → S.Op → Prop}
    {ends ends' : List (Event S) → α → Prop} {p : Program S α} {history : List (Event S)}
    (h : p.Obeys allowed ends history) (hallowed : ∀ later op, allowed later op → allowed' later op)
    (hends : ∀ later value, ends later value → ends' later value) :
    p.Obeys allowed' ends' history := by
  induction p generalizing history with
  | done value => exact hends history value h
  | step op next ih => exact ⟨hallowed history op h.1, fun ret => ih ret (h.2 ret)⟩

end Program

def eventsBy (log : List (Entry S κ)) (caller : Nat) : List (Event S) :=
  (log.filter (·.caller = caller)).map (·.event)

theorem eventsBy_append (log later : List (Entry S κ)) (caller : Nat) :
    eventsBy (log ++ later) caller = eventsBy log caller ++ eventsBy later caller := by
  simp [eventsBy]

theorem eventsBy_snoc_self (log : List (Entry S κ)) (caller : Nat) (request : κ) (event : Event S) :
    eventsBy (log ++ [⟨caller, request, event⟩]) caller = eventsBy log caller ++ [event] := by
  simp [eventsBy]

theorem eventsBy_snoc_other (log : List (Entry S κ)) {caller other : Nat} (h : caller ≠ other)
    (request : κ) (event : Event S) :
    eventsBy (log ++ [⟨caller, request, event⟩]) other = eventsBy log other := by
  simp [eventsBy, h]

theorem mem_eventsBy {log : List (Entry S κ)} {caller : Nat} {event : Event S} :
    event ∈ eventsBy log caller ↔ ∃ entry ∈ log, entry.caller = caller ∧ entry.event = event := by
  simp [eventsBy, and_assoc]

theorem eventsBy_cons_self (entry : Entry S κ) (log : List (Entry S κ)) :
    eventsBy (entry :: log) entry.caller = entry.event :: eventsBy log entry.caller := by
  simp [eventsBy]

theorem eventsBy_cons_other {entry : Entry S κ} {caller : Nat} (h : caller ≠ entry.caller)
    (log : List (Entry S κ)) : eventsBy (entry :: log) caller = eventsBy log caller := by
  simp [eventsBy, Ne.symm h]

theorem eventsBy_eq_append {log : List (Entry S κ)} {caller : Nat} {earlier later : List (Event S)}
    {event : Event S} (h : eventsBy log caller = earlier ++ event :: later) :
    ∃ before entry after, log = before ++ entry :: after ∧ entry.caller = caller ∧
      entry.event = event ∧ eventsBy before caller = earlier ∧ eventsBy after caller = later := by
  obtain ⟨first, rest, hsplit, rfl, hrest⟩ := List.map_eq_append_iff.mp h
  obtain ⟨entry, last, rfl, rfl, rfl⟩ := List.map_eq_cons_iff.mp hrest
  obtain ⟨before, mid, rfl, rfl, hmid⟩ := List.filter_eq_append_iff.mp hsplit
  obtain ⟨skipped, after, rfl, hskipped, hcaller, rfl⟩ := List.filter_eq_cons_iff.mp hmid
  refine ⟨before ++ skipped, entry, after, by simp, by simpa using hcaller, rfl, ?_, rfl⟩
  have hnone : skipped.filter (·.caller = caller) = [] := List.filter_eq_nil_iff.mpr hskipped
  rw [eventsBy_append, eventsBy, eventsBy, hnone, List.map_nil, List.append_nil]

theorem perm_flatMap_eventsBy {callers : List Nat} (hnodup : callers.Nodup)
    {log : List (Entry S κ)} (h : ∀ entry ∈ log, entry.caller ∈ callers) :
    (log.map (·.event)).Perm (callers.flatMap (eventsBy log)) := by
  induction log with
  | nil => simp [eventsBy]
  | cons entry log ih =>
    obtain ⟨hentry, hlog⟩ := List.forall_mem_cons.mp h
    have hothers : Function.update (eventsBy (entry :: log)) entry.caller
        (eventsBy log entry.caller) = eventsBy log := by
      funext caller
      by_cases hsame : caller = entry.caller
      · rw [hsame, Function.update_self]
      · rw [Function.update_of_ne hsame, eventsBy_cons_other hsame]
    have hmoved : (callers.flatMap (eventsBy (entry :: log))).Perm ([entry.event] ++
        callers.flatMap (Function.update (eventsBy (entry :: log)) entry.caller
          (eventsBy log entry.caller))) :=
      Ledger.perm_flatMap_update hnodup hentry _ (.of_eq (eventsBy_cons_self entry log))
    rw [hothers] at hmoved
    exact ((ih hlog).cons entry.event).trans hmoved.symm

theorem split_snoc {β : Type} {items before after : List β} {last item : β}
    (h : items ++ [last] = before ++ item :: after) :
    (items = before ∧ last = item) ∨ ∃ rest, items = before ++ item :: rest := by
  rcases List.eq_nil_or_concat after with rfl | ⟨rest, final, rfl⟩
  · obtain ⟨hitems, hlast⟩ := List.append_inj' h rfl
    exact .inl ⟨hitems, List.singleton_inj.mp hlast⟩
  · rw [List.concat_eq_append, ← List.cons_append, ← List.append_assoc] at h
    exact .inr ⟨rest, (List.append_inj' h rfl).1⟩

/-! ### What a log leaves in a cell -/

section LastWrite

variable {δ γ : Type}

/-- The value of a cell that holds `initial` at first, after the writes in a log. -/
def lastWrite (writes : δ → Option γ) (initial : γ) (log : List δ) : γ :=
  log.foldl (fun value entry => (writes entry).getD value) initial

variable {writes writes' : δ → Option γ} {initial value : γ} {log : List δ}

theorem lastWrite_append (initial : γ) (log later : List δ) :
    lastWrite writes initial (log ++ later) = lastWrite writes (lastWrite writes initial log) later :=
  List.foldl_append

theorem lastWrite_snoc (initial : γ) (log : List δ) (entry : δ) :
    lastWrite writes initial (log ++ [entry]) =
      (writes entry).getD (lastWrite writes initial log) := by
  rw [lastWrite_append]
  rfl

theorem lastWrite_map {δ' : Type} (view : δ' → δ) (initial : γ) (log : List δ') :
    lastWrite writes initial (log.map view) = lastWrite (fun entry => writes (view entry)) initial log :=
  List.foldl_map

theorem lastWrite_of_same (h : ∀ entry ∈ log, ∀ written ∈ writes entry, written = initial) :
    lastWrite writes initial log = initial := by
  induction log with
  | nil => rfl
  | cons entry log ih =>
    obtain ⟨hentry, hlog⟩ := List.forall_mem_cons.mp h
    have hkept : (writes entry).getD initial = initial := by
      cases hwrites : writes entry with
      | none => rfl
      | some written => exact hentry written hwrites
    show lastWrite writes ((writes entry).getD initial) log = initial
    rw [hkept]
    exact ih hlog

theorem lastWrite_of_silent (h : ∀ entry ∈ log, writes entry = none) (initial : γ) :
    lastWrite writes initial log = initial := by
  apply lastWrite_of_same
  intro entry hentry written hwritten
  rw [h entry hentry] at hwritten
  cases hwritten

theorem view_foldl {σ : Type} {apply : σ → δ → σ} (view : σ → γ)
    (h : ∀ s entry, view (apply s entry) = (writes entry).getD (view s)) (s : σ) (log : List δ) :
    view (log.foldl apply s) = lastWrite writes (view s) log := by
  induction log generalizing s with
  | nil => rfl
  | cons entry log ih =>
    show view (log.foldl apply (apply s entry)) = _
    rw [ih, h]
    rfl

theorem lastWrite_settled (writes : δ → Option γ) {before after : List δ} {entry : δ}
    (hentry : writes entry = some value)
    (hafter : ∀ later ∈ after, ∀ written ∈ writes later, written = value) (initial : γ) :
    lastWrite writes initial (before ++ entry :: after) = value := by
  rw [lastWrite_append]
  show lastWrite writes ((writes entry).getD _) after = value
  rw [hentry]
  exact lastWrite_of_same hafter

theorem lastWrite_split (writes : δ → Option γ) {before after : List δ} {entry : δ}
    (hentry : writes entry = some value) (hafter : ∀ later ∈ after, writes later = none) (initial : γ) :
    lastWrite writes initial (before ++ entry :: after) = value := by
  apply lastWrite_settled writes hentry
  intro later hlater written hwritten
  rw [hafter later hlater] at hwritten
  cases hwritten

theorem lastWrite_cases (writes : δ → Option γ) (log : List δ) :
    (∀ entry ∈ log, writes entry = none) ∨ ∃ before entry after value,
      log = before ++ entry :: after ∧ writes entry = some value ∧
        ∀ later ∈ after, writes later = none := by
  induction log with
  | nil => exact .inl (by simp)
  | cons entry log ih =>
    rcases ih with hsilent | ⟨before, last, after, value, rfl, hlast, hafter⟩
    · cases hentry : writes entry with
      | none => exact .inl (List.forall_mem_cons.mpr ⟨hentry, hsilent⟩)
      | some value => exact .inr ⟨[], entry, log, value, rfl, hentry, hsilent⟩
    · exact .inr ⟨entry :: before, last, after, value, rfl, hlast, hafter⟩

theorem lastWrite_of_ne {initial : γ} (h : lastWrite writes initial log ≠ initial) (other : γ) :
    lastWrite writes other log = lastWrite writes initial log := by
  rcases lastWrite_cases writes log with hsilent | ⟨before, entry, after, value, rfl, hentry, hafter⟩
  · exact absurd (lastWrite_of_silent hsilent initial) h
  · rw [lastWrite_split writes hentry hafter, lastWrite_split writes hentry hafter]

theorem lastWrite_congr (value : γ) (hvalue : ∀ entry ∈ log, ∀ written ∈ writes entry, written = value)
    (hvalue' : ∀ entry ∈ log, ∀ written ∈ writes' entry, written = value)
    (hboth : (∃ entry ∈ log, writes entry ≠ none) ↔ ∃ entry ∈ log, writes' entry ≠ none) :
    lastWrite writes initial log = lastWrite writes' initial log := by
  have hsilent : ∀ {writes : δ → Option γ}, (∀ entry ∈ log, writes entry = none) ↔
      ¬∃ entry ∈ log, writes entry ≠ none := by
    intro writes
    simp
  rcases lastWrite_cases writes log with hnone | ⟨before, entry, after, written, hlog, hentry, hafter⟩
  · have hnone' : ∀ entry ∈ log, writes' entry = none := hsilent.mpr (hboth.not.mp (hsilent.mp hnone))
    rw [lastWrite_of_silent hnone, lastWrite_of_silent hnone']
  · rcases lastWrite_cases writes' log with
      hnone | ⟨before', entry', after', written', hlog', hentry', hafter'⟩
    · have hnone' : ∀ entry ∈ log, writes entry = none := hsilent.mpr (hboth.not.mpr (hsilent.mp hnone))
      rw [hnone' entry (by rw [hlog]; simp)] at hentry
      cases hentry
    · have hwritten := hvalue entry (by rw [hlog]; simp) written hentry
      have hwritten' := hvalue' entry' (by rw [hlog']; simp) written' hentry'
      rw [hlog, lastWrite_split writes hentry hafter, ← hlog, hlog',
        lastWrite_split writes' hentry' hafter', hwritten, hwritten']

end LastWrite

namespace Machine

/-- Every call has obeyed its rule so far and will, and the log names the calls
that made its entries. -/
structure Orderly (allowed : κ → List (Event S) → S.Op → Prop)
    (ends : κ → List (Event S) → α → Prop) (c : Config S σ κ α) : Prop where
  obeys : ∀ (caller : Nat) (call : Activation S κ α), c.calls[caller]? = some call →
    call.rest.Obeys (allowed call.request) (ends call.request) (eventsBy c.log caller)
  logged : ∀ entry ∈ c.log, ∃ rest, c.calls[entry.caller]? = some ⟨entry.request, rest⟩
  permitted : ∀ (before : List (Entry S κ)) (entry : Entry S κ) (after : List (Entry S κ)),
    c.log = before ++ entry :: after →
    allowed entry.request (eventsBy before entry.caller) entry.event.op

variable {m : Machine S σ κ α ε} {allowed : κ → List (Event S) → S.Op → Prop}
  {ends : κ → List (Event S) → α → Prop} {ok : Config S σ κ α → Action κ ε → Prop}
  {c c' : Config S σ κ α}

theorem orderly_start (s : σ) : Orderly allowed ends (Config.start s : Config S σ κ α) where
  obeys := by
    intro caller call hcall
    simp [Config.start] at hcall
  logged := by
    intro entry hentry
    cases hentry
  permitted := by
    intro before entry after hlog
    simp [Config.start] at hlog

theorem Orderly.invoke (h : Orderly allowed ends c) (request : κ)
    (hprogram : (m.program request).Obeys (allowed request) (ends request) []) :
    Orderly allowed ends { c with calls := c.calls ++ [⟨request, m.program request⟩] } where
  obeys := by
    intro caller call hcall
    by_cases hold : caller < c.calls.length
    · rw [List.getElem?_append_left hold] at hcall
      exact h.obeys caller call hcall
    · rw [List.getElem?_append_right (by omega)] at hcall
      obtain ⟨hzero, hnew⟩ := List.getElem?_eq_some_iff.mp hcall
      have hcaller : caller - c.calls.length = 0 := by simpa using hzero
      simp only [hcaller, List.getElem_cons_zero] at hnew
      subst hnew
      -- a call that has just begun has no entries yet
      have hnone : eventsBy c.log caller = [] := by
        unfold eventsBy
        rw [List.map_eq_nil_iff, List.filter_eq_nil_iff]
        intro entry hentry hsame
        obtain ⟨rest, hrest⟩ := h.logged entry hentry
        have hlt := (List.getElem?_eq_some_iff.mp hrest).1
        simp only [decide_eq_true_eq] at hsame
        omega
      rw [hnone]
      exact hprogram
  logged := by
    intro entry hentry
    obtain ⟨rest, hrest⟩ := h.logged entry hentry
    exact ⟨rest, List.getElem?_append_left (List.getElem?_eq_some_iff.mp hrest).1 ▸ hrest⟩
  permitted := h.permitted

theorem Orderly.exec {caller : Nat} (h : Orderly allowed ends c)
    (hstep : m.step c (.exec caller) = some c') : Orderly allowed ends c' := by
  obtain ⟨request, op, next, ret, s, hcall, -, rfl⟩ := step_exec_iff.mp hstep
  obtain ⟨hallowed, hnext⟩ := h.obeys caller _ hcall
  have hlt : caller < c.calls.length := (List.getElem?_eq_some_iff.mp hcall).1
  refine ⟨?_, ?_, ?_⟩
  · intro other call hother
    dsimp only at hother ⊢
    by_cases hsame : caller = other
    · subst hsame
      rw [List.getElem?_set_self hlt] at hother
      cases hother
      rw [eventsBy_snoc_self]
      exact hnext ret
    · rw [List.getElem?_set_ne hsame] at hother
      rw [eventsBy_snoc_other c.log hsame]
      exact h.obeys other call hother
  · intro entry hentry
    dsimp only
    rcases List.mem_append.mp hentry with hold | hnew
    · obtain ⟨rest, hrest⟩ := h.logged entry hold
      by_cases hsame : caller = entry.caller
      · rw [← hsame, hcall] at hrest
        cases hrest
        exact ⟨next ret, by rw [← hsame, List.getElem?_set_self hlt]⟩
      · exact ⟨rest, by rw [List.getElem?_set_ne hsame, hrest]⟩
    · rw [List.mem_singleton.mp hnew]
      exact ⟨next ret, List.getElem?_set_self hlt⟩
  · intro before entry after hlog
    rcases split_snoc hlog with ⟨rfl, rfl⟩ | ⟨rest, hbefore⟩
    · exact hallowed
    · exact h.permitted before entry rest hbefore

/-- In every run each call obeys its rule. -/
theorem Runs.orderly (hrun : m.Runs ok c c')
    (hprogram : ∀ request, (m.program request).Obeys (allowed request) (ends request) [])
    (h : Orderly allowed ends c) : Orderly allowed ends c' := by
  refine hrun.invariant h fun c action c' hinv _ hstep => ?_
  cases action with
  | invoke request =>
    rw [step_invoke_iff] at hstep
    subst hstep
    exact hinv.invoke request (hprogram request)
  | exec caller => exact hinv.exec hstep
  | external event =>
    obtain ⟨s, -, rfl⟩ := step_external_iff.mp hstep
    exact ⟨hinv.obeys, hinv.logged, hinv.permitted⟩

theorem Runs.answered (hrun : m.Runs ok c c')
    (h : ∀ entry ∈ c.log, ∃ s s', m.perform entry.event.op s = some (entry.event.ret, s')) :
    ∀ entry ∈ c'.log, ∃ s s', m.perform entry.event.op s = some (entry.event.ret, s') := by
  apply hrun.invariant (I := fun c => ∀ entry ∈ c.log,
    ∃ s s', m.perform entry.event.op s = some (entry.event.ret, s')) h
  intro c action c' hinv _ hstep
  cases action with
  | invoke request =>
    rw [step_invoke_iff] at hstep
    subst hstep
    exact hinv
  | exec caller =>
    obtain ⟨request, op, next, ret, s, -, hperform, rfl⟩ := step_exec_iff.mp hstep
    intro entry hentry
    rcases List.mem_append.mp hentry with hold | hnew
    · exact hinv entry hold
    · rw [List.mem_singleton.mp hnew]
      exact ⟨c.shared, s, hperform⟩
  | external event =>
    obtain ⟨s, -, rfl⟩ := step_external_iff.mp hstep
    exact hinv

theorem Orderly.returned (h : Orderly allowed ends c) {caller : Nat} {request : κ} {value : α}
    (hreturned : c.Returned caller request value) : ends request (eventsBy c.log caller) value :=
  h.obeys caller _ hreturned

theorem Runs.call_request (hrun : m.Runs ok c c') {caller : Nat} {call : Activation S κ α}
    (h : c.calls[caller]? = some call) : ∃ rest, c'.calls[caller]? = some ⟨call.request, rest⟩ := by
  refine hrun.invariant (I := fun c' => ∃ rest, c'.calls[caller]? = some ⟨call.request, rest⟩)
    ⟨call.rest, h⟩ ?_
  intro before action after hinv _ hstep
  obtain ⟨rest, hcall⟩ := hinv
  have hlt := (List.getElem?_eq_some_iff.mp hcall).1
  cases action with
  | invoke request =>
    rw [step_invoke_iff] at hstep
    subst hstep
    exact ⟨rest, by rw [List.getElem?_append_left hlt]; exact hcall⟩
  | exec other =>
    obtain ⟨request, op, next, ret, s, hother, -, rfl⟩ := step_exec_iff.mp hstep
    by_cases hsame : other = caller
    · subst hsame
      rw [hcall] at hother
      cases hother
      exact ⟨next ret, List.getElem?_set_self hlt⟩
    · exact ⟨rest, by dsimp only; rw [List.getElem?_set_ne hsame]; exact hcall⟩
  | external event =>
    obtain ⟨s, -, rfl⟩ := step_external_iff.mp hstep
    exact ⟨rest, hcall⟩

theorem Runs.returned_stays (hrun : m.Runs ok c c') {caller : Nat} {request : κ} {value : α}
    (h : c.Returned caller request value) :
    c'.Returned caller request value ∧ eventsBy c'.log caller = eventsBy c.log caller := by
  refine hrun.invariant (I := fun c' => c'.Returned caller request value ∧
    eventsBy c'.log caller = eventsBy c.log caller) ⟨h, rfl⟩ ?_
  intro before action after hinv _ hstep
  obtain ⟨hreturned, hevents⟩ := hinv
  unfold Config.Returned at hreturned ⊢
  cases action with
  | invoke request =>
    rw [step_invoke_iff] at hstep
    subst hstep
    have hlt := (List.getElem?_eq_some_iff.mp hreturned).1
    exact ⟨by rw [List.getElem?_append_left hlt]; exact hreturned, hevents⟩
  | exec other =>
    obtain ⟨request', op, next, ret, s, hcall, -, rfl⟩ := step_exec_iff.mp hstep
    have hother : other ≠ caller := by
      intro hsame
      rw [hsame, hreturned] at hcall
      cases hcall
    dsimp only
    rw [List.getElem?_set_ne hother, eventsBy_snoc_other before.log hother]
    exact ⟨hreturned, hevents⟩
  | external event =>
    obtain ⟨s, -, rfl⟩ := step_external_iff.mp hstep
    exact ⟨hreturned, hevents⟩

theorem Runs.passes (hrun : m.Runs ok c c') {caller : Nat} {request request' : κ} {op : S.Op}
    {next : S.Ret op → Program S α} {value : α}
    (hcall : c.calls[caller]? = some ⟨request, .step op next⟩)
    (hreturned : c'.Returned caller request' value) :
    ∃ s d ret, m.perform op s = some (ret, d.shared) ∧ m.Runs ok c d ∧
      d.calls[caller]? = some ⟨request, next ret⟩ ∧ m.Runs ok d c' := by
  suffices hpassed : c'.calls[caller]? = some ⟨request, .step op next⟩ ∨
      ∃ s d ret, m.perform op s = some (ret, d.shared) ∧ m.Runs ok c d ∧
        d.calls[caller]? = some ⟨request, next ret⟩ ∧ m.Runs ok d c' by
    rcases hpassed with hwaiting | hpassed
    · unfold Config.Returned at hreturned
      rw [hreturned] at hwaiting
      cases hwaiting
    · exact hpassed
  clear hreturned
  induction hrun with
  | refl => exact .inl hcall
  | @tail before after action hearlier hok hstep ih =>
    rcases ih with hwaiting | ⟨s, d, ret, hperform, hto, hnext, hfrom⟩
    · have hlt := (List.getElem?_eq_some_iff.mp hwaiting).1
      cases action with
      | invoke request =>
        rw [step_invoke_iff] at hstep
        subst hstep
        exact .inl (by rw [List.getElem?_append_left hlt]; exact hwaiting)
      | exec other =>
        have hexec := hstep
        obtain ⟨request', op', next', ret, s, hother, hperform, rfl⟩ := step_exec_iff.mp hstep
        by_cases hsame : other = caller
        · subst hsame
          rw [hwaiting] at hother
          cases hother
          exact .inr ⟨before.shared, _, ret, hperform, hearlier.tail hok hexec,
            List.getElem?_set_self hlt, .refl _⟩
        · exact .inl (by dsimp only; rw [List.getElem?_set_ne hsame]; exact hwaiting)
      | external event =>
        obtain ⟨s, -, rfl⟩ := step_external_iff.mp hstep
        exact .inl hwaiting
    · exact .inr ⟨s, d, ret, hperform, hto, hnext, hfrom.tail hok hstep⟩

end Machine

end Interleaving
