import KeyVault.LockOrder

/-! Two levels of one machine: above, an operation is one step; below, it is a program that
takes locks. An operation may spread its work over several steps below if everything it has
left half done is under a lock it holds. Where every operation does so, each run below is a
run above: the calls are where they are above, and nothing is left half done of what no lock
is taken for. -/
namespace Interleaving

/-- How states below relate to states above: what always agrees, the part of both states that
a lock protects, and what is true of that part while the lock is free. -/
structure Levels (Λ σ τ : Type) where
  agrees : σ → τ → Prop
  Part : Λ → Type
  part : (l : Λ) → σ → τ → Part l
  settled : (l : Λ) → Part l → Prop

variable {Λ σ τ κ α ε : Type} {S T : Signature} [DecidableEq Λ]

def Levels.Same (k : Levels Λ σ τ) (held : List Λ) (s : σ) (t : τ) (s' : σ) (t' : τ) : Prop :=
  ∀ l ∈ held, k.part l s' t' = k.part l s t

omit [DecidableEq Λ] in
theorem Levels.same_refl (k : Levels Λ σ τ) (held : List Λ) (s : σ) (t : τ) :
    k.Same held s t s t := fun _ _ => rfl

omit [DecidableEq Λ] in
theorem Levels.same_trans (k : Levels Λ σ τ) {held : List Λ} {s s' s'' : σ} {t t' t'' : τ}
    (h : k.Same held s t s' t') (h' : k.Same held s' t' s'' t'') : k.Same held s t s'' t'' :=
  fun l hl => (h' l hl).trans (h l hl)

/-- The rest of an operation, with the answer it has given above, if it has: whatever the others
do that does not touch the parts under `held`, each step is matched above by no step or by
the operation itself. Steps that are not `quiet` are not asked to be matched. -/
def Follows (k : Levels Λ σ τ) (quiet : S.Op → Prop)
    (below : (op : S.Op) → σ → Option (S.Ret op × σ))
    (above : (op : T.Op) → τ → Option (T.Ret op × τ)) (op : T.Op) :
    List Λ → Option (T.Ret op) → Program (lockSignature Λ S) (T.Ret op) → σ → τ → Prop
  | held, answer, .done ret, _, _ => held = [] ∧ answer = some ret
  | held, answer, .step (.lock l) next, s, t => ∀ s' t', k.agrees s' t' → k.Same held s t s' t' →
      k.settled l (k.part l s' t') →
        Follows k quiet below above op (l :: held) answer (next ()) s' t'
  | held, answer, .step (.unlock l) next, s, t => ∀ s' t', k.agrees s' t' → k.Same held s t s' t' →
      k.settled l (k.part l s' t') ∧
        Follows k quiet below above op (held.erase l) answer (next ()) s' t'
  | held, answer, .step (.inner inner) next, s, t => ∀ s' t', k.agrees s' t' →
      k.Same held s t s' t' → quiet inner → ∀ ret s'', below inner s' = some (ret, s'') →
        ∃ answer' t'', ((answer' = answer ∧ t'' = t') ∨
            (answer = none ∧ ∃ out, above op t' = some (out, t'') ∧ answer' = some out)) ∧
          k.agrees s'' t'' ∧ (∀ l, l ∉ held → k.part l s'' t'' = k.part l s' t') ∧
          Follows k quiet below above op held answer' (next ret) s'' t''

variable {k : Levels Λ σ τ} {quiet : S.Op → Prop}
  {below : (op : S.Op) → σ → Option (S.Ret op × σ)}
  {above : (op : T.Op) → τ → Option (T.Ret op × τ)}

theorem Follows.later {op : T.Op} {held : List Λ} {answer : Option (T.Ret op)}
    {p : Program (lockSignature Λ S) (T.Ret op)} {s s' : σ} {t t' : τ}
    (h : Follows k quiet below above op held answer p s t) (hsame : k.Same held s t s' t') :
    Follows k quiet below above op held answer p s' t' := by
  cases p with
  | done ret => exact h
  | step first next =>
    cases first with
    | lock l => exact fun s'' t'' hagrees hlater => h s'' t'' hagrees (k.same_trans hsame hlater)
    | unlock l => exact fun s'' t'' hagrees hlater => h s'' t'' hagrees (k.same_trans hsame hlater)
    | inner inner => exact fun s'' t'' hagrees hlater => h s'' t'' hagrees (k.same_trans hsame hlater)

/-! ### Where a call stands on the two levels -/

def Program.resume {op : T.Op} (next : T.Ret op → Program T α) : Option (T.Ret op) → Program T α
  | none => .step op next
  | some out => next out

section Standing

variable (k quiet below above) (carryOut : (op : T.Op) → Program (lockSignature Λ S) (T.Ret op))

/-- What is left of a call below and above: between two operations the same, within an
operation the rest of it below, and above all of it or nothing. -/
inductive Standing (held : List Λ) (s : σ) (t : τ) :
    Program (lockSignature Λ S) α → Program T α → Prop where
  | between (rest : Program T α) (hheld : held = []) : Standing held s t (rest.expand carryOut) rest
  | within {op : T.Op} {next : T.Ret op → Program T α} {answer : Option (T.Ret op)}
      {p : Program (lockSignature Λ S) (T.Ret op)}
      (h : Follows k quiet below above op held answer p s t) :
      Standing held s t (p >>= fun ret => (next ret).expand carryOut) (.resume next answer)

def Followed : Prop :=
  ∀ op s t, k.agrees s t → Follows k quiet below above op [] none (carryOut op) s t

variable {k quiet below above carryOut} {held : List Λ} {s s' : σ} {t t' : τ}
  {p : Program (lockSignature Λ S) α} {rest : Program T α}

theorem Standing.later (h : Standing k quiet below above carryOut held s t p rest)
    (hsame : k.Same held s t s' t') : Standing k quiet below above carryOut held s' t' p rest := by
  cases h with
  | between _ hheld => exact .between rest hheld
  | within h => exact .within (h.later hsame)

theorem Standing.opened (hfollowed : Followed k quiet below above carryOut)
    (hagrees : k.agrees s t) (h : Standing k quiet below above carryOut held s t p rest) :
    (∃ value, p = .done value ∧ rest = .done value) ∨
      ∃ (op : T.Op) (next : T.Ret op → Program T α) (answer : Option (T.Ret op))
        (first : LockOp Λ S.Op)
        (later : (lockSignature Λ S).Ret first → Program (lockSignature Λ S) (T.Ret op)),
        Follows k quiet below above op held answer (.step first later) s t ∧
          p = .step first (fun ret => later ret >>= fun out => (next out).expand carryOut) ∧
          rest = .resume next answer := by
  have between : ∀ rest : Program T α, held = [] →
      (∃ value, rest.expand carryOut = .done value ∧ rest = .done value) ∨
        ∃ (op : T.Op) (next : T.Ret op → Program T α) (answer : Option (T.Ret op))
          (first : LockOp Λ S.Op)
          (later : (lockSignature Λ S).Ret first → Program (lockSignature Λ S) (T.Ret op)),
          Follows k quiet below above op held answer (.step first later) s t ∧
            rest.expand carryOut =
              .step first (fun ret => later ret >>= fun out => (next out).expand carryOut) ∧
            rest = .resume next answer := by
    rintro rest rfl
    cases rest with
    | done value => exact .inl ⟨value, rfl, rfl⟩
    | step op next =>
      have hfirst := hfollowed op s t hagrees
      show _ ∨ ∃ op' next' answer first later, _ ∧ (carryOut op >>= _) = _ ∧ _
      cases hprogram : carryOut op with
      | done ret =>
        rw [hprogram] at hfirst
        cases hfirst.2
      | step first later =>
        rw [hprogram] at hfirst
        exact .inr ⟨op, next, none, first, later, hfirst, rfl, rfl⟩
  cases h with
  | between _ hheld => exact between rest hheld
  | @within op next answer p h =>
    cases p with
    | done ret =>
      obtain ⟨hheld, rfl⟩ := h
      exact between (next ret) hheld
    | step first later => exact .inr ⟨op, next, answer, first, later, h, rfl, rfl⟩

end Standing

/-! ### Runs below are runs above -/

section Runs

variable {m : Machine T τ κ α ε} {externalBelow : ε → σ → Option σ}
  {carryOut : (op : T.Op) → Program (lockSignature Λ S) (T.Ret op)}

variable (k quiet below above carryOut) in
/-- The two levels are at one: every call stands below where it stands above, and what no lock
is taken for is settled. -/
structure Matched (c : Config (lockSignature Λ S) (Locking Λ σ) κ α) (d : Config T τ κ α) : Prop where
  agrees : k.agrees c.shared.data d.shared
  settled : ∀ l, c.shared.taken l = false → k.settled l (k.part l c.shared.data d.shared)
  length : c.calls.length = d.calls.length
  calls : ∀ (caller : ℕ) call call', c.calls[caller]? = some call → d.calls[caller]? = some call' →
    call.request = call'.request ∧ Standing k quiet below above carryOut (c.locksOf caller)
      c.shared.data d.shared call.rest call'.rest

variable {c c' : Config (lockSignature Λ S) (Locking Λ σ) κ α} {d d' : Config T τ κ α} {caller : ℕ}

theorem matched_start {s : σ} {t : τ} (hagrees : k.agrees s t)
    (hsettled : ∀ l, k.settled l (k.part l s t)) :
    Matched k quiet below above carryOut
      (unlocked s : Config (lockSignature Λ S) (Locking Λ σ) κ α) (.start t : Config T τ κ α) where
  agrees := hagrees
  settled l _ := hsettled l
  length := rfl
  calls caller call call' hcall := by simp [unlocked, Config.start] at hcall

theorem Matched.moved (h : Matched k quiet below above carryOut c d)
    {request : κ} {p p' : Program (lockSignature Λ S) α} {rest rest' : Program T α}
    (hcall : c.calls[caller]? = some ⟨request, p⟩) (hcall' : d.calls[caller]? = some ⟨request, rest⟩)
    (hagrees : k.agrees c'.shared.data d'.shared)
    (hsettled : ∀ l, c'.shared.taken l = false → k.settled l (k.part l c'.shared.data d'.shared))
    (hcalls : c'.calls = c.calls.set caller ⟨request, p'⟩)
    (hcalls' : d'.calls = d.calls.set caller ⟨request, rest'⟩)
    (hothers : ∀ other, other ≠ caller → c'.locksOf other = c.locksOf other ∧
      k.Same (c.locksOf other) c.shared.data d.shared c'.shared.data d'.shared)
    (hself : Standing k quiet below above carryOut (c'.locksOf caller)
      c'.shared.data d'.shared p' rest') :
    Matched k quiet below above carryOut c' d' := by
  refine ⟨hagrees, hsettled, ?_, ?_⟩
  · rw [hcalls, hcalls', List.length_set, List.length_set]
    exact h.length
  · intro other call call' hother hother'
    rw [hcalls] at hother
    rw [hcalls'] at hother'
    by_cases hsame : other = caller
    · subst hsame
      rw [List.getElem?_set_self (List.getElem?_eq_some_iff.mp hcall).1] at hother
      rw [List.getElem?_set_self (List.getElem?_eq_some_iff.mp hcall').1] at hother'
      cases hother
      cases hother'
      exact ⟨rfl, hself⟩
    · rw [List.getElem?_set_ne (Ne.symm hsame)] at hother hother'
      obtain ⟨hrequest, hstanding⟩ := h.calls other call call' hother hother'
      obtain ⟨hlocks, hpart⟩ := hothers other hsame
      rw [hlocks]
      exact ⟨hrequest, hstanding.later hpart⟩

theorem Matched.invoke (h : Matched k quiet below m.perform carryOut c d) (request : κ)
    (hnew : c.locksOf c.calls.length = []) :
    Matched k quiet below m.perform carryOut
      { c with calls := c.calls ++ [⟨request, (m.program request).expand carryOut⟩] }
      { d with calls := d.calls ++ [⟨request, m.program request⟩] } := by
  refine ⟨h.agrees, h.settled, ?_, ?_⟩
  · rw [List.length_append, List.length_append, h.length]
    rfl
  · intro caller call call' hcall hcall'
    dsimp only at hcall hcall'
    by_cases hold : caller < c.calls.length
    · rw [List.getElem?_append_left hold] at hcall
      rw [List.getElem?_append_left (h.length ▸ hold)] at hcall'
      exact h.calls caller call call' hcall hcall'
    · have hlt := (List.getElem?_eq_some_iff.mp hcall).1
      obtain rfl : caller = c.calls.length := by
        rw [List.length_append, List.length_singleton] at hlt
        omega
      rw [List.getElem?_concat_length] at hcall
      rw [h.length, List.getElem?_concat_length] at hcall'
      cases hcall
      cases hcall'
      exact ⟨rfl, .between _ hnew⟩

theorem Matched.found (h : Matched k quiet below above carryOut c d) {request : κ}
    {p : Program (lockSignature Λ S) α} (hcall : c.calls[caller]? = some ⟨request, p⟩) :
    ∃ rest, d.calls[caller]? = some ⟨request, rest⟩ ∧ Standing k quiet below above carryOut
      (c.locksOf caller) c.shared.data d.shared p rest := by
  have hlt : caller < d.calls.length := h.length ▸ (List.getElem?_eq_some_iff.mp hcall).1
  obtain ⟨hrequest, hstanding⟩ :=
    h.calls caller _ _ hcall (List.getElem?_eq_getElem hlt)
  refine ⟨d.calls[caller].rest, ?_, hstanding⟩
  have hsame : request = d.calls[caller].request := hrequest
  rw [List.getElem?_eq_getElem hlt, hsame]

theorem Matched.returned (hfollowed : Followed k quiet below above carryOut)
    (h : Matched k quiet below above carryOut c d) {request : κ} {value : α}
    (hreturned : c.Returned caller request value) : d.Returned caller request value := by
  obtain ⟨rest, hcall, hstanding⟩ := h.found hreturned
  rcases hstanding.opened hfollowed h.agrees with ⟨out, hdone, rfl⟩ | ⟨_, _, _, _, _, -, hstep, -⟩
  · cases hdone
    exact hcall
  · cases hstep

variable {rank : Λ → ℕ} {asks : S.Op → List Λ → Prop}

theorem Matched.exec (hfollowed : Followed k quiet below m.perform carryOut)
    (hordered : Ordered rank asks c) (hexclusive : c.Excludes)
    (h : Matched k quiet below m.perform carryOut c d)
    (hstep : (lockMachine below (fun request => (m.program request).expand carryOut)
      externalBelow).step c (.exec caller) = some c')
    (hquiet : ∀ entry ∈ c'.log, ∀ op, entry.event.op = .inner op → quiet op) :
    ∃ d', m.Reaches d d' ∧ Matched k quiet below m.perform carryOut c' d' := by
  obtain ⟨request, op, next, ret, hcall, hperform, hcalls, hlog, hlocks⟩ := lockMachine_step hstep
  obtain ⟨rest, hcall', hstanding⟩ := h.found hcall
  rcases hstanding.opened hfollowed h.agrees with
    ⟨value, hdone, -⟩ | ⟨operation, after, answer, first, later, hfollows, hsplit, rfl⟩
  · cases hdone
  cases hsplit
  have hrule := (hordered.obeys caller _ hcall).1
  have hself : c'.locksOf caller = heldAfter (c.locksOf caller) ⟨op, ret⟩ := by
    rw [hlocks, Function.update_self]
  have hothers : ∀ other, other ≠ caller → c'.locksOf other = c.locksOf other := fun other hother => by
    rw [hlocks, Function.update_of_ne hother]
  have hstays : d.calls = d.calls.set caller ⟨request, .resume after answer⟩ := by
    obtain ⟨hlt, hget⟩ := List.getElem?_eq_some_iff.mp hcall'
    rw [← hget, List.set_getElem_self]
  cases op with
  | lock l =>
    obtain ⟨hfree, hshared⟩ := perform_lock hperform
    have hdata : c'.shared.data = c.shared.data := by rw [hshared]
    have hrest := hfollows c.shared.data d.shared h.agrees (k.same_refl _ _ _) (h.settled l hfree)
    refine ⟨d, .refl d, h.moved hcall hcall' ?_ ?_ hcalls hstays ?_ ?_⟩
    · rw [hdata]
      exact h.agrees
    · intro l' hl'
      rw [hdata]
      rw [hshared] at hl'
      have hne : l' ≠ l := by
        rintro rfl
        simp at hl'
      dsimp only at hl'
      rw [Function.update_of_ne hne] at hl'
      exact h.settled l' hl'
    · intro other hother
      rw [hdata]
      exact ⟨hothers other hother, k.same_refl _ _ _⟩
    · rw [hdata, hself]
      exact .within hrest
  | unlock l =>
    obtain ⟨rfl, hshared⟩ := Prod.mk.inj (Option.some.inj hperform)
    have hdata : c'.shared.data = c.shared.data := by rw [← hshared]
    obtain ⟨hsettled, hrest⟩ := hfollows c.shared.data d.shared h.agrees (k.same_refl _ _ _)
    refine ⟨d, .refl d, h.moved hcall hcall' ?_ ?_ hcalls hstays ?_ ?_⟩
    · rw [hdata]
      exact h.agrees
    · intro l' hl'
      rw [hdata]
      rw [← hshared] at hl'
      by_cases hl : l' = l
      · rw [hl]
        exact hsettled
      · dsimp only at hl'
        rw [Function.update_of_ne hl] at hl'
        exact h.settled l' hl'
    · intro other hother
      rw [hdata]
      exact ⟨hothers other hother, k.same_refl _ _ _⟩
    · rw [hdata, hself]
      exact .within hrest
  | inner op =>
    obtain ⟨hbelow, htaken⟩ := perform_inner hperform
    have hnew : (⟨caller, request, ⟨.inner op, ret⟩⟩ : Entry (lockSignature Λ S) κ) ∈ c'.log := by
      rw [hlog]
      exact List.mem_append_right _ (List.mem_singleton.mpr rfl)
    obtain ⟨answer', t', hmoves, hagrees, houtside, hrest⟩ :=
      hfollows c.shared.data d.shared h.agrees (k.same_refl _ _ _) (hquiet _ hnew op rfl)
        ret c'.shared.data hbelow
    have hmoved : ∀ d' : Config T τ κ α, d'.shared = t' →
        d'.calls = d.calls.set caller ⟨request, .resume after answer'⟩ →
          Matched k quiet below m.perform carryOut c' d' := by
      rintro d' rfl hcalls'
      refine h.moved hcall hcall' hagrees ?_ hcalls hcalls' ?_ ?_
      · intro l hl
        rw [htaken] at hl
        have hfree : l ∉ c.locksOf caller := fun hmem => by
          rw [(hexclusive.taken l).mpr ⟨caller, hmem⟩] at hl
          cases hl
        rw [houtside l hfree]
        exact h.settled l hl
      · refine fun other hother => ⟨hothers other hother, fun l hl => houtside l fun hmem => ?_⟩
        exact hother (hexclusive.unique l other caller hl hmem)
      · rw [hself]
        exact .within hrest
    rcases hmoves with ⟨rfl, rfl⟩ | ⟨rfl, out, habove, rfl⟩
    · exact ⟨d, .refl d, hmoved d rfl hstays⟩
    · have hexec := Machine.step_exec_iff.mpr
        ⟨request, operation, after, out, t', hcall', habove, rfl⟩
      exact ⟨_, .tail (.refl d) trivial hexec, hmoved _ rfl rfl⟩

theorem matched_step (hfollowed : Followed k quiet below m.perform carryOut)
    (hexternal : ∀ event s t s', k.agrees s t → externalBelow event s = some s' →
      ∃ t', m.external event t = some t' ∧ k.agrees s' t' ∧ ∀ l, k.part l s' t' = k.part l s t)
    {action : Action κ ε} (hordered : Ordered rank asks c) (hexclusive : c.Excludes)
    (h : Matched k quiet below m.perform carryOut c d)
    (hstep : (lockMachine below (fun request => (m.program request).expand carryOut)
      externalBelow).step c action = some c')
    (hquiet : ∀ entry ∈ c'.log, ∀ op, entry.event.op = .inner op → quiet op) :
    ∃ d', m.Reaches d d' ∧ Matched k quiet below m.perform carryOut c' d' := by
  cases action with
  | invoke request =>
    rw [Machine.step_invoke_iff] at hstep
    subst hstep
    exact ⟨_, .tail (.refl d) trivial (Machine.step_invoke_iff.mpr rfl),
      h.invoke request (locksOf_new hordered)⟩
  | exec caller => exact h.exec hfollowed hordered hexclusive hstep hquiet
  | external event =>
    obtain ⟨s, hs, rfl⟩ := Machine.step_external_iff.mp hstep
    obtain ⟨data, hdata, rfl⟩ := Option.map_eq_some_iff.mp hs
    obtain ⟨t', habove, hagrees, hpart⟩ := hexternal event _ _ _ h.agrees hdata
    refine ⟨_, .tail (.refl d) trivial (Machine.step_external_iff.mpr ⟨t', habove, rfl⟩),
      hagrees, fun l hl => ?_, h.length, fun caller call call' hcall hcall' => ?_⟩
    · dsimp only
      rw [hpart l]
      exact h.settled l hl
    · obtain ⟨hrequest, hstanding⟩ := h.calls caller call call' hcall hcall'
      exact ⟨hrequest, hstanding.later fun l _ => hpart l⟩

theorem log_subset {U : Signature} {ρ : Type} {m : Machine U ρ κ α ε} {c c' : Config U ρ κ α}
    {action : Action κ ε} (hstep : m.step c action = some c') : c.log ⊆ c'.log := by
  cases action with
  | invoke request =>
    rw [Machine.step_invoke_iff] at hstep
    subst hstep
    exact List.Subset.refl _
  | exec caller =>
    obtain ⟨request, op, next, ret, s, -, -, rfl⟩ := Machine.step_exec_iff.mp hstep
    exact List.subset_append_left _ _
  | external event =>
    obtain ⟨s, -, rfl⟩ := Machine.step_external_iff.mp hstep
    exact List.Subset.refl _

theorem log_grows {U : Signature} {ρ : Type} {m : Machine U ρ κ α ε} {c c' : Config U ρ κ α}
    (hrun : m.Reaches c c') : c.log ⊆ c'.log := by
  induction hrun with
  | refl => exact List.Subset.refl _
  | tail _ _ hstep ih => exact List.Subset.trans ih (log_subset hstep)

/-- Every run below in which all steps are quiet is a run above. -/
theorem matched_run (hkeeps : ∀ op, KeepsOrder rank asks [] (carryOut op))
    (hfollowed : Followed k quiet below m.perform carryOut)
    (hexternal : ∀ event s t s', k.agrees s t → externalBelow event s = some s' →
      ∃ t', m.external event t = some t' ∧ k.agrees s' t' ∧ ∀ l, k.part l s' t' = k.part l s t)
    (hordered : Ordered rank asks c) (hexclusive : c.Excludes)
    (h : Matched k quiet below m.perform carryOut c d)
    (hrun : (lockMachine below (fun request => (m.program request).expand carryOut)
      externalBelow).Reaches c c')
    (hquiet : ∀ entry ∈ c'.log, ∀ op, entry.event.op = .inner op → quiet op) :
    ∃ d', m.Reaches d d' ∧ Matched k quiet below m.perform carryOut c' d' := by
  have hprogram : ∀ request, KeepsOrder rank asks [] ((m.program request).expand carryOut) :=
    fun request => keepsOrder_expand hkeeps _
  induction hrun with
  | refl => exact ⟨d, .refl d, h⟩
  | @tail mid last action hrun _ hstep ih =>
    have hearlier : ∀ entry ∈ mid.log, ∀ op, entry.event.op = .inner op → quiet op :=
      fun entry hentry => hquiet entry (log_subset hstep hentry)
    obtain ⟨d', hto, hmatched⟩ := ih hearlier
    obtain ⟨d'', hlast, hmatched'⟩ := matched_step hfollowed hexternal
      (ordered_run hprogram hrun hordered) (excludes_run hprogram hrun hordered hexclusive)
      hmatched hstep hquiet
    exact ⟨d'', hto.trans hlast, hmatched'⟩

end Runs

end Interleaving
