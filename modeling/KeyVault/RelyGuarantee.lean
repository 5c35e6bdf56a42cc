import KeyVault.Interleaving

/-! Rely and guarantee: what one call can count on while others run. A contract
says which changes by others a call tolerates before each of its operations, and
what is then true at every point of it. Checking a contract follows the program
from start to end once, as if the call ran alone among states that move as the
contract allows. -/
namespace Interleaving

variable {S : Signature} {σ κ α ε : Type}

structure Contract (S : Signature) (σ α : Type) where
  /-- What is true of the shared state whenever an operation is performed. -/
  within : σ → Prop
  /-- How others may change the state before the call performs an operation. -/
  rely : S.Op → σ → σ → Prop
  rely_refl : ∀ op s, rely op s s
  rely_trans : ∀ op s s' s'', rely op s s' → rely op s' s'' → rely op s s''
  /-- What is true where an operation is about to be performed. -/
  holds : σ → Program S α → Prop
  ends : α → Prop

namespace Contract

variable (k : Contract S σ α) (sem : (op : S.Op) → σ → Option (S.Ret op × σ))

/-- The program keeps the contract from a state on. -/
def Kept : Program S α → σ → Prop
  | .done value, _ => k.ends value
  | .step op next, s => ∀ s', k.within s' → k.rely op s s' →
      k.holds s' (.step op next) ∧ ∀ ret s'', sem op s' = some (ret, s'') → Kept (next ret) s''

variable {k} {sem}

theorem Kept.later {op : S.Op} {next : S.Ret op → Program S α} {s s' : σ}
    (h : k.Kept sem (.step op next) s) (hrely : k.rely op s s') :
    k.Kept sem (.step op next) s' := by
  intro s'' hwithin hlater
  exact h s'' hwithin (k.rely_trans op s s' s'' hrely hlater)

theorem Kept.now {op : S.Op} {next : S.Ret op → Program S α} {s : σ}
    (h : k.Kept sem (.step op next) s) (hwithin : k.within s) :
    k.holds s (.step op next) ∧
      ∀ ret s', sem op s = some (ret, s') → k.Kept sem (next ret) s' :=
  h s hwithin (k.rely_refl op s)

theorem kept_of_uses {P : S.Op → Prop} {p : Program S α} (h : p.Uses P)
    (hholds : ∀ op next s, P op → k.within s → k.holds s (.step op next))
    (hends : ∀ value, k.ends value) (s : σ) : k.Kept sem p s := by
  induction p generalizing s with
  | done value => exact hends value
  | step op next ih =>
    intro s' hwithin _
    exact ⟨hholds op next s' h.1 hwithin, fun ret s'' _ => ih ret (h.2 ret) s''⟩

end Contract

namespace Machine

variable {m : Machine S σ κ α ε} {ok : Config S σ κ α → Action κ ε → Prop}
  {c c' : Config S σ κ α}

/-- An invariant of permitted steps may be assumed at every step of a run. -/
theorem Runs.strengthen {J : Config S σ κ α → Prop} (hrun : m.Runs ok c c') (hinit : J c)
    (hstep : ∀ d action d', J d → ok d action → m.step d action = some d' → J d') :
    m.Runs (fun d action => ok d action ∧ J d) c c' ∧ J c' := by
  induction hrun with
  | refl => exact ⟨.refl _, hinit⟩
  | tail _ hok hs ih => exact ⟨.tail ih.1 ⟨hok, ih.2⟩ hs, hstep _ _ _ ih.2 hok hs⟩

theorem step_kept {k : Contract S σ α} {caller : Nat} {request : κ} {rest : Program S α}
    {action : Action κ ε} (hstep : m.step c action = some c')
    (hcall : c.calls[caller]? = some ⟨request, rest⟩) (hkept : k.Kept m.perform rest c.shared)
    (hwithin : k.within c.shared)
    (hrely : ∀ op next, rest = .step op next → action ≠ .exec caller →
      k.rely op c.shared c'.shared) :
    ∃ rest', c'.calls[caller]? = some ⟨request, rest'⟩ ∧ k.Kept m.perform rest' c'.shared := by
  have hlt := (List.getElem?_eq_some_iff.mp hcall).1
  -- a call that does not move itself keeps its program; the others are within its rely
  have hlater : action ≠ .exec caller → k.Kept m.perform rest c'.shared := by
    intro hother
    cases rest with
    | done value => exact hkept
    | step op next => exact hkept.later (hrely op next rfl hother)
  cases action with
  | invoke new =>
    rw [step_invoke_iff] at hstep
    subst hstep
    exact ⟨rest, by rw [List.getElem?_append_left hlt]; exact hcall, hlater (by simp)⟩
  | exec other =>
    obtain ⟨moved, op, next, ret, s, hother, hperform, rfl⟩ := step_exec_iff.mp hstep
    by_cases hsame : other = caller
    · subst hsame
      rw [hcall] at hother
      cases hother
      exact ⟨next ret, List.getElem?_set_self hlt, (hkept.now hwithin).2 ret s hperform⟩
    · refine ⟨rest, ?_, hlater (by simpa using hsame)⟩
      dsimp only
      rw [List.getElem?_set_ne hsame]
      exact hcall
  | external event =>
    obtain ⟨s, -, rfl⟩ := step_external_iff.mp hstep
    exact ⟨rest, hcall, hlater (by simp)⟩

theorem Runs.kept_call {k : Contract S σ α} {caller : Nat} {request : κ} {rest : Program S α}
    (hrun : m.Runs ok c c') (hwithin : ∀ d action, ok d action → k.within d.shared)
    (hrely : ∀ d action d' op next, ok d action → m.step d action = some d' →
      d.calls[caller]? = some ⟨request, .step op next⟩ → action ≠ .exec caller →
      k.rely op d.shared d'.shared)
    (hcall : c.calls[caller]? = some ⟨request, rest⟩) (hkept : k.Kept m.perform rest c.shared) :
    ∃ rest', c'.calls[caller]? = some ⟨request, rest'⟩ ∧ k.Kept m.perform rest' c'.shared := by
  apply hrun.invariant (I := fun d => ∃ rest', d.calls[caller]? = some ⟨request, rest'⟩ ∧
    k.Kept m.perform rest' d.shared) ⟨rest, hcall, hkept⟩
  intro d action d' hinv hok hstep
  obtain ⟨rest', hcall', hkept'⟩ := hinv
  apply step_kept hstep hcall' hkept' (hwithin d action hok)
  intro op next hrest hother
  rw [hrest] at hcall'
  exact hrely d action d' op next hok hstep hcall' hother

/-- Every call keeps the contract of its request. -/
theorem Runs.kept {k : κ → Contract S σ α} (hrun : m.Runs ok c c')
    (hwithin : ∀ d action request, ok d action → (k request).within d.shared)
    (hrely : ∀ d action d' caller request op next, ok d action → m.step d action = some d' →
      d.calls[caller]? = some ⟨request, .step op next⟩ → action ≠ .exec caller →
      (k request).rely op d.shared d'.shared)
    (hprogram : ∀ d request, ok d (.invoke request) →
      (k request).Kept m.perform (m.program request) d.shared)
    (hstart : ∀ (caller : Nat) (call : Activation S κ α), c.calls[caller]? = some call →
      (k call.request).Kept m.perform call.rest c.shared) :
    ∀ (caller : Nat) (call : Activation S κ α), c'.calls[caller]? = some call →
      (k call.request).Kept m.perform call.rest c'.shared := by
  apply hrun.invariant (I := fun d => ∀ (caller : Nat) (call : Activation S κ α),
    d.calls[caller]? = some call → (k call.request).Kept m.perform call.rest d.shared) hstart
  intro d action d' hinv hok hstep caller call hcall
  by_cases hold : caller < d.calls.length
  · obtain ⟨⟨request, rest⟩, hbefore⟩ : ∃ old, d.calls[caller]? = some old :=
      ⟨_, List.getElem?_eq_getElem hold⟩
    obtain ⟨rest', hcall', hkept'⟩ := step_kept hstep hbefore (hinv caller _ hbefore)
      (hwithin d action request hok) fun op next hrest hother => by
        rw [hrest] at hbefore
        exact hrely d action d' caller request op next hok hstep hbefore hother
    rw [hcall] at hcall'
    cases hcall'
    exact hkept'
  · -- the call has just begun
    cases action with
    | invoke request =>
      rw [step_invoke_iff] at hstep
      subst hstep
      rw [List.getElem?_append_right (by omega), List.getElem?_singleton] at hcall
      split at hcall
      · cases hcall
        exact hprogram d request hok
      · cases hcall
    | exec other =>
      obtain ⟨request, op, next, ret, s, -, -, rfl⟩ := step_exec_iff.mp hstep
      have hlt := (List.getElem?_eq_some_iff.mp hcall).1
      rw [List.length_set] at hlt
      exact absurd hlt hold
    | external event =>
      obtain ⟨s, -, rfl⟩ := step_external_iff.mp hstep
      exact absurd (List.getElem?_eq_some_iff.mp hcall).1 hold

end Machine

end Interleaving
