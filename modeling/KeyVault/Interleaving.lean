import Mathlib.Algebra.Ring.Nat
import Mathlib.Data.List.Basic

/-! Programs as trees of atomic operations, run alone or interleaved. A program
performs one operation of a signature at a time and continues with the answer.
The same tree is executed from start to end by `Program.run` and shared between
any number of concurrent calls by `Machine.step`, so sequential and concurrent
results are about one definition of each call. -/
namespace Interleaving

structure Signature where
  Op : Type
  Ret : Op → Type

inductive Program (S : Signature) (α : Type) where
  | done (value : α)
  | step (op : S.Op) (next : S.Ret op → Program S α)

structure Event (S : Signature) where
  op : S.Op
  ret : S.Ret op

namespace Program

variable {S : Signature} {α β γ σ : Type}

protected def bind : Program S α → (α → Program S β) → Program S β
  | .done value, f => f value
  | .step op next, f => .step op fun ret => (next ret).bind f

instance : Monad (Program S) where
  pure := .done
  bind := .bind

def perform (op : S.Op) : Program S (S.Ret op) := .step op .done

def next? : Program S α → Option S.Op
  | .done _ => none
  | .step op _ => some op

def result? : Program S α → Option α
  | .done value => some value
  | .step _ _ => none

@[simp] theorem pure_eq (value : α) : (pure value : Program S α) = .done value := rfl

@[simp] theorem done_bind (value : α) (f : α → Program S β) :
    (.done value : Program S α) >>= f = f value := rfl

@[simp] theorem step_bind (op : S.Op) (next : S.Ret op → Program S α)
    (f : α → Program S β) :
    (.step op next : Program S α) >>= f = .step op fun ret => next ret >>= f := rfl

protected theorem bind_assoc (p : Program S α) (f : α → Program S β) (g : β → Program S γ) :
    p >>= f >>= g = p >>= fun value => f value >>= g := by
  induction p with
  | done value => rfl
  | step op next ih => exact congrArg (Program.step op) (funext ih)

@[simp] theorem perform_bind (op : S.Op) (f : S.Ret op → Program S β) :
    (perform op : Program S (S.Ret op)) >>= f = .step op f := rfl

/-- Execute a program alone. An operation may have no outcome (the process is
gone); then the execution has none either. -/
def run (sem : (op : S.Op) → σ → Option (S.Ret op × σ)) :
    Program S α → σ → Option (α × σ)
  | .done value, s => some (value, s)
  | .step op next, s => (sem op s).bind fun out => (next out.1).run sem out.2

variable {sem : (op : S.Op) → σ → Option (S.Ret op × σ)}

@[simp] theorem run_done (value : α) (s : σ) :
    (.done value : Program S α).run sem s = some (value, s) := rfl

@[simp] theorem run_step (op : S.Op) (next : S.Ret op → Program S α) (s : σ) :
    (Program.step op next).run sem s =
      (sem op s).bind fun out => (next out.1).run sem out.2 := rfl

@[simp] theorem run_perform (op : S.Op) (s : σ) :
    (perform op : Program S (S.Ret op)).run sem s = sem op s := by
  cases h : sem op s <;> simp [perform, h]

theorem run_bind (p : Program S α) (f : α → Program S β) (s : σ) :
    (p >>= f).run sem s = (p.run sem s).bind fun out => (f out.1).run sem out.2 := by
  induction p generalizing s with
  | done value => rfl
  | step op next ih => simp [ih, Option.bind_assoc]

def Uses (P : S.Op → Prop) : Program S α → Prop
  | .done _ => True
  | .step op next => P op ∧ ∀ ret, (next ret).Uses P

theorem Uses.mono {P Q : S.Op → Prop} {p : Program S α} (h : p.Uses P)
    (himp : ∀ op, P op → Q op) : p.Uses Q := by
  induction p with
  | done value => trivial
  | step op next ih => exact ⟨himp op h.1, fun ret => ih ret (h.2 ret)⟩

theorem uses_of_forall {P : S.Op → Prop} (h : ∀ op, P op) (p : Program S α) : p.Uses P := by
  induction p with
  | done value => trivial
  | step op next ih => exact ⟨h op, ih⟩

theorem uses_bind {P : S.Op → Prop} {p : Program S α} {f : α → Program S β}
    (hp : p.Uses P) (hf : ∀ value, (f value).Uses P) : (p >>= f).Uses P := by
  induction p with
  | done value => exact hf value
  | step op next ih => exact ⟨hp.1, fun ret => ih ret (hp.2 ret)⟩

theorem Uses.run_invariant {P : S.Op → Prop} {I : σ → Prop} {p : Program S α} (h : p.Uses P)
    (hop : ∀ op s ret s', P op → I s → sem op s = some (ret, s') → I s') {s s' : σ} {value : α}
    (hs : I s) (hrun : p.run sem s = some (value, s')) : I s' := by
  induction p generalizing s with
  | done result =>
    cases hrun
    exact hs
  | step op next ih =>
    obtain ⟨⟨ret, mid⟩, hfirst, hrest⟩ := Option.bind_eq_some_iff.mp hrun
    exact ih ret (h.2 ret) (hop op s ret mid h.1 hs hfirst) hrest

/-- Executions from two states that no operation of the program tells apart: if
every operation answers the same and leads to states of the same kind, so does the
program. -/
theorem Uses.run_related {P : S.Op → Prop} {R : σ → σ → Prop} {p : Program S α} (huses : p.Uses P)
    (hop : ∀ op s t ret s', P op → R s t → sem op s = some (ret, s') →
      ∃ t', sem op t = some (ret, t') ∧ R s' t')
    {s t s' : σ} {value : α} (h : R s t) (hrun : p.run sem s = some (value, s')) :
    ∃ t', p.run sem t = some (value, t') ∧ R s' t' := by
  induction p generalizing s t with
  | done result =>
    cases hrun
    exact ⟨t, rfl, h⟩
  | step op next ih =>
    obtain ⟨⟨ret, mid⟩, hfirst, hrest⟩ := Option.bind_eq_some_iff.mp hrun
    obtain ⟨mid', hfirst', hmid⟩ := hop op s t ret mid huses.1 h hfirst
    obtain ⟨t', hrest', hafter⟩ := ih ret (huses.2 ret) hmid hrest
    refine ⟨t', ?_, hafter⟩
    rw [run_step, hfirst']
    exact hrest'

theorem Uses.run_total {P : S.Op → Prop} {p : Program S α} (h : p.Uses P)
    (hop : ∀ op s, P op → ∃ out, sem op s = some out) (s : σ) : ∃ out, p.run sem s = some out := by
  induction p generalizing s with
  | done value => exact ⟨(value, s), rfl⟩
  | step op next ih =>
    obtain ⟨out, hfirst⟩ := hop op s h.1
    rw [run_step, hfirst]
    exact ih out.1 (h.2 out.1) out.2

end Program

theorem foldlM_invariant {σ α : Type} {step : σ → α → Option σ} {I : σ → Prop}
    (hstep : ∀ s action s', I s → step s action = some s' → I s') {actions : List α} {s s' : σ}
    (hs : I s) (hrun : actions.foldlM step s = some s') : I s' := by
  induction actions generalizing s with
  | nil =>
    cases hrun
    exact hs
  | cons action actions ih =>
    rw [List.foldlM_cons] at hrun
    obtain ⟨next, hnext, hrest⟩ := Option.bind_eq_some_iff.mp hrun
    exact ih (hstep s action next hs hnext) hrest

/-- How operations act on the shared state, which program a request starts, and
what the surroundings may do to the shared state between two operations. -/
structure Machine (S : Signature) (σ κ α ε : Type) where
  perform : (op : S.Op) → σ → Option (S.Ret op × σ)
  program : κ → Program S α
  external : ε → σ → Option σ

/-- A call in progress: what was asked and what is left to do. -/
structure Activation (S : Signature) (κ α : Type) where
  request : κ
  rest : Program S α

structure Entry (S : Signature) (κ : Type) where
  caller : Nat
  request : κ
  event : Event S

/-- The shared state, every call made so far (finished ones included) and the
operations performed so far, oldest first. -/
structure Config (S : Signature) (σ κ α : Type) where
  shared : σ
  calls : List (Activation S κ α)
  log : List (Entry S κ)

inductive Action (κ ε : Type) where
  | invoke (request : κ)
  | exec (caller : Nat)
  | external (event : ε)

namespace Config

variable {S : Signature} {σ κ α : Type}

def start (s : σ) : Config S σ κ α := ⟨s, [], []⟩

def total (c : Config S σ κ α) (weight : Activation S κ α → Nat) : Nat :=
  (c.calls.map weight).sum

def results (c : Config S σ κ α) : List (Option α) := c.calls.map (·.rest.result?)

theorem sum_map_set {β : Type} (weight : β → Nat) {items : List β} {position : Nat} {old : β}
    (h : items[position]? = some old) (new : β) :
    ((items.set position new).map weight).sum + weight old =
      (items.map weight).sum + weight new := by
  induction items generalizing position with
  | nil => simp at h
  | cons item items ih =>
    cases position with
    | zero =>
      simp only [List.getElem?_cons_zero, Option.some.injEq] at h
      subst h
      simp only [List.set_cons_zero, List.map_cons, List.sum_cons]
      omega
    | succ position =>
      simp only [List.getElem?_cons_succ] at h
      have hrest := ih h
      simp only [List.set_cons_succ, List.map_cons, List.sum_cons]
      omega

def Returned (c : Config S σ κ α) (caller : Nat) (request : κ) (value : α) : Prop :=
  c.calls[caller]? = some ⟨request, .done value⟩

end Config

namespace Machine

variable {S : Signature} {σ κ α ε : Type} (m : Machine S σ κ α ε)

/-- One scheduling choice: a new call begins, a call performs its next
operation, or the surroundings act. -/
def step (c : Config S σ κ α) : Action κ ε → Option (Config S σ κ α)
  | .invoke request =>
      some { c with calls := c.calls ++ [⟨request, m.program request⟩] }
  | .exec caller =>
      match c.calls[caller]? with
      | some ⟨request, .step op next⟩ =>
          (m.perform op c.shared).map fun out =>
            { shared := out.2
              calls := c.calls.set caller ⟨request, next out.1⟩
              log := c.log ++ [⟨caller, request, ⟨op, out.1⟩⟩] }
      | _ => none
  | .external event => (m.external event c.shared).map fun s => { c with shared := s }

def follow (c : Config S σ κ α) (schedule : List (Action κ ε)) : Option (Config S σ κ α) :=
  schedule.foldlM m.step c

/-- `Runs ok c c'`: some schedule leads from `c` to `c'`, and every choice in it
meets `ok` in the configuration where it is made. -/
inductive Runs (ok : Config S σ κ α → Action κ ε → Prop) :
    Config S σ κ α → Config S σ κ α → Prop where
  | refl (c : Config S σ κ α) : Runs ok c c
  | tail {c c' c'' : Config S σ κ α} {action : Action κ ε} :
      Runs ok c c' → ok c' action → m.step c' action = some c'' → Runs ok c c''

def followWhile (ok : Config S σ κ α → Action κ ε → Prop) [∀ c, DecidablePred (ok c)]
    (c : Config S σ κ α) (schedule : List (Action κ ε)) : Option (Config S σ κ α) :=
  schedule.foldlM (fun c action => if ok c action then m.step c action else none) c

abbrev Reaches : Config S σ κ α → Config S σ κ α → Prop := m.Runs fun _ _ => True

variable {m} {ok : Config S σ κ α → Action κ ε → Prop} {c c' c'' : Config S σ κ α}

theorem Runs.mono {ok' : Config S σ κ α → Action κ ε → Prop} (h : m.Runs ok c c')
    (himp : ∀ c action, ok c action → ok' c action) : m.Runs ok' c c' := by
  induction h with
  | refl => exact .refl _
  | tail _ hok hstep ih => exact .tail ih (himp _ _ hok) hstep

theorem Runs.reaches (h : m.Runs ok c c') : m.Reaches c c' :=
  h.mono fun _ _ _ => trivial

theorem Runs.trans (h : m.Runs ok c c') (h' : m.Runs ok c' c'') : m.Runs ok c c'' := by
  induction h' with
  | refl => exact h
  | tail _ hok hstep ih => exact .tail ih hok hstep

theorem followWhile_runs [∀ c, DecidablePred (ok c)] {schedule : List (Action κ ε)}
    (h : m.followWhile ok c schedule = some c') : m.Runs ok c c' := by
  induction schedule generalizing c with
  | nil =>
    cases h
    exact .refl _
  | cons action schedule ih =>
    simp only [followWhile, List.foldlM_cons, Option.bind_eq_bind, Option.bind_eq_some_iff] at h
    obtain ⟨next, hstep, hrest⟩ := h
    split at hstep
    · rename_i hok
      exact (Runs.tail (.refl c) hok hstep).trans (ih hrest)
    · cases hstep

theorem follow_reaches {schedule : List (Action κ ε)} (h : m.follow c schedule = some c') :
    m.Reaches c c' := by
  induction schedule generalizing c with
  | nil =>
    cases h
    exact .refl _
  | cons action schedule ih =>
    simp only [follow, List.foldlM_cons, Option.bind_eq_bind, Option.bind_eq_some_iff] at h
    obtain ⟨next, hstep, hrest⟩ := h
    exact (Runs.tail (.refl c) trivial hstep).trans (ih hrest)

/-- The invariant rule: what holds at the start and survives every permitted
step holds in every configuration of a permitted run. -/
theorem Runs.invariant {I : Config S σ κ α → Prop} (h : m.Runs ok c c') (hinit : I c)
    (hstep : ∀ c action c', I c → ok c action → m.step c action = some c' → I c') :
    I c' := by
  induction h with
  | refl => exact hinit
  | tail _ hok hs ih => exact hstep _ _ _ ih hok hs

theorem step_exec_iff {caller : Nat} :
    m.step c (.exec caller) = some c' ↔
      ∃ request op next ret s, c.calls[caller]? = some ⟨request, .step op next⟩ ∧
        m.perform op c.shared = some (ret, s) ∧
        c' = { shared := s
               calls := c.calls.set caller ⟨request, next ret⟩
               log := c.log ++ [⟨caller, request, ⟨op, ret⟩⟩] } := by
  constructor
  · intro h
    simp only [step] at h
    split at h
    · rename_i request op next hcall
      obtain ⟨⟨ret, s⟩, hperform, rfl⟩ := Option.map_eq_some_iff.mp h
      exact ⟨request, op, next, ret, s, hcall, hperform, rfl⟩
    · cases h
  · rintro ⟨request, op, next, ret, s, hcall, hperform, rfl⟩
    simp only [step, hcall, hperform, Option.map_some]

theorem step_invoke_iff {request : κ} :
    m.step c (.invoke request) = some c' ↔
      c' = { c with calls := c.calls ++ [⟨request, m.program request⟩] } := by
  simp [step, eq_comm]

theorem step_external_iff {event : ε} :
    m.step c (.external event) = some c' ↔
      ∃ s, m.external event c.shared = some s ∧ c' = { c with shared := s } := by
  simp only [step, Option.map_eq_some_iff, eq_comm (a := c')]

theorem reaches_of_run {caller : Nat} {request : κ} {p : Program S α} {value : α} {s : σ}
    (hcall : c.calls[caller]? = some ⟨request, p⟩)
    (hrun : p.run m.perform c.shared = some (value, s)) :
    ∃ c', m.Reaches c c' ∧ c'.shared = s := by
  induction p generalizing c with
  | done result =>
    cases hrun
    exact ⟨c, .refl c, rfl⟩
  | step op next ih =>
    obtain ⟨⟨ret, mid⟩, hfirst, hrest⟩ := Option.bind_eq_some_iff.mp hrun
    have hstep := step_exec_iff.mpr ⟨request, op, next, ret, mid, hcall, hfirst, rfl⟩
    have hlt := (List.getElem?_eq_some_iff.mp hcall).1
    obtain ⟨c', hreaches, hshared⟩ := ih ret
      (c := ⟨mid, c.calls.set caller ⟨request, next ret⟩,
        c.log ++ [⟨caller, request, ⟨op, ret⟩⟩]⟩) (List.getElem?_set_self hlt) hrest
    exact ⟨c', (Runs.tail (.refl c) trivial hstep).trans hreaches, hshared⟩

end Machine

end Interleaving
