import KeyVault.Interleaving
import Mathlib.Data.List.Forall2

/-! Two runs side by side. Two results agree when both are related values or both are
the same failure; two programs are in lockstep when they ask related questions and
stay in lockstep on related answers. If a machine answers related questions alike,
then related schedules keep whole configurations related, whatever is interleaved. -/
namespace Lockstep

section Agrees

variable {ε α β γ δ : Type}

/-- Both end alike: with related values, or with the same failure. -/
def Agrees (R : α → β → Prop) : Except ε α → Except ε β → Prop
  | .ok value, .ok value' => R value value'
  | .error exit, .error exit' => exit = exit'
  | _, _ => False

variable {R : α → β → Prop} {x : Except ε α} {y : Except ε β}

theorem Agrees.mono {Q : α → β → Prop} (h : Agrees R x y) (himp : ∀ a b, R a b → Q a b) :
    Agrees Q x y := by
  cases x <;> cases y <;> first | exact himp _ _ h | exact h

theorem Agrees.cases (h : Agrees R x y) :
    (∃ exit, x = .error exit ∧ y = .error exit) ∨ ∃ a b, x = .ok a ∧ y = .ok b ∧ R a b := by
  cases x with
  | error exit =>
    cases y with
    | error exit' => exact .inl ⟨exit, rfl, congrArg _ (Eq.symm h)⟩
    | ok value' => exact h.elim
  | ok value =>
    cases y with
    | error exit' => exact h.elim
    | ok value' => exact .inr ⟨value, value', rfl, rfl, h⟩

theorem agrees_of_eq {R : α → α → Prop} (hrefl : ∀ a, R a a) {x y : Except ε α} (h : x = y) :
    Agrees R x y := by
  subst h
  cases x with
  | error exit => exact rfl
  | ok value => exact hrefl value

theorem agrees_eq {x y : Except ε α} (h : Agrees Eq x y) : x = y := by
  cases x <;> cases y <;> first | exact congrArg _ h | exact h.elim

theorem Agrees.bind {Q : γ → δ → Prop} (h : Agrees R x y) {f : α → Except ε γ} {g : β → Except ε δ}
    (hf : ∀ a b, R a b → Agrees Q (f a) (g b)) : Agrees Q (x >>= f) (y >>= g) := by
  cases x <;> cases y <;> first | exact hf _ _ h | exact h.elim | exact h

theorem agrees_bind {Q : γ → δ → Prop} (x : Except ε α) {f : α → Except ε γ} {g : α → Except ε δ}
    (hf : ∀ a, x = .ok a → Agrees Q (f a) (g a)) : Agrees Q (x >>= f) (x >>= g) := by
  cases x with
  | error exit => exact rfl
  | ok value => exact hf value rfl

theorem Agrees.map {Q : γ → δ → Prop} (h : Agrees R x y) {f : α → γ} {g : β → δ}
    (hf : ∀ a b, R a b → Q (f a) (g b)) : Agrees Q (x.map f) (y.map g) := by
  cases x <;> cases y <;> first | exact hf _ _ h | exact h

end Agrees

section Lists

variable {α β : Type} {R : α → β → Prop} {xs : List α} {ys : List β}

theorem rel_getElem? (h : List.Forall₂ R xs ys) (position : Nat) :
    Option.Rel R xs[position]? ys[position]? := by
  induction h generalizing position with
  | nil => exact .none
  | cons hhead _ ih =>
    cases position with
    | zero => exact .some hhead
    | succ position => exact ih position

theorem forall₂_set (h : List.Forall₂ R xs ys) (position : Nat) {a : α} {b : β} (hab : R a b) :
    List.Forall₂ R (xs.set position a) (ys.set position b) := by
  induction h generalizing position with
  | nil => exact .nil
  | cons hhead htail ih =>
    cases position with
    | zero => exact .cons hab htail
    | succ position => exact .cons hhead (ih position)

theorem rel_map {γ δ : Type} {Q : γ → δ → Prop} {x : Option α} {y : Option β} (h : Option.Rel R x y)
    {f : α → γ} {g : β → δ} (hf : ∀ a b, R a b → Q (f a) (g b)) :
    Option.Rel Q (x.map f) (y.map g) := by
  cases h with
  | none => exact .none
  | some hab => exact .some (hf _ _ hab)

theorem forall₂_snoc (h : List.Forall₂ R xs ys) {a : α} {b : β} (hab : R a b) :
    List.Forall₂ R (xs ++ [a]) (ys ++ [b]) :=
  List.rel_append h (.cons hab .nil)

end Lists

end Lockstep

namespace Interleaving

open Lockstep

/-- Which questions and which answered questions look alike. -/
structure Likeness (S : Signature) where
  op : S.Op → S.Op → Prop
  event : Event S → Event S → Prop

variable {S : Signature} {σ κ α β γ δ ε : Type} {like : Likeness S}

def Likeness.Open (like : Likeness S) (op : S.Op) : Prop :=
  like.op op op ∧ ∀ ret ret', like.event ⟨op, ret⟩ ⟨op, ret'⟩ → ret = ret'

namespace Program

/-- The programs ask alike, and after answers that look alike they still do. -/
def InStep (like : Likeness S) (R : α → β → Prop) : Program S α → Program S β → Prop
  | .done value, .done value' => R value value'
  | .step op next, .step op' next' =>
      like.op op op' ∧ ∀ ret ret', like.event ⟨op, ret⟩ ⟨op', ret'⟩ →
        InStep like R (next ret) (next' ret')
  | _, _ => False

variable {R : α → β → Prop} {p : Program S α} {q : Program S β}

theorem inStep_bind {Q : γ → δ → Prop} (h : InStep like R p q) {f : α → Program S γ}
    {g : β → Program S δ} (hf : ∀ a b, R a b → InStep like Q (f a) (g b)) :
    InStep like Q (p >>= f) (q >>= g) := by
  induction p generalizing q with
  | done value =>
    cases q with
    | done value' => exact hf _ _ h
    | step op' next' => exact h.elim
  | step op next ih =>
    cases q with
    | done value' => exact h.elim
    | step op' next' => exact ⟨h.1, fun ret ret' halike => ih ret (h.2 ret ret' halike)⟩

theorem inStep_self {R : α → α → Prop} (hrefl : ∀ a, R a a) {p : Program S α}
    (h : p.Uses like.Open) : InStep like R p p := by
  induction p with
  | done value => exact hrefl value
  | step op next ih =>
    obtain ⟨⟨hop, hret⟩, hnext⟩ := h
    refine ⟨hop, fun ret ret' halike => ?_⟩
    rw [← hret ret ret' halike]
    exact ih ret (hnext ret)

theorem inStep_shared {Q : γ → δ → Prop} {p : Program S α} (h : p.Uses like.Open)
    {f : α → Program S γ} {g : α → Program S δ} (hf : ∀ a, InStep like Q (f a) (g a)) :
    InStep like Q (p >>= f) (p >>= g) := by
  have hself : InStep like Eq p p := inStep_self (fun _ => rfl) h
  apply inStep_bind hself
  rintro a _ rfl
  exact hf a

end Program

inductive Action.Alike (R : κ → κ → Prop) : Action κ ε → Action κ ε → Prop
  | invoke {first second : κ} (h : R first second) : Alike R (.invoke first) (.invoke second)
  | exec (caller : Nat) : Alike R (.exec caller) (.exec caller)
  | external (event : ε) : Alike R (.external event) (.external event)

namespace Machine

open Program

/-- Two machines that answer alike over related states, and whose programs for related
requests are in step. -/
structure Pairing (like : Likeness S) (m m' : Machine S σ κ α ε) where
  state : σ → σ → Prop
  request : κ → κ → Prop
  response : α → α → Prop
  perform : ∀ {op op' s s'}, like.op op op' → state s s' →
    Option.Rel (fun out out' => like.event ⟨op, out.1⟩ ⟨op', out'.1⟩ ∧ state out.2 out'.2)
      (m.perform op s) (m'.perform op' s')
  program : ∀ {first second}, request first second →
    InStep like response (m.program first) (m'.program second)
  external : ∀ event {s s'}, state s s' →
    Option.Rel state (m.external event s) (m'.external event s')

variable {m m' : Machine S σ κ α ε}

namespace Pairing

structure Calls (pairing : Pairing like m m') (call call' : Activation S κ α) : Prop where
  request : pairing.request call.request call'.request
  rest : InStep like pairing.response call.rest call'.rest

structure Entries (pairing : Pairing like m m') (entry entry' : Entry S κ) : Prop where
  caller : entry.caller = entry'.caller
  request : pairing.request entry.request entry'.request
  event : like.event entry.event entry'.event

structure Configs (pairing : Pairing like m m') (c d : Config S σ κ α) : Prop where
  shared : pairing.state c.shared d.shared
  calls : List.Forall₂ pairing.Calls c.calls d.calls
  log : List.Forall₂ pairing.Entries c.log d.log

variable {pairing : Pairing like m m'} {c d : Config S σ κ α}

theorem configs_start {s s' : σ} (h : pairing.state s s') :
    pairing.Configs (Config.start s) (Config.start s') := ⟨h, .nil, .nil⟩

theorem Configs.exec (h : pairing.Configs c d) (caller : Nat) :
    Option.Rel pairing.Configs (m.step c (.exec caller)) (m'.step d (.exec caller)) := by
  have hcalls := rel_getElem? h.calls caller
  unfold Machine.step
  dsimp only
  generalize c.calls[caller]? = call at hcalls
  generalize d.calls[caller]? = call' at hcalls
  cases hcalls with
  | none => exact .none
  | @some call call' hcall =>
    obtain ⟨request, rest⟩ := call
    obtain ⟨request', rest'⟩ := call'
    have hrest := hcall.rest
    cases rest with
    | done value =>
      cases rest' with
      | done value' => exact .none
      | step op' next' => exact hrest.elim
    | step op next =>
      cases rest' with
      | done value' => exact hrest.elim
      | step op' next' =>
        refine rel_map (pairing.perform hrest.1 h.shared) fun out out' hout => ?_
        obtain ⟨hevent, hstate⟩ := hout
        exact ⟨hstate, forall₂_set h.calls caller ⟨hcall.request, hrest.2 _ _ hevent⟩,
          forall₂_snoc h.log ⟨rfl, hcall.request, hevent⟩⟩

/-- One choice keeps configurations alike; it is possible on both sides or on neither. -/
theorem Configs.step (h : pairing.Configs c d) {action action' : Action κ ε}
    (haction : action.Alike pairing.request action') :
    Option.Rel pairing.Configs (m.step c action) (m'.step d action') := by
  cases haction with
  | invoke hrequest =>
    exact .some ⟨h.shared, forall₂_snoc h.calls ⟨hrequest, pairing.program hrequest⟩, h.log⟩
  | exec caller => exact h.exec caller
  | external event =>
    exact rel_map (pairing.external event h.shared) fun _ _ hstate => ⟨hstate, h.calls, h.log⟩

theorem Configs.follow (h : pairing.Configs c d) {schedule schedule' : List (Action κ ε)}
    (hschedule : List.Forall₂ (Action.Alike pairing.request) schedule schedule') :
    Option.Rel pairing.Configs (m.follow c schedule) (m'.follow d schedule') := by
  induction hschedule generalizing c d with
  | nil => exact .some h
  | @cons action action' schedule schedule' haction _ ih =>
    have hstep := h.step haction
    unfold Machine.follow at ih ⊢
    rw [List.foldlM_cons, List.foldlM_cons]
    generalize m.step c action = next at hstep ⊢
    generalize m'.step d action' = next' at hstep ⊢
    cases hstep with
    | none => exact .none
    | some hnext => exact ih hnext

theorem Configs.returned (h : pairing.Configs c d) {caller : Nat} {request : κ} {response : α}
    (hreturned : c.Returned caller request response) :
    ∃ request' response', d.Returned caller request' response' ∧ pairing.request request request' ∧
      pairing.response response response' := by
  have hcalls := rel_getElem? h.calls caller
  unfold Config.Returned at hreturned
  rw [hreturned] at hcalls
  generalize hcall' : d.calls[caller]? = call' at hcalls
  cases hcalls with
  | @some _ call' hcall =>
    obtain ⟨request', rest'⟩ := call'
    have hrest := hcall.rest
    cases rest' with
    | done response' => exact ⟨request', response', hcall', hcall.request, hrest⟩
    | step op' next' => exact hrest.elim

end Pairing

end Machine

end Interleaving
