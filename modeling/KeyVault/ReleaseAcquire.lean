import Mathlib.Logic.Function.Basic
import Mathlib.Order.Lattice
import Mathlib.Order.Nat

/-! Memory under release and acquire orderings. Every write to an atomic location has a
place in the modification order of that location, and the view of a thread says how far
along each order it has seen. A load may return any write that the view does not rule
out, a store may take any free place the view has not reached, and a read-modify-write
takes the place right after the write it read. A release publishes the view of its
thread with the write; an acquire takes the published view over. Data that is not atomic
is kept as the list of its versions, one more for each access, so a view also says which
accesses happened before; a thread finds the version its view has reached. -/
namespace ReleaseAcquire

abbrev View (L : Type) := L → ℕ

inductive MemoryOrder where
  | relaxed | acquire | release | acqRel
deriving DecidableEq

def MemoryOrder.acquires : MemoryOrder → Bool
  | .acquire | .acqRel => true
  | .relaxed | .release => false

def MemoryOrder.releases : MemoryOrder → Bool
  | .release | .acqRel => true
  | .relaxed | .acquire => false

structure Message (L V : Type) where
  value : V
  view : View L

structure Memory (L V D : Type) where
  writes : L → ℕ → Option (Message L V)
  versions : L → List D

/-- What a thread knows once it has read a message. -/
def learn {L V : Type} (order : MemoryOrder) (message : Message L V) (view : View L) : View L :=
  if order.acquires then view ⊔ message.view else view

namespace Memory

variable {L V D : Type} (m : Memory L V D)

/-- Every access to `l` so far happened before: an access now is not a data race. -/
def Current (l : L) (view : View L) : Prop := view l + 1 = (m.versions l).length

theorem Current.finds_last {m : Memory L V D} {l : L} {view : View L} (h : m.Current l view) :
    (m.versions l)[view l]? = (m.versions l).getLast? := by
  rw [List.getLast?_eq_getElem?, ← h, Nat.add_sub_cancel]

variable [DecidableEq L]

def write (l : L) (place : ℕ) (message : Message L V) : Memory L V D :=
  { m with
    writes := Function.update m.writes l (Function.update (m.writes l) place (some message)) }

def load (order : MemoryOrder) (l : L) (place : ℕ) (view : View L) : Option (V × View L) :=
  (m.writes l place).bind fun message =>
    if view l ≤ place then
      some (message.value, Function.update (learn order message view) l place)
    else none

def store (order : MemoryOrder) (l : L) (value : V) (place : ℕ) (view : View L) :
    Option (View L × Memory L V D) :=
  if view l < place ∧ (m.writes l place).isNone then
    let view := Function.update view l place
    let published := if order.releases then view else Function.update (fun _ => 0) l place
    some (view, m.write l place ⟨value, published⟩)
  else none

variable [DecidableEq V]

/-- A compare-exchange that finds `expected` at `place` and succeeds. What it writes goes
on publishing what the write it read published. -/
def compareExchange (order : MemoryOrder) (l : L) (expected new : V) (place : ℕ)
    (view : View L) : Option (View L × Memory L V D) :=
  (m.writes l place).bind fun message =>
    if view l ≤ place ∧ message.value = expected ∧ (m.writes l (place + 1)).isNone then
      let view := Function.update (learn order message view) l (place + 1)
      let published := if order.releases then view ⊔ message.view else message.view
      some (view, m.write l (place + 1)
        ⟨new, Function.update published l (place + 1)⟩)
    else none

omit [DecidableEq V]

/-- An access to data that is not atomic: what the thread finds, and what it leaves. -/
def access (l : L) (f : D → D) (view : View L) : Option (D × View L × Memory L V D) :=
  ((m.versions l)[view l]?).map fun found =>
    (found, Function.update view l (m.versions l).length,
      { m with versions := Function.update m.versions l (m.versions l ++ [f found]) })

@[simp] theorem write_versions (l : L) (place : ℕ) (message : Message L V) :
    (m.write l place message).versions = m.versions := rfl

@[simp] theorem write_self (l : L) (place : ℕ) (message : Message L V) :
    (m.write l place message).writes l place = some message := by
  simp [write]

theorem write_other (l : L) {place other : ℕ} (h : other ≠ place) (message : Message L V) :
    (m.write l place message).writes l other = m.writes l other := by
  simp [write, h]

variable {m}

theorem load_eq_some {order : MemoryOrder} {l : L} {place : ℕ} {view view' : View L} {value : V} :
    m.load order l place view = some (value, view') ↔
      ∃ message, m.writes l place = some message ∧ view l ≤ place ∧ message.value = value ∧
        view' = Function.update (learn order message view) l place := by
  simp only [load, Option.bind_eq_some_iff, Option.ite_none_right_eq_some, Option.some.injEq,
    Prod.mk.injEq, eq_comm (a := view')]

theorem store_eq_some {order : MemoryOrder} {l : L} {value : V} {place : ℕ}
    {view view' : View L} {m' : Memory L V D} :
    m.store order l value place view = some (view', m') ↔
      view l < place ∧ m.writes l place = none ∧ view' = Function.update view l place ∧
        m' = m.write l place ⟨value,
          if order.releases then view' else Function.update (fun _ => 0) l place⟩ := by
  simp only [store, Option.isNone_iff_eq_none, Option.ite_none_right_eq_some, Option.some.injEq,
    Prod.mk.injEq, and_assoc]
  constructor
  · rintro ⟨hseen, hfree, rfl, rfl⟩
    exact ⟨hseen, hfree, rfl, rfl⟩
  · rintro ⟨hseen, hfree, rfl, rfl⟩
    exact ⟨hseen, hfree, rfl, rfl⟩

theorem compareExchange_eq_some [DecidableEq V] {order : MemoryOrder} {l : L} {expected new : V}
    {place : ℕ} {view view' : View L} {m' : Memory L V D} :
    m.compareExchange order l expected new place view = some (view', m') ↔
      ∃ message, m.writes l place = some message ∧ view l ≤ place ∧ message.value = expected ∧
        m.writes l (place + 1) = none ∧
        view' = Function.update (learn order message view) l (place + 1) ∧
        m' = m.write l (place + 1) ⟨new, Function.update
          (if order.releases then view' ⊔ message.view else message.view) l (place + 1)⟩ := by
  simp only [compareExchange, Option.bind_eq_some_iff, Option.isNone_iff_eq_none,
    Option.ite_none_right_eq_some, Option.some.injEq, Prod.mk.injEq, and_assoc]
  refine exists_congr fun message => ?_
  constructor
  · rintro ⟨hwrite, hseen, hvalue, hfree, rfl, rfl⟩
    exact ⟨hwrite, hseen, hvalue, hfree, rfl, rfl⟩
  · rintro ⟨hwrite, hseen, hvalue, hfree, rfl, rfl⟩
    exact ⟨hwrite, hseen, hvalue, hfree, rfl, rfl⟩

theorem access_eq_some {l : L} {f : D → D} {view view' : View L} {found : D}
    {m' : Memory L V D} :
    m.access l f view = some (found, view', m') ↔
      (m.versions l)[view l]? = some found ∧
        view' = Function.update view l (m.versions l).length ∧
        m' = { m with versions := Function.update m.versions l (m.versions l ++ [f found]) } := by
  simp only [access, Option.map_eq_some_iff, Prod.mk.injEq, eq_comm (b := view'),
    eq_comm (b := m')]
  constructor
  · rintro ⟨found', hfound, rfl, hview, hm⟩
    exact ⟨hfound, hview, hm⟩
  · rintro ⟨hfound, hview, hm⟩
    exact ⟨found, hfound, rfl, hview, hm⟩

end Memory

end ReleaseAcquire
