import KeyVault.Ledger
import KeyVault.SpinMutex
import KeyVault.VaultState

/-! What builds without `std` keep behind the spin lock: the registry cell, and the counter
of handle identifiers on targets without 64-bit atomics. -/
namespace KeyVault

open Interleaving

/-! ### Critical sections one after the other -/

/-- Sections done in a row from one value to another, with what they return. -/
inductive Serial {V R : Type} : V → List (CriticalSection V R × R) → V → Prop where
  | nil (value : V) : Serial value [] value
  | snoc {first value value' : V} {done : List (CriticalSection V R × R)}
      {body : CriticalSection V R} {result : R} (h : Serial first done value)
      (hbody : body.run value = some (result, value')) :
      Serial first (done ++ [(body, result)]) value'

def broughtBack {V R : Type}
    (call : Activation (sectionSignature V R) (CriticalSection V R) R) :
    List (CriticalSection V R × R) :=
  (call.rest.result?.map fun result => (call.request, result)).toList

structure InSeries {V R : Type} (start : V)
    (c : Config (sectionSignature V R) V (CriticalSection V R) R) : Prop where
  done : ∃ done, Serial start done c.shared ∧ (c.calls.flatMap broughtBack).Perm done
  waiting : ∀ call ∈ c.calls, call.rest.result? = none →
    call.rest = Program.perform (S := sectionSignature V R) call.request

variable {V R : Type}

theorem inSeries_run {start : V} {c : Config (sectionSignature V R) V (CriticalSection V R) R}
    (h : (atomicSections V R).Reaches (.start start) c) : InSeries start c := by
  apply h.invariant (I := InSeries start) ⟨⟨[], .nil start, .refl _⟩, nofun⟩
  intro c action c' hseries _ hstep
  cases action with
  | invoke request =>
    rw [Machine.step_invoke_iff] at hstep
    subst hstep
    refine ⟨?_, fun call hmem hnone => ?_⟩
    · obtain ⟨done, hserial, hperm⟩ := hseries.done
      refine ⟨done, hserial, ?_⟩
      rw [List.flatMap_append]
      simpa [broughtBack, atomicSections, Program.perform, Program.result?] using hperm
    · rcases List.mem_append.mp hmem with hold | hnew
      · exact hseries.waiting call hold hnone
      · obtain rfl := List.mem_singleton.mp hnew
        rfl
  | exec caller =>
    obtain ⟨request, op, next, ret, s, hcall, hperform, rfl⟩ := Machine.step_exec_iff.mp hstep
    -- the section of a call is its only operation
    obtain ⟨rfl, hnext⟩ :=
      Program.step.inj (hseries.waiting _ (List.mem_of_getElem? hcall) rfl)
    have hback : next ret = .done ret := congrFun (eq_of_heq hnext) ret
    rw [hback]
    obtain ⟨done, hserial, hperm⟩ := hseries.done
    refine ⟨⟨done ++ [(op, ret)], hserial.snoc hperform, ?_⟩, fun call hmem hnone => ?_⟩
    · have hbefore := Ledger.perm_flatMap_getElem? hcall broughtBack
      have hafter := Ledger.perm_flatMap_set hcall broughtBack ⟨op, .done ret⟩
      exact hafter.trans (((hbefore.symm.trans hperm).cons _).trans
        (List.perm_append_singleton _ _).symm)
    · rcases List.mem_or_eq_of_mem_set hmem with hold | rfl
      · exact hseries.waiting call hold hnone
      · cases hnone
  | external event => cases event

theorem map_snd_broughtBack (calls : List (Activation (sectionSignature V R)
    (CriticalSection V R) R)) :
    (calls.flatMap broughtBack).map Prod.snd = (calls.map (·.rest.result?)).reduceOption := by
  induction calls with
  | nil => rfl
  | cons call calls ih =>
    rw [List.flatMap_cons, List.map_append, ih, List.map_cons]
    unfold broughtBack
    cases call.rest.result? <;> rfl

/-- What the calls on a mutex have returned is what their sections return in a row, and
while nobody has the guard the last of them left the data as it is. -/
theorem SpinMutex.serial_results {start : V} {s : SpinMutex V R}
    (h : SpinMutex.Reaches (.new start) s) :
    ∃ done value, Serial start done value ∧ (s.results.reduceOption).Perm (done.map Prod.snd) ∧
      (∀ pair ∈ done, ∃ call ∈ s.calls, call.request = pair.1) ∧
      ((∀ caller, ¬ s.Holds caller) → s.value = some value) := by
  obtain ⟨c, hreaches, hmatches⟩ := SpinMutex.matches_run ⟨0, _, SpinMutex.flagSound_new start⟩
    (SpinMutex.matches_new start) h
  obtain ⟨done, hserial, hperm⟩ := (inSeries_run hreaches).done
  refine ⟨done, c.shared, hserial, ?_, fun pair hpair => ?_, hmatches.idle⟩
  · rw [← hmatches.results]
    unfold Config.results
    rw [← map_snd_broughtBack]
    exact hperm.map _
  · obtain ⟨activation, hmem, hback⟩ := List.mem_flatMap.mp (hperm.mem_iff.mpr hpair)
    rw [hmatches.calls] at hmem
    obtain ⟨call, hcall, rfl⟩ := List.mem_map.mp hmem
    refine ⟨call, hcall, ?_⟩
    unfold broughtBack at hback
    simp only [Option.mem_toList, Option.map_eq_some_iff] at hback
    obtain ⟨result, -, rfl⟩ := hback
    rfl

/-! ### The counter of handle identifiers -/

/-- `next_raw` on targets without 64-bit atomics. -/
def nextRaw : CriticalSection UInt64 UInt64 := do
  let raw ← CriticalSection.read
  CriticalSection.write (raw + 1)
  return raw

/-- `KeyId::next`: a wrapped 0 is mapped to 1. -/
def KeyId.next (raw : UInt64) : KeyId := if raw = 0 then 1 else raw.toNat

theorem next_ofNat (allocated : ℕ) :
    KeyId.next (UInt64.ofNat (1 + allocated)) = keyIdAfter allocated := by
  have hzero : UInt64.ofNat (1 + allocated) = 0 ↔ (1 + allocated) % 2 ^ 64 = 0 := by
    rw [← UInt64.toNat_inj, UInt64.toNat_ofNat']
    rfl
  unfold KeyId.next keyIdAfter
  simp only [hzero, UInt64.toNat_ofNat']

theorem serial_nextRaw {done : List (CriticalSection UInt64 UInt64 × UInt64)} {value : UInt64}
    (h : Serial 1 done value) (hdone : ∀ pair ∈ done, pair.1 = nextRaw) :
    value = UInt64.ofNat (1 + done.length) ∧
      done.map (fun pair => KeyId.next pair.2) = (List.range done.length).map keyIdAfter := by
  induction h with
  | nil => exact ⟨rfl, rfl⟩
  | @snoc value value' done body result _ hbody ih =>
    obtain ⟨hvalue, hids⟩ := ih fun pair hmem => hdone pair (List.mem_append_left _ hmem)
    obtain rfl : body = nextRaw := hdone (body, result) (by simp)
    obtain ⟨rfl, rfl⟩ : result = value ∧ value' = value + 1 := by
      cases hbody
      exact ⟨rfl, rfl⟩
    subst hvalue
    refine ⟨?_, ?_⟩
    · rw [List.length_append, List.length_singleton]
      exact (UInt64.ofNat_add (1 + done.length) 1).symm
    · rw [List.map_append, hids, List.length_append, List.length_singleton, List.range_succ,
        List.map_append, List.map_singleton, List.map_singleton, next_ofNat]

/-- Without 64-bit atomics the handles are the same as with them: any number of calls, in any
interleaving, have returned the identifiers of the first so many allocations, each once. -/
theorem keyIds_in_order {s : SpinMutex UInt64 UInt64} (h : SpinMutex.Reaches (.new 1) s)
    (hnext : ∀ call ∈ s.calls, call.request = nextRaw) :
    (s.results.reduceOption.map KeyId.next).Perm
      ((List.range s.results.reduceOption.length).map keyIdAfter) := by
  obtain ⟨done, value, hserial, hperm, hcalls, -⟩ := SpinMutex.serial_results h
  have hids := serial_nextRaw hserial fun pair hmem => by
    obtain ⟨call, hcall, hrequest⟩ := hcalls pair hmem
    rw [← hrequest]
    exact hnext call hcall
  have hlength := hperm.length_eq
  rw [List.length_map] at hlength
  rw [hlength, ← hids.2]
  refine (hperm.map KeyId.next).trans ?_
  rw [List.map_map]
  exact .refl _

def twoHandles : List (LockAction UInt64 UInt64) :=
  [.call nextRaw, .call nextRaw, .exchange 1 0, .fail 0 0, .access 1, .access 1, .drop 1 2,
    .look 0 2, .exchange 0 2, .access 0, .access 0, .drop 0 4]

theorem keyIds_in_order_twoHandles : ∃ s : SpinMutex UInt64 UInt64,
    s.results = [some 2, some 1] ∧
      (s.results.reduceOption.map KeyId.next).Perm
        ((List.range s.results.reduceOption.length).map keyIdAfter) := by
  have hrun : ((SpinMutex.new 1).follow twoHandles).map (fun s =>
      (s.results, s.calls.map (·.request))) = some ([some 2, some 1], [nextRaw, nextRaw]) := rfl
  obtain ⟨s, hs, hlast⟩ := Option.map_eq_some_iff.mp hrun
  obtain ⟨hresults, hrequests⟩ := Prod.mk.inj hlast
  refine ⟨s, hresults, keyIds_in_order (SpinMutex.follow_reaches hs) fun call hmem => ?_⟩
  have hrequest := List.mem_map_of_mem (f := (LockCall.request)) hmem
  rw [hrequests] at hrequest
  simpa using hrequest

/-! ### The registry cell -/

def ArcCell.load {V : Type} : CriticalSection V V := CriticalSection.read

/-- `ArcCell::swap`: `core::mem::replace` under the lock. -/
def ArcCell.swap {V : Type} (new : V) : CriticalSection V V := do
  let previous ← CriticalSection.read
  CriticalSection.write new
  return previous

inductive ArcRequest (V : Type) where
  | load
  | swap (new : V)

inductive ArcReply (V : Type) where
  | loaded (found : V)
  | swapped (new previous : V)

def ArcRequest.program {V : Type} : ArcRequest V → CriticalSection V (ArcReply V)
  | .load => do return .loaded (← ArcCell.load)
  | .swap new => do return .swapped new (← ArcCell.swap new)

def ArcReply.installed? {V : Type} : ArcReply V → Option V
  | .loaded _ => none
  | .swapped new _ => some new

def ArcReply.previous? {V : Type} : ArcReply V → Option V
  | .loaded _ => none
  | .swapped _ previous => some previous

theorem serial_arcCell {start value : V} {done : List (CriticalSection V (ArcReply V) × ArcReply V)}
    (h : Serial start done value)
    (hdone : ∀ pair ∈ done, ∃ request : ArcRequest V, pair.1 = request.program) :
    (value :: (done.map Prod.snd).filterMap (·.previous?)).Perm
        (start :: (done.map Prod.snd).filterMap (·.installed?)) ∧
      ∀ found, .loaded found ∈ done.map Prod.snd →
        found ∈ start :: (done.map Prod.snd).filterMap (·.installed?) := by
  induction h with
  | nil => exact ⟨.refl _, nofun⟩
  | @snoc value value' done body result _ hbody ih =>
    obtain ⟨hperm, hloaded⟩ := ih fun pair hmem => hdone pair (List.mem_append_left _ hmem)
    obtain ⟨request, rfl⟩ : ∃ request : ArcRequest V, body = request.program :=
      hdone (body, result) (by simp)
    rw [List.map_append, List.filterMap_append, List.filterMap_append]
    cases request with
    | load =>
      obtain ⟨rfl, rfl⟩ : result = .loaded value ∧ value' = value := by
        cases hbody
        exact ⟨rfl, rfl⟩
      have hsilent : [ArcReply.loaded value'].filterMap (·.previous?) = [] ∧
        [ArcReply.loaded value'].filterMap (·.installed?) = [] := ⟨rfl, rfl⟩
      rw [List.map_singleton, hsilent.1, hsilent.2, List.append_nil, List.append_nil]
      refine ⟨hperm, fun found hfound => ?_⟩
      rcases List.mem_append.mp hfound with hold | hnew
      · exact hloaded found hold
      · cases List.mem_singleton.mp hnew
        exact hperm.mem_iff.mp (List.mem_cons_self ..)
    | swap new =>
      obtain ⟨rfl, rfl⟩ : result = .swapped new value ∧ value' = new := by
        cases hbody
        exact ⟨rfl, rfl⟩
      refine ⟨?_, fun found hfound => ?_⟩
      · have hback : ((done.map Prod.snd).filterMap (·.previous?) ++ [value]).Perm
            (start :: (done.map Prod.snd).filterMap (·.installed?)) :=
          (List.perm_append_singleton _ _).trans hperm
        exact (hback.cons value').trans (List.perm_append_singleton _ _).symm
      · rcases List.mem_append.mp hfound with hold | hnew
        · exact List.mem_append_left [value'] (hloaded found hold)
        · cases List.mem_singleton.mp hnew

/-- The registry cell loses no version and hands none out twice: in any interleaving of loads
and swaps, the versions that swaps handed back and the one in the cell are the first one and
those that swaps installed; and every load finds one of these. -/
theorem arcCell_accounts {V : Type} {start : V} {s : SpinMutex V (ArcReply V)}
    (h : SpinMutex.Reaches (.new start) s)
    (hcalls : ∀ call ∈ s.calls, ∃ request : ArcRequest V, call.request = request.program) :
    ((∀ caller, ¬ s.Holds caller) → ∃ current, s.value = some current ∧
      (current :: s.results.reduceOption.filterMap (·.previous?)).Perm
        (start :: s.results.reduceOption.filterMap (·.installed?))) ∧
      ∀ found, .loaded found ∈ s.results.reduceOption →
        found ∈ start :: s.results.reduceOption.filterMap (·.installed?) := by
  obtain ⟨done, value, hserial, hperm, hdone, hidle⟩ := SpinMutex.serial_results h
  obtain ⟨haccounts, hloaded⟩ := serial_arcCell hserial fun pair hmem => by
    obtain ⟨call, hcall, hrequest⟩ := hdone pair hmem
    rw [← hrequest]
    exact hcalls call hcall
  have hinstalled := (hperm.filterMap (·.installed?)).cons start
  refine ⟨fun hnobody => ⟨value, hidle hnobody, ?_⟩, fun found hfound => ?_⟩
  · exact ((hperm.filterMap (·.previous?)).cons value).trans (haccounts.trans hinstalled.symm)
  · exact hinstalled.mem_iff.mpr (hloaded found (hperm.mem_iff.mp hfound))

def loadAndSwap : List (LockAction ℕ (ArcReply ℕ)) :=
  [.call ArcRequest.load.program, .call (ArcRequest.swap 5).program, .exchange 0 0, .access 0,
    .drop 0 2, .exchange 1 2, .access 1, .access 1, .drop 1 4]

theorem arcCell_accounts_loadAndSwap : ∃ s : SpinMutex ℕ (ArcReply ℕ), s.value = some 5 ∧
    ∃ current, s.value = some current ∧
      (current :: s.results.reduceOption.filterMap (·.previous?)).Perm
        (3 :: s.results.reduceOption.filterMap (·.installed?)) := by
  have hrun : ((SpinMutex.new 3).follow loadAndSwap).map (fun s =>
      (s.value, s.calls.map (·.phase.guards), s.calls.map (·.request))) =
        some (some 5, [false, false], [ArcRequest.load.program, (ArcRequest.swap 5).program]) :=
    rfl
  obtain ⟨s, hs, hlast⟩ := Option.map_eq_some_iff.mp hrun
  obtain ⟨hvalue, hmore⟩ := Prod.mk.inj hlast
  obtain ⟨hguards, hrequests⟩ := Prod.mk.inj hmore
  refine ⟨s, hvalue, (arcCell_accounts (SpinMutex.follow_reaches hs) fun call hmem => ?_).1 ?_⟩
  · have hrequest := List.mem_map_of_mem (f := (LockCall.request)) hmem
    rw [hrequests] at hrequest
    rcases List.mem_pair.mp hrequest with hload | hswap
    · exact ⟨.load, hload⟩
    · exact ⟨.swap 5, hswap⟩
  · rintro caller ⟨call, hcall, hholds⟩
    have hguard := List.mem_map_of_mem (f := fun call => call.phase.guards) (List.mem_of_getElem? hcall)
    rw [hguards, hholds] at hguard
    simp at hguard

end KeyVault
