import KeyVault.IndependentControls

/-! What one name has to do with another. With the vault-wide threshold off, the
failures and clears of a name `a` change nothing for a key of another name: two
vaults that take the same calls, one of them without the failures and clears of `a`,
stay the same in everything that does not belong to `a`. -/
namespace KeyVault

open Interleaving Atomic Lockouts

/-- The same vault, as far as it does not belong to the name `a`. The counter of
active locks and the audit trail are left out: the first counts the locks of `a`
too, and no call reads the second. -/
structure SameBut (a : String) (v w : Vault) : Prop where
  clock : w.clock = v.clock
  unixTime : w.unixTime = v.unixTime
  names : w.names = v.names
  entries : ∀ id, v.names id ≠ some a → w.keys.lookup id = v.keys.lookup id
  lockedOut : w.lockedOut = v.lockedOut
  failures : ∀ name, name ≠ a → w.controls.failures name = v.controls.failures name
  locks : ∀ name, name ≠ a → w.controls.locks name = v.controls.locks name
  handleCounter : w.handleCounter = v.handleCounter
  masterBackoff : w.masterBackoff = v.masterBackoff
  events : (w.monitorEvents.filter fun event => event.keyName ≠ a) =
    v.monitorEvents.filter fun event => event.keyName ≠ a

structure Spared (a : String) (v w : Vault) : Prop where
  same : SameBut a v w
  free : w.controls.locks a = none

section SameBut

variable {a : String} {v w : Vault}

theorem SameBut.refl (a : String) (v : Vault) : SameBut a v v where
  clock := rfl
  unixTime := rfl
  names := rfl
  entries _ _ := rfl
  lockedOut := rfl
  failures _ _ := rfl
  locks _ _ := rfl
  handleCounter := rfl
  masterBackoff := rfl
  events := rfl

theorem SameBut.symm (h : SameBut a v w) : SameBut a w v where
  clock := h.clock.symm
  unixTime := h.unixTime.symm
  names := h.names.symm
  entries id hid := (h.entries id (h.names ▸ hid)).symm
  lockedOut := h.lockedOut.symm
  failures name hname := (h.failures name hname).symm
  locks name hname := (h.locks name hname).symm
  handleCounter := h.handleCounter.symm
  masterBackoff := h.masterBackoff.symm
  events := h.events.symm

theorem SameBut.hasName (h : SameBut a v w) (name : String) :
    w.keys.hasName name = v.keys.hasName name := by
  rw [Bool.eq_iff_iff, hasName_iff_names, hasName_iff_names, h.names]

theorem Spared.mapLen_le (h : Spared a v w) : mapLen w.keyLocks ≤ mapLen v.keyLocks := by
  apply List.Subperm.length_le
  apply List.subperm_of_subset w.keyLocks.nodupKeys
  intro name hname
  have hmem : (w.keyLocks.lookup name).isSome := AList.lookup_isSome.mpr (AList.mem_keys.mpr hname)
  have hne : name ≠ a := by
    rintro rfl
    rw [show w.keyLocks.lookup name = none from h.free] at hmem
    cases hmem
  rw [show w.keyLocks.lookup name = v.keyLocks.lookup name from h.same.locks name hne] at hmem
  exact AList.mem_keys.mp (AList.lookup_isSome.mp hmem)

end SameBut

/-! ### Steps that belong to `a` -/

def VaultOp.Confined (a : String) (names : KeyId → Option String) : VaultOp → Prop
  | .trackFailure name _ _ | .forgetFailures name | .lockKey name _ | .unlockKey name
  | .keyLockedSlow name => name = a
  | .replaceKey id _ _ => names id = some a
  | .notify event => event.keyName = a
  | .loadLockedOut | .loadKeys | .readClock | .readUnixTime | .loadKeyLocksActive
  | .subKeyLocksActive | .emitAudit _ _ _ => True
  | _ => False

section Confined

variable {env : Environment} {a : String} {v w : Vault}

theorem failures_insert_other {name : String} (v : Vault) (times : List Duration) (hname : name ≠ a) :
    ((v.failureTracker.insert a times).lookup name).getD [] = v.controls.failures name := by
  rw [AList.lookup_insert_ne hname]
  rfl

theorem failures_erase_other {name : String} (v : Vault) (hname : name ≠ a) :
    ((v.failureTracker.erase a).lookup name).getD [] = v.controls.failures name := by
  rw [AList.lookup_erase_ne hname]
  rfl

theorem SameBut.confined {op : VaultOp} {ret : op.Ret} {v' : Vault} (h : SameBut a v w)
    (hop : op.Confined a w.names) (hstep : Vault.perform env op v = some (ret, v')) :
    SameBut a v' w := by
  cases op with
  | trackFailure name now perKey =>
    cases hop
    cases hstep
    refine { h with failures := ?_ }
    intro name hname
    exact (h.failures name hname).trans (failures_insert_other v _ hname).symm
  | forgetFailures name =>
    cases hop
    cases hstep
    refine { h with failures := ?_ }
    intro name hname
    exact (h.failures name hname).trans (failures_erase_other v hname).symm
  | lockKey name deadline =>
    cases hop
    have hlocks : ∀ other, other ≠ a → ((v.keyLocks.insert a deadline).lookup other) =
        v.controls.locks other := fun other hother => AList.lookup_insert_ne hother
    change v.lockKey env a deadline = some (ret, v') at hstep
    unfold Vault.lockKey at hstep
    dsimp only at hstep
    repeat' split at hstep
    all_goals cases hstep
    all_goals exact { h with locks := fun name hname => (h.locks name hname).trans (hlocks name hname).symm }
  | unlockKey name =>
    cases hop
    cases hstep
    refine { h with locks := ?_ }
    intro name hname
    exact (h.locks name hname).trans (AList.lookup_erase_ne hname).symm
  | keyLockedSlow name =>
    cases hop
    obtain rfl : (v.keyLockedSlow env a).2 = v' := congrArg Prod.snd (Option.some.inj hstep)
    unfold Vault.keyLockedSlow
    split
    · exact h
    · exact h
    · split
      · exact h
      · refine { h with failures := ?_, locks := ?_ }
        · intro name hname
          exact (h.failures name hname).trans (failures_erase_other v hname).symm
        · intro name hname
          exact (h.locks name hname).trans (AList.lookup_erase_ne hname).symm
  | replaceKey id fragments metadata =>
    have hnames := perform_names (by rfl) hstep
    have hid : v.names id = some a := h.names ▸ hop
    obtain rfl : (v.replaceKey id fragments metadata).2 = v' :=
      congrArg Prod.snd (Option.some.inj hstep)
    unfold Vault.replaceKey at hnames ⊢
    cases hlookup : v.keys.lookup id with
    | none => exact h
    | some entry =>
      rw [hlookup] at hnames
      refine { h with names := h.names.trans hnames.symm, entries := ?_ }
      intro other hother
      rw [hnames] at hother
      have hne : other ≠ id := by
        rintro rfl
        exact hother hid
      exact (h.entries other hother).trans (AList.lookup_insert_ne hne).symm
  | notify event =>
    cases hstep
    refine { h with events := ?_ }
    have hkey : event.keyName = a := hop
    rw [List.filter_append, List.filter_cons_of_neg (by simpa using hkey), List.filter_nil,
      List.append_nil]
    exact h.events
  | loadLockedOut | loadKeys | readClock | readUnixTime | loadKeyLocksActive =>
    cases hstep
    exact h
  | subKeyLocksActive | emitAudit =>
    cases hstep
    exact { h with }
  | _ => cases hop

end Confined

/-! ### Steps that belong to other names -/

/-- A step that does not concern `a`, in a vault with the given names, and does not
load what `a` has a part in. -/
def VaultOp.Apart (a : String) (names : KeyId → Option String) : VaultOp → Prop
  | .trackFailure name _ _ | .forgetFailures name | .lockKey name _ | .unlockKey name
  | .keyLockedSlow name => name ≠ a
  | .replaceKey id _ _ => names id ≠ some a
  | .loadKeys | .loadKeyLocksActive => False
  | _ => True

section Apart

variable {env : Environment} {a : String} {v w : Vault}

theorem SameBut.attemptMaster (h : SameBut a v w) (verifier : MasterVerifier) (attempt : Bytes)
    (opens : Bool) :
    (w.attemptMaster env verifier attempt opens).1 = (v.attemptMaster env verifier attempt opens).1 ∧
      SameBut a (v.attemptMaster env verifier attempt opens).2
        (w.attemptMaster env verifier attempt opens).2 := by
  unfold Vault.attemptMaster
  simp only [h.clock, h.masterBackoff]
  split
  · exact ⟨rfl, h⟩
  · split
    · exact ⟨rfl, h⟩
    · split
      · exact ⟨rfl, h⟩
      · split
        · exact ⟨rfl, { h with clock := rfl, masterBackoff := rfl }⟩
        · exact ⟨rfl, { h with clock := rfl, masterBackoff := rfl }⟩

theorem update_other {β : Type} {f g : String → β} (h : ∀ name, name ≠ a → f name = g name)
    (name : String) (value : β) {other : String} (hother : other ≠ a) :
    Function.update f name value other = Function.update g name value other := by
  by_cases hname : other = name
  · rw [hname, Function.update_self, Function.update_self]
  · rw [Function.update_of_ne hname, Function.update_of_ne hname]
    exact h other hother

theorem SameBut.trackFailure (h : SameBut a v w) {name : String} (hname : name ≠ a)
    (now : Duration) (perKey : Bool) :
    (w.trackFailure env name now perKey).1 = (v.trackFailure env name now perKey).1 ∧
      SameBut a (v.trackFailure env name now perKey).2 (w.trackFailure env name now perKey).2 := by
  have hentries : (w.failureTracker.lookup name).getD [] = (v.failureTracker.lookup name).getD [] :=
    h.failures name hname
  unfold Vault.trackFailure
  rw [hentries]
  refine ⟨rfl, { h with failures := ?_ }⟩
  intro other hother
  refine (congrFun (failures_insert w name _) other).trans ?_
  rw [update_other h.failures name _ hother]
  exact (congrFun (failures_insert v name _) other).symm

theorem SameBut.forgetFailures (h : SameBut a v w) (name : String) :
    SameBut a { v with failureTracker := v.failureTracker.erase name }
      { w with failureTracker := w.failureTracker.erase name } := by
  refine { h with failures := ?_ }
  intro other hother
  refine (congrFun (failures_erase w name) other).trans ?_
  rw [update_other h.failures name _ hother]
  exact (congrFun (failures_erase v name) other).symm

theorem SameBut.unlockKey (h : SameBut a v w) (name : String) :
    SameBut a { v with keyLocks := v.keyLocks.erase name }
      { w with keyLocks := w.keyLocks.erase name } := by
  refine { h with locks := ?_ }
  intro other hother
  refine (congrFun (locks_erase w name) other).trans ?_
  rw [update_other h.locks name _ hother]
  exact (congrFun (locks_erase v name) other).symm

theorem SameBut.keyLockedSlow (h : SameBut a v w) {name : String} (hname : name ≠ a) :
    (w.keyLockedSlow env name).1 = (v.keyLockedSlow env name).1 ∧
      SameBut a (v.keyLockedSlow env name).2 (w.keyLockedSlow env name).2 := by
  unfold Vault.keyLockedSlow
  rw [show w.keyLocks.lookup name = v.keyLocks.lookup name from h.locks name hname]
  cases v.keyLocks.lookup name with
  | none => exact ⟨rfl, h⟩
  | some deadline =>
    cases deadline with
    | none => exact ⟨rfl, h⟩
    | some stop =>
      dsimp only
      rw [h.clock]
      split
      · exact ⟨rfl, h⟩
      · exact ⟨rfl, { (h.unlockKey name).forgetFailures name with clock := rfl }⟩

theorem SameBut.mem_keyLocks (h : SameBut a v w) {name : String} (hname : name ≠ a) :
    name ∈ w.keyLocks ↔ name ∈ v.keyLocks := by
  rw [← AList.lookup_isSome, ← AList.lookup_isSome,
    show w.keyLocks.lookup name = v.keyLocks.lookup name from h.locks name hname]

theorem Spared.lockKey {name : String} {deadline : Option Duration} {newly : Bool} {v' : Vault}
    (h : Spared a v w) (hname : name ≠ a)
    (hstep : v.lockKey env name deadline = some (newly, v')) :
    ∃ w', w.lockKey env name deadline = some (newly, w') ∧ SameBut a v' w' := by
  have hlocks : ∀ other, other ≠ a → (w.keyLocks.insert name deadline).lookup other =
      (v.keyLocks.insert name deadline).lookup other := by
    intro other hother
    refine (congrFun (locks_insert w name deadline) other).trans ?_
    rw [update_other h.same.locks name _ hother]
    exact (congrFun (locks_insert v name deadline) other).symm
  have hroom := h.mapLen_le
  unfold Vault.lockKey at hstep ⊢
  dsimp only at hstep ⊢
  have hmem' := h.same.mem_keyLocks hname
  by_cases hmem : name ∈ v.keyLocks
  · rw [if_pos hmem] at hstep
    rw [if_pos (hmem'.mpr hmem)]
    cases hstep
    exact ⟨_, rfl, { h.same with locks := hlocks }⟩
  · rw [if_neg hmem] at hstep
    rw [if_neg (mt hmem'.mp hmem)]
    split at hstep
    · cases hstep
      rw [if_pos (by omega)]
      exact ⟨_, rfl, { h.same with locks := hlocks }⟩
    · cases hstep

theorem SameBut.insert (h : SameBut a v w) (id : KeyId) (entry : KeyEntry) :
    SameBut a { v with keys := v.keys.insert id entry }
      { w with keys := w.keys.insert id entry } := by
  refine { h with names := ?_, entries := ?_ }
  · refine (names_insert w id entry).trans ?_
    rw [h.names]
    exact (names_insert v id entry).symm
  · intro other hother
    by_cases hid : other = id
    · subst hid
      exact (AList.lookup_insert w.keys).trans (AList.lookup_insert v.keys).symm
    · have hkept : v.names other ≠ some a := by
        intro hname
        apply hother
        refine (congrFun (names_insert v id entry) other).trans ?_
        rw [Function.update_of_ne hid, hname]
      exact (AList.lookup_insert_ne hid).trans
        ((h.entries other hkept).trans (AList.lookup_insert_ne hid).symm)

theorem SameBut.insertKey (h : SameBut a v w) (id : KeyId) (entry : KeyEntry) :
    (w.insertKey id entry).1 = (v.insertKey id entry).1 ∧
      SameBut a (v.insertKey id entry).2 (w.insertKey id entry).2 := by
  unfold Vault.insertKey
  rw [h.hasName]
  split
  · exact ⟨rfl, h⟩
  · exact ⟨rfl, h.insert id entry⟩

theorem SameBut.removeKey (h : SameBut a v w) (id : KeyId) :
    (w.removeKey id).1 = (v.removeKey id).1 ∧
      SameBut a (v.removeKey id).2 (w.removeKey id).2 := by
  have hname : (w.keys.lookup id).map (·.name) = (v.keys.lookup id).map (·.name) :=
    congrFun h.names id
  unfold Vault.removeKey
  cases hv : v.keys.lookup id with
  | none =>
    rw [hv, Option.map_none, Option.map_eq_none_iff] at hname
    rw [hname]
    exact ⟨rfl, h⟩
  | some entry =>
    rw [hv, Option.map_some] at hname
    obtain ⟨other, hw, hsame⟩ := Option.map_eq_some_iff.mp hname
    rw [hw]
    refine ⟨congrArg some hsame, { h with names := ?_, entries := ?_ }⟩
    · refine (names_erase w id).trans ?_
      rw [h.names]
      exact (names_erase v id).symm
    · intro other hother
      by_cases hid : other = id
      · subst hid
        exact (AList.lookup_erase other w.keys).trans (AList.lookup_erase other v.keys).symm
      · have hkept : v.names other ≠ some a := by
          intro hname
          apply hother
          refine (congrFun (names_erase v id) other).trans ?_
          rw [Function.update_of_ne hid, hname]
        exact (AList.lookup_erase_ne hid).trans
          ((h.entries other hkept).trans (AList.lookup_erase_ne hid).symm)

theorem SameBut.replaceKey (h : SameBut a v w) {id : KeyId} (hid : v.names id ≠ some a)
    (fragments : Fragments) (metadata : KeyMetadata) :
    (w.replaceKey id fragments metadata).1 = (v.replaceKey id fragments metadata).1 ∧
      SameBut a (v.replaceKey id fragments metadata).2 (w.replaceKey id fragments metadata).2 := by
  unfold Vault.replaceKey
  rw [h.entries id hid]
  cases v.keys.lookup id with
  | none => exact ⟨rfl, h⟩
  | some entry => exact ⟨rfl, h.insert id _⟩

theorem SameBut.notify (h : SameBut a v w) (event : MonitorEvent) :
    SameBut a { v with monitorEvents := v.monitorEvents ++ [event] }
      { w with monitorEvents := w.monitorEvents ++ [event] } := by
  refine { h with events := ?_ }
  rw [List.filter_append, List.filter_append, h.events]

theorem free_kept {op : VaultOp} {ret : op.Ret} {w' : Vault}
    (hop : ∀ deadline, op ≠ .lockKey a deadline) (hstep : Vault.perform env op w = some (ret, w'))
    (hfree : w.controls.locks a = none) : w'.controls.locks a = none := by
  have herased : ∀ name, (w.keyLocks.erase name).lookup a = none := by
    intro name
    by_cases hname : a = name
    · rw [hname, AList.lookup_erase]
    · rw [AList.lookup_erase_ne hname]
      exact hfree
  cases op with
  | lockKey name deadline =>
    have hne : a ≠ name := by
      rintro rfl
      exact hop deadline rfl
    have hinserted : (w.keyLocks.insert name deadline).lookup a = none :=
      (AList.lookup_insert_ne hne).trans hfree
    change w.lockKey env name deadline = some (ret, w') at hstep
    unfold Vault.lockKey at hstep
    dsimp only at hstep
    repeat' split at hstep
    all_goals cases hstep
    all_goals exact hinserted
  | unlockKey name =>
    cases hstep
    exact herased name
  | keyLockedSlow name =>
    obtain rfl : (w.keyLockedSlow env name).2 = w' := congrArg Prod.snd (Option.some.inj hstep)
    unfold Vault.keyLockedSlow
    repeat' split
    · exact hfree
    · exact hfree
    · exact hfree
    · exact herased name
  | clearKeyLocks =>
    cases hstep
    rfl
  | subKeyLocksActive =>
    cases hstep
    exact hfree
  | _ =>
    show w'.keyLocks.lookup a = none
    rw [((Vault.perform_frame hstep).keyLocks rfl).1]
    exact hfree

theorem same_outcome {β : Type} {out out' : β × Vault} {ret : β} {v' : Vault}
    (hstep : some out = some (ret, v')) (hsame : out'.1 = out.1 ∧ SameBut a out.2 out'.2) :
    ∃ w', some out' = some (ret, w') ∧ SameBut a v' w' := by
  obtain rfl : out = (ret, v') := Option.some.inj hstep
  exact ⟨out'.2, congrArg some (Prod.ext hsame.1 rfl), hsame.2⟩

theorem Spared.apart {op : VaultOp} {ret : op.Ret} {v' : Vault} (h : Spared a v w)
    (hop : op.Apart a w.names) (hstep : Vault.perform env op v = some (ret, v')) :
    ∃ w', Vault.perform env op w = some (ret, w') ∧ SameBut a v' w' := by
  have hsame := h.same
  cases op with
  | loadLockedOut => exact same_outcome hstep ⟨hsame.lockedOut, hsame⟩
  | swapLockedOut => exact same_outcome hstep ⟨hsame.lockedOut, { hsame with lockedOut := rfl }⟩
  | storeUnlocked => exact same_outcome hstep ⟨rfl, { hsame with lockedOut := rfl }⟩
  | loadKeys => cases hop
  | readClock => exact same_outcome hstep ⟨hsame.clock, hsame⟩
  | readUnixTime => exact same_outcome hstep ⟨hsame.unixTime, hsame⟩
  | trackFailure name now perKey => exact same_outcome hstep (hsame.trackFailure hop now perKey)
  | forgetFailures name => exact same_outcome hstep ⟨rfl, hsame.forgetFailures name⟩
  | clearFailures => exact same_outcome hstep ⟨rfl, { hsame with failures := fun _ _ => rfl }⟩
  | loadKeyLocksActive => cases hop
  | subKeyLocksActive => exact same_outcome hstep ⟨rfl, { hsame with }⟩
  | lockKey name deadline => exact h.lockKey hop hstep
  | unlockKey name =>
    exact same_outcome hstep
      ⟨decide_eq_decide.mpr (hsame.mem_keyLocks hop), hsame.unlockKey name⟩
  | clearKeyLocks => exact same_outcome hstep ⟨rfl, { hsame with locks := fun _ _ => rfl }⟩
  | keyLockedSlow name => exact same_outcome hstep (hsame.keyLockedSlow hop)
  | attemptMaster verifier attempt opens =>
    exact same_outcome hstep (hsame.attemptMaster verifier attempt opens)
  | allocateHandle =>
    refine same_outcome hstep ⟨congrArg keyIdAfter hsame.handleCounter, ?_⟩
    exact { hsame with handleCounter := congrArg (· + 1) hsame.handleCounter }
  | insertKey id entry => exact same_outcome hstep (hsame.insertKey id entry)
  | removeKey id => exact same_outcome hstep (hsame.removeKey id)
  | replaceKey id fragments metadata =>
    exact same_outcome hstep (hsame.replaceKey (hsame.names ▸ hop) fragments metadata)
  | notify event => exact same_outcome hstep ⟨rfl, hsame.notify event⟩
  | emitAudit keyName kind note => exact same_outcome hstep ⟨rfl, { hsame with }⟩

theorem Spared.step {op : VaultOp} {ret : op.Ret} {v' : Vault} (h : Spared a v w)
    (hop : op.Apart a w.names) (hstep : Vault.perform env op v = some (ret, v')) :
    ∃ w', Vault.perform env op w = some (ret, w') ∧ Spared a v' w' := by
  obtain ⟨w', hstep', hsame⟩ := h.apart hop hstep
  refine ⟨w', hstep', hsame, free_kept ?_ hstep' h.free⟩
  rintro deadline rfl
  exact hop rfl

end Apart

/-! ### Programs -/

section Programs

variable {env : Environment} {a : String} {v w v' : Vault} {α : Type} {p : VaultProgram α}
  {value : α}

theorem Spared.run_left (h : Spared a v w)
    (huses : Program.Uses (S := vaultSignature) (VaultOp.Confined a w.names) p)
    (hrun : runAlone env p v = some (value, v')) : Spared a v' w := by
  refine ⟨?_, h.free⟩
  apply huses.run_invariant (I := fun s => SameBut a s w) _ h.same hrun
  intro op s ret s' hop hs hstep
  exact hs.confined hop hstep

theorem Spared.run_right {w' : Vault} (h : Spared a v w)
    (huses : Program.Uses (S := vaultSignature)
      (fun op => op.Confined a v.names ∧ ∀ deadline, op ≠ .lockKey a deadline) p)
    (hrun : runAlone env p w = some (value, w')) : Spared a v w' := by
  apply huses.run_invariant (I := fun s => Spared a v s) _ h hrun
  rintro op s ret s' ⟨hop, hlock⟩ hs hstep
  exact ⟨(hs.same.symm.confined hop hstep).symm, free_kept hlock hstep hs.free⟩

theorem Spared.run (h : Spared a v w)
    (huses : Program.Uses (S := vaultSignature)
      (fun op => op.Apart a w.names ∧ op.renames = false) p)
    (hrun : runAlone env p v = some (value, v')) :
    ∃ w', runAlone env p w = some (value, w') ∧ Spared a v' w' := by
  have hrelated := huses.run_related (R := fun s t => Spared a s t ∧ t.names = w.names)
    (t := w) (s := v) ?_ ⟨h, rfl⟩ hrun
  · obtain ⟨w', hrun', hafter, -⟩ := hrelated
    exact ⟨w', hrun', hafter⟩
  · rintro op s t ret s' hop ⟨hspared, hnames⟩ hstep
    obtain ⟨t', hstep', hafter⟩ := hspared.step (hnames ▸ hop.1) hstep
    exact ⟨t', hstep', hafter, (perform_names hop.2 hstep').trans hnames⟩

theorem Spared.run_renaming (h : Spared a v w)
    (huses : Program.Uses (S := vaultSignature) (fun op => ∀ names, op.Apart a names) p)
    (hrun : runAlone env p v = some (value, v')) :
    ∃ w', runAlone env p w = some (value, w') ∧ Spared a v' w' := by
  apply huses.run_related _ h hrun
  intro op s t ret s' hop hspared hstep
  exact hspared.step (hop t.names) hstep

theorem runAlone_total (env : Environment) (v : Vault)
    (huses : Program.Uses (S := vaultSignature)
      (fun op => ∀ name deadline, op ≠ .lockKey name deadline) p) :
    ∃ out, runAlone env p v = some out := by
  apply huses.run_total
  intro op s hop
  cases op with
  | lockKey name deadline => exact absurd rfl (hop name deadline)
  | _ => exact ⟨_, rfl⟩

def gate (name : String) (refusal : α) (rest : VaultProgram α) : VaultProgram α := do
  if ← keyLockedSlow name then
    return refusal
  rest

theorem runAlone_gate (name : String) (refusal : α) (rest : VaultProgram α) :
    runAlone env (gate name refusal rest) v =
      if (v.keyLockedSlow env name).1 then some (refusal, (v.keyLockedSlow env name).2)
      else runAlone env rest (v.keyLockedSlow env name).2 := by
  unfold gate
  rw [runAlone_bind, runAlone_keyLockedSlow, Option.bind_some]
  cases (v.keyLockedSlow env name).1 <;> rfl

theorem uses_gate {P : VaultOp → Prop} {name : String} {refusal : α} {rest : VaultProgram α}
    (hslow : P (.keyLockedSlow name)) (hrest : Program.Uses (S := vaultSignature) P rest) :
    Program.Uses (S := vaultSignature) P (gate name refusal rest) := by
  unfold gate
  refine Program.uses_bind ⟨hslow, fun _ => trivial⟩ fun locked => ?_
  split
  · trivial
  · exact hrest

end Programs

/-! ### Calls -/

def Request.strikes (a : String) : Request → Bool
  | .reportFailure name _ | .clearKeyLockout name => name == a
  | _ => false

def Request.keyName (v : Vault) : Request → Option String
  | .withKey handle _ _ | .rotate handle _ _ _ | .isKeyLockedOut handle => v.names handle
  | _ => none

section Calls

variable {env : Environment} {a : String} {v w v' : Vault} {α : Type} {value : α}

theorem Spared.checked (h : Spared a v w) {handle : KeyId} {lockedOut absent : α}
    {rest : KeyEntry → VaultProgram α}
    (hown : v.names handle = some a → ∀ entry, Program.Uses (S := vaultSignature)
      (fun op => op.Confined a v.names ∧ ∀ name deadline, op ≠ .lockKey name deadline) (rest entry))
    (hother : v.names handle ≠ some a → ∀ entry, Program.Uses (S := vaultSignature)
      (fun op => op.Apart a v.names ∧ op.renames = false) (rest entry))
    (hrun : (if v.lockedOut then some (lockedOut, v)
      else match v.keys.lookup handle with
        | none => some (absent, v)
        | some entry =>
            if (v.keyLockedSlow env entry.name).1 then
              some (lockedOut, (v.keyLockedSlow env entry.name).2)
            else runAlone env (rest entry) (v.keyLockedSlow env entry.name).2) =
      some (value, v')) :
    ∃ value' w', (if w.lockedOut then some (lockedOut, w)
      else match w.keys.lookup handle with
        | none => some (absent, w)
        | some entry =>
            if (w.keyLockedSlow env entry.name).1 then
              some (lockedOut, (w.keyLockedSlow env entry.name).2)
            else runAlone env (rest entry) (w.keyLockedSlow env entry.name).2) =
      some (value', w') ∧ Spared a v' w' ∧ (v.names handle ≠ some a → value' = value) := by
  rw [h.same.lockedOut]
  by_cases hlocked : v.lockedOut = true
  · rw [if_pos hlocked] at hrun ⊢
    cases hrun
    exact ⟨_, w, rfl, h, fun _ => rfl⟩
  rw [if_neg hlocked] at hrun ⊢
  have hnames : w.names handle = v.names handle := congrFun h.same.names handle
  unfold Vault.names at hnames
  by_cases hname : v.names handle = some a
  · -- each vault goes its own way, and both stay with `a`
    obtain ⟨entry, hv, hentry⟩ := Option.map_eq_some_iff.mp hname
    obtain ⟨entry', hw, hentry'⟩ := Option.map_eq_some_iff.mp (hnames.trans hname)
    rw [hv] at hrun
    rw [hw]
    dsimp only at hrun ⊢
    rw [hentry, ← runAlone_gate] at hrun
    rw [hentry', ← runAlone_gate]
    have hleft : Spared a v' w := by
      apply h.run_left _ hrun
      rw [h.same.names]
      exact uses_gate rfl ((hown hname entry).mono fun _ => And.left)
    obtain ⟨⟨value', w'⟩, hrun'⟩ := runAlone_total env w (p := gate a lockedOut (rest entry'))
      (uses_gate (by simp) ((hown hname entry').mono fun _ hop => hop.2))
    refine ⟨value', w', hrun', ?_, fun hne => absurd hname hne⟩
    have hafter : v'.names = v.names := hleft.same.names.symm.trans h.same.names
    apply hleft.run_right _ hrun'
    rw [hafter]
    exact uses_gate ⟨rfl, by simp⟩ ((hown hname entry').mono fun _ hop => ⟨hop.1, hop.2 a⟩)
  · have hlookup := h.same.entries handle hname
    rw [hlookup]
    cases hv : v.keys.lookup handle with
    | none =>
      rw [hv] at hrun
      cases hrun
      exact ⟨_, w, rfl, h, fun _ => rfl⟩
    | some entry =>
      rw [hv] at hrun
      dsimp only at hrun ⊢
      rw [← runAlone_gate] at hrun
      have hentry : entry.name ≠ a := by
        rintro rfl
        apply hname
        unfold Vault.names
        rw [hv]
        rfl
      obtain ⟨w', hrun', hafter⟩ := h.run (uses_gate ⟨hentry, rfl⟩
        ((hother hname entry).mono fun op hop => h.same.names ▸ hop)) hrun
      rw [runAlone_gate] at hrun'
      exact ⟨value, w', hrun', hafter, fun _ => rfl⟩

def Keeps (env : Environment) (a : String) (v w : Vault) (request : Request) : Prop :=
  ∀ response v', runAlone env (request.program env) v = some (response, v') →
    ∃ response' w', runAlone env (request.program env) w = some (response', w') ∧
      Spared a v' w' ∧ (request.keyName v ≠ some a → response' = response)

theorem keeps_of_respond {request : Request} {wrap : α → Response} {p : VaultProgram α}
    (hprogram : request.program env = p >>= fun result => .done (wrap result))
    (h : ∀ value v', runAlone env p v = some (value, v') →
      ∃ value' w', runAlone env p w = some (value', w') ∧ Spared a v' w' ∧
        (request.keyName v ≠ some a → value' = value)) : Keeps env a v w request := by
  intro response v' hrun
  rw [hprogram] at hrun ⊢
  obtain ⟨value, rfl, hcall⟩ := runAlone_respond hrun
  obtain ⟨value', w', hcall', hafter, hvalue⟩ := h value v' hcall
  refine ⟨wrap value', w', ?_, hafter, fun hname => congrArg wrap (hvalue hname)⟩
  rw [runAlone_bind, hcall']
  rfl

theorem keeps_of_apart {request : Request} (h : Spared a v w)
    (hop : ∀ op names, request.MayUse op → op.Apart a names) : Keeps env a v w request := by
  intro response v' hrun
  obtain ⟨w', hrun', hafter⟩ := h.run_renaming
    ((program_uses env request).mono fun op huses names => hop op names huses) hrun
  exact ⟨response, w', hrun', hafter, fun _ => rfl⟩

theorem keeps_withKey (h : Spared a v w) (hv : v.Counted env) (hw : w.Counted env)
    (handle : KeyId) (opens : Bool) (scratch : Bytes) :
    Keeps env a v w (.withKey handle opens scratch) := by
  apply keeps_of_respond rfl
  intro value v' hcall
  rw [runAlone_withKey hv] at hcall
  rw [runAlone_withKey hw]
  apply h.checked _ _ hcall
  · intro hname entry
    exact uses_readEntry fun _ _ => ⟨trivial, by simp⟩
  · intro hname entry
    exact uses_readEntry fun _ _ => ⟨trivial, rfl⟩

theorem keeps_rotate (h : Spared a v w) (hv : v.Counted env) (hw : w.Counted env)
    (handle : KeyId) (key : Bytes) (rng : Rng) (os : OsAnswers) :
    Keeps env a v w (.rotate handle key rng os) := by
  apply keeps_of_respond rfl
  intro value v' hcall
  rw [runAlone_rotate hv] at hcall
  rw [runAlone_rotate hw]
  apply h.checked _ _ hcall
  · intro hname entry
    split
    · trivial
    · exact uses_swapKey ⟨trivial, by simp⟩ (fun _ => ⟨hname, by simp⟩)
        fun _ _ _ => ⟨trivial, by simp⟩
  · intro hname entry
    split
    · trivial
    · exact uses_swapKey ⟨trivial, rfl⟩ (fun _ => ⟨hname, rfl⟩) fun _ _ _ => ⟨trivial, rfl⟩

theorem keeps_isKeyLockedOut (h : Spared a v w) (hv : v.Counted env) (hw : w.Counted env)
    (handle : KeyId) : Keeps env a v w (.isKeyLockedOut handle) := by
  apply keeps_of_respond rfl
  intro value v' hcall
  rw [runAlone_isKeyLockedOut hv] at hcall
  rw [runAlone_isKeyLockedOut hw]
  have hnames : w.names handle = v.names handle := congrFun h.same.names handle
  unfold Vault.names at hnames
  by_cases hname : v.names handle = some a
  · obtain ⟨entry, hlookup, hentry⟩ := Option.map_eq_some_iff.mp hname
    obtain ⟨entry', hlookup', hentry'⟩ := Option.map_eq_some_iff.mp (hnames.trans hname)
    rw [hlookup] at hcall
    rw [hlookup']
    dsimp only at hcall ⊢
    rw [hentry, ← runAlone_keyLockedSlow] at hcall
    rw [hentry', ← runAlone_keyLockedSlow]
    have hleft : Spared a v' w := h.run_left (uses_keyLockedSlow rfl) hcall
    refine ⟨_, _, runAlone_keyLockedSlow env w a, ?_, fun hne => absurd hname hne⟩
    exact hleft.run_right (uses_keyLockedSlow ⟨rfl, by simp⟩) (runAlone_keyLockedSlow env w a)
  · rw [h.same.entries handle hname]
    cases hlookup : v.keys.lookup handle with
    | none =>
      rw [hlookup] at hcall
      cases hcall
      exact ⟨_, w, rfl, h, fun _ => rfl⟩
    | some entry =>
      rw [hlookup] at hcall
      dsimp only at hcall ⊢
      have hentry : entry.name ≠ a := by
        rintro rfl
        apply hname
        unfold Vault.names
        rw [hlookup]
        rfl
      rw [← runAlone_keyLockedSlow] at hcall
      obtain ⟨w', hcall', hafter⟩ := h.run (uses_keyLockedSlow ⟨hentry, rfl⟩) hcall
      rw [runAlone_keyLockedSlow] at hcall'
      exact ⟨value, w', hcall', hafter, fun _ => rfl⟩

theorem keeps_register (h : Spared a v w) (name : String) (key : Bytes) (rng : Rng)
    (os : OsAnswers) : Keeps env a v w (.register name key rng os) := by
  apply keeps_of_respond rfl
  intro value v' hcall
  unfold register isLockedOut at hcall ⊢
  simp only [runAlone_bind, runAlone_loadLockedOut, Option.bind_some] at hcall ⊢
  rw [h.same.lockedOut]
  by_cases hlocked : v.lockedOut = true
  · rw [if_pos hlocked] at hcall ⊢
    cases hcall
    exact ⟨_, w, rfl, h, fun _ => rfl⟩
  rw [if_neg hlocked] at hcall ⊢
  simp only [runAlone_bind, runAlone_loadKeys, Option.bind_some] at hcall ⊢
  rw [h.same.hasName]
  -- from here on nothing is loaded that `a` has a part in
  have hrenamed := fun huses => h.run_renaming huses hcall
  obtain ⟨w', hcall', hafter⟩ := hrenamed (by
    split
    · trivial
    · split
      · trivial
      · exact uses_installKey (fun _ => trivial) (fun _ => trivial) (fun _ _ _ _ => trivial)
          fun _ _ _ => trivial)
  exact ⟨value, w', hcall', hafter, fun _ => rfl⟩

/-- What follows a checked attempt, when the failures of `<master>` are the ones
left out of account. -/
theorem Spared.checkedAttempt (hoff : env.config.maxFailuresBeforeLockout = 0)
    (h : Spared masterName v w) (matched : Bool) {result : Result Unit}
    (hrun : runAlone env (do
      emitAudit env masterName (.masterUnlockAttempt matched) ""
      if matched then
        clearLockout
        return .ok ()
      else
        handleFailure env masterName (some "invalid master credential") false
        return fail (.acquisition "master" "master credential did not match")) v =
      some (result, v')) :
    ∃ w', runAlone env (do
      emitAudit env masterName (.masterUnlockAttempt matched) ""
      if matched then
        clearLockout
        return .ok ()
      else
        handleFailure env masterName (some "invalid master credential") false
        return fail (.acquisition "master" "master credential did not match")) w =
      some (result, w') ∧ Spared masterName v' w' := by
  cases matched with
  | true =>
    apply h.run_renaming _ hrun
    refine Program.uses_bind (uses_emitAudit fun _ => trivial) fun _ => ?_
    exact Program.uses_bind (uses_clearLockout (fun _ => trivial) (fun _ => trivial)
      fun _ => trivial) fun _ => trivial
  | false =>
    simp only [Bool.false_eq_true, if_false] at hrun ⊢
    rw [← Program.bind_assoc] at hrun ⊢
    have huses : ∀ names, Program.Uses (S := vaultSignature)
        (fun op => op.Confined masterName names ∧ ∀ name deadline, op ≠ .lockKey name deadline)
        (emitAudit env masterName (.masterUnlockAttempt false) "" >>= fun _ =>
          handleFailure env masterName (some "invalid master credential") false) := by
      intro names
      refine Program.uses_bind (uses_emitAudit ⟨trivial, by simp⟩) fun _ => ?_
      refine uses_handleFailure ⟨trivial, by simp⟩ (fun _ _ => ⟨rfl, by simp⟩)
        (fun event hevent => ⟨hevent, by simp⟩) (fun hon => ?_) (fun hperKey => by cases hperKey)
      rw [hoff] at hon
      exact absurd hon (by decide)
    rw [runAlone_bind] at hrun ⊢
    obtain ⟨⟨_, mid⟩, hfailed, hdone⟩ := Option.bind_eq_some_iff.mp hrun
    cases hdone
    obtain ⟨⟨_, w'⟩, hfailed'⟩ := runAlone_total env w ((huses w.names).mono fun _ hop => hop.2)
    refine ⟨w', ?_, ?_⟩
    · rw [hfailed']
      rfl
    · have hleft := h.run_left ((huses w.names).mono fun _ hop => hop.1) hfailed
      exact hleft.run_right ((huses mid.names).mono fun _ hop => ⟨hop.1, hop.2 masterName⟩) hfailed'

theorem keeps_unlockWithMaster (hoff : env.config.maxFailuresBeforeLockout = 0)
    (h : Spared a v w) (attempt : Bytes) (opens : Bool) :
    Keeps env a v w (.unlockWithMaster attempt opens) := by
  by_cases hmaster : masterName = a
  · subst hmaster
    apply keeps_of_respond rfl
    intro value v' hcall
    unfold unlockWithMaster at hcall ⊢
    cases hverifier : env.master with
    | none =>
      rw [hverifier] at hcall
      cases hcall
      exact ⟨_, w, rfl, h, fun _ => rfl⟩
    | some verifier =>
      rw [hverifier] at hcall
      rw [runAlone_bind, runAlone_attemptMaster, Option.bind_some] at hcall ⊢
      obtain ⟨hanswer, hsame⟩ := h.same.attemptMaster verifier attempt opens
      have hafter : Spared masterName (v.attemptMaster env verifier attempt opens).2
          (w.attemptMaster env verifier attempt opens).2 := by
        refine ⟨hsame, ?_⟩
        obtain ⟨backoff, hframe⟩ := w.attemptMaster_frame env verifier attempt opens
        rw [hframe]
        exact h.free
      rw [hanswer]
      cases houtcome : (v.attemptMaster env verifier attempt opens).1 with
      | refused exit =>
        rw [houtcome] at hcall
        cases hcall
        exact ⟨_, _, rfl, hafter, fun _ => rfl⟩
      | checked matched =>
        rw [houtcome] at hcall
        obtain ⟨w', hcall', hspared⟩ := hafter.checkedAttempt hoff matched hcall
        exact ⟨value, w', hcall', hspared, fun _ => rfl⟩
  · apply keeps_of_apart h
    intro op names hop
    cases op <;> first | trivial | (cases hop; done) | (cases hop; exact hmaster)

theorem keeps_call (hoff : env.config.maxFailuresBeforeLockout = 0) (h : Spared a v w)
    (hv : v.Counted env) (hw : w.Counted env) (request : Request)
    (hrequest : request.strikes a = false) : Keeps env a v w request := by
  cases request with
  | register name key rng os => exact keeps_register h name key rng os
  | withKey handle opens scratch => exact keeps_withKey h hv hw handle opens scratch
  | rotate handle key rng os => exact keeps_rotate h hv hw handle key rng os
  | isKeyLockedOut handle => exact keeps_isKeyLockedOut h hv hw handle
  | unlockWithMaster attempt opens => exact keeps_unlockWithMaster hoff h attempt opens
  | reportFailure name note =>
    have hname : name ≠ a := by simpa [Request.strikes] using hrequest
    apply keeps_of_apart h
    intro op names hop
    cases op <;> first | trivial | (cases hop; done) | (cases hop; exact hname)
  | clearKeyLockout name =>
    have hname : name ≠ a := by simpa [Request.strikes] using hrequest
    apply keeps_of_apart h
    intro op names hop
    cases op <;> first | trivial | (cases hop; done) | (cases hop; exact hname)
  | _ =>
    apply keeps_of_apart h
    intro op names hop
    cases op <;> trivial

theorem spared_struck (hoff : env.config.maxFailuresBeforeLockout = 0) (h : Spared a v w)
    {request : Request} {response : Response} (hrequest : request.strikes a = true)
    (hrun : runAlone env (request.program env) v = some (response, v')) : Spared a v' w := by
  cases request with
  | reportFailure name note =>
    obtain rfl : name = a := eq_of_beq hrequest
    obtain ⟨_, -, hcall⟩ := runAlone_respond hrun
    apply h.run_left (uses_handleFailure trivial (fun _ _ => rfl) (fun event hevent => hevent)
      (fun hon => ?_) fun _ _ => rfl) hcall
    rw [hoff] at hon
    exact absurd hon (by decide)
  | clearKeyLockout name =>
    obtain rfl : name = a := eq_of_beq hrequest
    obtain ⟨_, -, hcall⟩ := runAlone_respond hrun
    apply h.run_left ((uses_clearKeyLockout name).mono fun op hop => ?_) hcall
    cases op <;> trivial
  | _ => cases hrequest

end Calls

/-! ### Runs -/

def Served.keyName (step : Served) : Option String := step.request.keyName step.before

/-- The same call at the same time on a key of the same name; if that name is `b`,
with the same result. -/
structure SameFor (b : String) (step step' : Served) : Prop where
  call : step'.call = step.call
  keyName : step'.keyName = step.keyName
  response : step.keyName = some b → step'.response = step.response

/-- A run and the run without the failures and clears of `a`: how the two compare
after the calls so far. The second may be behind on the clock. -/
structure Shadows (env : Environment) (a : String) (start : Vault) (steps : List Served)
    (v : Vault) (steps' : List Served) (w : Vault) : Prop where
  run : Serves env start steps' w
  counted : v.Counted env ∧ w.Counted env
  clock : w.clock ≤ v.clock
  spared : Spared a v { w with clock := v.clock }
  calls : ∀ b, b ≠ a → List.Forall₂ (SameFor b)
    (steps.filter fun step => !step.request.strikes a) steps'

section Runs

variable {env : Environment} {a : String} {start v w : Vault} {steps steps' : List Served}
  {time : Duration} {request : Request} {step : Served}

theorem Spared.at_time (h : Spared a v { w with clock := v.clock }) (time : Duration) :
    Spared a { v with clock := time } { w with clock := time } :=
  ⟨{ h.same with clock := rfl }, h.free⟩

theorem Shadows.struck (h : Shadows env a start steps v steps' w)
    (hoff : env.config.maxFailuresBeforeLockout = 0) (hrequest : request.strikes a = true)
    (hserve : serve env v time request = some step) :
    Shadows env a start (steps ++ [step]) step.after steps' w := by
  obtain ⟨hle, -, hstep, -, hrun⟩ := serve_eq_some hserve
  obtain ⟨hcounted, hclock, -⟩ := serve_spec h.counted.1 hserve
  have hspared := spared_struck hoff (h.spared.at_time time) hrequest hrun
  refine ⟨h.run, ⟨hcounted, h.counted.2⟩, ?_, ?_, ?_⟩
  · rw [hclock]
    exact h.clock.trans hle
  · rw [hclock]
    exact hspared
  · intro b hb
    rw [List.filter_append, List.filter_cons_of_neg (by simp [hstep, hrequest]), List.filter_nil,
      List.append_nil]
    exact h.calls b hb

theorem Shadows.kept (h : Shadows env a start steps v steps' w)
    (hoff : env.config.maxFailuresBeforeLockout = 0) (hrequest : request.strikes a = false)
    (hserve : serve env v time request = some step) :
    ∃ step', Shadows env a start (steps ++ [step]) step.after (steps' ++ [step']) step'.after := by
  obtain ⟨hle, htime, hstep, hbefore, hrun⟩ := serve_eq_some hserve
  obtain ⟨hcounted, hclock, -⟩ := serve_spec h.counted.1 hserve
  have hspared := h.spared.at_time time
  obtain ⟨response', w', hrun', hafter, hresponse⟩ := keeps_call hoff hspared
    ⟨h.counted.1.active, h.counted.1.bounded⟩ ⟨h.counted.2.active, h.counted.2.bounded⟩ request
    hrequest step.response step.after hrun
  have hserve' : serve env w time request =
      some ⟨time, request, { w with clock := time }, response', w'⟩ := by
    unfold serve
    rw [if_pos (h.clock.trans hle), hrun']
    rfl
  obtain ⟨hcounted', hclock', -⟩ := serve_spec h.counted.2 hserve'
  refine ⟨_, h.run.snoc hserve', ⟨hcounted, hcounted'⟩, ?_, ?_, ?_⟩
  · rw [hclock, hclock']
  · dsimp only at hclock' ⊢
    rw [hclock, ← hclock']
    exact hafter
  · intro b hb
    have hname : request.keyName { w with clock := time } = request.keyName { v with clock := time } := by
      cases request <;> first | rfl | exact congrFun hspared.same.names _
    rw [List.filter_append, List.filter_cons_of_pos (by simp [hstep, hrequest]), List.filter_nil]
    apply List.rel_append (h.calls b hb)
    refine .cons ⟨?_, ?_, ?_⟩ .nil
    · exact (Prod.ext htime hstep).symm
    · unfold Served.keyName
      rw [hstep, hbefore]
      exact hname
    · intro hb'
      apply hresponse
      unfold Served.keyName at hb'
      rw [hstep, hbefore] at hb'
      rw [hb']
      exact fun heq => hb (Option.some.inj heq)

/-- The run without the failures and clears of `a` can be made, and it goes with the
first run call by call. -/
theorem exists_shadows (hoff : env.config.maxFailuresBeforeLockout = 0)
    (hcounted : start.Counted env) (hfree : start.controls.locks a = none)
    (hrun : Serves env start steps v) : ∃ steps' w, Shadows env a start steps v steps' w := by
  apply hrun.history (I := fun steps v => ∃ steps' w, Shadows env a start steps v steps' w)
  · exact ⟨[], start, .nil, ⟨hcounted, hcounted⟩, Nat.le_refl _, ⟨.refl a start, hfree⟩,
      fun _ _ => .nil⟩
  · rintro earlier v time request step - ⟨steps', w, hshadows⟩ hserve
    cases hrequest : request.strikes a with
    | true => exact ⟨steps', w, hshadows.struck hoff hrequest hserve⟩
    | false =>
      obtain ⟨step', hkept⟩ := hshadows.kept hoff hrequest hserve
      exact ⟨_, _, hkept⟩

end Runs

/-- With the vault-wide threshold off, take every `report_failure` and every
`clear_key_lockout` of a name out of a run. The rest can still be called at the same
times; every `with_key`, `rotate` and `is_key_locked_out` on a key of another name
gives the same result, and the monitor hears the same about that name. -/
theorem keys_isolated {env : Environment} {clock unixTime : Duration} {handles : Nat}
    {steps : List Served} {v : Vault} {a b : String}
    (hoff : env.config.maxFailuresBeforeLockout = 0) (hne : a ≠ b)
    (hrun : Serves env (Vault.new clock unixTime handles) steps v) :
    ∃ steps' w, Serves env (Vault.new clock unixTime handles) steps' w ∧
      List.Forall₂ (SameFor b) (steps.filter fun step => !step.request.strikes a) steps' ∧
      (w.monitorEvents.filter fun event => event.keyName = b) =
        v.monitorEvents.filter fun event => event.keyName = b := by
  obtain ⟨steps', w, h⟩ := exists_shadows (a := a) hoff (counted_new env clock unixTime handles)
    rfl hrun
  refine ⟨steps', w, h.run, h.calls b hne.symm, ?_⟩
  -- events about `b` are among the events that are not about `a`
  have hevents := congrArg (List.filter fun event => decide (event.keyName = b)) h.spared.same.events
  simp only [List.filter_filter] at hevents
  have hpick : (fun event : MonitorEvent =>
      decide (event.keyName = b) && decide (event.keyName ≠ a)) =
        fun event => decide (event.keyName = b) := by
    funext event
    by_cases hb : event.keyName = b
    · simp [hb, hne.symm]
    · simp [hb]
  rw [hpick] at hevents
  exact hevents

def twoKeys : List (Duration × Request) :=
  [(0, .register "a" [1, 2] (.constant 5) ⟨true, true, true⟩),
    (0, .register "b" [3, 4, 5] (.constant 6) ⟨true, true, true⟩),
    (1, .reportFailure "a" none),
    (2, .reportFailure "b" none),
    (3, .reportFailure "a" none),
    (4, .reportFailure "b" none),
    (5, .clearKeyLockout "a"),
    (6, .withKey 2 true []),
    (20, .withKey 2 true [])]

def lockTwoForTen : Environment :=
  .plain { keyLockoutThreshold := 2, keyLockoutDuration := some 10 }

theorem keys_isolated_twoKeys : ∃ steps v steps' w,
    serveAll lockTwoForTen (Vault.new 0 0 0) twoKeys = some (steps, v) ∧
      Serves lockTwoForTen (Vault.new 0 0 0) steps' w ∧
      List.Forall₂ (SameFor "b") (steps.filter fun step => !step.request.strikes "a") steps' ∧
      (w.monitorEvents.filter fun event => event.keyName = "b") =
        v.monitorEvents.filter fun event => event.keyName = "b" := by
  have hruns : (serveAll lockTwoForTen (Vault.new 0 0 0) twoKeys).isSome = true := by
    decide +kernel
  obtain ⟨⟨steps, v⟩, hserves⟩ := Option.isSome_iff_exists.mp hruns
  obtain ⟨steps', w, hrun, hcalls, hevents⟩ := keys_isolated (a := "a") (b := "b")
    (by decide) (by decide) (serves_of_serveAll hserves)
  exact ⟨steps, v, steps', w, hserves, hrun, hcalls, hevents⟩

end KeyVault
