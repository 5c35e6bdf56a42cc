import KeyVault.KeyReads
import KeyVault.SequentialCalls

/-! The one-shot pair `fragment` and `defragment` against the registry: what comes
back from `defragment`, and what a reader of the same key gets. -/
namespace KeyVault

open Interleaving Atomic

def FragmentStrategy.Rejoins (s : FragmentStrategy) : Prop :=
  ∀ key rng f rng', s.fragment key rng = .ok (f, rng') → s.defragment f = .ok key

theorem Builtin.rejoins {s : FragmentStrategy} (h : Builtin s) : s.Rejoins := by
  intro key rng f rng' hfragment
  exact (h.roundTrips key rng f rng' hfragment f ⟨rfl, rfl, rfl⟩).2.1

section Calls

variable {env : Environment} {v v' : Vault}

theorem fragment_ok {os : OsAnswers} {key : Bytes} {rng : Rng} {fragments : Fragments}
    (h : runAlone env (fragment env os key rng) v = some (.ok fragments, v')) :
    v'.lockedOut = false ∧ ∃ working rng', normalForm env key = .ok working ∧
      env.fragmenter.fragment (encodedBytes env working) rng = .ok (fragments, rng') := by
  unfold fragment isLockedOut at h
  simp only [runAlone_bind, runAlone_loadLockedOut, Option.bind_some] at h
  cases hlocked : v.lockedOut with
  | true =>
    rw [hlocked] at h
    cases h
  | false =>
    rw [hlocked] at h
    simp only [Bool.false_eq_true, if_false] at h
    cases hpipeline : fragmentPipeline env os key rng with
    | error exit =>
      rw [hpipeline] at h
      cases h
    | ok out =>
      rw [hpipeline] at h
      obtain ⟨trail, haudit⟩ := runAlone_emitAudit env v "" .oneShotFragment ""
      simp only [runAlone_bind, haudit, Option.bind_some, runAlone_pure] at h
      cases h
      obtain ⟨working, hworking, hfragment⟩ := fragmentPipeline_ok hpipeline
      exact ⟨hlocked, working, out.2, hworking, hfragment⟩

theorem runAlone_defragment {fragments : Fragments} {encoded : Bytes}
    (hlocked : v.lockedOut = false) (hjoin : env.fragmenter.defragment fragments = .ok encoded) :
    ∃ w, runAlone env (defragment env fragments) v = some (.ok (encodedBytes env encoded), w) := by
  obtain ⟨trail, haudit⟩ := runAlone_emitAudit env v "" .oneShotDefragment ""
  unfold defragment isLockedOut encodedBytes
  simp only [runAlone_bind, runAlone_loadLockedOut, Option.bind_some, hlocked, Bool.false_eq_true,
    if_false, hjoin, haudit, runAlone_pure]
  exact ⟨_, rfl⟩

theorem register_ok {name : String} {key : Bytes} {rng : Rng} {os : OsAnswers} {handle : KeyId}
    (h : runAlone env (register env name key rng os) v = some (.ok handle, v')) :
    v'.lockedOut = false ∧ v'.clock = v.clock ∧ v'.keyLocks = v.keyLocks ∧
      ∃ entry, v'.keys.lookup handle = some entry ∧ entry.name = name ∧
        Stores env entry.fragments key := by
  rcases register_cases h with ⟨-, ⟨exit, hfailed⟩, -⟩ | ⟨fragments, trail, hlocked, -, hfragment,
    hresult, rfl⟩
  · cases hfailed
  · cases hresult
    exact ⟨hlocked, rfl, rfl, _, AList.lookup_insert .., rfl, os, rng, hfragment⟩

theorem keyLocked_of_not_underLockout (env : Environment) {name : String}
    (h : ¬ v.UnderLockout name) :
    ∃ w, runAlone env (keyLocked name) v = some (false, w) := by
  obtain ⟨locked, w, hrun, -, hanswer⟩ := keyLocked_answer env v name
  have hlocked : locked = false := by
    rw [← Bool.not_eq_true, hanswer]
    exact fun hboth => h hboth.2
  subst hlocked
  exact ⟨w, hrun⟩

theorem withKey_of_stores {handle : KeyId} {entry : KeyEntry} {key working : Bytes}
    (hcodex : env.CodexUndone) (hfragmenter : env.fragmenter.Reliable)
    (hlocked : v.lockedOut = false) (hlookup : v.keys.lookup handle = some entry)
    (hstores : Stores env entry.fragments key) (hworking : normalForm env key = .ok working)
    (hunlocked : ¬ v.UnderLockout entry.name) (scratch : Bytes) :
    ∃ w, runAlone env (withKey env handle true scratch id) v = some (.ok working, w) := by
  obtain ⟨looked, hcheck⟩ := keyLocked_of_not_underLockout env hunlocked
  obtain ⟨bytes, hbytes, hread⟩ := readKey_of_stores hcodex hfragmenter hstores true scratch
  rw [hworking] at hbytes
  cases hbytes
  have hok : (readKey env entry.fragments true scratch id).1 = .ok working := by
    rcases hread with hok | ⟨hopens, -⟩
    · exact hok
    · cases hopens
  obtain ⟨trail, haudit⟩ := runAlone_emitAudit env looked entry.name .read ""
  unfold withKey isLockedOut readEntry
  simp only [runAlone_bind, runAlone_loadLockedOut, runAlone_loadKeys, Option.bind_some, hlocked,
    Bool.false_eq_true, if_false, hlookup, hcheck, hok, haudit, runAlone_pure]
  exact ⟨_, rfl⟩

end Calls

/-- `defragment` on the fragments of a key returns what `with_key` hands to its
callback once the key is registered: the normalized key. -/
def OneShotAgrees (env : Environment) (key : Bytes) (fragments : Fragments)
    (afterFragment : Vault) (handle : KeyId) (afterRegister : Vault) (scratch : Bytes) : Prop :=
  ∃ bytes, normalForm env key = .ok bytes ∧
    (∃ w, runAlone env (defragment env fragments) afterFragment = some (.ok bytes, w)) ∧
    ∃ w, runAlone env (withKey env handle true scratch id) afterRegister = some (.ok bytes, w)

/-- The codex, if there is one, undoes itself on these bytes. -/
def EncodesBack (env : Environment) (bytes : Bytes) : Prop :=
  ∀ codex ∈ env.codex, ∀ byte ∈ bytes, codex.encode (codex.encode byte) = byte

theorem map_eq_self_iff {α : Type} {f : α → α} {items : List α} :
    items.map f = items ↔ ∀ item ∈ items, f item = item := by
  induction items with
  | nil => simp
  | cons item items ih => simp [ih]

theorem encodedBytes_encodedBytes_iff (env : Environment) (bytes : Bytes) :
    encodedBytes env (encodedBytes env bytes) = bytes ↔ EncodesBack env bytes := by
  unfold encodedBytes EncodesBack codexApply
  cases hcodex : env.codex with
  | none => simp
  | some codex =>
    dsimp only
    rw [List.map_map, map_eq_self_iff]
    simp

/-- `defragment` runs the codex forwards once more. So it agrees with `with_key`
on the keys whose normalized bytes the codex gives back when it is applied twice,
and on no others. -/
theorem oneShotAgrees_iff {env : Environment} (hcodex : env.CodexUndone)
    (hreliable : env.fragmenter.Reliable) (hrejoins : env.fragmenter.Rejoins)
    {v afterFragment afterRegister : Vault} {name : String} {key : Bytes} {rng rng' : Rng}
    {os os' : OsAnswers} {fragments : Fragments} {handle : KeyId} {working : Bytes}
    (hworking : normalForm env key = .ok working)
    (hfragment : runAlone env (fragment env os key rng) v = some (.ok fragments, afterFragment))
    (hregister : runAlone env (register env name key rng' os') v =
      some (.ok handle, afterRegister))
    (hunlocked : ¬ v.UnderLockout name) (scratch : Bytes) :
    OneShotAgrees env key fragments afterFragment handle afterRegister scratch ↔
      EncodesBack env working := by
  obtain ⟨hopen, bytes, rngAfter, hbytes, hmade⟩ := fragment_ok hfragment
  rw [hworking] at hbytes
  cases hbytes
  obtain ⟨joined, hdefragment⟩ := runAlone_defragment hopen (hrejoins _ _ _ _ hmade)
  obtain ⟨hregistered, hclock, hlocks, entry, hlookup, rfl, hstores⟩ := register_ok hregister
  have hreadable : ¬ afterRegister.UnderLockout entry.name := by
    unfold Vault.UnderLockout at hunlocked ⊢
    rw [hclock, hlocks]
    exact hunlocked
  have hread := withKey_of_stores hcodex hreliable hregistered hlookup hstores hworking hreadable
    scratch
  rw [← encodedBytes_encodedBytes_iff]
  constructor
  · rintro ⟨bytes, hbytes, ⟨w, hsame⟩, -⟩
    rw [hworking] at hbytes
    cases hbytes
    rw [hdefragment, Option.some.injEq, Prod.mk.injEq, Except.ok.injEq] at hsame
    exact hsame.1
  · intro hback
    rw [hback] at hdefragment
    exact ⟨working, hworking, ⟨joined, hdefragment⟩, hread⟩

/-- A codex that is its own inverse, as all codices of the library are. -/
def maskedVault : Environment :=
  { Environment.plain {} with codex := some ⟨(· ^^^ 85), (· ^^^ 85)⟩ }

theorem mask_mask (byte : UInt8) : byte ^^^ 85 ^^^ 85 = byte := by
  rw [UInt8.xor_assoc, UInt8.xor_self, UInt8.xor_zero]

theorem maskedVault_codexUndone : maskedVault.CodexUndone := by
  rintro codex ⟨⟩ byte
  exact mask_mask byte

def onOk {α β : Type} (outcome : Option (Result α × Vault)) (f : α → Vault → β) :
    Option (Option β) :=
  outcome.map fun out => out.1.toOption.map (f · out.2)

theorem onOk_eq_some {α β : Type} {outcome : Option (Result α × Vault)} {f : α → Vault → β}
    {b : β} (h : onOk outcome f = some (some b)) :
    ∃ value w, outcome = some (.ok value, w) ∧ f value w = b := by
  obtain ⟨⟨result, w⟩, rfl, hvalue⟩ := Option.map_eq_some_iff.mp h
  cases result with
  | error exit => cases hvalue
  | ok value => exact ⟨value, w, rfl, Option.some.inj hvalue⟩

theorem oneShotAgrees_masked : ∃ fragments afterFragment handle afterRegister,
    runAlone maskedVault (fragment maskedVault ⟨true, true, true⟩ [1, 2, 3] (.constant 5))
        (Vault.new 0 0 0) = some (.ok fragments, afterFragment) ∧
      runAlone maskedVault (register maskedVault "k" [1, 2, 3] (.constant 6) ⟨true, true, true⟩)
        (Vault.new 0 0 0) = some (.ok handle, afterRegister) ∧
      OneShotAgrees maskedVault [1, 2, 3] fragments afterFragment handle afterRegister [66] := by
  have hfragment : onOk (runAlone maskedVault
      (fragment maskedVault ⟨true, true, true⟩ [1, 2, 3] (.constant 5)) (Vault.new 0 0 0))
        (fun _ _ => ()) = some (some ()) := by decide +kernel
  have hregister : onOk (runAlone maskedVault
      (register maskedVault "k" [1, 2, 3] (.constant 6) ⟨true, true, true⟩) (Vault.new 0 0 0))
        (fun _ _ => ()) = some (some ()) := by decide +kernel
  obtain ⟨fragments, afterFragment, hfragmented, -⟩ := onOk_eq_some hfragment
  obtain ⟨handle, afterRegister, hregistered, -⟩ := onOk_eq_some hregister
  refine ⟨fragments, afterFragment, handle, afterRegister, hfragmented, hregistered, ?_⟩
  apply (oneShotAgrees_iff maskedVault_codexUndone
    (Builtin.reliable (.standard StandardFragmenter.new))
    (Builtin.rejoins (.standard StandardFragmenter.new)) rfl hfragmented hregistered _ [66]).mpr
  · rintro codex ⟨⟩ byte -
    exact mask_mask byte
  · rintro ⟨deadline, hlookup, -⟩
    cases hlookup

/-- A codex that shifts bytes: `defragment` shifts them a second time. -/
theorem oneShotAgrees_fails : ∃ fragments afterFragment handle afterRegister,
    runAlone shiftedVault (fragment shiftedVault ⟨true, true, true⟩ [1, 2, 3] (.constant 5))
        (Vault.new 0 0 0) = some (.ok fragments, afterFragment) ∧
      runAlone shiftedVault (register shiftedVault "k" [1, 2, 3] (.constant 6) ⟨true, true, true⟩)
        (Vault.new 0 0 0) = some (.ok handle, afterRegister) ∧
      (runAlone shiftedVault (defragment shiftedVault fragments) afterFragment).map Prod.fst =
        some (.ok [3, 4, 5]) ∧
      (runAlone shiftedVault (withKey shiftedVault handle true [] id) afterRegister).map Prod.fst =
        some (.ok [1, 2, 3]) ∧
      ¬ OneShotAgrees shiftedVault [1, 2, 3] fragments afterFragment handle afterRegister [] := by
  have hfragment : onOk (runAlone shiftedVault
      (fragment shiftedVault ⟨true, true, true⟩ [1, 2, 3] (.constant 5)) (Vault.new 0 0 0))
        (fun fragments w =>
          (runAlone shiftedVault (defragment shiftedVault fragments) w).map Prod.fst) =
      some (some (some (.ok [3, 4, 5]))) := by decide +kernel
  have hregister : onOk (runAlone shiftedVault
      (register shiftedVault "k" [1, 2, 3] (.constant 6) ⟨true, true, true⟩) (Vault.new 0 0 0))
        (fun handle w =>
          (runAlone shiftedVault (withKey shiftedVault handle true [] id) w).map Prod.fst) =
      some (some (some (.ok [1, 2, 3]))) := by decide +kernel
  obtain ⟨fragments, afterFragment, hfragmented, hjoined⟩ := onOk_eq_some hfragment
  obtain ⟨handle, afterRegister, hregistered, hread⟩ := onOk_eq_some hregister
  refine ⟨fragments, afterFragment, handle, afterRegister, hfragmented, hregistered, hjoined,
    hread, ?_⟩
  rintro ⟨bytes, -, ⟨w, hdefragment⟩, ⟨w', hwithKey⟩⟩
  rw [hdefragment] at hjoined
  rw [hwithKey] at hread
  cases hjoined
  cases hread

end KeyVault
