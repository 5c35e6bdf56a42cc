import KeyVault.LockedVault
import KeyVault.VaultFootprint

/-! The vault with its mutexes does what the vault of atomic steps does. -/
namespace KeyVault

open Interleaving

/-- The two levels of the vault: only the lockouts and the backoff can differ, while somebody is
at work on them under their lock. A registry writer counts on the map it has loaded. -/
def vaultLevels : Levels VaultLock Vault Vault where
  agrees v w := ∃ keyLocks backoff, w = { v with keyLocks := keyLocks, masterBackoff := backoff }
  Part
    | .keyLocks =>
        (AList fun _ : String => Option Duration) × (AList fun _ : String => Option Duration)
    | .masterBackoff => Backoff × Backoff
    | .writer => KeyMap
    | .registry | .failureTracker => Unit
  part
    | .keyLocks, v, w => (v.keyLocks, w.keyLocks)
    | .masterBackoff, v, w => (v.masterBackoff, w.masterBackoff)
    | .writer, v, _ => v.keys
    | .registry, _, _ | .failureTracker, _, _ => ()
  settled
    | .keyLocks, both => both.1 = both.2
    | .masterBackoff, both => both.1 = both.2
    | .writer, _ | .registry, _ | .failureTracker, _ => True

def SectionOp.removes : SectionOp → Bool
  | .removeLock _ => true
  | _ => false

def removesLock : LockOp VaultLock SectionOp → Bool
  | .inner op => op.removes
  | .lock _ | .unlock _ => false

theorem removesLock_elim {op : LockOp VaultLock SectionOp} (h : removesLock op = true) :
    ∃ name, op = .inner (.removeLock name) := by
  cases op with
  | inner op =>
    cases op with
    | removeLock name => exact ⟨name, rfl⟩
    | _ => cases h
  | _ => cases h

abbrev SectionOp.Keeps (op : SectionOp) : Prop := op.removes = false

def KeepsLockouts (c : LockedConfiguration) : Prop :=
  ∀ entry ∈ c.log, removesLock entry.event.op = false

theorem KeepsLockouts.quiet {c : LockedConfiguration} (h : KeepsLockouts c) :
    ∀ entry ∈ c.log, ∀ op : SectionOp, entry.event.op = .inner op → op.Keeps := by
  intro entry hentry op hop
  have hkept := h entry hentry
  rw [hop] at hkept
  exact hkept

variable (env : Environment)

abbrev StepFollows (op : VaultOp) :
    List VaultLock → Option op.Ret → LockedProgram op.Ret → Vault → Vault → Prop :=
  Follows (S := sectionOps) (T := vaultSignature) vaultLevels SectionOp.Keeps
    (SectionOp.perform env) (Vault.perform env) op

def AlikeOnBoth (op : VaultOp) : Prop :=
  ∀ v keyLocks backoff ret v', Vault.perform env op v = some (ret, v') →
    Vault.perform env op { v with keyLocks := keyLocks, masterBackoff := backoff } =
        some (ret, { v' with keyLocks := keyLocks, masterBackoff := backoff }) ∧
      v'.keyLocks = v.keyLocks ∧ v'.masterBackoff = v.masterBackoff ∧ v'.keys = v.keys

variable {env}

theorem follows_plain {op : VaultOp} (h : AlikeOnBoth env op) (v w : Vault) :
    StepFollows env op [] none (accessOf (.plain op)) v w := by
  rintro v w ⟨keyLocks, backoff, rfl⟩ - - ret v' hperform
  obtain ⟨habove, hkeyLocks, hbackoff, hkeys⟩ := h v keyLocks backoff ret v' hperform
  refine ⟨some ret, _, .inr ⟨rfl, ret, habove, rfl⟩, ⟨keyLocks, backoff, rfl⟩, ?_, rfl, rfl⟩
  intro l _
  cases l <;> simp [vaultLevels, hkeyLocks, hbackoff, hkeys]

section Sections

variable {op : VaultOp} {held : List VaultLock} {v v' w w' : Vault}

theorem agrees_intro {keyLocks : AList fun _ : String => Option Duration} {backoff : Backoff} :
    vaultLevels.agrees v { v with keyLocks := keyLocks, masterBackoff := backoff } :=
  ⟨keyLocks, backoff, rfl⟩

theorem keyLocks_same (h : vaultLevels.Same [.keyLocks] v w v' w') :
    v'.keyLocks = v.keyLocks ∧ w'.keyLocks = w.keyLocks :=
  Prod.mk.inj (h .keyLocks (List.mem_singleton.mpr rfl))

theorem follows_unlock {ret : op.Ret} {l : VaultLock} (h : vaultLevels.settled l (vaultLevels.part l v w)) :
    StepFollows env op [l] (some ret)
      (.step (S := lockSignature VaultLock sectionOps) (.unlock l) fun _ => .done ret) v w := by
  intro v' w' _ hsame
  have hpart : vaultLevels.part l v' w' = vaultLevels.part l v w :=
    hsame l (List.mem_singleton.mpr rfl)
  refine ⟨?_, List.erase_cons_head .., rfl⟩
  rw [hpart]
  exact h

theorem outside_keyLocks (hkeys : v'.keys = v.keys) (hbelow : v'.masterBackoff = v.masterBackoff)
    (habove : w'.masterBackoff = w.masterBackoff) (l : VaultLock) (hl : l ∉ [VaultLock.keyLocks]) :
    vaultLevels.part l v' w' = vaultLevels.part l v w := by
  cases l with
  | keyLocks => exact absurd (List.mem_singleton.mpr rfl) hl
  | writer => exact hkeys
  | masterBackoff => exact congrArg₂ Prod.mk hbelow habove
  | _ => rfl

section Answers

variable {name : String} (w)

theorem perform_lockKey_known (h : name ∈ w.keyLocks) (deadline : Option Duration) :
    Vault.perform env (.lockKey name deadline) w =
      some (false, { w with keyLocks := w.keyLocks.insert name deadline }) := by
  show w.lockKey env name deadline = _
  simp [Vault.lockKey, h]

theorem perform_lockKey_new (h : name ∉ w.keyLocks)
    (hroom : mapLen w.keyLocks + 1 < 2 ^ env.usizeBits) (deadline : Option Duration) :
    Vault.perform env (.lockKey name deadline) w = some (true, { w with
      keyLocks := w.keyLocks.insert name deadline
      keyLocksActive := Vault.fetchAdd env w.keyLocksActive }) := by
  show w.lockKey env name deadline = _
  simp [Vault.lockKey, h, hroom]

theorem perform_keyLockedSlow {locked : Bool} (h : w.keyLockedSlow env name = (locked, w)) :
    Vault.perform env (.keyLockedSlow name) w = some (locked, w) := congrArg some h

end Answers

theorem follows_lockKey (name : String) (deadline : Option Duration) (v w : Vault) :
    StepFollows env (.lockKey name deadline) [] none (lockKeySection name deadline) v w := by
  rintro v w - - hsettled
  rintro v₁ w₁ ⟨keyLocks, backoff, rfl⟩ hsame - previous v₂ hperform
  obtain ⟨hbelow, habove⟩ := keyLocks_same hsame
  obtain rfl : keyLocks = v₁.keyLocks := habove.trans (hsettled.symm.trans hbelow.symm)
  simp only [SectionOp.perform, Vault.insertLock] at hperform
  split at hperform
  · rename_i hroom
    cases hperform
    by_cases hmem : name ∈ v₁.keyLocks
    · -- a lockout is replaced: nothing is left to do
      obtain ⟨old, hold⟩ := Option.isSome_iff_exists.mp (AList.lookup_isSome.mpr hmem)
      refine ⟨some false, { v₁ with
          keyLocks := v₁.keyLocks.insert name deadline
          masterBackoff := backoff },
        .inr ⟨rfl, false, perform_lockKey_known _ (by exact hmem) deadline, rfl⟩, agrees_intro,
        outside_keyLocks rfl rfl rfl, ?_⟩
      rw [hold]
      exact follows_unlock rfl
    · -- a lockout is new: the counter is what others can see of it
      have hroom' : mapLen v₁.keyLocks + 1 < 2 ^ env.usizeBits := hroom.resolve_left hmem
      refine ⟨none, { v₁ with masterBackoff := backoff }, .inl ⟨rfl, rfl⟩, agrees_intro,
        outside_keyLocks rfl rfl rfl, ?_⟩
      rw [AList.lookup_eq_none.mpr hmem]
      rintro v₃ w₃ ⟨keyLocks', backoff', rfl⟩ hsame' - ret v₄ hadd
      obtain ⟨hbelow', habove'⟩ := keyLocks_same hsame'
      obtain rfl : keyLocks' = v₁.keyLocks := habove'
      cases hadd
      refine ⟨some true, { v₃ with
          keyLocks := v₁.keyLocks.insert name deadline
          keyLocksActive := Vault.fetchAdd env v₃.keyLocksActive
          masterBackoff := backoff' },
        .inr ⟨rfl, true, perform_lockKey_new _ (by exact hmem) (by exact hroom') deadline, rfl⟩,
        ⟨_, _, rfl⟩, outside_keyLocks rfl rfl rfl, ?_⟩
      exact follows_unlock hbelow'
  · cases hperform

theorem follows_clearKeyLocks (v w : Vault) :
    StepFollows env .clearKeyLocks [] none clearKeyLocksSection v w := by
  rintro v w - - -
  rintro v₁ w₁ ⟨keyLocks, backoff, rfl⟩ - - ret v₂ hwipe
  cases hwipe
  refine ⟨none, { v₁ with
      keyLocks := keyLocks
      masterBackoff := backoff }, .inl ⟨rfl, rfl⟩, agrees_intro,
    outside_keyLocks rfl rfl rfl, ?_⟩
  rintro v₃ w₃ ⟨keyLocks', backoff', rfl⟩ hsame' - ret v₄ hstore
  obtain ⟨hbelow', -⟩ := keyLocks_same hsame'
  cases hstore
  refine ⟨some (), { v₃ with
      keyLocks := ∅
      keyLocksActive := 0
      masterBackoff := backoff' },
    .inr ⟨rfl, (), rfl, rfl⟩, ⟨_, _, rfl⟩, outside_keyLocks rfl rfl rfl, ?_⟩
  exact follows_unlock hbelow'

/-- Until the removal of an expired lockout: whether there is one is decided when the clock is
read, or before. -/
theorem follows_keyLockedSlow (name : String) (v w : Vault) :
    StepFollows env (.keyLockedSlow name) [] none (keyLockedSection name) v w := by
  rintro v w - - hsettled
  rintro v₁ w₁ ⟨keyLocks, backoff, rfl⟩ hsame - found v₂ hget
  obtain ⟨hbelow, habove⟩ := keyLocks_same hsame
  obtain rfl : keyLocks = v₁.keyLocks := habove.trans (hsettled.symm.trans hbelow.symm)
  cases hget
  cases hfound : v₁.keyLocks.lookup name with
  | none =>
    refine ⟨some false, { v₁ with masterBackoff := backoff },
      .inr ⟨rfl, false, perform_keyLockedSlow _ (by simp [Vault.keyLockedSlow, hfound]), rfl⟩, agrees_intro,
      outside_keyLocks rfl rfl rfl, follows_unlock rfl⟩
  | some deadline =>
    cases deadline with
    | none =>
      refine ⟨some true, { v₁ with masterBackoff := backoff },
        .inr ⟨rfl, true, perform_keyLockedSlow _ (by simp [Vault.keyLockedSlow, hfound]), rfl⟩, agrees_intro,
        outside_keyLocks rfl rfl rfl, follows_unlock rfl⟩
    | some stop =>
      refine ⟨none, { v₁ with masterBackoff := backoff }, .inl ⟨rfl, rfl⟩, agrees_intro,
        outside_keyLocks rfl rfl rfl, ?_⟩
      rintro v₃ w₃ ⟨keyLocks', backoff', rfl⟩ hsame' - now v₄ hclock
      obtain ⟨hbelow', habove'⟩ := keyLocks_same hsame'
      obtain rfl : keyLocks' = v₁.keyLocks := habove'
      cases hclock
      by_cases hbefore : v₃.clock < stop
      · refine ⟨some true, { v₃ with
            keyLocks := v₁.keyLocks
            masterBackoff := backoff' },
          .inr ⟨rfl, true, perform_keyLockedSlow _ (by simp [Vault.keyLockedSlow, hfound, hbefore]), rfl⟩,
          ⟨_, _, rfl⟩, outside_keyLocks rfl rfl rfl, ?_⟩
        show StepFollows env _ _ _ ((if v₃.clock < stop then _ else _ : LockedProgram Bool).bind _) _ _
        rw [if_pos hbefore]
        exact follows_unlock hbelow'
      · refine ⟨none, _, .inl ⟨rfl, rfl⟩, ⟨_, _, rfl⟩, outside_keyLocks rfl rfl rfl, ?_⟩
        show StepFollows env _ _ _ ((if v₃.clock < stop then _ else _ : LockedProgram Bool).bind _) _ _
        rw [if_neg hbefore]
        exact fun _ _ _ _ hkeeps => by cases hkeeps

/-! #### The master attempt -/

theorem outside_masterBackoff (hkeys : v'.keys = v.keys) (hbelow : v'.keyLocks = v.keyLocks)
    (habove : w'.keyLocks = w.keyLocks) (l : VaultLock) (hl : l ∉ [VaultLock.masterBackoff]) :
    vaultLevels.part l v' w' = vaultLevels.part l v w := by
  cases l with
  | masterBackoff => exact absurd (List.mem_singleton.mpr rfl) hl
  | writer => exact hkeys
  | keyLocks => exact congrArg₂ Prod.mk hbelow habove
  | _ => rfl

theorem masterBackoff_same (h : vaultLevels.Same [.masterBackoff] v w v' w') :
    v'.masterBackoff = v.masterBackoff ∧ w'.masterBackoff = w.masterBackoff :=
  Prod.mk.inj (h .masterBackoff (List.mem_singleton.mpr rfl))

theorem follows_storeBackoff {ret : op.Ret} {backoff : Backoff} (h : w.masterBackoff = backoff) :
    StepFollows env op [.masterBackoff] (some ret)
      (.step (S := lockSignature VaultLock sectionOps) (.inner (.storeBackoff backoff)) fun _ =>
        .step (S := lockSignature VaultLock sectionOps) (.unlock .masterBackoff) fun _ =>
          .done ret) v w := by
  rintro v₁ w₁ ⟨keyLocks, backoff', rfl⟩ hsame - stored v₂ hstore
  obtain ⟨-, habove⟩ := masterBackoff_same hsame
  obtain rfl : backoff' = backoff := habove.trans h
  cases hstore
  exact ⟨some ret, _, .inl ⟨rfl, rfl⟩, ⟨keyLocks, backoff', rfl⟩,
    outside_masterBackoff rfl rfl rfl, follows_unlock rfl⟩

theorem follows_settleAttempt {verifier : MasterVerifier} {attempt : Bytes} {opens : Bool}
    {after : Vault} {ret : MasterAttempt} (before : Vault)
    (hout : Vault.attemptMaster env before verifier attempt opens = (ret, after))
    (hv : v.masterBackoff = before.masterBackoff) (hw : w.masterBackoff = after.masterBackoff) :
    StepFollows env (.attemptMaster verifier attempt opens) [.masterBackoff] (some ret)
      ((settleAttempt env verifier attempt opens before.clock before.masterBackoff).bind
        fun value => .step (S := lockSignature VaultLock sectionOps) (.unlock .masterBackoff)
          fun _ => .done value) v w := by
  have hunchanged : before = after → vaultLevels.settled .masterBackoff
      (vaultLevels.part .masterBackoff v w) := fun h => hv.trans (h ▸ hw.symm)
  unfold Vault.attemptMaster at hout
  unfold settleAttempt
  dsimp only at hout
  split at hout
  · rename_i hearly
    cases hout
    rw [if_pos hearly]
    exact follows_unlock (hunchanged rfl)
  · rename_i hlate
    rw [if_neg hlate]
    cases verifier with
    | unavailable reason =>
      cases hout
      exact follows_unlock (hunchanged rfl)
    | ready secret =>
      dsimp only at hout ⊢
      cases hread : secret.read opens with
      | error exit =>
        rw [hread] at hout
        cases hout
        exact follows_unlock (hunchanged rfl)
      | ok stored =>
        rw [hread] at hout
        dsimp only at hout ⊢
        split at hout
        · rename_i hmatched
          cases hout
          rw [if_pos hmatched]
          exact follows_storeBackoff hw
        · rename_i hmatched
          cases hout
          rw [if_neg hmatched]
          exact follows_storeBackoff hw

/-- The attempt is decided when the clock is read: nobody else can get at the backoff. -/
theorem follows_attemptMaster (verifier : MasterVerifier) (attempt : Bytes) (opens : Bool)
    (v w : Vault) : StepFollows env (.attemptMaster verifier attempt opens) [] none
      (attemptSection env verifier attempt opens) v w := by
  rintro v w - - hsettled
  rintro v₁ w₁ ⟨keyLocks, backoff, rfl⟩ hsame - now v₂ hclock
  obtain ⟨hbelow, habove⟩ := masterBackoff_same hsame
  obtain rfl : backoff = v₁.masterBackoff := habove.trans (hsettled.symm.trans hbelow.symm)
  cases hclock
  generalize hout :
    Vault.attemptMaster env { v₁ with keyLocks := keyLocks } verifier attempt opens = out
  obtain ⟨ret, w₂⟩ := out
  obtain ⟨backoff, hframe⟩ :=
    Vault.attemptMaster_frame env { v₁ with keyLocks := keyLocks } verifier attempt opens
  obtain rfl : { v₁ with
      keyLocks := keyLocks
      masterBackoff := backoff } = w₂ := by
    rw [hout] at hframe
    exact hframe.symm
  refine ⟨some ret, _, .inr ⟨rfl, ret, congrArg some hout, rfl⟩, ⟨keyLocks, backoff, rfl⟩,
    outside_masterBackoff rfl rfl rfl, ?_⟩
  rintro v₃ w₃ ⟨keyLocks', backoff', rfl⟩ hsame' - loaded v₄ hload
  obtain ⟨hbelow', habove'⟩ := masterBackoff_same hsame'
  cases hload
  refine ⟨some ret, _, .inl ⟨rfl, rfl⟩, ⟨keyLocks', backoff', rfl⟩,
    outside_masterBackoff rfl rfl rfl, ?_⟩
  rw [hbelow']
  exact follows_settleAttempt { v₁ with keyLocks := keyLocks } hout hbelow' habove'

/-! #### The registry writers -/

theorem outside_writer (hbelow : v'.keyLocks = v.keyLocks ∧ v'.masterBackoff = v.masterBackoff)
    (habove : w'.keyLocks = w.keyLocks ∧ w'.masterBackoff = w.masterBackoff)
    (hwriter : v'.keys = v.keys ∨ VaultLock.writer ∈ held) (l : VaultLock) (hl : l ∉ held) :
    vaultLevels.part l v' w' = vaultLevels.part l v w := by
  cases l with
  | writer => exact hwriter.resolve_right hl
  | keyLocks => exact congrArg₂ Prod.mk hbelow.1 habove.1
  | masterBackoff => exact congrArg₂ Prod.mk hbelow.2 habove.2
  | _ => rfl

/-- Loading the registry, whether or not its cell has a lock: what is loaded is there when the
rest of the section goes on, and the step above may be taken at the load. -/
theorem follows_loadRegistry {std : Bool} {rest : KeyMap → LockedProgram op.Ret}
    (h : ∀ v' w', vaultLevels.agrees v' w' → vaultLevels.Same held v w v' w' →
      ∃ answer w'', ((answer = none ∧ w'' = w') ∨
          ∃ out, Vault.perform env op w' = some (out, w'') ∧ answer = some out) ∧
        vaultLevels.agrees v' w'' ∧
        (w''.keyLocks = w'.keyLocks ∧ w''.masterBackoff = w'.masterBackoff) ∧
        StepFollows env op held answer (rest v'.keys) v' w'') :
    StepFollows env op held none (loadRegistry std >>= rest) v w := by
  cases std with
  | true =>
    intro v₁ w₁ hagrees hsame _ keys v₂ hload
    cases hload
    obtain ⟨answer, w₂, hmoves, hagrees', habove, hrest⟩ := h v₁ w₁ hagrees hsame
    refine ⟨answer, w₂, ?_, hagrees', outside_writer ⟨rfl, rfl⟩ habove (.inl rfl), hrest⟩
    rcases hmoves with hstays | ⟨out, hperform, hanswer⟩
    · exact .inl hstays
    · exact .inr ⟨rfl, out, hperform, hanswer⟩
  | false =>
    intro v₀ w₀ hagrees₀ hsame₀ _ v₁ w₁ hagrees hsame _ keys v₂ hload
    cases hload
    have hlater : vaultLevels.Same held v w v₁ w₁ :=
      vaultLevels.same_trans hsame₀ fun l hl => hsame l (List.mem_cons_of_mem _ hl)
    obtain ⟨answer, w₂, hmoves, hagrees', habove, hrest⟩ := h v₁ w₁ hagrees hlater
    refine ⟨answer, w₂, ?_, hagrees', outside_writer ⟨rfl, rfl⟩ habove (.inl rfl), ?_⟩
    · rcases hmoves with hstays | ⟨out, hperform, hanswer⟩
      · exact .inl hstays
      · exact .inr ⟨rfl, out, hperform, hanswer⟩
    · intro v₃ w₃ _ hsame₃
      refine ⟨trivial, ?_⟩
      have hheld : (VaultLock.registry :: held).erase .registry = held := List.erase_cons_head ..
      rw [hheld]
      exact hrest.later fun l hl => hsame₃ l (List.mem_cons_of_mem _ hl)

theorem follows_swapRegistry {std : Bool} {keys : KeyMap} {rest : KeyMap → LockedProgram op.Ret}
    {out : op.Ret} (hwriter : VaultLock.writer ∈ held)
    (habove : ∀ v' w', vaultLevels.agrees v' w' → vaultLevels.Same held v w v' w' →
      Vault.perform env op w' = some (out, { w' with keys := keys }))
    (hrest : ∀ old v' w', StepFollows env op held (some out) (rest old) v' w') :
    StepFollows env op held none (swapRegistry std keys >>= rest) v w := by
  cases std with
  | true =>
    intro v₁ w₁ hagrees hsame _ old v₂ hswap
    cases hswap
    refine ⟨some out, _, .inr ⟨rfl, out, habove v₁ w₁ hagrees hsame, rfl⟩, ?_,
      outside_writer ⟨rfl, rfl⟩ ⟨rfl, rfl⟩ (.inr hwriter), hrest _ _ _⟩
    obtain ⟨keyLocks, backoff, rfl⟩ := hagrees
    exact ⟨keyLocks, backoff, rfl⟩
  | false =>
    intro v₀ w₀ _ hsame₀ _ v₁ w₁ hagrees hsame _ old v₂ hswap
    cases hswap
    have hlater : vaultLevels.Same held v w v₁ w₁ :=
      vaultLevels.same_trans hsame₀ fun l hl => hsame l (List.mem_cons_of_mem _ hl)
    refine ⟨some out, _, .inr ⟨rfl, out, habove v₁ w₁ hagrees hlater, rfl⟩, ?_,
      outside_writer ⟨rfl, rfl⟩ ⟨rfl, rfl⟩ (.inr (List.mem_cons_of_mem _ hwriter)), ?_⟩
    · obtain ⟨keyLocks, backoff, rfl⟩ := hagrees
      exact ⟨keyLocks, backoff, rfl⟩
    · intro v₃ w₃ _ _
      have hheld : (VaultLock.registry :: held).erase .registry = held := List.erase_cons_head ..
      rw [hheld]
      exact ⟨trivial, hrest _ _ _⟩

theorem follows_updateRegistry {std : Bool} (update : KeyMap → op.Ret × Option KeyMap)
    (habove : ∀ w, Vault.perform env op w =
      some ((update w.keys).1, { w with keys := (update w.keys).2.getD w.keys })) (v w : Vault) :
    StepFollows env op [] none (updateRegistry std update) v w := by
  intro v₀ w₀ _ _ _
  have hdone : ∀ {ret : op.Ret} (v w : Vault), StepFollows env op [.writer] (some ret)
      (.step (S := lockSignature VaultLock sectionOps) (.unlock .writer) fun _ => .done ret) v w :=
    fun _ _ => follows_unlock trivial
  have hwriter : VaultLock.writer ∈ [VaultLock.writer] := List.mem_singleton.mpr rfl
  show StepFollows env op [.writer] none ((loadRegistry std >>= _) >>= _) v₀ w₀
  rw [Program.bind_assoc]
  refine follows_loadRegistry fun v₁ w₁ hagrees hsame => ?_
  have hkeys : w₁.keys = v₁.keys := by
    obtain ⟨keyLocks, backoff, rfl⟩ := hagrees
    rfl
  dsimp only
  cases hupdate : update v₁.keys with
  | mk ret new =>
    cases new with
    | none =>
      refine ⟨some ret, w₁, .inr ⟨ret, ?_, rfl⟩, hagrees, ⟨rfl, rfl⟩, hdone v₁ w₁⟩
      rw [habove, hkeys, hupdate]
      show some (ret, { w₁ with keys := v₁.keys }) = some (ret, w₁)
      rw [← hkeys]
    | some keys =>
      refine ⟨none, w₁, .inl ⟨rfl, rfl⟩, hagrees, ⟨rfl, rfl⟩, ?_⟩
      show StepFollows env op [.writer] none ((swapRegistry std keys >>= _) >>= _) v₁ w₁
      rw [Program.bind_assoc]
      refine follows_swapRegistry hwriter (fun v₂ w₂ hagrees₂ hsame₂ => ?_)
        fun old v' w' => hdone v' w'
      have hkeys₂ : w₂.keys = v₁.keys := by
        obtain ⟨keyLocks, backoff, rfl⟩ := hagrees₂
        exact hsame₂ .writer hwriter
      rw [habove, hkeys₂, hupdate]
      rfl

/-! #### Single accesses -/

theorem follows_section (l : VaultLock) (hl : ∀ both, vaultLevels.settled l both)
    (h : AlikeOnBoth env op) (v w : Vault) :
    StepFollows env op [] none (underLock l (accessOf (.plain op))) v w := by
  rintro v₀ w₀ - - -
  rintro v w ⟨keyLocks, backoff, rfl⟩ - - ret v' hperform
  obtain ⟨habove, hkeyLocks, hbackoff, hkeys⟩ := h v keyLocks backoff ret v' hperform
  refine ⟨some ret, _, .inr ⟨rfl, ret, habove, rfl⟩, ⟨keyLocks, backoff, rfl⟩,
    fun l _ => ?_, follows_unlock (hl _)⟩
  cases l <;> simp [vaultLevels, hkeyLocks, hbackoff, hkeys]

theorem follows_unlockKey (name : String) (v w : Vault) :
    StepFollows env (.unlockKey name) [] none
      (underLock .keyLocks (accessOf (.plain (.unlockKey name)))) v w := by
  rintro v w - - hsettled
  rintro v₁ w₁ ⟨keyLocks, backoff, rfl⟩ hsame - removed v₂ hperform
  obtain ⟨hbelow, habove⟩ := keyLocks_same hsame
  obtain rfl : keyLocks = v₁.keyLocks := habove.trans (hsettled.symm.trans hbelow.symm)
  cases hperform
  exact ⟨some _, { v₁ with
      keyLocks := v₁.keyLocks.erase name
      masterBackoff := backoff }, .inr ⟨rfl, _, rfl, rfl⟩, agrees_intro,
    outside_keyLocks rfl rfl rfl, follows_unlock rfl⟩

theorem alikeOnBoth (h : op.writes .keys = false) (hbackoff : op.writes .masterBackoff = false)
    (hlocks : ∀ name deadline, op ≠ .lockKey name deadline ∧ op ≠ .unlockKey name ∧
      op ≠ .clearKeyLocks ∧ op ≠ .keyLockedSlow name) : AlikeOnBoth env op := by
  intro v keyLocks backoff ret v' hperform
  cases op with
  | lockKey name deadline => exact absurd rfl (hlocks name deadline).1
  | unlockKey name => exact absurd rfl (hlocks name none).2.1
  | clearKeyLocks => exact absurd rfl (hlocks "" none).2.2.1
  | keyLockedSlow name => exact absurd rfl (hlocks name none).2.2.2
  | attemptMaster verifier attempt opens => cases hbackoff
  | insertKey id entry => cases h
  | removeKey id => cases h
  | replaceKey id fragments metadata => cases h
  | _ =>
    cases hperform
    exact ⟨rfl, rfl, rfl, rfl⟩

/-- Every atomic step is atomic as the code carries it out, up to the removal of expired
lockouts. -/
theorem carryOut_follows (std : Bool) :
    Followed (S := sectionOps) (T := vaultSignature) vaultLevels SectionOp.Keeps
      (SectionOp.perform env) (Vault.perform env) (carryOut env std) := by
  intro op v w _
  cases op with
  | loadKeys =>
    have halike : AlikeOnBoth env .loadKeys := alikeOnBoth rfl rfl (by simp)
    cases std with
    | true => exact follows_plain halike v w
    | false => exact follows_section .registry (fun _ => trivial) halike v w
  | trackFailure name now perKey =>
    exact follows_section .failureTracker (fun _ => trivial) (alikeOnBoth rfl rfl (by simp)) v w
  | forgetFailures name =>
    exact follows_section .failureTracker (fun _ => trivial) (alikeOnBoth rfl rfl (by simp)) v w
  | clearFailures =>
    exact follows_section .failureTracker (fun _ => trivial) (alikeOnBoth rfl rfl (by simp)) v w
  | unlockKey name => exact follows_unlockKey name v w
  | lockKey name deadline => exact follows_lockKey name deadline v w
  | clearKeyLocks => exact follows_clearKeyLocks v w
  | keyLockedSlow name => exact follows_keyLockedSlow name v w
  | attemptMaster verifier attempt opens => exact follows_attemptMaster verifier attempt opens v w
  | insertKey id entry =>
    refine follows_updateRegistry _ (fun w => ?_) v w
    simp only [Vault.perform, Vault.insertKey, insertEntry]
    split <;> rfl
  | removeKey id =>
    refine follows_updateRegistry _ (fun w => ?_) v w
    simp only [Vault.perform, Vault.removeKey, removeEntry]
    cases w.keys.lookup id <;> rfl
  | replaceKey id fragments metadata =>
    refine follows_updateRegistry _ (fun w => ?_) v w
    simp only [Vault.perform, Vault.replaceKey, replaceEntry]
    cases w.keys.lookup id <;> rfl
  | _ => exact follows_plain (alikeOnBoth rfl rfl (by simp)) v w

end Sections

/-! ### Runs -/

section Runs

variable {std : Bool} {listeners : Listeners} {depth : ℕ} {v : Vault} {c c' : LockedConfiguration}

theorem surroundings_alike (event : Surroundings) (v w v' : Vault) (hagrees : vaultLevels.agrees v w)
    (hact : event.act v = some v') : ∃ w', event.act w = some w' ∧ vaultLevels.agrees v' w' ∧
      ∀ l, vaultLevels.part l v' w' = vaultLevels.part l v w := by
  obtain ⟨keyLocks, backoff, rfl⟩ := hagrees
  have same : ∀ {v' : Vault}, v'.keys = v.keys → v'.keyLocks = v.keyLocks →
      v'.masterBackoff = v.masterBackoff → ∀ l,
        vaultLevels.part l v' { v' with keyLocks := keyLocks, masterBackoff := backoff } =
          vaultLevels.part l v { v with keyLocks := keyLocks, masterBackoff := backoff } := by
    intro v' hkeys hlocks hbackoff l
    cases l <;> simp [vaultLevels, hkeys, hlocks, hbackoff]
  cases event with
  | tick now =>
    simp only [Surroundings.act] at hact ⊢
    split at hact
    · rename_i hlater
      cases hact
      exact ⟨_, if_pos hlater, ⟨keyLocks, backoff, rfl⟩, same rfl rfl rfl⟩
    · cases hact
  | setUnixTime time =>
    cases hact
    exact ⟨_, rfl, ⟨keyLocks, backoff, rfl⟩, same rfl rfl rfl⟩
  | allocateHandle =>
    cases hact
    exact ⟨_, rfl, ⟨keyLocks, backoff, rfl⟩, same rfl rfl rfl⟩

abbrev VaultMatched (env : Environment) (std : Bool) (c : LockedConfiguration)
    (d : VaultConfiguration) : Prop :=
  Matched (S := sectionOps) (T := vaultSignature) vaultLevels SectionOp.Keeps
    (SectionOp.perform env) (Vault.perform env) (carryOut env std) c d

/-- Two moments of a run of the vault with its mutexes are two moments of a run of the vault of
atomic steps: every call that has returned has returned the same there, a call that has not
begun has not begun there, and while no mutex is taken the vault is what the steps made of it. -/
def RunsAtomically (env : Environment) (listeners : Listeners) (depth : ℕ) (v : Vault)
    (c c' : LockedConfiguration) : Prop :=
  ∃ d d', (hearingVault env listeners depth).Reaches (.start v) d ∧
    (hearingVault env listeners depth).Reaches d d' ∧
    d.calls.length = c.calls.length ∧ d'.calls.length = c'.calls.length ∧
    (∀ caller request value, c.Returned caller request value → d.Returned caller request value) ∧
    (∀ caller request value,
      c'.Returned caller request value → d'.Returned caller request value) ∧
    ((∀ l, c'.shared.taken l = false) → d'.shared = c'.shared.data)

theorem matched_of_kept (hfirst : (lockedVault env std listeners depth).Reaches (unlocked v) c)
    (hlater : (lockedVault env std listeners depth).Reaches c c') (hkeeps : KeepsLockouts c') :
    ∃ d d', (hearingVault env listeners depth).Reaches (.start v) d ∧
      (hearingVault env listeners depth).Reaches d d' ∧
      VaultMatched env std c d ∧ VaultMatched env std c' d' := by
  have hearlier : KeepsLockouts c := fun entry hentry => hkeeps entry (log_grows hlater hentry)
  have hsettled : ∀ l, vaultLevels.settled l (vaultLevels.part l v v) := by
    intro l
    cases l <;> trivial
  have hagrees : vaultLevels.agrees v v := ⟨v.keyLocks, v.masterBackoff, rfl⟩
  obtain ⟨d, hd, hmatched⟩ := matched_run (S := sectionOps) (T := vaultSignature)
    (m := hearingVault env listeners depth) (carryOut_keepsOrder env std) (carryOut_follows std)
    surroundings_alike (Machine.orderly_start _) (excludes_unlocked v)
    (matched_start hagrees hsettled) hfirst hearlier.quiet
  obtain ⟨d', hd', hmatched'⟩ := matched_run (S := sectionOps) (T := vaultSignature)
    (m := hearingVault env listeners depth) (carryOut_keepsOrder env std) (carryOut_follows std)
    surroundings_alike (lockedVault_ordered hfirst) (lockedVault_excludes hfirst) hmatched hlater
    hkeeps.quiet
  exact ⟨d, d', hd, hd', hmatched, hmatched'⟩

theorem runsAtomically_of_matched {d d' : VaultConfiguration}
    (hd : (hearingVault env listeners depth).Reaches (.start v) d)
    (hd' : (hearingVault env listeners depth).Reaches d d') (hmatched : VaultMatched env std c d)
    (hmatched' : VaultMatched env std c' d') : RunsAtomically env listeners depth v c c' := by
  refine ⟨d, d', hd, hd', hmatched.length.symm, hmatched'.length.symm,
    fun caller request value => hmatched.returned (carryOut_follows std),
    fun caller request value => hmatched'.returned (carryOut_follows std), fun hfree => ?_⟩
  obtain ⟨keyLocks, backoff, hshared⟩ := hmatched'.agrees
  have hlocks : c'.shared.data.keyLocks = d'.shared.keyLocks :=
    hmatched'.settled .keyLocks (hfree .keyLocks)
  have hbackoff : c'.shared.data.masterBackoff = d'.shared.masterBackoff :=
    hmatched'.settled .masterBackoff (hfree .masterBackoff)
  rw [hshared] at hlocks hbackoff
  dsimp only at hlocks hbackoff
  rw [hshared, ← hlocks, ← hbackoff]

/-- In every run in which no expired lockout is removed, the critical sections are atomic. -/
theorem sections_refine (hfirst : (lockedVault env std listeners depth).Reaches (unlocked v) c)
    (hlater : (lockedVault env std listeners depth).Reaches c c')
    (hkeeps : KeepsLockouts c') :
    RunsAtomically env listeners depth v c c' := by
  obtain ⟨d, d', hd, hd', hmatched, hmatched'⟩ := matched_of_kept hfirst hlater hkeeps
  exact runsAtomically_of_matched hd hd' hmatched hmatched'

theorem sections_refine_timed : ∃ c : LockedConfiguration, c.locksOf 0 = [.keyLocks] ∧
    RunsAtomically (Environment.plain { keyLockoutThreshold := 1, keyLockoutDuration := some 9 })
      asking 1 (Vault.new 0 0 0) (unlocked (Vault.new 0 0 0)) c := by
  have hrun : ((lockedVault (Environment.plain
      { keyLockoutThreshold := 1, keyLockoutDuration := some 9 }) true asking 1).follow
        (unlocked (Vault.new 0 0 0)) (twoReports ++ [.exec 0])).map (fun c => (c.locksOf 0,
          c.log.all fun entry => !removesLock entry.event.op)) = some ([.keyLocks], true) := by
    decide +kernel
  obtain ⟨c, hc, hout⟩ := Option.map_eq_some_iff.mp hrun
  obtain ⟨hlocks, hlog⟩ := Prod.mk.inj hout
  refine ⟨c, hlocks, sections_refine (.refl _) (Machine.follow_reaches hc) ?_⟩
  intro entry hentry
  simpa using List.all_eq_true.mp hlog entry hentry

end Runs

/-! ### Lockouts that last until they are cleared -/

def VaultOp.Lasting : VaultOp → Prop
  | .lockKey _ deadline => deadline = none
  | _ => True

theorem applyKeyThreshold_lasting (hconfig : env.config.keyLockoutDuration = none) (name : String)
    (keyThreshold : UInt32) (counts : FailureCounts) :
    Program.Uses (S := vaultSignature) VaultOp.Lasting
      (applyKeyThreshold env name keyThreshold counts) := by
  have hdeadline : lockoutDeadline env = .done none := by
    unfold lockoutDeadline
    rw [hconfig]
    rfl
  unfold applyKeyThreshold
  rw [hdeadline]
  split
  · exact ⟨rfl, fun _ => ⟨trivial, fun _ => trivial⟩⟩
  · trivial

theorem uses_lasting (hconfig : env.config.keyLockoutDuration = none) (request : Request) :
    Program.Uses (S := vaultSignature) VaultOp.Lasting (request.program env) := by
  cases request with
  | reportFailure name note =>
    refine Program.uses_bind ?_ fun _ => trivial
    show Program.Uses (S := vaultSignature) VaultOp.Lasting (handleFailure env name note true)
    unfold handleFailure recordFailure
    refine Program.uses_bind ⟨trivial, fun now => ⟨trivial, fun _ => trivial⟩⟩ fun counts => ?_
    refine Program.uses_bind ⟨trivial, fun _ => trivial⟩ fun _ => ?_
    exact Program.uses_bind (uses_applyVaultThreshold (fun _ _ => trivial) fun _ => trivial)
      fun _ => applyKeyThreshold_lasting hconfig _ _ counts
  | _ =>
    refine (program_uses env _).mono fun op hop => ?_
    cases op with
    | lockKey name deadline => exact absurd hop id
    | _ => trivial

theorem heard_uses_lasting (hconfig : env.config.keyLockoutDuration = none) (listeners : Listeners)
    (depth : ℕ) (op : VaultOp) (h : op.Lasting) :
    Program.Uses (S := vaultSignature) VaultOp.Lasting (heard env listeners depth op) := by
  induction depth generalizing op with
  | zero => cases op <;> exact ⟨h, fun _ => trivial⟩
  | succ depth ih =>
    have calls : ∀ p : Program vaultCalls Unit, Program.Uses (S := vaultSignature)
        VaultOp.Lasting (p.expand (T := vaultSignature) fun request =>
          (request.program env).expand (T := vaultSignature) (heard env listeners depth)) :=
      fun p => Program.uses_expand (S := vaultCalls) (T := vaultSignature)
        (P := fun _ => True) (fun request _ => Program.uses_expand (S := vaultSignature) ih
          (uses_lasting hconfig request)) (Program.uses_of_forall (fun _ => trivial) p)
    cases op with
    | notify event => exact Program.uses_bind ⟨trivial, fun _ => trivial⟩ fun _ => calls _
    | emitAudit keyName kind note =>
      exact Program.uses_bind ⟨trivial, fun _ => trivial⟩ fun _ => calls _
    | _ => exact ⟨h, fun _ => trivial⟩

/-- A call's rule under which no lockout ends by itself: it sets none with a deadline, and takes
one for expired only if it has found one. -/
def Unexpiring (history : List (Event (lockSignature VaultLock sectionOps))) :
    LockOp VaultLock SectionOp → Prop
  | .inner (.insertLock _ deadline) => deadline = none
  | .inner (.removeLock name) => ∃ stop,
      (⟨.inner (.getLock name), some (some stop)⟩ : Event (lockSignature VaultLock sectionOps)) ∈
        history
  | .inner (.plain op) => op.Lasting
  | _ => True

abbrev ObeysUnexpiring {α : Type} (history : List (Event (lockSignature VaultLock sectionOps)))
    (p : LockedProgram α) : Prop :=
  p.Obeys (S := lockSignature VaultLock sectionOps) Unexpiring (fun _ _ => True) history

def FreeOp : LockOp VaultLock SectionOp → Prop
  | .inner (.insertLock _ _) | .inner (.removeLock _) | .inner (.plain (.lockKey _ _)) => False
  | _ => True

theorem obeysUnexpiring_of_uses {α : Type} {p : LockedProgram α}
    (h : Program.Uses (S := lockSignature VaultLock sectionOps) FreeOp p) (history) :
    ObeysUnexpiring history p := by
  induction p generalizing history with
  | done value => trivial
  | step op next ih =>
    refine ⟨?_, fun ret => ih ret (h.2 ret) _⟩
    have hop := h.1
    cases op with
    | inner op =>
      cases op with
      | insertLock name deadline => exact absurd hop id
      | removeLock name => exact absurd hop id
      | plain op =>
        cases op with
        | lockKey name deadline => exact absurd hop id
        | _ => trivial
      | _ => trivial
    | _ => trivial

theorem access_free {op : SectionOp} (h : FreeOp (.inner op)) :
    Program.Uses (S := lockSignature VaultLock sectionOps) FreeOp (accessOf op) :=
  ⟨h, fun _ => trivial⟩

theorem uses_underLock {α : Type} {l : VaultLock} {body : LockedProgram α}
    (h : Program.Uses (S := lockSignature VaultLock sectionOps) FreeOp body) :
    Program.Uses (S := lockSignature VaultLock sectionOps) FreeOp (underLock l body) :=
  ⟨trivial, fun _ => Program.uses_bind h fun _ => ⟨trivial, fun _ => trivial⟩⟩

theorem updateRegistry_free {α : Type} {std : Bool} (update : KeyMap → α × Option KeyMap) :
    Program.Uses (S := lockSignature VaultLock sectionOps) FreeOp (updateRegistry std update) := by
  have hload : Program.Uses (S := lockSignature VaultLock sectionOps) FreeOp (loadRegistry std) := by
    cases std with
    | true => exact access_free trivial
    | false => exact uses_underLock (access_free trivial)
  have hswap : ∀ keys,
      Program.Uses (S := lockSignature VaultLock sectionOps) FreeOp (swapRegistry std keys) := by
    intro keys
    cases std with
    | true => exact access_free trivial
    | false => exact uses_underLock (access_free trivial)
  refine uses_underLock (Program.uses_bind hload fun current => ?_)
  split
  · trivial
  · exact Program.uses_bind (hswap _) fun _ => trivial

theorem attemptSection_free (verifier : MasterVerifier) (attempt : Bytes) (opens : Bool) :
    Program.Uses (S := lockSignature VaultLock sectionOps) FreeOp
      (attemptSection env verifier attempt opens) := by
  refine uses_underLock ⟨trivial, fun now => ⟨trivial, fun backoff => ?_⟩⟩
  show Program.Uses (S := lockSignature VaultLock sectionOps) FreeOp
    (settleAttempt env verifier attempt opens now backoff)
  unfold settleAttempt
  repeat' split
  all_goals first | trivial | exact ⟨trivial, fun _ => trivial⟩

theorem keyLockedSection_unexpiring (name : String) (history) :
    ObeysUnexpiring history (keyLockedSection name) := by
  refine ⟨trivial, fun _ => ⟨trivial, fun found => ?_⟩⟩
  cases found with
  | none => exact ⟨trivial, fun _ => trivial⟩
  | some deadline =>
    cases deadline with
    | none => exact ⟨trivial, fun _ => trivial⟩
    | some stop =>
      refine ⟨trivial, fun (now : Duration) => ?_⟩
      show ObeysUnexpiring _ ((if now < stop then _ else _ : LockedProgram Bool).bind _)
      split
      · exact ⟨trivial, fun _ => trivial⟩
      · refine ⟨⟨stop, by simp⟩, fun _ => obeysUnexpiring_of_uses ?_ _⟩
        exact ⟨trivial, fun _ => ⟨trivial, fun _ => ⟨trivial, fun _ => ⟨trivial, fun _ =>
          ⟨trivial, fun _ => trivial⟩⟩⟩⟩⟩

theorem carryOut_free {std : Bool} {op : VaultOp}
    (h : ∀ name deadline, op ≠ .lockKey name deadline ∧ op ≠ .keyLockedSlow name) :
    Program.Uses (S := lockSignature VaultLock sectionOps) FreeOp (carryOut env std op) := by
  cases op with
  | lockKey name deadline => exact absurd rfl (h name deadline).1
  | keyLockedSlow name => exact absurd rfl (h name none).2
  | loadKeys =>
    cases std with
    | true => exact access_free trivial
    | false => exact uses_underLock (access_free trivial)
  | insertKey id entry => exact updateRegistry_free _
  | removeKey id => exact updateRegistry_free _
  | replaceKey id fragments metadata => exact updateRegistry_free _
  | attemptMaster verifier attempt opens => exact attemptSection_free verifier attempt opens
  | clearKeyLocks =>
    exact uses_underLock (Program.uses_bind (access_free trivial) fun _ => access_free trivial)
  | trackFailure name now perKey => exact uses_underLock (access_free trivial)
  | forgetFailures name => exact uses_underLock (access_free trivial)
  | clearFailures => exact uses_underLock (access_free trivial)
  | unlockKey name => exact uses_underLock (access_free trivial)
  | _ => exact access_free trivial

theorem carryOut_unexpiring {std : Bool} {op : VaultOp} (h : op.Lasting) (history) :
    ObeysUnexpiring history (carryOut env std op) := by
  cases op with
  | lockKey name deadline =>
    refine ⟨trivial, fun _ => ⟨h, fun previous => obeysUnexpiring_of_uses ?_ _⟩⟩
    cases previous with
    | none => exact ⟨trivial, fun _ => ⟨trivial, fun _ => trivial⟩⟩
    | some old => exact ⟨trivial, fun _ => trivial⟩
  | keyLockedSlow name => exact keyLockedSection_unexpiring name history
  | _ => exact obeysUnexpiring_of_uses (carryOut_free (by simp)) history

/-! The lockouts of a run in which every call obeys the rule never get a deadline. -/

def AllLasting (v : Vault) : Prop :=
  ∀ name deadline, v.keyLocks.lookup name = some deadline → deadline = none

theorem allLasting_insert {v : Vault} (h : AllLasting v) (name : String) :
    AllLasting { v with keyLocks := v.keyLocks.insert name none } := by
  intro other deadline hother
  dsimp only at hother
  by_cases hsame : other = name
  · subst hsame
    rw [AList.lookup_insert] at hother
    exact (Option.some.inj hother).symm
  · rw [AList.lookup_insert_ne hsame] at hother
    exact h other deadline hother

theorem allLasting_erase {v : Vault} (h : AllLasting v) (name : String) :
    AllLasting { v with keyLocks := v.keyLocks.erase name } := by
  intro other deadline hother
  dsimp only at hother
  by_cases hsame : other = name
  · subst hsame
    rw [AList.lookup_erase] at hother
    cases hother
  · rw [AList.lookup_erase_ne hsame] at hother
    exact h other deadline hother

theorem allLasting_plain {op : VaultOp} {ret : op.Ret} {v v' : Vault} (hop : op.Lasting)
    (h : AllLasting v) (hperform : Vault.perform env op v = some (ret, v')) : AllLasting v' := by
  cases op with
  | lockKey name deadline =>
    obtain rfl : deadline = none := hop
    simp only [Vault.perform, Vault.lockKey] at hperform
    split at hperform
    · cases hperform
      exact allLasting_insert h name
    · split at hperform
      · cases hperform
        exact allLasting_insert h name
      · cases hperform
  | unlockKey name =>
    cases hperform
    exact allLasting_erase h name
  | clearKeyLocks =>
    cases hperform
    intro name deadline hfound
    simp at hfound
  | subKeyLocksActive =>
    cases hperform
    exact h
  | keyLockedSlow name =>
    obtain rfl : (v.keyLockedSlow env name).2 = v' := congrArg Prod.snd (Option.some.inj hperform)
    unfold Vault.keyLockedSlow
    repeat' split
    all_goals first
      | exact h
      | exact allLasting_erase h name
  | _ =>
    unfold AllLasting
    rw [((Vault.perform_frame hperform).keyLocks rfl).1]
    exact h

def FindsDeadline (event : Event (lockSignature VaultLock sectionOps)) : Prop :=
  ∃ name stop, event = ⟨.inner (.getLock name), some (some stop)⟩

theorem perform_allLasting {op : SectionOp} {ret : op.Ret} {v v' : Vault}
    {history : List (Event (lockSignature VaultLock sectionOps))}
    (hrule : Unexpiring history (.inner op)) (h : AllLasting v)
    (hperform : op.perform env v = some (ret, v')) :
    AllLasting v' ∧ ¬ FindsDeadline ⟨.inner op, ret⟩ := by
  have hother : (∀ name, op ≠ .getLock name) → ¬ FindsDeadline ⟨.inner op, ret⟩ := by
    rintro hop ⟨name, stop, heq⟩
    cases heq
    exact hop name rfl
  cases op with
  | plain op => exact ⟨allLasting_plain hrule h hperform, hother (by simp)⟩
  | getLock name =>
    cases hperform
    refine ⟨h, ?_⟩
    rintro ⟨other, stop, heq⟩
    obtain ⟨hop, hret⟩ := Event.mk.inj heq
    cases hop
    cases h name _ (eq_of_heq hret)
  | insertLock name deadline =>
    obtain rfl : deadline = none := hrule
    simp only [SectionOp.perform, Vault.insertLock] at hperform
    split at hperform
    · cases hperform
      exact ⟨allLasting_insert h name, hother (by simp)⟩
    · cases hperform
  | removeLock name =>
    cases hperform
    exact ⟨allLasting_erase h name, hother (by simp)⟩
  | wipeLocks =>
    cases hperform
    exact ⟨fun name deadline hfound => by simp at hfound, hother (by simp)⟩
  | _ =>
    cases hperform
    exact ⟨h, hother (by simp)⟩

section Lasting

variable {std : Bool} {listeners : Listeners} {depth : ℕ} {v : Vault} {c c' : LockedConfiguration}

abbrev UnexpiringRun (c : LockedConfiguration) : Prop :=
  Machine.Orderly (S := lockSignature VaultLock sectionOps) (fun _ => Unexpiring)
    (fun _ _ _ => True) c

theorem unexpiring_run (hconfig : env.config.keyLockoutDuration = none)
    (hrun : (lockedVault env std listeners depth).Reaches c c') (h : UnexpiringRun c) :
    UnexpiringRun c' := by
  refine hrun.orderly (fun request => ?_) h
  have hexpand : ∀ {p : VaultProgram Response},
      Program.Uses (S := vaultSignature) VaultOp.Lasting p → ∀ history,
        ObeysUnexpiring history (p.expand (T := lockSignature VaultLock sectionOps)
          (carryOut env std)) := by
    intro p huses
    induction p with
    | done value => exact fun _ => trivial
    | step op next ih =>
      exact fun history => Program.obeys_bind (carryOut_unexpiring huses.1 history)
        fun later ret _ => ih ret (huses.2 ret) later
  exact hexpand (Program.uses_expand (S := vaultSignature) (heard_uses_lasting hconfig listeners
    depth) (uses_lasting hconfig request)) []

theorem no_lockout_expires (hconfig : env.config.keyLockoutDuration = none)
    (hstart : AllLasting v) (hrun : (lockedVault env std listeners depth).Reaches (unlocked v) c) :
    KeepsLockouts c := by
  have hinvariant : AllLasting c.shared.data ∧ ∀ entry ∈ c.log, ¬ FindsDeadline entry.event := by
    induction hrun with
    | refl => exact ⟨hstart, by simp [unlocked, Config.start]⟩
    | @tail mid last action hrun _ hstep ih =>
      obtain ⟨hlasting, hlog⟩ := ih
      cases action with
      | invoke request =>
        rw [Machine.step_invoke_iff] at hstep
        subst hstep
        exact ⟨hlasting, hlog⟩
      | exec caller =>
        obtain ⟨request, op, next, ret, hcall, hperform, -, hlog', -⟩ := lockMachine_step hstep
        have hrule := ((unexpiring_run hconfig hrun (Machine.orderly_start _)).obeys caller _
          hcall).1
        have hnew : AllLasting last.shared.data ∧ ¬ FindsDeadline ⟨op, ret⟩ := by
          cases op with
          | lock l =>
            rw [(perform_lock hperform).2]
            refine ⟨hlasting, ?_⟩
            rintro ⟨name, stop, heq⟩
            cases heq
          | unlock l =>
            obtain ⟨rfl, hshared⟩ := Prod.mk.inj (Option.some.inj hperform)
            rw [← hshared]
            refine ⟨hlasting, ?_⟩
            rintro ⟨name, stop, heq⟩
            cases heq
          | inner op => exact perform_allLasting hrule hlasting (perform_inner hperform).1
        refine ⟨hnew.1, fun entry hentry => ?_⟩
        rw [hlog'] at hentry
        rcases List.mem_append.mp hentry with hold | hlast
        · exact hlog entry hold
        · rw [List.mem_singleton.mp hlast]
          exact hnew.2
      | external event =>
        obtain ⟨s, hs, rfl⟩ := Machine.step_external_iff.mp hstep
        obtain ⟨data, hdata, rfl⟩ := Option.map_eq_some_iff.mp hs
        obtain ⟨clock, unixTime, handles, -, -, rfl⟩ := Surroundings.act_frame hdata
        exact ⟨hlasting, hlog⟩
  intro entry hentry
  by_contra hremoves
  obtain ⟨name, hop⟩ := removesLock_elim (by simpa using hremoves)
  obtain ⟨before, after, hsplit⟩ := List.append_of_mem hentry
  have hpermitted := (unexpiring_run hconfig hrun (Machine.orderly_start _)).permitted before
    entry after hsplit
  rw [hop] at hpermitted
  obtain ⟨stop, hfound⟩ := hpermitted
  obtain ⟨earlier, hearlier, -, hevent⟩ := mem_eventsBy.mp hfound
  refine hinvariant.2 earlier ?_ ⟨name, stop, hevent⟩
  rw [hsplit]
  exact List.mem_append_left _ hearlier

/-- Where lockouts last until they are cleared (`lock_for` is `None`), none is ever removed for
having expired, and the critical sections are atomic in every run. -/
theorem lasting_sections_refine (hconfig : env.config.keyLockoutDuration = none)
    (hstart : AllLasting v) (hfirst : (lockedVault env std listeners depth).Reaches (unlocked v) c)
    (hlater : (lockedVault env std listeners depth).Reaches c c') :
    KeepsLockouts c' ∧ RunsAtomically env listeners depth v c c' := by
  have hkeeps : KeepsLockouts c' := no_lockout_expires hconfig hstart (hfirst.trans hlater)
  obtain ⟨d, d', hd, hd', hmatched, hmatched'⟩ := matched_of_kept hfirst hlater hkeeps
  exact ⟨hkeeps, runsAtomically_of_matched hd hd' hmatched hmatched'⟩

theorem lasting_sections_refine_twoReports : ∃ c : LockedConfiguration,
    c.locksOf 0 = [.keyLocks] ∧ KeepsLockouts c ∧
      RunsAtomically oneStrike asking 1 (Vault.new 0 0 0) (unlocked (Vault.new 0 0 0)) c := by
  have hrun : ((lockedVault oneStrike true asking 1).follow (unlocked (Vault.new 0 0 0))
      twoReports).map (·.locksOf 0) = some [.keyLocks] := by decide +kernel
  obtain ⟨c, hc, hlocks⟩ := Option.map_eq_some_iff.mp hrun
  have hstart : AllLasting (Vault.new 0 0 0) := fun name deadline hfound => by
    simp [Vault.new] at hfound
  exact ⟨c, hlocks, lasting_sections_refine rfl hstart (.refl _) (Machine.follow_reaches hc)⟩

end Lasting

end KeyVault
