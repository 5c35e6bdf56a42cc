import KeyVault.RelyGuarantee
import KeyVault.SequentialCalls

/-! `register` and `rotate` point by point, as contracts with the other calls. Both
look at the lockouts once, before they fragment the key; their critical sections do
not look again. What they can promise therefore rests on what others do in
between. -/
namespace KeyVault

open Interleaving Atomic

/-! ### Where a writer stands -/

/-- With `next` to come, the call has found the vault unlocked and has not left its
critical section. -/
def Request.pending : Request → VaultOp → Bool
  | .register _ _ _ _, .loadLockedOut | .register _ _ _ _, .emitAudit _ _ _ => false
  | .rotate _ _ _ _, .loadLockedOut | .rotate _ _ _ _, .emitAudit _ _ _ => false
  | .register _ _ _ _, _ | .rotate _ _ _ _, _ => true
  | _, _ => false

def Request.approaching (request : Request) (next : VaultOp) : Bool :=
  match request, next with
  | .register _ _ _ _, .loadLockedOut | .rotate _ _ _ _, .loadLockedOut => true
  | _, _ => request.pending next

def Request.rotated : Request → Option KeyId
  | .rotate handle _ _ _ => some handle
  | _ => none

/-- With `next` to come, the call is a `rotate` that has found its key unlocked. -/
def Request.checked : Request → VaultOp → Bool
  | .rotate _ _ _ _, .readUnixTime | .rotate _ _ _ _, .replaceKey _ _ _ => true
  | _, _ => false

def Vault.Bars (v : Vault) : Request → Prop
  | .register _ _ _ _ => v.lockedOut = true
  | .rotate handle _ _ _ =>
      v.lockedOut = true ∨ ∃ name, v.names handle = some name ∧ v.UnderLockout name
  | _ => False

/-- The step swaps in a map with a new key, or with new material for a key. -/
def Vault.Installs (v : Vault) : VaultOp → Prop
  | .insertKey _ entry => v.keys.hasName entry.name = false
  | .replaceKey id _ _ => (v.keys.lookup id).isSome = true
  | _ => False

/-- The step locks out a call that has already looked, or gives its handle away. -/
def Request.overtakenBy (v : Vault) (request : Request) (next : VaultOp) : VaultOp → Bool
  | .swapLockedOut => request.pending next
  | .lockKey name deadline => request.checked next && decide (∀ time ∈ deadline, v.clock < time) &&
      decide (request.rotated.bind v.names = some name)
  | .insertKey id _ => request.pending next && decide (request.rotated = some id)
  | _ => false

/-! ### What the others do -/

structure Undisturbed (request : Request) (next : VaultOp) (v v' : Vault) : Prop where
  flag : request.pending next = true → v.lockedOut = false → v'.lockedOut = false
  names : request.pending next = true → ∀ handle name, request.rotated = some handle →
    v'.names handle = some name → v.names handle = some name
  locks : request.checked next = true → ∀ handle name, request.rotated = some handle →
    v'.names handle = some name → v'.UnderLockout name → v.UnderLockout name

theorem pending_of_checked {request : Request} {next : VaultOp}
    (h : request.checked next = true) : request.pending next = true := by
  cases request <;> cases next <;> first | rfl | cases h

section Others

variable {env : Environment} {request : Request} {next op : VaultOp} {v v' v'' : Vault}

theorem undisturbed_refl (request : Request) (next : VaultOp) (v : Vault) :
    Undisturbed request next v v :=
  ⟨fun _ h => h, fun _ _ _ _ h => h, fun _ _ _ _ _ h => h⟩

theorem Undisturbed.trans (h : Undisturbed request next v v')
    (h' : Undisturbed request next v' v'') : Undisturbed request next v v'' where
  flag := fun hpending hflag => h'.flag hpending (h.flag hpending hflag)
  names := fun hpending handle name hrotated hname =>
    h.names hpending handle name hrotated (h'.names hpending handle name hrotated hname)
  locks := by
    intro hchecked handle name hrotated hname hlocked
    have hpending := pending_of_checked hchecked
    exact h.locks hchecked handle name hrotated (h'.names hpending handle name hrotated hname)
      (h'.locks hchecked handle name hrotated hname hlocked)

theorem lookup_of_erase {α ν : Type} [DecidableEq α] {map : AList fun _ : α => ν} {name other : α}
    {value : ν} (h : (map.erase other).lookup name = some value) : map.lookup name = some value := by
  by_cases hsame : name = other
  · rw [hsame, AList.lookup_erase] at h
    cases h
  · rwa [AList.lookup_erase_ne hsame] at h

theorem lookup_of_perform {ret : op.Ret} {name : String} {deadline : Option Duration}
    (h : Vault.perform env op v = some (ret, v'))
    (hlookup : v'.keyLocks.lookup name = some deadline) :
    v.keyLocks.lookup name = some deadline ∨ op = .lockKey name deadline := by
  cases op with
  | lockKey locked stop =>
    have hlocks : v'.keyLocks = v.keyLocks.insert locked stop := by
      obtain h : v.lockKey env locked stop = some (ret, v') := h
      unfold Vault.lockKey at h
      dsimp only at h
      split at h
      · cases h
        rfl
      · split at h
        · cases h
          rfl
        · cases h
    rw [hlocks] at hlookup
    by_cases hsame : name = locked
    · rw [hsame, AList.lookup_insert, Option.some.injEq] at hlookup
      right
      rw [hsame, hlookup]
    · rw [AList.lookup_insert_ne hsame] at hlookup
      exact .inl hlookup
  | unlockKey unlocked =>
    cases h
    exact .inl (lookup_of_erase hlookup)
  | subKeyLocksActive =>
    cases h
    exact .inl hlookup
  | clearKeyLocks =>
    cases h
    cases hlookup
  | keyLockedSlow seen =>
    obtain rfl : (v.keyLockedSlow env seen).2 = v' := congrArg Prod.snd (Option.some.inj h)
    left
    unfold Vault.keyLockedSlow at hlookup
    split at hlookup
    · exact hlookup
    · exact hlookup
    · split at hlookup
      · exact hlookup
      · exact lookup_of_erase hlookup
  | _ =>
    rw [((Vault.perform_frame h).keyLocks rfl).1] at hlookup
    exact .inl hlookup

theorem underLockout_of_perform {ret : op.Ret} {name : String}
    (h : Vault.perform env op v = some (ret, v')) (hlocked : v'.UnderLockout name) :
    v.UnderLockout name ∨
      ∃ deadline, op = .lockKey name deadline ∧ ∀ time ∈ deadline, v.clock < time := by
  obtain ⟨deadline, hlookup, hbefore⟩ := hlocked
  rw [(Vault.perform_frame h).clock] at hbefore
  rcases lookup_of_perform h hlookup with hold | hnew
  · exact .inl ⟨deadline, hold, hbefore⟩
  · exact .inr ⟨deadline, hnew, hbefore⟩

theorem names_of_perform {ret : op.Ret} {handle : KeyId} {name : String}
    (h : Vault.perform env op v = some (ret, v')) (hinsert : ∀ entry, op ≠ .insertKey handle entry)
    (hname : v'.names handle = some name) : v.names handle = some name := by
  cases op with
  | insertKey id entry =>
    have hother : handle ≠ id := by
      rintro rfl
      exact hinsert entry rfl
    obtain rfl : (v.insertKey id entry).2 = v' := congrArg Prod.snd (Option.some.inj h)
    unfold Vault.insertKey at hname
    split at hname
    · exact hname
    · have hupdate := congrFun (names_insert v id entry) handle
      rw [Function.update_of_ne hother] at hupdate
      exact hupdate.symm.trans hname
  | removeKey id =>
    obtain rfl : (v.removeKey id).2 = v' := congrArg Prod.snd (Option.some.inj h)
    unfold Vault.removeKey at hname
    split at hname
    · exact hname
    · have hupdate := congrFun (names_erase v id) handle
      by_cases hsame : handle = id
      · rw [hsame, Function.update_self] at hupdate
        rw [hsame] at hname
        exact absurd (hupdate.symm.trans hname) (by simp)
      · rw [Function.update_of_ne hsame] at hupdate
        exact hupdate.symm.trans hname
  | _ => rwa [perform_names rfl h] at hname

theorem undisturbed_of_perform {ret : op.Ret} (h : Vault.perform env op v = some (ret, v'))
    (hok : request.overtakenBy v next op = false) : Undisturbed request next v v' := by
  have hnames : request.pending next = true → ∀ handle name, request.rotated = some handle →
      v'.names handle = some name → v.names handle = some name := by
    intro hpending handle name hrotated hname
    apply names_of_perform h _ hname
    rintro entry rfl
    simp [Request.overtakenBy, hpending, hrotated] at hok
  refine ⟨?_, hnames, ?_⟩
  · intro hpending hflag
    cases op with
    | swapLockedOut =>
      rw [show request.pending next = false from hok] at hpending
      cases hpending
    | storeUnlocked =>
      cases h
      rfl
    | _ => exact ((Vault.perform_frame h).lockedOut rfl).trans hflag
  · intro hchecked handle name hrotated hname hlocked
    rcases underLockout_of_perform h hlocked with hbefore | ⟨deadline, rfl, hdeadline⟩
    · exact hbefore
    · have hold := hnames (pending_of_checked hchecked) handle name hrotated hname
      have hovertaken : request.overtakenBy v next (.lockKey name deadline) = true := by
        simp only [Request.overtakenBy, hchecked, hrotated, Option.bind_some, Bool.true_and,
          Bool.and_eq_true, decide_eq_true_eq]
        exact ⟨hdeadline, hold⟩
      rw [hok] at hovertaken
      cases hovertaken

theorem undisturbed_of_act {event : Surroundings} (h : event.act v = some v') :
    Undisturbed request next v v' := by
  obtain ⟨clock, unixTime, handles, hclock, -, rfl⟩ := Surroundings.act_frame h
  refine ⟨fun _ hflag => hflag, fun _ _ _ _ hname => hname, ?_⟩
  rintro - handle name - - ⟨deadline, hlookup, hbefore⟩
  refine ⟨deadline, hlookup, ?_⟩
  intro time htime
  exact Nat.lt_of_le_of_lt hclock (hbefore time htime)

end Others

/-! ### What a writer keeps to -/

def Request.refusal : Request → Response
  | .register _ _ _ _ => .handle (fail .lockedOut)
  | _ => .status (fail .lockedOut)

/-- A call that is under a lockout at each of its steps, and at each step of the
others, is refused. -/
def refusalContract (env : Environment) (request : Request) :
    Contract vaultSignature Vault Response where
  within v := v.Counted env ∧ v.Bars request
  rely := Undisturbed request
  rely_refl := undisturbed_refl request
  rely_trans _ _ _ _ h h' := h.trans h'
  holds _ _ := True
  ends response := response = request.refusal

abbrev Refused (env : Environment) (request : Request) (p : VaultProgram Response) (v : Vault) : Prop :=
  (refusalContract env request).Kept (Vault.perform env) p v

/-- Nothing is installed under a lockout, and a lockout before the critical section
leads to a refusal. -/
structure Respects (env : Environment) (request : Request) (op : VaultOp)
    (p : VaultProgram Response) (v : Vault) : Prop where
  installs : v.Installs op → ¬ v.Bars request
  refused : request.approaching op = true → v.Bars request → Refused env request p v

def writerContract (env : Environment) (request : Request) :
    Contract vaultSignature Vault Response where
  within v := v.Counted env
  rely := Undisturbed request
  rely_refl := undisturbed_refl request
  rely_trans _ _ _ _ h h' := h.trans h'
  holds v p := ∀ op ∈ p.next?, Respects env request op p v
  ends _ := True

abbrev Respected (env : Environment) (request : Request) (p : VaultProgram Response) (v : Vault) : Prop :=
  (writerContract env request).Kept (Vault.perform env) p v

section Points

variable {env : Environment} {request : Request} {v v' : Vault}

theorem respects_of_not_bars {op : VaultOp} {p : VaultProgram Response} (h : ¬ v.Bars request) :
    Respects env request op p v := ⟨fun _ => h, fun _ hbars => absurd hbars h⟩

theorem respected_step {op : VaultOp} {next : op.Ret → VaultProgram Response}
    (h : ∀ v', v'.Counted env → Undisturbed request op v v' →
      Respects env request op (.step op next) v' ∧
        ∀ ret v'', Vault.perform env op v' = some (ret, v'') → Respected env request (next ret) v'') :
    Respected env request (.step op next) v := by
  intro v' hcounted hrely
  obtain ⟨hrespects, hnext⟩ := h v' hcounted hrely
  refine ⟨?_, hnext⟩
  rintro _ ⟨⟩
  exact hrespects

theorem respected_of_uses {P : VaultOp → Prop} {p : VaultProgram Response}
    (h : Program.Uses (S := vaultSignature) P p)
    (hop : ∀ op, P op → (∀ v : Vault, ¬ v.Installs op) ∧ request.approaching op = false) :
    Respected env request p v := by
  apply Contract.kept_of_uses h
  · rintro op next v hP - _ ⟨⟩
    obtain ⟨hinstalls, happroaching⟩ := hop op hP
    refine ⟨fun hinstall => absurd hinstall (hinstalls v), ?_⟩
    intro hsoon
    rw [happroaching] at hsoon
    cases hsoon
  · intro value
    trivial

theorem respected_emitAudit {α : Type} {keyName : String} {kind : AccessKind} {note : String}
    {value : α} {respond : α → Response} :
    Respected env request ((emitAudit env keyName kind note >>= fun _ => .done value) >>=
      fun result => .done (respond result)) v := by
  apply respected_of_uses (P := fun op => op = .emitAudit keyName kind note)
  · exact Program.uses_bind (Program.uses_bind (uses_emitAudit rfl) fun _ => trivial)
      fun _ => trivial
  · rintro op rfl
    refine ⟨fun _ hinstalls => hinstalls, ?_⟩
    cases request <;> rfl

def Request.passed (request : Request) (next : VaultOp) : Bool :=
  match request with
  | .register _ _ _ _ => request.pending next
  | _ => request.checked next

theorem not_bars_later {next : VaultOp} (hpassed : request.passed next = true)
    (h : ¬ v.Bars request) (hrely : Undisturbed request next v v') : ¬ v'.Bars request := by
  intro hbars
  cases request with
  | register name key rng os =>
    have hflag : v.lockedOut = false := Bool.eq_false_of_not_eq_true h
    have hlater := hrely.flag hpassed hflag
    rw [show v'.lockedOut = true from hbars] at hlater
    cases hlater
  | rotate handle key rng os =>
    apply h
    rcases hbars with hflag | ⟨name, hname, hlocked⟩
    · left
      by_contra hunlocked
      have hfalse := hrely.flag (pending_of_checked hpassed) (Bool.eq_false_of_not_eq_true hunlocked)
      rw [hflag] at hfalse
      cases hfalse
    · right
      exact ⟨name, hrely.names (pending_of_checked hpassed) handle name rfl hname,
        hrely.locks hpassed handle name rfl hname hlocked⟩
  | _ => exact hbars

theorem passed_point {op : VaultOp} {next : op.Ret → VaultProgram Response}
    (hpassed : request.passed op = true) (h : ¬ v.Bars request)
    (hnext : ∀ v', ¬ v'.Bars request → ∀ ret v'', Vault.perform env op v' = some (ret, v'') →
      Respected env request (next ret) v'') :
    Respected env request (.step op next) v := by
  apply respected_step
  intro v' _ hrely
  have h' := not_bars_later hpassed h hrely
  exact ⟨respects_of_not_bars h', hnext v' h'⟩

end Points

/-! ### Register -/

section Register

variable {env : Environment} {name : String} {key : Bytes} {rng : Rng} {os : OsAnswers} {v : Vault}

theorem register_refused :
    Refused env (.register name key rng os) ((Request.register name key rng os).program env) v := by
  rintro v' ⟨-, hbars⟩ -
  refine ⟨trivial, ?_⟩
  intro (locked : Bool) v'' hperform
  obtain rfl : v'.lockedOut = locked := congrArg Prod.fst (Option.some.inj hperform)
  rw [show v'.lockedOut = true from hbars]
  rfl

theorem register_respected :
    Respected env (.register name key rng os) ((Request.register name key rng os).program env) v := by
  apply respected_step
  intro v₁ _ _
  refine ⟨⟨False.elim, fun _ _ => register_refused⟩, ?_⟩
  intro (locked : Bool) v₂ hperform
  cases locked with
  | true => trivial
  | false =>
    obtain rfl : v₁ = v₂ := congrArg Prod.snd (Option.some.inj hperform)
    have h : ¬ v₁.Bars (.register name key rng os) := by
      rw [show v₁.Bars _ ↔ v₁.lockedOut = true from Iff.rfl,
        show v₁.lockedOut = false from congrArg Prod.fst (Option.some.inj hperform)]
      simp
    apply passed_point rfl h
    intro v₂ h (snapshot : KeyMap) v₃ hperform
    obtain rfl : v₂ = v₃ := congrArg Prod.snd (Option.some.inj hperform)
    show Respected env _ ((if snapshot.hasName name = true then _ else _) >>= _) v₂
    split
    · trivial
    · cases fragmentForRegistry env os key rng with
      | error exit => trivial
      | ok fragments =>
        apply passed_point rfl h
        intro v₃ h (id : KeyId) v₄ hperform
        have h : ¬ v₄.Bars (.register name key rng os) := by
          cases hperform
          exact h
        apply passed_point rfl h
        intro v₅ h (time : Duration) v₆ hperform
        obtain rfl : v₅ = v₆ := congrArg Prod.snd (Option.some.inj hperform)
        apply passed_point rfl h
        intro v₆ _ (inserted : Bool) v₇ _
        cases inserted with
        | true => exact respected_emitAudit
        | false => trivial

end Register

/-! ### Rotate -/

section Rotate

variable {env : Environment} {handle : KeyId} {key : Bytes} {rng : Rng} {os : OsAnswers}
  {name : String} {v v' : Vault}

/-- The vault is not locked out, and no other name than `name` stands under the
handle. -/
structure Vault.Open (v : Vault) (handle : KeyId) (name : String) : Prop where
  flag : v.lockedOut = false
  named : ∀ current, v.names handle = some current → current = name

theorem Vault.Open.later {next : VaultOp} (h : v.Open handle name)
    (hpending : Request.pending (.rotate handle key rng os) next = true)
    (hrely : Undisturbed (.rotate handle key rng os) next v v') : v'.Open handle name where
  flag := hrely.flag hpending h.flag
  named := fun current hcurrent => h.named current (hrely.names hpending handle current rfl hcurrent)

theorem Vault.Open.underLockout (h : v.Open handle name)
    (hbars : v.Bars (.rotate handle key rng os)) : v.UnderLockout name := by
  rcases hbars with hflag | ⟨current, hcurrent, hlocked⟩
  · rw [h.flag] at hflag
    cases hflag
  · rwa [h.named current hcurrent] at hlocked

theorem Vault.Open.perform {op : VaultOp} {ret : op.Ret} (h : v.Open handle name)
    (hop : op.writes .lockedOut = false) (hkeys : op.renames = false)
    (hperform : Vault.perform env op v = some (ret, v')) : v'.Open handle name where
  flag := ((Vault.perform_frame hperform).lockedOut hop).trans h.flag
  named := by
    rw [perform_names hkeys hperform]
    exact h.named

theorem active_ne_zero_of_underLockout (hcounted : v.Counted env) (h : v.UnderLockout name) :
    v.keyLocksActive ≠ 0 := by
  obtain ⟨deadline, hlookup, -⟩ := h
  have hmem : name ∈ v.keyLocks := AList.lookup_isSome.mp (by rw [hlookup]; rfl)
  have hpos := List.length_pos_of_mem (AList.mem_keys.mp hmem)
  have hlen := hcounted.active
  unfold mapLen at hlen
  omega

/-! Under a lockout. -/

section Refused

variable {respond : Bool → VaultProgram Response}

theorem refused_keyLockedSlow (h : v.Open handle name)
    (hrespond : respond true = .done (.status (fail .lockedOut))) :
    Refused env (.rotate handle key rng os) (.step (.keyLockedSlow name) respond) v := by
  rintro v' ⟨hcounted, hbars⟩ hrely
  have hlocked := (h.later rfl hrely).underLockout hbars
  refine ⟨trivial, ?_⟩
  intro (answer : Bool) v'' hperform
  obtain rfl : (v'.keyLockedSlow env name).1 = answer :=
    congrArg Prod.fst (Option.some.inj hperform)
  rw [(v'.keyLockedSlow_iff env name).mpr hlocked, hrespond]
  rfl

theorem refused_keyLocked (h : v.Open handle name)
    (hrespond : respond true = .done (.status (fail .lockedOut))) :
    Refused env (.rotate handle key rng os) (keyLocked name >>= respond) v := by
  rintro v' ⟨hcounted, hbars⟩ hrely
  have hopen := h.later rfl hrely
  refine ⟨trivial, ?_⟩
  intro (active : Nat) v'' hperform
  obtain rfl : v' = v'' := congrArg Prod.snd (Option.some.inj hperform)
  obtain rfl : v'.keyLocksActive = active := congrArg Prod.fst (Option.some.inj hperform)
  have hactive := active_ne_zero_of_underLockout hcounted (hopen.underLockout hbars)
  show Refused env _ ((if v'.keyLocksActive = 0 then _ else _) >>= respond) v'
  rw [if_neg hactive]
  exact refused_keyLockedSlow hopen hrespond

end Refused

/-! The rest of `rotate` once the vault has been found unlocked, and once the key
has. -/

def rotateChecked (env : Environment) (handle : KeyId) (key : Bytes) (rng : Rng)
    (os : OsAnswers) : VaultProgram (Result Unit) :=
  match fragmentForRegistry env os key rng with
  | .error exit => return .error exit
  | .ok fragments => swapKey env handle key.length fragments

def rotateUnlocked (env : Environment) (handle : KeyId) (key : Bytes) (rng : Rng)
    (os : OsAnswers) : VaultProgram (Result Unit) := do
  match (← loadKeys).lookup handle with
  | none => return fail .keyNotFound
  | some entry =>
      if ← keyLocked entry.name then
        return fail .lockedOut
      rotateChecked env handle key rng os

theorem rotate_eq (env : Environment) (handle : KeyId) (key : Bytes) (rng : Rng) (os : OsAnswers) :
    rotate env handle key rng os = (do
      if ← isLockedOut then
        return fail .lockedOut
      rotateUnlocked env handle key rng os) := rfl

theorem Vault.open_of_lookup {entry : KeyEntry} (hflag : v.lockedOut = false)
    (hlookup : v.keys.lookup handle = some entry) : v.Open handle entry.name where
  flag := hflag
  named := by
    intro current hcurrent
    unfold Vault.names at hcurrent
    rw [hlookup] at hcurrent
    exact (Option.some.inj hcurrent).symm

theorem refused_unlocked (hflag : v.lockedOut = false) :
    Refused env (.rotate handle key rng os)
      (rotateUnlocked env handle key rng os >>= fun result => .done (.status result)) v := by
  rintro v' ⟨-, hbars⟩ hrely
  have hflag' := hrely.flag rfl hflag
  refine ⟨trivial, ?_⟩
  intro (snapshot : KeyMap) v'' hperform
  obtain rfl : v' = v'' := congrArg Prod.snd (Option.some.inj hperform)
  obtain rfl : v'.keys = snapshot := congrArg Prod.fst (Option.some.inj hperform)
  obtain ⟨current, hcurrent, -⟩ : ∃ name, v'.names handle = some name ∧ v'.UnderLockout name := by
    rcases hbars with hlocked | hkey
    · rw [hflag'] at hlocked
      cases hlocked
    · exact hkey
  obtain ⟨entry, hlookup, -⟩ := Option.map_eq_some_iff.mp hcurrent
  show Refused env _ ((match v'.keys.lookup handle with | none => _ | some entry => _) >>= _) v'
  rw [hlookup]
  dsimp only
  rw [Program.bind_assoc]
  exact refused_keyLocked (Vault.open_of_lookup hflag' hlookup) rfl

theorem rotate_refused : Refused env (.rotate handle key rng os)
    ((Request.rotate handle key rng os).program env) v := by
  show Refused env _ (rotate env handle key rng os >>= _) v
  rw [rotate_eq]
  rintro v' - -
  refine ⟨trivial, ?_⟩
  intro (locked : Bool) v'' hperform
  obtain rfl : v' = v'' := congrArg Prod.snd (Option.some.inj hperform)
  cases locked with
  | true => rfl
  | false => exact refused_unlocked (congrArg Prod.fst (Option.some.inj hperform))

/-! In general. -/

theorem respected_checked (h : ¬ v.Bars (.rotate handle key rng os)) :
    Respected env (.rotate handle key rng os)
      (rotateChecked env handle key rng os >>= fun result => .done (.status result)) v := by
  unfold rotateChecked
  cases fragmentForRegistry env os key rng with
  | error exit => trivial
  | ok fragments =>
    apply passed_point rfl h
    intro v₁ h (time : Duration) v₂ hperform
    obtain rfl : v₁ = v₂ := congrArg Prod.snd (Option.some.inj hperform)
    apply passed_point rfl h
    intro v₂ _ (replaced : Option String) v₃ _
    cases replaced with
    | none => trivial
    | some name => exact respected_emitAudit

/-- A point between the look at the flag and the check of the key: the call sees a
lockout of its key that is there already. -/
theorem unlocked_point {op : VaultOp} {next : op.Ret → VaultProgram Response}
    (hpending : Request.pending (.rotate handle key rng os) op = true)
    (hinstalls : ∀ v : Vault, ¬ v.Installs op) (h : v.Open handle name)
    (hrefused : ∀ v', v'.Open handle name →
      Refused env (.rotate handle key rng os) (.step op next) v')
    (hnext : ∀ v', v'.Counted env → v'.Open handle name → ∀ ret v'',
      Vault.perform env op v' = some (ret, v'') →
      Respected env (.rotate handle key rng os) (next ret) v'') :
    Respected env (.rotate handle key rng os) (.step op next) v := by
  apply respected_step
  intro v' hcounted hrely
  have hopen := h.later hpending hrely
  refine ⟨⟨?_, fun _ _ => hrefused v' hopen⟩, hnext v' hcounted hopen⟩
  intro hinstall
  exact absurd hinstall (hinstalls v')

theorem not_bars_of_open (h : v.Open handle name) (hfree : ¬ v.UnderLockout name) :
    ¬ v.Bars (.rotate handle key rng os) := by
  intro hbars
  exact hfree (h.underLockout hbars)

theorem respected_keyLocked {respond : Bool → VaultProgram Response} (h : v.Open handle name)
    (hrespond : respond true = .done (.status (fail .lockedOut)))
    (hpassed : ∀ v', ¬ v'.Bars (.rotate handle key rng os) →
      Respected env (.rotate handle key rng os) (respond false) v') :
    Respected env (.rotate handle key rng os) (keyLocked name >>= respond) v := by
  have hload : Request.pending (.rotate handle key rng os) .loadKeyLocksActive = true := rfl
  have hslow : Request.pending (.rotate handle key rng os) (.keyLockedSlow name) = true := rfl
  apply unlocked_point hload (fun _ hinstalls => hinstalls) h
  · intro v' hopen
    exact refused_keyLocked hopen hrespond
  · intro v₁ hcounted hopen (active : Nat) v₂ hperform
    obtain rfl : v₁ = v₂ := congrArg Prod.snd (Option.some.inj hperform)
    obtain rfl : v₁.keyLocksActive = active := congrArg Prod.fst (Option.some.inj hperform)
    show Respected env _ ((if v₁.keyLocksActive = 0 then _ else _) >>= respond) v₁
    by_cases hactive : v₁.keyLocksActive = 0
    · -- nothing is locked when the counter is zero
      rw [if_pos hactive]
      apply hpassed v₁
      apply not_bars_of_open hopen
      intro hlocked
      exact active_ne_zero_of_underLockout hcounted hlocked hactive
    · rw [if_neg hactive]
      apply unlocked_point hslow (fun _ hinstalls => hinstalls) hopen
      · intro v' hopen
        exact refused_keyLockedSlow hopen hrespond
      · intro v₂ hcounted hopen (answer : Bool) v₃ hperform
        cases answer with
        | true =>
          show Respected env _ (respond true) v₃
          rw [hrespond]
          trivial
        | false =>
          have hfree : ¬ v₂.UnderLockout name := by
            rw [← v₂.keyLockedSlow_iff env name,
              show (v₂.keyLockedSlow env name).1 = false from
                congrArg Prod.fst (Option.some.inj hperform)]
            simp
          apply hpassed v₃
          apply not_bars_of_open (hopen.perform rfl rfl hperform)
          intro hlocked
          rcases underLockout_of_perform hperform hlocked with hbefore | ⟨_, hop, _⟩
          · exact hfree hbefore
          · cases hop

theorem rotate_respected : Respected env (.rotate handle key rng os)
    ((Request.rotate handle key rng os).program env) v := by
  show Respected env _ (rotate env handle key rng os >>= _) v
  rw [rotate_eq]
  apply respected_step
  intro v₁ _ _
  refine ⟨⟨False.elim, fun _ _ => rotate_refused⟩, ?_⟩
  intro (locked : Bool) v₂ hperform
  cases locked with
  | true => trivial
  | false =>
    obtain rfl : v₁ = v₂ := congrArg Prod.snd (Option.some.inj hperform)
    have hflag : v₁.lockedOut = false := congrArg Prod.fst (Option.some.inj hperform)
    apply respected_step
    intro v₂ _ hrely
    have hflag₂ := hrely.flag rfl hflag
    refine ⟨⟨False.elim, fun _ _ => refused_unlocked hflag₂⟩, ?_⟩
    intro (snapshot : KeyMap) v₃ hperform
    obtain rfl : v₂ = v₃ := congrArg Prod.snd (Option.some.inj hperform)
    obtain rfl : v₂.keys = snapshot := congrArg Prod.fst (Option.some.inj hperform)
    show Respected env _ ((match v₂.keys.lookup handle with | none => _ | some entry => _) >>= _) v₂
    cases hlookup : v₂.keys.lookup handle with
    | none => trivial
    | some entry =>
      dsimp only
      rw [Program.bind_assoc]
      apply respected_keyLocked (Vault.open_of_lookup hflag₂ hlookup) rfl
      intro v' h
      exact respected_checked h

end Rotate

theorem program_respected (env : Environment) (request : Request) (v : Vault) :
    Respected env request (request.program env) v := by
  cases request with
  | register name key rng os => exact register_respected
  | rotate handle key rng os => exact rotate_respected
  | _ =>
    apply respected_of_uses (program_uses env _)
    intro op hmay
    cases op <;> first | exact ⟨fun _ hinstalls => hinstalls, rfl⟩ | cases hmay

end KeyVault
