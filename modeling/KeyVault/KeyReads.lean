import KeyVault.KeyMaterial

/-! Readers against writers: what a `with_key` hands to its callback while other
calls register, rotate and remove keys. The log says which material was installed
last under a handle; the registry, and every snapshot ever loaded, holds exactly
that material. -/
namespace KeyVault

open Interleaving

def Request.material : Request → Option Bytes
  | .register _ key _ _ | .rotate _ key _ _ => some key
  | _ => none

def materialAfter (handle : KeyId) (current : Option Bytes) (entry : VaultEntry) :
    Option Bytes :=
  match VaultEvent.commit? entry.event with
  | some (.inserted id _) | some (.replaced id _ _ _) =>
      if handle = id then entry.request.material else current
  | some (.removed id _) => if handle = id then none else current
  | none => current

/-- The key installed under `handle` by the last `register` or `rotate` whose
critical section is in the log, unless it has been removed since. -/
def lastMaterial (handle : KeyId) (log : List VaultEntry) : Option Bytes :=
  log.foldl (materialAfter handle) none

theorem lastMaterial_snoc (handle : KeyId) (log : List VaultEntry) (entry : VaultEntry) :
    lastMaterial handle (log ++ [entry]) = materialAfter handle (lastMaterial handle log) entry := by
  unfold lastMaterial
  rw [List.foldl_append]
  rfl

def Holds (env : Environment) : Option KeyEntry → Option Bytes → Prop
  | none, material => material = none
  | some entry, material => ∃ key, material = some key ∧ Stores env entry.fragments key

/-- A map holds, under every handle, the material the log installed there last. -/
def Tracks (env : Environment) (log : List VaultEntry) (r : Registry) : Prop :=
  ∀ handle, Holds env (r handle) (lastMaterial handle log)

structure MaterialInvariant (env : Environment) (c : VaultConfiguration) : Prop where
  current : Tracks env c.log (registryOf c.shared.keys)
  snapshots : ∀ (before : List VaultEntry) (entry : VaultEntry) (after : List VaultEntry),
    c.log = before ++ entry :: after →
    ∀ snapshot, entry.event = happened .loadKeys snapshot → Tracks env before (registryOf snapshot)

section Step

variable {env : Environment} {log : List VaultEntry} {r r' : Registry} {caller : Nat}
  {request : Request}

theorem Tracks.quiet {event : VaultEvent} (h : Tracks env log r)
    (hcommit : VaultEvent.commit? event = none) :
    Tracks env (log ++ [⟨caller, request, event⟩]) r := by
  intro handle
  rw [lastMaterial_snoc]
  unfold materialAfter
  rw [hcommit]
  exact h handle

theorem Tracks.update {event : VaultEvent} {id : KeyId} {slot : Option KeyEntry}
    {material : Option Bytes} (h : Tracks env log r) (hslot : Holds env slot material)
    (hafter : ∀ handle current, materialAfter handle current ⟨caller, request, event⟩ =
      if handle = id then material else current) :
    Tracks env (log ++ [⟨caller, request, event⟩]) (Function.update r id slot) := by
  intro handle
  rw [lastMaterial_snoc, hafter]
  by_cases hsame : handle = id
  · rw [if_pos hsame, hsame, Function.update_self]
    exact hslot
  · rw [if_neg hsame, Function.update_of_ne hsame]
    exact h handle

/-- Fragments are only installed by a call that made them from its own key. -/
theorem Tracks.step {event : VaultEvent} {history : List VaultEvent} (h : Tracks env log r)
    (hstep : Registry.Step r event r') (hallowed : request.Allowed env history event.op) :
    Tracks env (log ++ [⟨caller, request, event⟩]) r' := by
  obtain ⟨hmay, hready⟩ := hallowed
  cases hstep with
  | @inserted id entry hfree =>
    cases request with
    | register name key rng os =>
      obtain ⟨snapshot, time, fragments, -, hfragment, rfl⟩ := hready
      exact h.update ⟨key, rfl, os, rng, hfragment⟩ fun _ _ => rfl
    | _ => cases hmay
  | duplicate hname => exact h.quiet rfl
  | removed hlookup => exact h.update (show Holds env none none from rfl) fun _ _ => rfl
  | absent hlookup => exact h.quiet rfl
  | @replaced id entry fragments metadata hlookup =>
    cases request with
    | rotate handle key rng os =>
      obtain ⟨snapshot, old, check, time, -, -, -, hfragment, -, -⟩ := hready
      exact h.update ⟨key, rfl, os, rng, hfragment⟩ fun _ _ => rfl
    | _ => cases hmay
  | gone hlookup => exact h.quiet rfl
  | loaded hsnapshot => exact h.quiet rfl
  | other hop hload ret => exact h.quiet (commit?_of_writes hop ret)

end Step

/-! ### Whole runs -/

theorem materialInvariant_exec {env : Environment} {c c' : VaultConfiguration} {caller : Nat}
    (h : MaterialInvariant env c) (horderly : OrderlyCalls env c)
    (hstep : (vaultMachine env).step c (.exec caller) = some c') : MaterialInvariant env c' := by
  obtain ⟨request, op, next, ret, v, hcall, hperform, rfl⟩ := Machine.step_exec_iff.mp hstep
  obtain ⟨hallowed, -⟩ := horderly.obeys caller _ hcall
  refine ⟨h.current.step (perform_registryStep hperform) hallowed, ?_⟩
  intro before entry after hlog snapshot hload
  rcases split_snoc hlog with ⟨rfl, rfl⟩ | ⟨rest, hbefore⟩
  · -- the step just made is the load: its snapshot is the current map
    cases hload
    cases hperform
    exact h.current
  · exact h.snapshots before entry rest hbefore snapshot hload

theorem materialInvariant_run {env : Environment} {c c' : VaultConfiguration}
    (hrun : (vaultMachine env).Reaches c c') (h : OrderlyCalls env c ∧ MaterialInvariant env c) :
    OrderlyCalls env c' ∧ MaterialInvariant env c' := by
  apply hrun.invariant (I := fun c => OrderlyCalls env c ∧ MaterialInvariant env c) h
  intro c action c' hinv _ hstep
  obtain ⟨horderly, hmaterial⟩ := hinv
  have hone : (vaultMachine env).Reaches c c' := .tail (.refl c) trivial hstep
  refine ⟨hone.orderly (program_obeys env) horderly, ?_⟩
  cases action with
  | invoke request =>
    rw [Machine.step_invoke_iff] at hstep
    subst hstep
    exact ⟨hmaterial.current, hmaterial.snapshots⟩
  | exec caller => exact materialInvariant_exec hmaterial horderly hstep
  | external event =>
    obtain ⟨v, hact, rfl⟩ := Machine.step_external_iff.mp hstep
    obtain ⟨clock, unixTime, handles, -, -, rfl⟩ := Surroundings.act_frame hact
    exact ⟨hmaterial.current, hmaterial.snapshots⟩

theorem materialInvariant_start (env : Environment) (clock unixTime : Duration) (handles : Nat) :
    MaterialInvariant env (Config.start (Vault.new clock unixTime handles)) where
  current := by
    intro handle
    rfl
  snapshots := by
    intro before entry after hlog
    simp [Config.start] at hlog

/-! ### What a reader gets -/

/-- The outcome of a `with_key` on a handle under which `material` was installed
last when it loaded its snapshot. -/
def ReadOutcome (env : Environment) (opens : Bool) (result : Result Bytes) :
    Option Bytes → Prop
  | none => result = fail .keyNotFound
  | some key => ∃ bytes, normalForm env key = .ok bytes ∧
      (result = .ok bytes ∨
        opens = false ∧ result = fail (.memoryLock "could not make the key's pages readable"))

def FoundLockout (events : List VaultEvent) : Prop :=
  happened .loadLockedOut true ∈ events ∨ ∃ name, happened (.keyLockedSlow name) true ∈ events

theorem KeyLockedPath.found {name : String} {check : List VaultEvent}
    (h : KeyLockedPath name check true) : happened (.keyLockedSlow name) true ∈ check := by
  cases h with
  | slow hactive => simp

theorem WithKeyPath.outcome {env : Environment} {handle : KeyId} {opens : Bool} {scratch : Bytes}
    {events : List VaultEvent} {result : Result Bytes}
    (h : WithKeyPath env handle opens scratch events result) :
    (result = fail .lockedOut ∧ FoundLockout events) ∨
      ∃ snapshot : KeyMap, happened .loadKeys snapshot ∈ events ∧
        match snapshot.lookup handle with
        | none => result = fail .keyNotFound
        | some entry => (readKey env entry.fragments opens scratch id).1 = result := by
  cases h with
  | lockedOut =>
    left
    exact ⟨rfl, .inl (by simp)⟩
  | absent snapshot hlookup =>
    right
    exact ⟨snapshot, by simp [looked], by rw [hlookup]⟩
  | keyLocked snapshot entry check hlookup hcheck =>
    left
    exact ⟨rfl, .inr ⟨entry.name, List.mem_append_right _ hcheck.found⟩⟩
  | failed snapshot entry check exit hlookup hcheck hread =>
    right
    exact ⟨snapshot, by simp [looked], by rw [hlookup]; exact hread⟩
  | read snapshot entry check bytes hlookup hcheck hread =>
    right
    exact ⟨snapshot, by simp [looked], by rw [hlookup]; exact hread⟩

theorem OrderlyCalls.split {env : Environment} {c : VaultConfiguration} (h : OrderlyCalls env c)
    {caller : Nat} {call : Activation vaultSignature Request Response} {event : VaultEvent}
    (hcall : c.calls[caller]? = some call) (hevent : event ∈ eventsBy c.log caller) :
    ∃ before after, c.log = before ++ ⟨caller, call.request, event⟩ :: after := by
  obtain ⟨logged, hlogged, rfl, rfl⟩ := mem_eventsBy.mp hevent
  obtain ⟨rest, hrest⟩ := h.logged logged hlogged
  obtain ⟨before, after, hsplit⟩ := List.append_of_mem hlogged
  rw [hcall] at hrest
  cases hrest
  exact ⟨before, after, hsplit⟩

/-- In every interleaving, a finished `with_key` that no lockout stopped has the
normalized form of the key installed under its handle by the last critical section
before its snapshot load: never another version, never a failure to reassemble. -/
theorem withKey_reads_lastMaterial {env : Environment} {clock unixTime : Duration} {handles : Nat}
    {c : VaultConfiguration} (hcodex : env.CodexUndone) (hfragmenter : env.fragmenter.Reliable)
    (hrun : (vaultMachine env).Reaches (Config.start (Vault.new clock unixTime handles)) c)
    {caller : Nat} {handle : KeyId} {opens : Bool} {scratch : Bytes} {response : Response}
    (hreturned : c.Returned caller (.withKey handle opens scratch) response) :
    ∃ result, response = .material result ∧
      ((result = fail .lockedOut ∧ FoundLockout (eventsBy c.log caller)) ∨
        ∃ before snapshot after,
          c.log = before ++
            ⟨caller, .withKey handle opens scratch, happened .loadKeys snapshot⟩ :: after ∧
          ReadOutcome env opens result (lastMaterial handle before)) := by
  obtain ⟨horderly, hmaterial⟩ := materialInvariant_run hrun
    ⟨Machine.orderly_start _, materialInvariant_start env clock unixTime handles⟩
  obtain ⟨result, rfl, hpath⟩ := horderly.returned hreturned
  refine ⟨result, rfl, ?_⟩
  rcases hpath.outcome with hlocked | ⟨snapshot, hload, hresult⟩
  · exact .inl hlocked
  · right
    obtain ⟨before, after, hsplit⟩ := horderly.split hreturned hload
    refine ⟨before, snapshot, after, hsplit, ?_⟩
    have htracks := hmaterial.snapshots before _ after hsplit snapshot rfl handle
    unfold registryOf at htracks
    cases hlookup : snapshot.lookup handle with
    | none =>
      rw [hlookup] at hresult htracks
      rw [show lastMaterial handle before = none from htracks]
      exact hresult
    | some entry =>
      rw [hlookup] at hresult htracks
      obtain ⟨key, hkey, hstores⟩ := htracks
      obtain ⟨working, hworking, hread⟩ :=
        readKey_of_stores hcodex hfragmenter hstores opens scratch
      rw [hkey]
      dsimp only at hresult
      rw [hresult] at hread
      exact ⟨working, hworking, hread⟩

/-- A codex whose `encode` is not its own inverse. -/
def shiftCodex : Codex := ⟨(· + 1), (· - 1)⟩

theorem shiftCodex_undone : shiftCodex.Undone := by
  intro byte
  exact UInt8.add_sub_cancel byte 1

def shiftedVault : Environment :=
  { Environment.plain { pageProtection := true } with codex := some shiftCodex }

theorem shiftedVault_codexUndone : shiftedVault.CodexUndone := by
  rintro codex ⟨⟩
  exact shiftCodex_undone

theorem shiftedVault_reliable : shiftedVault.fragmenter.Reliable :=
  Builtin.reliable (.standard StandardFragmenter.new)

/-- The same, with keyed normalization. What stands in for BLAKE3 adds the first bytes of its
two inputs. -/
def normalizingVault : Environment :=
  { shiftedVault with
    normalizer := .keyed ⟨.fromParts [List.replicate 32 7] [] 32⟩
    blake3Keyed := fun hashKey key => Vector.replicate 32 (hashKey.toList.headD 0 + key.headD 0) }

/-- A read that has loaded its snapshot when a whole rotation goes by. -/
def overtakenRead : List (Action Request Surroundings) :=
  [.invoke (.register "k" [1, 2, 3] (.constant 5) ⟨true, true, true⟩)] ++
  List.replicate 5 (.exec 0) ++
  [.invoke (.withKey 1 true [66]), .exec 1, .exec 1,
    .invoke (.rotate 1 [9, 8] (.constant 6) ⟨true, true, true⟩)] ++
  List.replicate 5 (.exec 2) ++
  [.exec 1, .invoke (.withKey 1 true [])] ++ List.replicate 3 (.exec 3)

structure FinishedRead where
  handle : KeyId
  opens : Bool
  scratch : Bytes
  response : Response
deriving DecidableEq

def finishedRead (c : VaultConfiguration) (caller : Nat) : Option FinishedRead :=
  match c.calls[caller]? with
  | some ⟨.withKey handle opens scratch, .done response⟩ => some ⟨handle, opens, scratch, response⟩
  | _ => none

theorem returned_of_finishedRead {c : VaultConfiguration} {caller : Nat} {read : FinishedRead}
    (h : finishedRead c caller = some read) :
    c.Returned caller (.withKey read.handle read.opens read.scratch) read.response := by
  unfold finishedRead at h
  split at h
  · rename_i hcall
    cases h
    exact hcall
  · cases h

theorem withKey_reads_lastMaterial_overtaken : ∃ c : VaultConfiguration,
    finishedRead c 1 = some ⟨1, true, [66], .material (.ok (List.replicate 32 8))⟩ ∧
      finishedRead c 3 = some ⟨1, true, [], .material (.ok (List.replicate 32 16))⟩ ∧
      ∃ before snapshot after,
        c.log = before ++ ⟨1, .withKey 1 true [66], happened .loadKeys snapshot⟩ :: after ∧
        ReadOutcome normalizingVault true (.ok (List.replicate 32 8)) (lastMaterial 1 before) := by
  have hreads : ((vaultMachine normalizingVault).follow (Config.start (Vault.new 0 0 0))
      overtakenRead).map (fun c => (finishedRead c 1, finishedRead c 3)) =
        some (some ⟨1, true, [66], .material (.ok (List.replicate 32 8))⟩,
          some ⟨1, true, [], .material (.ok (List.replicate 32 16))⟩) := by
    decide +kernel
  obtain ⟨c, hfollow, hc⟩ := Option.map_eq_some_iff.mp hreads
  rw [Prod.mk.injEq] at hc
  obtain ⟨hfirst, hsecond⟩ := hc
  have hundone : normalizingVault.CodexUndone := shiftedVault_codexUndone
  have hreliable : normalizingVault.fragmenter.Reliable := shiftedVault_reliable
  obtain ⟨result, hresponse, houtcome⟩ :=
    withKey_reads_lastMaterial hundone hreliable (Machine.follow_reaches hfollow)
      (returned_of_finishedRead hfirst)
  cases hresponse
  rcases houtcome with ⟨hlocked, -⟩ | hread
  · cases hlocked
  · exact ⟨c, hfirst, hsecond, hread⟩

end KeyVault
