import KeyVault.CallPaths

/-! The registry under concurrency. Seen through its critical sections it is a
sequential map from handles to entries: every answer a step got is the answer of
that map at that point of the log, and handles are never installed twice. -/
namespace KeyVault

open Interleaving

/-! ### The sequential map -/

abbrev Registry := KeyId → Option KeyEntry

def Registry.Named (r : Registry) (name : String) : Prop :=
  ∃ id entry, r id = some entry ∧ entry.name = name

def Registry.UniqueNames (r : Registry) : Prop :=
  ∀ id id' entry entry', r id = some entry → r id' = some entry' → entry.name = entry'.name →
    id = id'

/-- One step of the sequential map, with the answer it must give. -/
inductive Registry.Step : Registry → VaultEvent → Registry → Prop where
  | inserted {r : Registry} {id : KeyId} {entry : KeyEntry} (hfree : ¬ r.Named entry.name) :
      Registry.Step r (happened (.insertKey id entry) true) (Function.update r id (some entry))
  | duplicate {r : Registry} {id : KeyId} {entry : KeyEntry} (hname : r.Named entry.name) :
      Registry.Step r (happened (.insertKey id entry) false) r
  | removed {r : Registry} {id : KeyId} {entry : KeyEntry} (hlookup : r id = some entry) :
      Registry.Step r (happened (.removeKey id) (some entry.name)) (Function.update r id none)
  | absent {r : Registry} {id : KeyId} (hlookup : r id = none) :
      Registry.Step r (happened (.removeKey id) none) r
  | replaced {r : Registry} {id : KeyId} {entry : KeyEntry} {fragments : Fragments}
      {metadata : KeyMetadata} (hlookup : r id = some entry) :
      Registry.Step r (happened (.replaceKey id fragments metadata) (some entry.name))
        (Function.update r id (some { entry with fragments := fragments, metadata := metadata }))
  | gone {r : Registry} {id : KeyId} {fragments : Fragments} {metadata : KeyMetadata}
      (hlookup : r id = none) : Registry.Step r (happened (.replaceKey id fragments metadata) none) r
  | loaded {r : Registry} {snapshot : KeyMap} (hsnapshot : ∀ id, snapshot.lookup id = r id) :
      Registry.Step r (happened .loadKeys snapshot) r
  | other {r : Registry} {op : VaultOp} (hop : op.writes .keys = false) (hload : op ≠ .loadKeys)
      (ret : op.Ret) : Registry.Step r (happened op ret) r

def Registry.Fresh (r : Registry) (event : VaultEvent) : Prop :=
  ∀ id entry, event = happened (.insertKey id entry) true → r id = none

inductive Registry.Replays (r : Registry) : List VaultEvent → Registry → Prop where
  | nil : Registry.Replays r [] r
  | snoc {events : List VaultEvent} {r' r'' : Registry} {event : VaultEvent} :
      Registry.Replays r events r' → Registry.Step r' event r'' → r'.Fresh event →
      Registry.Replays r (events ++ [event]) r''

/-! ### What a step committed -/

inductive Commit where
  | inserted (id : KeyId) (entry : KeyEntry)
  | removed (id : KeyId) (name : String)
  | replaced (id : KeyId) (name : String) (fragments : Fragments) (metadata : KeyMetadata)
deriving DecidableEq

def VaultOp.commit? : (op : VaultOp) → op.Ret → Option Commit
  | .insertKey id entry, inserted => cond inserted (some (.inserted id entry)) none
  | .removeKey id, removed => Option.map (.removed id) removed
  | .replaceKey id fragments metadata, replaced =>
      Option.map (fun name => .replaced id name fragments metadata) replaced
  | _, _ => none

def VaultEvent.commit? (event : VaultEvent) : Option Commit := VaultOp.commit? event.op event.ret

def commits (log : List VaultEntry) : List (Nat × Commit) :=
  log.filterMap fun entry => (VaultEvent.commit? entry.event).map (entry.caller, ·)

def commitsBy (log : List VaultEntry) (caller : Nat) : List Commit :=
  (eventsBy log caller).filterMap VaultEvent.commit?

def Commit.installs : Commit → Option KeyId
  | .inserted id _ => some id
  | _ => none

def Commit.removes : Commit → Option KeyId
  | .removed id _ => some id
  | _ => none

def installedIds (log : List VaultEntry) : List KeyId :=
  (commits log).filterMap fun commit => commit.2.installs

def removedIds (log : List VaultEntry) : List KeyId :=
  (commits log).filterMap fun commit => commit.2.removes

def VaultEvent.allocates : VaultEvent → Option KeyId
  | ⟨.allocateHandle, id⟩ => some id
  | _ => none

def allocations (log : List VaultEntry) : List (Nat × KeyId) :=
  log.filterMap fun entry => (VaultEvent.allocates entry.event).map (entry.caller, ·)

section Append

variable (log : List VaultEntry) (entry : VaultEntry)

theorem commits_snoc : commits (log ++ [entry]) =
    commits log ++ ((VaultEvent.commit? entry.event).map (entry.caller, ·)).toList := by
  cases h : VaultEvent.commit? entry.event <;> simp [commits, h]

theorem installedIds_snoc : installedIds (log ++ [entry]) =
    installedIds log ++ ((VaultEvent.commit? entry.event).bind Commit.installs).toList := by
  unfold installedIds
  rw [commits_snoc, List.filterMap_append]
  cases h : VaultEvent.commit? entry.event with
  | none => rfl
  | some commit => cases h' : commit.installs <;> simp [h']

theorem removedIds_snoc : removedIds (log ++ [entry]) =
    removedIds log ++ ((VaultEvent.commit? entry.event).bind Commit.removes).toList := by
  unfold removedIds
  rw [commits_snoc, List.filterMap_append]
  cases h : VaultEvent.commit? entry.event with
  | none => rfl
  | some commit => cases h' : commit.removes <;> simp [h']

theorem allocations_snoc : allocations (log ++ [entry]) =
    allocations log ++ ((VaultEvent.allocates entry.event).map (entry.caller, ·)).toList := by
  cases h : VaultEvent.allocates entry.event <;> simp [allocations, h]

end Append

theorem mem_commits {log : List VaultEntry} {caller : Nat} {commit : Commit} :
    (caller, commit) ∈ commits log ↔
      ∃ entry ∈ log, entry.caller = caller ∧ VaultEvent.commit? entry.event = some commit := by
  simp only [commits, List.mem_filterMap, Option.map_eq_some_iff, Prod.mk.injEq]
  constructor
  · rintro ⟨entry, hentry, other, hcommit, hcaller, rfl⟩
    exact ⟨entry, hentry, hcaller, hcommit⟩
  · rintro ⟨entry, hentry, hcaller, hcommit⟩
    exact ⟨entry, hentry, commit, hcommit, hcaller, rfl⟩

theorem mem_commits_iff_commitsBy {log : List VaultEntry} {caller : Nat} {commit : Commit} :
    (caller, commit) ∈ commits log ↔ commit ∈ commitsBy log caller := by
  unfold commitsBy
  rw [mem_commits, List.mem_filterMap]
  constructor
  · rintro ⟨entry, hentry, hcaller, hcommit⟩
    exact ⟨entry.event, mem_eventsBy.mpr ⟨entry, hentry, hcaller, rfl⟩, hcommit⟩
  · rintro ⟨event, hevent, hcommit⟩
    obtain ⟨entry, hentry, hcaller, rfl⟩ := mem_eventsBy.mp hevent
    exact ⟨entry, hentry, hcaller, hcommit⟩

theorem mem_allocations {log : List VaultEntry} {caller : Nat} {id : KeyId}
    (h : happened .allocateHandle id ∈ eventsBy log caller) :
    (caller, id) ∈ allocations log := by
  obtain ⟨entry, hentry, rfl, hevent⟩ := mem_eventsBy.mp h
  refine List.mem_filterMap.mpr ⟨entry, hentry, ?_⟩
  rw [hevent]
  rfl

theorem commit?_inserted {event : VaultEvent} {id : KeyId} {entry : KeyEntry}
    (h : VaultEvent.commit? event = some (.inserted id entry)) :
    event = happened (.insertKey id entry) true := by
  obtain ⟨op, ret⟩ := event
  cases op with
  | insertKey id' entry' =>
    cases ret with
    | false => cases h
    | true =>
      cases h
      rfl
  | removeKey id' => cases ret <;> cases h
  | replaceKey id' fragments metadata => cases ret <;> cases h
  | _ => cases h

/-! ### The vault's map is the sequential map -/

def registryOf (keys : KeyMap) : Registry := fun id => keys.lookup id

theorem named_registryOf {keys : KeyMap} {name : String} :
    (registryOf keys).Named name ↔ keys.hasName name = true := by
  unfold Registry.Named registryOf KeyMap.hasName
  rw [List.any_eq_true]
  constructor
  · rintro ⟨id, entry, hlookup, hname⟩
    exact ⟨⟨id, entry⟩, AList.mem_lookup_iff.mp hlookup, beq_iff_eq.mpr hname⟩
  · rintro ⟨⟨id, entry⟩, hmem, hname⟩
    exact ⟨id, entry, AList.mem_lookup_iff.mpr hmem, beq_iff_eq.mp hname⟩

theorem registryOf_insert (keys : KeyMap) (id : KeyId) (entry : KeyEntry) :
    registryOf (keys.insert id entry) = Function.update (registryOf keys) id (some entry) :=
  lookup_insert_eq_update keys id entry

theorem registryOf_erase (keys : KeyMap) (id : KeyId) :
    registryOf (keys.erase id) = Function.update (registryOf keys) id none :=
  lookup_erase_eq_update keys id

theorem perform_registryStep {env : Environment} {op : VaultOp} {ret : op.Ret} {v v' : Vault}
    (h : Vault.perform env op v = some (ret, v')) :
    Registry.Step (registryOf v.keys) (happened op ret) (registryOf v'.keys) := by
  cases op with
  | insertKey id entry =>
    simp only [Vault.perform, Vault.insertKey] at h
    by_cases hname : v.keys.hasName entry.name = true
    · rw [if_pos hname] at h
      cases h
      exact .duplicate (named_registryOf.mpr hname)
    · rw [if_neg hname] at h
      cases h
      dsimp only
      rw [registryOf_insert]
      exact .inserted fun hnamed => hname (named_registryOf.mp hnamed)
  | removeKey id =>
    simp only [Vault.perform, Vault.removeKey] at h
    cases hlookup : v.keys.lookup id with
    | none =>
      rw [hlookup] at h
      cases h
      exact .absent hlookup
    | some entry =>
      rw [hlookup] at h
      cases h
      dsimp only
      rw [registryOf_erase]
      exact .removed hlookup
  | replaceKey id fragments metadata =>
    simp only [Vault.perform, Vault.replaceKey] at h
    cases hlookup : v.keys.lookup id with
    | none =>
      rw [hlookup] at h
      cases h
      exact .gone hlookup
    | some entry =>
      rw [hlookup] at h
      cases h
      dsimp only
      rw [registryOf_insert]
      exact .replaced hlookup
  | loadKeys =>
    cases h
    exact .loaded fun _ => rfl
  | _ =>
    rw [(Vault.perform_frame h).keys rfl]
    exact .other rfl (by simp) ret

/-! ### Whole logs -/

def logEvents (log : List VaultEntry) : List VaultEvent := log.map (·.event)

structure History (log : List VaultEntry) (r : Registry) : Prop where
  replays : Registry.Replays (fun _ => none) (logEvents log) r
  uniqueNames : r.UniqueNames
  installedOnce : (installedIds log).Nodup
  removedOnce : (removedIds log).Nodup
  removedInstalled : ∀ id ∈ removedIds log, id ∈ installedIds log
  present : ∀ id entry, r id = some entry →
    ∃ caller first, (caller, .inserted id first) ∈ commits log ∧ first.name = entry.name
  absent : ∀ id ∈ removedIds log, r id = none

theorem history_nil : History [] (fun _ => none) where
  replays := .nil
  uniqueNames := by
    intro id id' entry entry' hlookup
    cases hlookup
  installedOnce := List.nodup_nil
  removedOnce := List.nodup_nil
  removedInstalled := by
    intro id hid
    cases hid
  present := by
    intro id entry hlookup
    cases hlookup
  absent := by
    intro id hid
    cases hid

theorem mem_installedIds {log : List VaultEntry} {id : KeyId} :
    id ∈ installedIds log ↔ ∃ caller entry, (caller, .inserted id entry) ∈ commits log := by
  unfold installedIds
  rw [List.mem_filterMap]
  constructor
  · rintro ⟨⟨caller, commit⟩, hcommit, hinstalls⟩
    cases commit with
    | inserted id' entry =>
      cases hinstalls
      exact ⟨caller, entry, hcommit⟩
    | removed id' name => cases hinstalls
    | replaced id' name fragments metadata => cases hinstalls
  · rintro ⟨caller, entry, hcommit⟩
    exact ⟨_, hcommit, rfl⟩

theorem mem_removedIds {log : List VaultEntry} {id : KeyId} :
    id ∈ removedIds log ↔ ∃ caller name, (caller, .removed id name) ∈ commits log := by
  unfold removedIds
  rw [List.mem_filterMap]
  constructor
  · rintro ⟨⟨caller, commit⟩, hcommit, hremoves⟩
    cases commit with
    | inserted id' entry => cases hremoves
    | removed id' name =>
      cases hremoves
      exact ⟨caller, name, hcommit⟩
    | replaced id' name fragments metadata => cases hremoves
  · rintro ⟨caller, name, hcommit⟩
    exact ⟨_, hcommit, rfl⟩

section HistoryStep

variable {log : List VaultEntry} {r r' : Registry} {caller : Nat} {request : Request}

theorem fresh_of_commit?_none {event : VaultEvent} (h : VaultEvent.commit? event = none) :
    r.Fresh event := by
  rintro id entry rfl
  cases h

theorem History.replays_snoc {event : VaultEvent} (h : History log r)
    (hstep : Registry.Step r event r') (hfresh : r.Fresh event) :
    Registry.Replays (fun _ => none) (logEvents (log ++ [⟨caller, request, event⟩])) r' := by
  unfold logEvents
  rw [List.map_append]
  exact .snoc h.replays hstep hfresh

theorem History.quiet {event : VaultEvent} (h : History log r)
    (hstep : Registry.Step r event r) (hcommit : VaultEvent.commit? event = none) :
    History (log ++ [⟨caller, request, event⟩]) r := by
  have hcommits : commits (log ++ [⟨caller, request, event⟩]) = commits log := by
    rw [commits_snoc, hcommit]
    exact List.append_nil _
  refine ⟨h.replays_snoc hstep (fresh_of_commit?_none hcommit), h.uniqueNames, ?_, ?_, ?_, ?_, ?_⟩
  · unfold installedIds
    rw [hcommits]
    exact h.installedOnce
  · unfold removedIds
    rw [hcommits]
    exact h.removedOnce
  · unfold removedIds installedIds
    rw [hcommits]
    exact h.removedInstalled
  · rw [hcommits]
    exact h.present
  · unfold removedIds
    rw [hcommits]
    exact h.absent

theorem History.inserted {id : KeyId} {entry : KeyEntry} (h : History log r)
    (hfree : ¬ r.Named entry.name)
    (hnew : r.Fresh (happened (.insertKey id entry) true)) (hfresh : id ∉ installedIds log) :
    History (log ++ [⟨caller, request, happened (.insertKey id entry) true⟩])
      (Function.update r id (some entry)) := by
  have hinstalled : installedIds (log ++ [⟨caller, request, happened (.insertKey id entry) true⟩]) =
      installedIds log ++ [id] := installedIds_snoc _ _
  have hremoved : removedIds (log ++ [⟨caller, request, happened (.insertKey id entry) true⟩]) =
      removedIds log := (removedIds_snoc _ _).trans (List.append_nil _)
  have hcommits : commits (log ++ [⟨caller, request, happened (.insertKey id entry) true⟩]) =
      commits log ++ [(caller, .inserted id entry)] := commits_snoc _ _
  refine ⟨h.replays_snoc (.inserted hfree) hnew, ?_, ?_, ?_, ?_, ?_, ?_⟩
  · intro left right leftEntry rightEntry hleft hright hname
    by_cases hl : left = id
    · by_cases hr : right = id
      · rw [hl, hr]
      · rw [hl, Function.update_self, Option.some.injEq] at hleft
        rw [Function.update_of_ne hr] at hright
        exact absurd ⟨right, rightEntry, hright, by rw [← hname, ← hleft]⟩ hfree
    · rw [Function.update_of_ne hl] at hleft
      by_cases hr : right = id
      · rw [hr, Function.update_self, Option.some.injEq] at hright
        exact absurd ⟨left, leftEntry, hleft, by rw [hname, ← hright]⟩ hfree
      · rw [Function.update_of_ne hr] at hright
        exact h.uniqueNames left right leftEntry rightEntry hleft hright hname
  · rw [hinstalled, List.nodup_append]
    refine ⟨h.installedOnce, List.nodup_singleton id, ?_⟩
    intro other hother last hlast
    rw [List.mem_singleton.mp hlast]
    intro hsame
    exact hfresh (hsame ▸ hother)
  · rw [hremoved]
    exact h.removedOnce
  · intro other hother
    rw [hremoved] at hother
    rw [hinstalled]
    exact List.mem_append_left _ (h.removedInstalled other hother)
  · intro other found hlookup
    rw [hcommits]
    by_cases hsame : other = id
    · rw [hsame, Function.update_self, Option.some.injEq] at hlookup
      subst hlookup
      exact ⟨caller, entry, by simp [hsame], rfl⟩
    · rw [Function.update_of_ne hsame] at hlookup
      obtain ⟨installer, first, hcommit, hname⟩ := h.present other found hlookup
      exact ⟨installer, first, List.mem_append_left _ hcommit, hname⟩
  · intro other hother
    rw [hremoved] at hother
    have hsame : other ≠ id := by
      intro hsame
      exact hfresh (hsame ▸ h.removedInstalled other hother)
    rw [Function.update_of_ne hsame]
    exact h.absent other hother

theorem History.removed {id : KeyId} {entry : KeyEntry} (h : History log r)
    (hlookup : r id = some entry) :
    History (log ++ [⟨caller, request, happened (.removeKey id) (some entry.name)⟩])
      (Function.update r id none) := by
  have hinstalled : installedIds
      (log ++ [⟨caller, request, happened (.removeKey id) (some entry.name)⟩]) =
        installedIds log := (installedIds_snoc _ _).trans (List.append_nil _)
  have hremoved : removedIds
      (log ++ [⟨caller, request, happened (.removeKey id) (some entry.name)⟩]) =
        removedIds log ++ [id] := removedIds_snoc _ _
  have hcommits : commits
      (log ++ [⟨caller, request, happened (.removeKey id) (some entry.name)⟩]) =
        commits log ++ [(caller, .removed id entry.name)] := commits_snoc _ _
  have hkept : ∀ other found, Function.update r id none other = some found → r other = some found := by
    intro other found hfound
    by_cases hsame : other = id
    · rw [hsame, Function.update_self] at hfound
      cases hfound
    · rwa [Function.update_of_ne hsame] at hfound
  refine ⟨h.replays_snoc (.removed hlookup) (by rintro _ _ ⟨⟩), ?_, ?_, ?_, ?_, ?_, ?_⟩
  · intro left right leftEntry rightEntry hleft hright
    exact h.uniqueNames left right leftEntry rightEntry (hkept _ _ hleft) (hkept _ _ hright)
  · rw [hinstalled]
    exact h.installedOnce
  · rw [hremoved, List.nodup_append]
    refine ⟨h.removedOnce, List.nodup_singleton id, ?_⟩
    intro other hother last hlast
    rw [List.mem_singleton.mp hlast]
    intro hsame
    have hnone := h.absent other hother
    rw [hsame, hlookup] at hnone
    cases hnone
  · intro other hother
    rw [hremoved] at hother
    rw [hinstalled]
    rcases List.mem_append.mp hother with hold | hnew
    · exact h.removedInstalled other hold
    · rw [List.mem_singleton.mp hnew]
      obtain ⟨installer, first, hcommit, -⟩ := h.present id entry hlookup
      exact mem_installedIds.mpr ⟨installer, first, hcommit⟩
  · intro other found hfound
    rw [hcommits]
    obtain ⟨installer, first, hcommit, hname⟩ := h.present other found (hkept _ _ hfound)
    exact ⟨installer, first, List.mem_append_left _ hcommit, hname⟩
  · intro other hother
    rw [hremoved] at hother
    by_cases hsame : other = id
    · rw [hsame, Function.update_self]
    · rw [Function.update_of_ne hsame]
      rcases List.mem_append.mp hother with hold | hnew
      · exact h.absent other hold
      · exact absurd (List.mem_singleton.mp hnew) hsame

theorem History.replaced {id : KeyId} {entry : KeyEntry} {fragments : Fragments}
    {metadata : KeyMetadata} (h : History log r) (hlookup : r id = some entry) :
    History
      (log ++ [⟨caller, request, happened (.replaceKey id fragments metadata) (some entry.name)⟩])
      (Function.update r id (some { entry with fragments := fragments, metadata := metadata })) := by
  have hinstalled : installedIds
      (log ++ [⟨caller, request, happened (.replaceKey id fragments metadata) (some entry.name)⟩]) =
        installedIds log := (installedIds_snoc _ _).trans (List.append_nil _)
  have hremoved : removedIds
      (log ++ [⟨caller, request, happened (.replaceKey id fragments metadata) (some entry.name)⟩]) =
        removedIds log := (removedIds_snoc _ _).trans (List.append_nil _)
  have hcommits : commits
      (log ++ [⟨caller, request, happened (.replaceKey id fragments metadata) (some entry.name)⟩]) =
        commits log ++ [(caller, .replaced id entry.name fragments metadata)] := commits_snoc _ _
  -- a replaced entry keeps its handle and its name
  have hkept : ∀ other found,
      Function.update r id (some { entry with fragments := fragments, metadata := metadata }) other =
        some found → ∃ old, r other = some old ∧ old.name = found.name := by
    intro other found hfound
    by_cases hsame : other = id
    · rw [hsame, Function.update_self, Option.some.injEq] at hfound
      exact ⟨entry, hsame ▸ hlookup, by rw [← hfound]⟩
    · rw [Function.update_of_ne hsame] at hfound
      exact ⟨found, hfound, rfl⟩
  refine ⟨h.replays_snoc (.replaced hlookup) (by rintro _ _ ⟨⟩), ?_, ?_, ?_, ?_, ?_, ?_⟩
  · intro left right leftEntry rightEntry hleft hright hname
    obtain ⟨leftOld, hleftOld, hleftName⟩ := hkept _ _ hleft
    obtain ⟨rightOld, hrightOld, hrightName⟩ := hkept _ _ hright
    exact h.uniqueNames left right leftOld rightOld hleftOld hrightOld
      (by rw [hleftName, hname, hrightName])
  · rw [hinstalled]
    exact h.installedOnce
  · rw [hremoved]
    exact h.removedOnce
  · rw [hremoved, hinstalled]
    exact h.removedInstalled
  · intro other found hfound
    obtain ⟨old, hold, holdName⟩ := hkept _ _ hfound
    obtain ⟨installer, first, hcommit, hname⟩ := h.present other old hold
    rw [hcommits]
    exact ⟨installer, first, List.mem_append_left _ hcommit, hname.trans holdName⟩
  · intro other hother
    rw [hremoved] at hother
    have hnone := h.absent other hother
    have hsame : other ≠ id := by
      intro hsame
      rw [hsame, hlookup] at hnone
      cases hnone
    rw [Function.update_of_ne hsame]
    exact hnone

theorem commit?_of_writes {op : VaultOp} (h : op.writes .keys = false) (ret : op.Ret) :
    VaultEvent.commit? (happened op ret) = none := by
  cases op <;> first | rfl | cases h

theorem History.step {event : VaultEvent} (h : History log r) (hstep : Registry.Step r event r')
    (hnew : r.Fresh event) (hfresh : ∀ id entry, event = happened (.insertKey id entry) true → id ∉ installedIds log) :
    History (log ++ [⟨caller, request, event⟩]) r' := by
  cases hstep with
  | inserted hfree => exact h.inserted hfree hnew (hfresh _ _ rfl)
  | duplicate hname => exact h.quiet (.duplicate hname) rfl
  | removed hlookup => exact h.removed hlookup
  | absent hlookup => exact h.quiet (.absent hlookup) rfl
  | replaced hlookup => exact h.replaced hlookup
  | gone hlookup => exact h.quiet (.gone hlookup) rfl
  | loaded hsnapshot => exact h.quiet (.loaded hsnapshot) rfl
  | other hop hload ret => exact h.quiet (.other hop hload ret) (commit?_of_writes hop ret)

end HistoryStep

/-! ### Whole runs -/

abbrev OrderlyCalls (env : Environment) (c : VaultConfiguration) : Prop :=
  Machine.Orderly (Request.Allowed env) (Request.Ends env) c

/-- The registry, the handles given out and the log fit together. -/
structure RegistryInvariant (c : VaultConfiguration) : Prop where
  history : History c.log (registryOf c.shared.keys)
  allocatedOnce : ((allocations c.log).map Prod.snd).Nodup
  allocatedBelow : ∀ allocation ∈ allocations c.log, allocation.2 ≤ c.shared.handleCounter

theorem OrderlyCalls.installer {env : Environment} {c : VaultConfiguration}
    (h : OrderlyCalls env c) {caller : Nat} {id : KeyId} {entry : KeyEntry}
    (hcommit : (caller, .inserted id entry) ∈ commits c.log) :
    (caller, id) ∈ allocations c.log ∧
      ∃ key rng os rest, c.calls[caller]? = some ⟨.register entry.name key rng os, rest⟩ := by
  obtain ⟨logged, hlogged, rfl, hevent⟩ := mem_commits.mp hcommit
  obtain ⟨before, after, hsplit⟩ := List.append_of_mem hlogged
  have hpermitted := h.permitted before logged after hsplit
  obtain ⟨rest, hcall⟩ := h.logged logged hlogged
  obtain ⟨caller, request, event⟩ := logged
  rw [commit?_inserted hevent] at hpermitted
  obtain ⟨hmay, hready⟩ := hpermitted
  cases request with
  | register name key rng os =>
    obtain ⟨snapshot, time, fragments, hhistory, -, rfl⟩ := hready
    refine ⟨mem_allocations ?_, key, rng, os, rest, hcall⟩
    rw [hsplit, eventsBy_append, hhistory]
    simp [prepared, looked]
  | _ => cases hmay

/-- A handle about to be installed has never been installed before. -/
theorem RegistryInvariant.fresh {env : Environment} {c : VaultConfiguration}
    (h : RegistryInvariant c) (horderly : OrderlyCalls env c) {caller : Nat} {request : Request}
    {id : KeyId} {entry : KeyEntry} {next : Bool → VaultProgram Response}
    (hcall : c.calls[caller]? = some ⟨request, .step (.insertKey id entry) next⟩) :
    id ∉ installedIds c.log := by
  intro hinstalled
  obtain ⟨other, first, hcommit⟩ := mem_installedIds.mp hinstalled
  obtain ⟨⟨hmay, hready⟩, -⟩ := horderly.obeys caller _ hcall
  obtain ⟨hother, -⟩ := horderly.installer hcommit
  cases request with
  | register name key rng os =>
    obtain ⟨snapshot, time, fragments, hhistory, -⟩ := hready
    have hmine : (caller, id) ∈ allocations c.log := by
      apply mem_allocations
      rw [hhistory]
      simp [prepared, looked]
    have hsame : (other, id) = (caller, id) :=
      List.inj_on_of_nodup_map h.allocatedOnce hother hmine rfl
    cases hsame
    -- the call itself would have installed the handle already
    rw [mem_commits_iff_commitsBy, commitsBy, hhistory] at hcommit
    cases hcommit
  | _ => cases hmay

theorem keyIdAfter_of_lt {allocated : Nat} (h : allocated + 1 < 2 ^ 64) :
    keyIdAfter allocated = allocated + 1 := by
  unfold keyIdAfter
  dsimp only
  rw [Nat.add_comm, Nat.mod_eq_of_lt h, if_neg (Nat.succ_ne_zero _)]

theorem handleCounter_mono {env : Environment} {c c' : VaultConfiguration}
    {action : Action Request Surroundings} (hstep : (vaultMachine env).step c action = some c') :
    c.shared.handleCounter ≤ c'.shared.handleCounter := by
  cases action with
  | invoke request =>
    rw [Machine.step_invoke_iff] at hstep
    subst hstep
    exact Nat.le_refl _
  | exec caller =>
    obtain ⟨request, op, next, ret, v, -, hperform, rfl⟩ := Machine.step_exec_iff.mp hstep
    by_cases hop : op = .allocateHandle
    · subst hop
      cases hperform
      exact Nat.le_succ _
    · have hframe := (Vault.perform_frame hperform).handleCounter
        (by cases op <;> first | rfl | exact absurd rfl hop)
      exact Nat.le_of_eq hframe.symm
  | external event =>
    obtain ⟨v, hact, rfl⟩ := Machine.step_external_iff.mp hstep
    obtain ⟨clock, unixTime, handles, -, hle, rfl⟩ := Surroundings.act_frame hact
    exact hle

theorem RegistryInvariant.registryFresh {env : Environment} {c : VaultConfiguration}
    (h : RegistryInvariant c) (horderly : OrderlyCalls env c) {caller : Nat} {request : Request}
    {op : VaultOp} {next : op.Ret → VaultProgram Response}
    (hcall : c.calls[caller]? = some ⟨request, .step op next⟩) (ret : op.Ret) :
    (registryOf c.shared.keys).Fresh (happened op ret) := by
  rintro id entry ⟨⟩
  cases hlookup : registryOf c.shared.keys id with
  | none => rfl
  | some found =>
    obtain ⟨installer, first, hcommit, -⟩ := h.history.present id found hlookup
    exact absurd (mem_installedIds.mpr ⟨installer, first, hcommit⟩) (h.fresh horderly hcall)

theorem registryInvariant_exec {env : Environment} {c c' : VaultConfiguration} {caller : Nat}
    (h : RegistryInvariant c) (horderly : OrderlyCalls env c)
    (hstep : (vaultMachine env).step c (.exec caller) = some c')
    (hhandles : c'.shared.handleCounter < 2 ^ 64) : RegistryInvariant c' := by
  have hmono := handleCounter_mono hstep
  obtain ⟨request, op, next, ret, v, hcall, hperform, rfl⟩ := Machine.step_exec_iff.mp hstep
  refine ⟨?_, ?_, ?_⟩
  · apply h.history.step (perform_registryStep hperform) (h.registryFresh horderly hcall ret)
    intro id entry hevent
    cases hevent
    exact h.fresh horderly hcall
  · dsimp only
    rw [allocations_snoc]
    by_cases hop : op = .allocateHandle
    · subst hop
      cases hperform
      dsimp only at hhandles
      rw [List.map_append, List.nodup_append]
      refine ⟨h.allocatedOnce, List.nodup_singleton _, ?_⟩
      intro old hold new hnew
      obtain ⟨allocation, hallocation, rfl⟩ := List.mem_map.mp hold
      have hbelow := h.allocatedBelow allocation hallocation
      have hvalue : new = c.shared.handleCounter + 1 :=
        (List.mem_singleton.mp hnew).trans (keyIdAfter_of_lt hhandles)
      rw [hvalue]
      exact Nat.ne_of_lt (Nat.lt_succ_of_le hbelow)
    · have hnone : VaultEvent.allocates (happened op ret) = none := by
        cases op <;> first | rfl | exact absurd rfl hop
      rw [hnone]
      simpa using h.allocatedOnce
  · dsimp only at hhandles hmono ⊢
    rw [allocations_snoc]
    intro allocation hallocation
    rcases List.mem_append.mp hallocation with hold | hnew
    · exact (h.allocatedBelow allocation hold).trans hmono
    · by_cases hop : op = .allocateHandle
      · subst hop
        cases hperform
        dsimp only at hhandles ⊢
        have hvalue : allocation = (caller, keyIdAfter c.shared.handleCounter) :=
          List.mem_singleton.mp hnew
        rw [hvalue, keyIdAfter_of_lt hhandles]
      · have hnone : VaultEvent.allocates (happened op ret) = none := by
          cases op <;> first | rfl | exact absurd rfl hop
        rw [hnone] at hnew
        cases hnew

/-- Along every run the registry invariant and the rules of all calls hold, as
long as fewer than `2 ^ 64` handles are given out. -/
theorem registryInvariant_run {env : Environment} {c c' : VaultConfiguration}
    (hrun : (vaultMachine env).Reaches c c')
    (h : OrderlyCalls env c ∧ (c.shared.handleCounter < 2 ^ 64 → RegistryInvariant c)) :
    OrderlyCalls env c' ∧ (c'.shared.handleCounter < 2 ^ 64 → RegistryInvariant c') := by
  refine hrun.invariant (I := fun c => OrderlyCalls env c ∧
    (c.shared.handleCounter < 2 ^ 64 → RegistryInvariant c)) h fun c action c' hinv _ hstep => ?_
  obtain ⟨horderly, hregistry⟩ := hinv
  have hmono := handleCounter_mono hstep
  have hone : (vaultMachine env).Reaches c c' := .tail (.refl c) trivial hstep
  have horderly' : OrderlyCalls env c' := hone.orderly (program_obeys env) horderly
  refine ⟨horderly', fun hhandles => ?_⟩
  have hinv := hregistry (by omega)
  cases action with
  | invoke request =>
    rw [Machine.step_invoke_iff] at hstep
    subst hstep
    exact ⟨hinv.history, hinv.allocatedOnce, hinv.allocatedBelow⟩
  | exec caller => exact registryInvariant_exec hinv horderly hstep hhandles
  | external event =>
    obtain ⟨v, hact, rfl⟩ := Machine.step_external_iff.mp hstep
    obtain ⟨clock, unixTime, handles, -, hle, rfl⟩ := Surroundings.act_frame hact
    refine ⟨hinv.history, hinv.allocatedOnce, fun allocation hallocation => ?_⟩
    exact (hinv.allocatedBelow allocation hallocation).trans hle

theorem registryInvariant_start (env : Environment) (clock unixTime : Duration) (handles : Nat) :
    OrderlyCalls env (Config.start (Vault.new clock unixTime handles)) ∧
      RegistryInvariant (Config.start (Vault.new clock unixTime handles)) := by
  refine ⟨Machine.orderly_start _, ⟨history_nil, List.nodup_nil, ?_⟩⟩
  intro allocation hallocation
  cases hallocation

theorem replays_between {env : Environment} {c c' : VaultConfiguration}
    (hrun : (vaultMachine env).Reaches c c') (horderly : OrderlyCalls env c)
    (h : c.shared.handleCounter < 2 ^ 64 → RegistryInvariant c)
    (hhandles : c'.shared.handleCounter < 2 ^ 64) :
    ∃ later, c'.log = c.log ++ later ∧
      Registry.Replays (registryOf c.shared.keys) (logEvents later) (registryOf c'.shared.keys) := by
  revert hhandles
  induction hrun with
  | refl =>
    intro _
    exact ⟨[], by simp, .nil⟩
  | @tail mid after action hprefix _ hstep ih =>
    intro hhandles
    have hmono := handleCounter_mono hstep
    obtain ⟨later, hlog, hreplays⟩ := ih (by omega)
    obtain ⟨hmidOrderly, hmid⟩ := registryInvariant_run hprefix ⟨horderly, h⟩
    cases action with
    | invoke request =>
      rw [Machine.step_invoke_iff] at hstep
      subst hstep
      exact ⟨later, hlog, hreplays⟩
    | exec caller =>
      obtain ⟨request, op, next, ret, v, hcall, hperform, rfl⟩ := Machine.step_exec_iff.mp hstep
      refine ⟨later ++ [⟨caller, request, ⟨op, ret⟩⟩], by simp [hlog], ?_⟩
      unfold logEvents
      rw [List.map_append]
      exact .snoc hreplays (perform_registryStep hperform)
        ((hmid (by omega)).registryFresh hmidOrderly hcall ret)
    | external event =>
      obtain ⟨v, hact, rfl⟩ := Machine.step_external_iff.mp hstep
      obtain ⟨clock, unixTime, handles, -, hle, rfl⟩ := Surroundings.act_frame hact
      exact ⟨later, hlog, hreplays⟩

end KeyVault
